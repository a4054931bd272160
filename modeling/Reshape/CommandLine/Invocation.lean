import Reshape.Text.Numeral

/-!
# Invocations

What the arguments of the command ask for. Arguments are read from left to right; asking for help or
for the version ends the reading, and so does the first mistake.
-/

namespace Reshape.CommandLine

inductive Setting where
  | template | templateFile | file | inputFormat | width
  deriving DecidableEq

structure Invocation where
  template : Option String
  templateFile : Option String
  file : Option String
  inputFormat : Option String
  width : Option Nat
  debug : Bool
  deriving DecidableEq

def Invocation.empty : Invocation := ⟨none, none, none, none, none, false⟩

inductive Request where
  | run (invocation : Invocation)
  | help
  | version
  deriving DecidableEq

inductive UsageFault where
  | unknownArgument (argument : String)
  | missingValue (setting : Setting)
  | unexpectedValue (argument : String)
  | invalidValue (setting : Setting) (value : String)
  | repeatedOption (argument : String)
  | missingTemplate
  deriving DecidableEq

namespace Setting

def long : Setting → String
  | template => "template"
  | templateFile => "template-file"
  | file => "file"
  | inputFormat => "input-format"
  | width => "width"

def short : Setting → Char
  | template => 't'
  | templateFile => 'T'
  | file => 'f'
  | inputFormat => 'p'
  | width => 'w'

def all : List Setting := [template, templateFile, file, inputFormat, width]

end Setting

def UsageFault.message : UsageFault → String
  | unknownArgument argument => "unexpected argument '" ++ argument ++ "' found"
  | missingValue setting =>
    "a value is required for '--" ++ setting.long ++ "' but none was supplied"
  | unexpectedValue argument => "unexpected value for '" ++ argument ++ "' found"
  | invalidValue setting value => "invalid value '" ++ value ++ "' for '--" ++ setting.long ++ "'"
  | repeatedOption argument => "the argument '" ++ argument ++ "' cannot be used multiple times"
  | missingTemplate => "one of '--template' and '--template-file' is required"

/-- A width: digits, after a plus sign if there is one, for a number of 64 bits. -/
def width? (value : String) : Option Nat :=
  let digits := match value.toList with
    | '+' :: rest => rest
    | s => s
  (Text.numeral? 10 digits).filter (· < UInt64.size)

namespace Invocation

def isSet (i : Invocation) : Setting → Bool
  | .template => i.template.isSome
  | .templateFile => i.templateFile.isSome
  | .file => i.file.isSome
  | .inputFormat => i.inputFormat.isSome
  | .width => i.width.isSome

/-- Sets a value, once only. Paths may not be empty. -/
def set (i : Invocation) (setting : Setting) (value : String) : Except UsageFault Invocation :=
  if i.isSet setting then .error (.repeatedOption ("--" ++ setting.long))
  else match setting with
    | .template => .ok { i with template := some value }
    | .inputFormat => .ok { i with inputFormat := some value }
    | .templateFile =>
      if value = "" then .error (.invalidValue setting value)
      else .ok { i with templateFile := some value }
    | .file =>
      if value = "" then .error (.invalidValue setting value)
      else .ok { i with file := some value }
    | .width =>
      match width? value with
      | some n => .ok { i with width := some n }
      | none => .error (.invalidValue setting value)

end Invocation

/-- A single argument, as far as it can be read alone. -/
inductive Argument where
  | attached (setting : Setting) (value : String)
  | awaiting (setting : Setting)
  | debug
  | help
  | version
  | endOfOptions
  | unreadable (fault : UsageFault)
  deriving DecidableEq

namespace Argument

def ofLong (argument : String) (name : List Char) (value : Option (List Char)) : Argument :=
  let flag (a : Argument) := if value.isSome then .unreadable (.unexpectedValue argument) else a
  let name := String.ofList name
  if name = "help" then flag .help
  else if name = "version" then flag .version
  else if name = "debug" then flag .debug
  else match Setting.all.find? (·.long == name), value with
    | some setting, some value => .attached setting (String.ofList value)
    | some setting, none => .awaiting setting
    | none, _ => .unreadable (.unknownArgument argument)

/-- An argument after one dash: a letter and perhaps a value, which an equals sign may precede. -/
def ofShort (argument : String) (letter : Char) (rest : List Char) : Argument :=
  if letter = 'h' then .help
  else if letter = 'V' then .version
  else match Setting.all.find? (·.short == letter), rest with
    | none, _ => .unreadable (.unknownArgument argument)
    | some setting, [] => .awaiting setting
    | some setting, '=' :: value => .attached setting (String.ofList value)
    | some setting, value => .attached setting (String.ofList value)

def ofText (argument : String) : Argument :=
  match argument.toList with
  | ['-', '-'] => .endOfOptions
  | '-' :: '-' :: body =>
    let name := body.takeWhile (· ≠ '=')
    ofLong argument name
      (if name.length < body.length then some (body.drop (name.length + 1)) else none)
  | '-' :: letter :: rest => ofShort argument letter rest
  | _ => .unreadable (.unknownArgument argument)

/-- Text that can be the value of an option before it: anything but an option. -/
def isValue (argument : String) : Bool :=
  match argument.toList with
  | '-' :: _ :: _ => false
  | _ => true

end Argument

/-- A run needs at least one template. -/
def Invocation.check (i : Invocation) : Except UsageFault Request :=
  if i.template.isSome || i.templateFile.isSome then .ok (.run i) else .error .missingTemplate

namespace Request

def readFrom (i : Invocation) : List String → Except UsageFault Request
  | [] => i.check
  | argument :: rest =>
    match Argument.ofText argument with
    | .help => .ok .help
    | .version => .ok .version
    | .unreadable fault => .error fault
    | .endOfOptions =>
      match rest with
      | [] => i.check
      | argument :: _ => .error (.unknownArgument argument)
    | .debug =>
      if i.debug then .error (.repeatedOption argument)
      else Request.readFrom { i with debug := true } rest
    | .attached setting value => do Request.readFrom (← i.set setting value) rest
    | .awaiting setting =>
      match rest with
      | [] => .error (.missingValue setting)
      | value :: rest =>
        if Argument.isValue value then do Request.readFrom (← i.set setting value) rest
        else .error (.missingValue setting)

def ofArguments (arguments : List String) : Except UsageFault Request :=
  Request.readFrom .empty arguments

end Request

end Reshape.CommandLine
