import Reshape.CommandLine.Help
import Reshape.CommandLine.Report
import Reshape.Document.Reading
import Reshape.Evaluation.Notice
import Reshape.Template.Compiler

/-!
# Running an invocation

The template of a file is read and compiled, then the inline template is compiled, then the forced
input format is checked, and then the input is read. The input goes through the file's template
first and the inline one after it. The first step that fails is reported, and nothing is written.
-/

namespace Reshape.CommandLine

structure World (m : Type → Type) where
  fetch : String → m (Except ReadFault ByteArray)
  standardInput : m ByteArray

/-- What a command leaves behind. Notices are for the reader and no part of the output. -/
inductive Outcome where
  | output (text : String) (notices : List Notice)
  | failure (report : Report)
  | usage (fault : UsageFault)
  deriving DecidableEq

def Outcome.exitCode : Outcome → Nat
  | output _ _ => 0
  | failure _ => 1
  | usage _ => 2

abbrev Running (m : Type → Type) (α : Type) := ExceptT Report m α

/-- The template of a text: the value it is as JSON, or itself as a string. -/
def inlineTemplate (text : String) : Value :=
  match Json.read text with
  | .ok v => v
  | .error _ => .string text

variable {m : Type → Type} [Monad m]

def orReport (summary : String) (causes : ε → List String) : Except ε α → Running m α
  | .ok a => pure a
  | .error fault => throw ⟨summary, causes fault⟩

def fileStage (world : World m) : Option String → Running m (List Plan)
  | none => return []
  | some path => do
    let template ← orReport ("reading template " ++ path) documentCauses
      (← (Document.load world.fetch path none : m (Except Document.Fault Value)))
    let plan ← orReport ("compiling template " ++ path) templateCauses (Template.compile template)
    return [plan]

def inlineStage : Option String → Running m (List Plan)
  | none => return []
  | some text => do
    let plan ← orReport "compiling inline template" templateCauses
      (Template.compile (inlineTemplate text))
    return [plan]

def forcedFormat : Option String → Running m (Option Format)
  | none => return none
  | some name =>
    match Format.ofName name with
    | .ok format => return some format
    | .error fault => throw ⟨fault.message, []⟩

def readStandardInput (world : World m) (format : Option Format) : Running m Value := do
  let text ← orReport "reading stdin" (fun fault => [fault.message])
    (Document.textOf (← world.standardInput))
  orReport "parsing stdin" documentCauses
    (Document.read (format.getD (Format.detect text)) text)

def readInput (world : World m) (file : Option String) (format : Option Format) :
    Running m Value :=
  match file with
  | some path => do
    orReport ("reading " ++ path) documentCauses
      (← (Document.load world.fetch path format : m (Except Document.Fault Value)))
  | none => readStandardInput world format

def stageNotices (v : Value) : List Plan → List Notice
  | [] => []
  | plan :: rest => plan.notices (.root v) ++ stageNotices (plan.apply v) rest

def transform (world : World m) (i : Invocation) : Running m (String × List Notice) := do
  let first ← fileStage world i.templateFile
  let second ← inlineStage i.template
  let format ← forcedFormat i.inputFormat
  let input ← readInput world i.file format
  let stages := first ++ second
  let result := stages.foldl (fun v plan => plan.apply v) input
  let notices := if i.debug then stageNotices input stages else []
  return (Json.write (i.width.getD 0) result ++ "\n", notices)

def version : String := "jt 0.1.0\n"

def run (world : World m) (arguments : List String) : m Outcome :=
  match Request.ofArguments arguments with
  | .error fault => return .usage fault
  | .ok .help => return .output helpText []
  | .ok .version => return .output version []
  | .ok (.run i) => do
    match ← (transform world i).run with
    | .ok (text, notices) => return .output text notices
    | .error report => return .failure report

end Reshape.CommandLine
