import Reshape.Path
import Reshape.Value.Coercion
import Reshape.Yaml.Plain
import Reshape.Yaml.Serial

/-!
# Nodes

A node is the content of a document with its aliases replaced and its scalars read. As a value a
node has no tags, and its keys are texts.
-/

namespace Reshape.Yaml

inductive Node where
  | null
  | bool (b : Bool)
  | number (n : Number)
  | string (s : String)
  | sequence (items : List Node)
  | mapping (entries : List (Node × Node))
  | tagged (tag : String) (content : Node)

namespace Node

/-! ## Equality of keys -/

/-- The same form and the same value; NaN is the same as itself. -/
def sameNumber : Number → Number → Bool
  | .integer m, .integer n => m == n
  | .double x, .double y => (x.isNaN && y.isNaN) || x.equal y
  | _, _ => false

/-- Whether two tags agree up to one exclamation mark in front. -/
def sameTag (a b : String) : Bool :=
  let bare (s : String) := match s.toList with
    | ['!'] => ['!']
    | '!' :: rest => rest
    | s => s
  bare a == bare b

mutual

/-- Structural equality; the order of entries does not matter. -/
def same : Node → Node → Bool
  | null, null => true
  | bool a, bool b => a == b
  | number m, number n => sameNumber m n
  | string s, string t => s == t
  | sequence items, sequence others => sameItems items others
  | mapping entries, mapping others =>
    entries.length == others.length && entriesIn others entries
  | tagged t a, tagged u b => sameTag t u && same a b
  | _, _ => false

def sameItems : List Node → List Node → Bool
  | [], [] => true
  | a :: rest, b :: others => same a b && sameItems rest others
  | _, _ => false

def entriesIn (others : List (Node × Node)) : List (Node × Node) → Bool
  | [] => true
  | (key, value) :: rest =>
    (others.any fun other => same key other.1 && same value other.2) && entriesIn others rest

end

def distinctKeys : List (Node × Node) → Bool
  | [] => true
  | (key, _) :: rest => rest.all (fun other => !same key other.1) && distinctKeys rest

/-! ## From serial trees -/

def ofPlain : Plain → Node
  | .null => null
  | .bool b => bool b
  | .number n => number n
  | .string s => string (String.ofList s)

def resolvePlain (text : List Char) : Except Fault Node :=
  match Plain.resolve? text with
  | some p => .ok (ofPlain p)
  | none => .error .integerOutOfRange

def standardTag (name : String) : Bytes := bytesOf ("tag:yaml.org,2002:" ++ name).toList

/-- The name of a local tag, which begins with an exclamation mark, without that mark. -/
def localTag? (tag : Bytes) : Option String :=
  match tag with
  | 0x21 :: rest => String.fromUTF8? ⟨(if rest = [] then tag else rest).toArray⟩
  | _ => none

/-- A scalar by its tag: the standard types must fit, and other tags make strings. -/
def ofTaggedText (tag : Bytes) (text : List Char) (plain : Bool) : Except Fault Node :=
  if tag = standardTag "bool" then
    match Plain.bool? text with
    | some b => .ok (bool b)
    | none => .error .unfitScalar
  else if tag = standardTag "int" then
    match Plain.size text with
    | .fits n => .ok (number (.integer n))
    | _ => .error .unfitScalar
  else if tag = standardTag "float" then
    match Plain.double? text with
    | some x => .ok (number (.double x))
    | none => .error .unfitScalar
  else if tag = standardTag "null" then
    if Plain.isNull text then .ok null else .error .unfitScalar
  else if tag.head? = some 0x21 ∧ plain then resolvePlain text
  else .ok (string (String.ofList text))

def ofText (text : List Char) (plain : Bool) : Except Fault Node :=
  if plain then resolvePlain text else .ok (string (String.ofList text))

def withTag (tag : Option Bytes) (content : Node) : Node :=
  match tag.bind localTag? with
  | some name => tagged name content
  | none => content

def ofScalar (tag : Option Bytes) (text : List Char) (plain : Bool) : Except Fault Node :=
  match tag with
  | none => ofText text plain
  | some bytes =>
    match localTag? bytes with
    | some name => do .ok (tagged name (← ofText text plain))
    | none => ofTaggedText bytes text plain

/-- The aliases that may still be followed. -/
abbrev Following := StateT Nat (Except Fault)

def follow (document : Serial) : Serial → Following Serial
  | .reference anchor => do
    match ← get with
    | 0 => throw .tooManyAliases
    | left + 1 =>
      set left
      match document.target? anchor none with
      | some target => return target
      | none => throw .unknownAnchor
  | s => return s

def ofSerial (document : Serial) (depth : Nat) (s : Serial) : Following Node := do
  match ← follow document s, depth with
  | .reference _, _ => throw .unknownAnchor
  | .scalar p text plain, _ => ofScalar p.tag text plain
  | .sequence _ _, 0 => throw .tooDeep
  | .mapping _ _, 0 => throw .tooDeep
  | .sequence p items, depth + 1 =>
    return withTag p.tag (.sequence (← items.mapM (ofSerial document depth)))
  | .mapping p entries, depth + 1 =>
    let entries ← entries.mapM fun (key, value) => do
      return (← ofSerial document depth key, ← ofSerial document depth value)
    if distinctKeys entries then return withTag p.tag (.mapping entries) else throw .repeatedKey
termination_by depth

def depthLimit : Nat := 128

def read (text : String) : Except Fault Node := do
  match ← Serial.ofTokens (← Token.ofText text) with
  | none => .ok null
  | some document =>
    let (node, _) ← (ofSerial document depthLimit document).run (document.eventCount * 100)
    .ok node

/-! ## Values -/

/--
A number as a value: an integer with sign if that can hold it, else one without sign, else a
binary64 number. Infinity and NaN are null.
-/
def numberValue (n : Number) : Value :=
  match n.signed64?, n.unsigned64? with
  | some i, _ => .number (.integer i)
  | none, some u => .number (.integer u)
  | none, none => if n.toBinary64.isFinite then .number (.double n.toBinary64) else .null

def keyText? : Node → Option String
  | null => some "null"
  | bool b => some (Value.bool b).text
  | number n => some (numberValue n).text
  | string s => some s
  | sequence _ => none
  | mapping _ => none
  | tagged _ _ => none

mutual

/-- The value of a node; if a key is not a scalar, the path of its mapping. -/
def toValue (path : Path) : Node → Except Path Value
  | null => .ok .null
  | bool b => .ok (.bool b)
  | number n => .ok (numberValue n)
  | string s => .ok (.string s)
  | sequence items => do .ok (.array (← toItems path 0 items))
  | mapping entries => do .ok (.object (Value.fieldsOf (← toFields path entries)))
  | tagged _ content => toValue path content

def toItems (path : Path) (index : Nat) : List Node → Except Path (List Value)
  | [] => .ok []
  | item :: rest => do
    let v ← toValue (path ++ [.item index]) item
    .ok (v :: (← toItems path (index + 1) rest))

def toFields (path : Path) : List (Node × Node) → Except Path (List (String × Value))
  | [] => .ok []
  | (key, value) :: rest =>
    match keyText? key with
    | none => .error path
    | some text => do
      let v ← toValue (path ++ [.field text]) value
      .ok ((text, v) :: (← toFields path rest))

end

end Node

end Reshape.Yaml
