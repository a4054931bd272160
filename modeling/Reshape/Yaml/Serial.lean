import Reshape.Yaml.Token

/-!
# Serial trees

A serial tree is the content of a document as it is written, with anchors, aliases and tags. An
anchor's number is the number of distinct anchor names before it; naming an anchor again gives it a
new number, and an alias means the number that its name has when it is read.
-/

namespace Reshape.Yaml

structure Properties where
  anchor : Option Nat
  tag : Option Bytes

def Properties.none : Properties := ⟨.none, .none⟩

inductive Serial where
  | reference (anchor : Nat)
  | scalar (properties : Properties) (text : List Char) (plain : Bool)
  | sequence (properties : Properties) (items : List Serial)
  | mapping (properties : Properties) (entries : List (Serial × Serial))

namespace Serial

def empty : Serial := .scalar .none [] true

abbrev Anchors := List (List Char × Nat)

abbrev Handles := List (List Char × Bytes)

structure Source where
  tokens : List Token
  anchors : Anchors

abbrev Read (α : Type) := StateT Source (Except Fault) α

def peek : Read (Option Token) := do return (← get).tokens.head?

def drop : Read Unit := modify fun s => { s with tokens := s.tokens.tail }

def number (name : List Char) (anchors : Anchors) : Nat × Anchors :=
  (anchors.length, (name, anchors.length) :: anchors.filter (·.1 != name))

def readAnchor : Read (Option Nat) := do
  match ← peek with
  | some (.anchor name) =>
    drop
    let s ← get
    let (n, anchors) := number name s.anchors
    set { s with anchors }
    return some n
  | _ => return none

def readTag (handles : Handles) : Read (Option Bytes) := do
  match ← peek with
  | some (.tag handle suffix) =>
    drop
    if handle = [] then return some suffix
    else
      match handles.lookup handle with
      | some head => return some (head ++ suffix)
      | none => throw .undefinedHandle
  | _ => return none

/-- An anchor and a tag in either order, each at most once. -/
def readProperties (handles : Handles) : Read Properties := do
  match ← readAnchor with
  | some n => return ⟨some n, ← readTag handles⟩
  | none =>
    match ← readTag handles with
    | some tag => return ⟨← readAnchor, some tag⟩
    | none => return .none

def readAlias (name : List Char) : Read Serial := do
  match (← get).anchors.lookup name with
  | some n => return .reference n
  | none => throw .unknownAnchor

def atAny (tokens : List Token) : Read Bool := do
  match ← peek with
  | none => return false
  | some token => return tokens.contains token

/-- Properties alone make an empty scalar. -/
def readNothing (properties : Properties) : Read Serial :=
  if properties.anchor.isSome || properties.tag.isSome then return .scalar properties [] true
  else throw .missingNode

mutual

/-- A node in at most `bound` steps; block nodes and block sequences without indentation count only
where they may stand. -/
def readNode (handles : Handles) (bound : Nat) (block indentless : Bool) : Read Serial := do
  match bound with
  | 0 => throw .missingNode
  | bound + 1 =>
    match ← peek with
    | some (.reference name) => drop; readAlias name
    | _ =>
      let properties ← readProperties handles
      match ← peek with
      | some .blockEntry =>
        if indentless then return .sequence properties (← readIndentless handles bound)
        else readNothing properties
      | some (.scalar text plain) =>
        drop
        return .scalar properties text plain
      | some .flowSequenceStart =>
        drop
        return .sequence properties (← readFlowSequence handles bound true)
      | some .flowMappingStart =>
        drop
        return .mapping properties (← readFlowMapping handles bound true)
      | some .blockSequenceStart =>
        if block then
          drop
          return .sequence properties (← readBlockSequence handles bound)
        else readNothing properties
      | some .blockMappingStart =>
        if block then
          drop
          return .mapping properties (← readBlockMapping handles bound)
        else readNothing properties
      | _ => readNothing properties

def readBlockSequence (handles : Handles) (bound : Nat) : Read (List Serial) := do
  match bound with
  | 0 => throw .missingEntry
  | bound + 1 =>
    match ← peek with
    | some .blockEntry =>
      drop
      let item ←
        if ← atAny [.blockEntry, .blockEnd] then pure empty
        else readNode handles bound true false
      return item :: (← readBlockSequence handles bound)
    | some .blockEnd => drop; return []
    | _ => throw .missingEntry

def readIndentless (handles : Handles) (bound : Nat) : Read (List Serial) := do
  match bound with
  | 0 => throw .missingEntry
  | bound + 1 =>
    match ← peek with
    | some .blockEntry =>
      drop
      let item ←
        if ← atAny [.blockEntry, .key, .value, .blockEnd] then pure empty
        else readNode handles bound true false
      return item :: (← readIndentless handles bound)
    | _ => return []

def readBlockMapping (handles : Handles) (bound : Nat) : Read (List (Serial × Serial)) := do
  match bound with
  | 0 => throw .missingKey
  | bound + 1 =>
    match ← peek with
    | some .key =>
      drop
      let key ←
        if ← atAny [.key, .value, .blockEnd] then pure empty
        else readNode handles bound true true
      let value ←
        match ← peek with
        | some .value => do
          drop
          if ← atAny [.key, .value, .blockEnd] then pure empty
          else readNode handles bound true true
        | _ => pure empty
      return (key, value) :: (← readBlockMapping handles bound)
    | some .blockEnd => drop; return []
    | _ => throw .missingKey

/-- The comma before every item of a flow collection but the first; an end needs none. -/
def readSeparator (ending : Token) (first : Bool) : Read Unit := do
  if first || (← atAny [ending]) then return
  else if ← atAny [.flowEntry] then drop
  else throw .missingSeparator

def readFlowSequence (handles : Handles) (bound : Nat) (first : Bool) : Read (List Serial) := do
  match bound with
  | 0 => throw .missingSeparator
  | bound + 1 =>
    readSeparator .flowSequenceEnd first
    match ← peek with
    | some .flowSequenceEnd => drop; return []
    | some .key =>
      drop
      let entry ← readFlowPair handles bound
      return .mapping .none [entry] :: (← readFlowSequence handles bound false)
    | _ =>
      let item ← readNode handles bound false false
      return item :: (← readFlowSequence handles bound false)

/-- The one entry of a mapping written as an item; an empty key takes the token after it along. -/
def readFlowPair (handles : Handles) (bound : Nat) : Read (Serial × Serial) := do
  match bound with
  | 0 => throw .missingNode
  | bound + 1 =>
    let key ←
      if ← atAny [.value, .flowEntry, .flowSequenceEnd] then do drop; pure empty
      else readNode handles bound false false
    match ← peek with
    | some .value =>
      drop
      if ← atAny [.flowEntry, .flowSequenceEnd] then return (key, empty)
      else return (key, ← readNode handles bound false false)
    | _ => return (key, empty)

def readFlowMapping (handles : Handles) (bound : Nat) (first : Bool) :
    Read (List (Serial × Serial)) := do
  match bound with
  | 0 => throw .missingSeparator
  | bound + 1 =>
    readSeparator .flowMappingEnd first
    match ← peek with
    | some .flowMappingEnd => drop; return []
    | some .key =>
      drop
      let key ←
        if ← atAny [.value, .flowEntry, .flowMappingEnd] then pure empty
        else readNode handles bound false false
      let value ←
        match ← peek with
        | some .value => do
          drop
          if ← atAny [.flowEntry, .flowMappingEnd] then pure empty
          else readNode handles bound false false
        | _ => pure empty
      return (key, value) :: (← readFlowMapping handles bound false)
    | _ =>
      let key ← readNode handles bound false false
      return (key, empty) :: (← readFlowMapping handles bound false)

end

/-! ## Documents -/

/-- The directives before a document; each version and each handle at most once. -/
def readDirectives (bound : Nat) (versioned : Bool) (handles : Handles) : Read Handles := do
  match bound with
  | 0 => return handles
  | bound + 1 =>
    match ← peek with
    | some (.directive (.version major minor)) =>
      drop
      if versioned then throw .repeatedDirective
      else if major ≠ 1 ∨ (minor ≠ 1 ∧ minor ≠ 2) then throw .unknownVersion
      else readDirectives bound true handles
    | some (.directive (.tag handle head)) =>
      drop
      if (handles.lookup handle).isSome then throw .repeatedDirective
      else readDirectives bound versioned (handles ++ [(handle, head)])
    | _ => return handles

def standardHandles : Handles :=
  [(['!'], bytesOf ['!']), (['!', '!'], bytesOf "tag:yaml.org,2002:".toList)]

def readEnd (bound : Nat) : Read Unit := do
  match bound with
  | 0 => throw .severalDocuments
  | bound + 1 =>
    match ← peek with
    | none => return
    | some .documentEnd => drop; readEnd bound
    | some _ => throw .severalDocuments

def readContent (handles : Handles) (bound : Nat) : Read Serial := do
  match ← peek with
  | none => return empty
  | some (.directive _) => return empty
  | some .documentStart => return empty
  | some .documentEnd => return empty
  | _ => readNode handles bound true false

def readDocument (bound : Nat) : Read (Option Serial) := do
  match ← peek with
  | none => return none
  | some token =>
    let marked := match token with
      | .directive _ => true
      | .documentStart => true
      | _ => false
    let handles := (← readDirectives bound false []) ++ standardHandles
    if marked then
      if !(← atAny [.documentStart]) then throw .missingDocumentStart
      drop
      let content ← readContent handles bound
      readEnd bound
      return some content
    else
      let content ← readNode handles bound true false
      readEnd bound
      return some content

def ofTokens (tokens : List Token) : Except Fault (Option Serial) := do
  let (tree, _) ← (readDocument (4 * tokens.length + 4)).run ⟨tokens, []⟩
  .ok tree

mutual

/-- The number of aliases, scalars and beginnings and ends of collections. -/
def eventCount : Serial → Nat
  | reference _ => 1
  | scalar _ _ _ => 1
  | sequence _ items => 2 + itemEvents items
  | mapping _ entries => 2 + entryEvents entries

def itemEvents : List Serial → Nat
  | [] => 0
  | item :: rest => eventCount item + itemEvents rest

def entryEvents : List (Serial × Serial) → Nat
  | [] => 0
  | (key, value) :: rest => eventCount key + eventCount value + entryEvents rest

end

mutual

/-- The last node with a given anchor number, or `found` if there is none. -/
def target? (anchor : Nat) (found : Option Serial) : Serial → Option Serial
  | reference _ => found
  | scalar p text plain => if p.anchor = some anchor then some (scalar p text plain) else found
  | sequence p items =>
    itemTarget? anchor (if p.anchor = some anchor then some (sequence p items) else found) items
  | mapping p entries =>
    entryTarget? anchor (if p.anchor = some anchor then some (mapping p entries) else found) entries

def itemTarget? (anchor : Nat) (found : Option Serial) : List Serial → Option Serial
  | [] => found
  | item :: rest => itemTarget? anchor (target? anchor found item) rest

def entryTarget? (anchor : Nat) (found : Option Serial) :
    List (Serial × Serial) → Option Serial
  | [] => found
  | (key, value) :: rest =>
    entryTarget? anchor (target? anchor (target? anchor found key) value) rest

end

end Serial

end Reshape.Yaml
