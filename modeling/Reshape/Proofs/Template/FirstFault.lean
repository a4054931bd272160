import Reshape.Proofs.Template.Invariant
import Reshape.Proofs.Template.Walk

/-!
# The first fault of a template

The compiler checks a template place by place: texts are read as expressions, and arrays need a tag
that is known and, for a foreach, the right form. It fails exactly if a check does, with the fault
of the first check that fails and the path of its place.
-/

namespace Reshape.Template

open Compiler (isVariableName)

namespace Check

def namesVariable : Value → Bool
  | .string name => isVariableName name
  | _ => false

/-- What stands behind the tag of a foreach: first their number counts, then the variable. -/
def foreachFault? : List Value → Option Fault
  | [_, v, _] =>
    if namesVariable v then none else some (.malformedForeach (.variable (Json.write 0 v)))
  | rest => some (.malformedForeach (.length (rest.length + 1)))

def tagFault? : List Value → Option Fault
  | [] => some (.unknownTag "empty array")
  | .string tag :: rest =>
    if tag = "literal" then none
    else if tag = "foreach" then foreachFault? rest
    else some (.unknownTag (Json.write 0 (.string tag)))
  | v :: _ => some (.unknownTag (Json.write 0 v))

def fault? : Check → Option Fault
  | text names s =>
    match Expression.read names s with
    | .ok _ => none
    | .error fault => some (.expression fault)
  | array items => tagFault? items

end Check

def Node.fault? (node : Node) : Option LocatedFault := node.check.fault?.map (⟨node.path, ·⟩)

@[simp]
theorem Node.fault?_eq_none_iff (node : Node) : node.fault? = none ↔ node.check.fault? = none :=
  Option.map_eq_none_iff

@[simp]
theorem Node.fault?_eq_some_iff (node : Node) (f : LocatedFault) :
    node.fault? = some f ↔ node.check.fault? = some f.fault ∧ node.path = f.path := by
  rw [Node.fault?, Option.map_eq_some_iff]
  constructor
  · rintro ⟨fault, hFault, rfl⟩
    exact ⟨hFault, rfl⟩
  · rintro ⟨hFault, hPath⟩
    refine ⟨f.fault, hFault, ?_⟩
    rw [hPath]

/-- A computation keeps the names and fails with the first fault of `nodes`, if there is any. -/
def Reports (names : List String) (c : Compiler α) (nodes : List Node) : Prop :=
  (c.run.run names).2 = names ∧
    ∀ f, (c.run.run names).1 = .error f ↔ nodes.findSome? Node.fault? = some f

variable {names : List String} {xs ys : List Node}

theorem reports_pure (a : α) : Reports names (pure a) [] := by
  refine ⟨rfl, fun f => ?_⟩
  constructor
  · intro h
    cases h
  · intro h
    cases h

theorem reports_fail {path : Path} {check : Check} {fault : Fault}
    (h : check.fault? = some fault) (rest : List Node) :
    Reports names (Compiler.fail path fault : Compiler α) (⟨path, check⟩ :: rest) := by
  have hNode : Node.fault? ⟨path, check⟩ = some ⟨path, fault⟩ :=
    (Node.fault?_eq_some_iff _ _).mpr ⟨h, rfl⟩
  refine ⟨rfl, fun f => ?_⟩
  rw [List.findSome?_cons, hNode]
  change Except.error _ = Except.error f ↔ _
  simp

theorem Reports.skip {c : Compiler α} {path : Path} {check : Check} (hCheck : check.fault? = none)
    (h : Reports names c xs) : Reports names c (⟨path, check⟩ :: xs) := by
  have hNode : Node.fault? ⟨path, check⟩ = none := by simpa using hCheck
  unfold Reports
  rw [List.findSome?_cons, hNode]
  exact h

theorem Reports.bind {c : Compiler α} {f : α → Compiler β} (h : Reports names c xs)
    (hNext : ∀ a, Reports names (f a) ys) : Reports names (c >>= f) (xs ++ ys) := by
  obtain ⟨hNames, hResult⟩ := h
  rw [Reports, Compiler.run_bind hNames, List.findSome?_append]
  cases hRun : (c.run.run names).1 with
  | error fault =>
    rw [(hResult fault).mp hRun, Option.some_or]
    refine ⟨rfl, fun f => ?_⟩
    simp
  | ok a =>
    have hNone : xs.findSome? Node.fault? = none := by
      cases hFirst : xs.findSome? Node.fault? with
      | none => rfl
      | some fault => cases hRun.symm.trans ((hResult fault).mpr hFirst)
    rw [hNone, Option.none_or]
    exact hNext a

theorem Reports.map {c : Compiler α} (h : Reports names c xs) (g : α → β) :
    Reports names (do return g (← c)) xs := by
  have hPure (a : α) : Reports names (pure (g a)) [] := reports_pure (g a)
  have hBind := h.bind hPure
  rwa [List.append_nil] at hBind

theorem Reports.withName {name : String} {body : Compiler α}
    (h : Reports (name :: names) body xs) : Reports names (Compiler.withName name body) xs :=
  ⟨Compiler.names_withName h.1, h.2⟩

theorem reports_expression (text : String) (path : Path) :
    Reports names (Compiler.expression text path) [⟨path, .text names text⟩] := by
  unfold Reports
  rw [Compiler.run_expression]
  cases hRead : Expression.read names text with
  | ok e => exact (reports_pure e).skip (by rw [Check.fault?, hRead])
  | error fault => exact reports_fail (by rw [Check.fault?, hRead]) []

theorem reports_key (key : String) (path : Path) :
    Reports names (Compiler.key key path) (walkKey names path key) := by
  unfold Compiler.key walkKey isComputed
  generalize key.toList = letters
  split
  · exact (reports_expression key path).map Key.computed
  · exact (reports_expression key path).map Key.computed
  · exact (reports_expression key path).map Key.computed
  · exact reports_pure _
  · rw [if_neg (by split <;> simp_all)]
    exact reports_pure _

mutual

theorem reports_template (names : List String) (path : Path) (v : Value) :
    Reports names (Compiler.template path v) (walk names path v) := by
  cases v with
  | array items =>
    rw [Compiler.template, walk]
    exact reports_tagged names path items
  | object fields =>
    rw [Compiler.template, walk]
    exact (reports_entries names path fields).map Plan.object
  | string text =>
    rw [Compiler.template, walk]
    exact (reports_expression text path).map Compiler.planOf
  | _ => exact reports_pure _

theorem reports_tagged (names : List String) (path : Path) (items : List Value) :
    Reports names (Compiler.tagged path items) (⟨path, .array items⟩ :: walkTagged names path items)
    := by
  match items with
  | [] => exact reports_fail rfl _
  | .string tag :: rest =>
    rw [Compiler.tagged, walkTagged]
    by_cases hLiteral : tag = "literal"
    · have hCheck : (Check.array (.string tag :: rest)).fault? = none := if_pos hLiteral
      rw [if_pos hLiteral, if_pos hLiteral]
      exact ((reports_items names path 1 rest).map Plan.array).skip hCheck
    · rw [if_neg hLiteral, if_neg hLiteral]
      by_cases hForeach : tag = "foreach"
      · have hCheck : (Check.array (.string tag :: rest)).fault? = Check.foreachFault? rest := by
          rw [Check.fault?, Check.tagFault?, if_neg hLiteral, if_pos hForeach]
        rw [if_pos hForeach, if_pos hForeach]
        exact reports_foreach names path rest hCheck
      · rw [if_neg hForeach, if_neg hForeach]
        refine reports_fail ?_ _
        rw [Check.fault?, Check.tagFault?, if_neg hLiteral, if_neg hForeach]
  | .null :: _ | .bool _ :: _ | .number _ :: _ | .array _ :: _ | .object _ :: _ =>
    exact reports_fail rfl _

theorem reports_foreach (names : List String) (path : Path) (items : List Value) {check : Check}
    (hCheck : check.fault? = Check.foreachFault? items) :
    Reports names (Compiler.foreach path items)
      (⟨path, check⟩ :: walkForeach names path items) := by
  match items with
  | [source, .string name, body] =>
    rw [Compiler.foreach, walkForeach]
    by_cases hName : isVariableName name = true
    · rw [if_pos hName]
      have hSource := reports_template names (path ++ [.item 1]) source
      have hBody := (reports_template (name :: names) (path ++ [.item 3]) body).withName
      have hParts := hSource.bind fun source => hBody.map (Plan.foreach source name)
      exact hParts.skip (hCheck.trans (if_pos hName))
    · rw [if_neg hName]
      exact reports_fail (hCheck.trans (if_neg hName)) _
  | [_, .null, _] | [_, .bool _, _] | [_, .number _, _] | [_, .array _, _] | [_, .object _, _] =>
    exact reports_fail hCheck _
  | [] | [_] => exact reports_fail hCheck _
  | [_, v] | _ :: v :: _ :: _ :: _ => cases v <;> exact reports_fail hCheck _

theorem reports_items (names : List String) (path : Path) (index : Nat) (items : List Value) :
    Reports names (Compiler.items path index items) (walkItems names path index items) := by
  cases items with
  | nil => exact reports_pure _
  | cons v rest =>
    rw [Compiler.items, walkItems]
    refine (reports_template names _ v).bind fun plan => ?_
    exact (reports_items names path (index + 1) rest).map (plan :: ·)

theorem reports_entries (names : List String) (path : Path) (fields : List (String × Value)) :
    Reports names (Compiler.entries path fields) (walkFields names path fields) := by
  match fields with
  | [] => exact reports_pure _
  | (k, v) :: rest =>
    rw [Compiler.entries, walkFields]
    refine (reports_key k _).bind fun key => ?_
    refine (reports_template names _ v).bind fun plan => ?_
    exact (reports_entries names path rest).map ((key, plan) :: ·)

end

theorem message_eq (f : LocatedFault) :
    f.message = "at $" ++ String.join (f.path.map Step.render) ++ ": " ++ f.fault.message := by
  rw [LocatedFault.message, Path.render_eq, ← String.append_assoc]
  rfl

/-! ## The fault that is reported -/

theorem findSome?_fault_iff (nodes : List Node) (f : LocatedFault) :
    nodes.findSome? Node.fault? = some f ↔
      ∃ before node after, nodes = before ++ node :: after ∧
        (∀ other ∈ before, other.check.fault? = none) ∧
        node.check.fault? = some f.fault ∧ node.path = f.path := by
  rw [List.findSome?_eq_some_iff]
  constructor
  · rintro ⟨before, node, after, hNodes, hFault, hBefore⟩
    refine ⟨before, node, after, hNodes, ?_, (node.fault?_eq_some_iff f).mp hFault⟩
    intro other hOther
    exact other.fault?_eq_none_iff.mp (hBefore other hOther)
  · rintro ⟨before, node, after, hNodes, hBefore, hFault⟩
    refine ⟨before, node, after, hNodes, (node.fault?_eq_some_iff f).mpr hFault, ?_⟩
    intro other hOther
    exact other.fault?_eq_none_iff.mpr (hBefore other hOther)

theorem findSome?_fault_isSome_iff (nodes : List Node) :
    (∃ f, nodes.findSome? Node.fault? = some f) ↔
      ∃ node ∈ nodes, node.check.fault?.isSome := by
  rw [← Option.isSome_iff_exists, List.findSome?_isSome_iff]
  simp only [Node.fault?, Option.isSome_map]

example : compile (.object [("ok", .string ".a"), (".k", .array [.string "literal",
    .object [("x", .array [.string "foreach", .string ".rows", .string "$r",
      .object [("$r", .string "$s")]])]]), ("z", .array [.string "map"])]) =
    .error ⟨[.field ".k", .item 1, .field "x", .item 3, .field "$r"],
      .expression (.undefinedVariable "$s")⟩ := by
  with_unfolding_all rfl

end Reshape.Template
