import Reshape.Evaluation.Plan

/-!
# Notices

A notice tells that an operator met something other than the array it expects and gave null. The
notices of an evaluation come in the order in which the parts are evaluated.
-/

namespace Reshape

structure Notice where
  operator : String
  found : String
  deriving DecidableEq

def Notice.message (n : Notice) : String :=
  n.operator ++ " expects an array, got " ++ n.found ++ "; producing null"

/-- The notices of an operator on a value: those of its items, or one of its own. -/
def Notice.onArray (operator : String) (f : List Value → List Notice) : Value → List Notice
  | .array items => f items
  | v => [⟨operator, v.typeName⟩]

namespace Expr

def notices : Expr → Scope → List Notice
  | root, _ => []
  | var _, _ => []
  | element, _ => []
  | literal _, _ => []
  | field base key, scope => base.notices scope ++ key.notices scope
  | spread base, scope => base.notices scope
  | search base key, scope => base.notices scope ++ key.notices scope
  | or a b, scope =>
    a.notices scope ++ if (a.eval scope).isTruthy then [] else b.notices scope
  | and a b, scope =>
    a.notices scope ++ if (a.eval scope).isTruthy then b.notices scope else []
  | equals a b, scope => a.notices scope ++ b.notices scope
  | add a b, scope => a.notices scope ++ b.notices scope
  | not a, scope => a.notices scope
  | toBool a, scope => a.notices scope
  | dedup base, scope =>
    base.notices scope ++ Notice.onArray Operator.dedup.spelling (fun _ => []) (base.eval scope)
  | sort base, scope =>
    base.notices scope ++ Notice.onArray Operator.sort.spelling (fun _ => []) (base.eval scope)
  | sortBy base key, scope =>
    base.notices scope ++
      Notice.onArray Operator.sort.spelling
        (fun items => items.flatMap fun v => key.notices (.bind elementName v scope))
        (base.eval scope)
  | filter base test, scope =>
    base.notices scope ++
      Notice.onArray Operator.filter.spelling
        (fun items => items.flatMap fun v => test.notices (.bind elementName v scope))
        (base.eval scope)
  | map base body, scope =>
    base.notices scope ++
      Notice.onArray Operator.map.spelling
        (fun items => items.flatMap fun v => body.notices (.bind elementName v scope))
        (base.eval scope)
  | reparse base, scope => base.notices scope

end Expr

def Key.notices (scope : Scope) : Key → List Notice
  | .literal _ => []
  | .computed e => e.notices scope

namespace Plan

mutual

def notices (scope : Scope) : Plan → List Notice
  | literal _ => []
  | expr e => e.notices scope
  | object entries => entryNotices scope entries
  | array items => itemNotices scope items
  | foreach source name body =>
    notices scope source ++
      Notice.onArray "foreach"
        (fun items => items.flatMap fun v => notices (.bind name v scope) body)
        (source.eval scope)

def itemNotices (scope : Scope) : List Plan → List Notice
  | [] => []
  | item :: rest => notices scope item ++ itemNotices scope rest

def entryNotices (scope : Scope) : List (Key × Plan) → List Notice
  | [] => []
  | (key, plan) :: rest => key.notices scope ++ notices scope plan ++ entryNotices scope rest

end

end Plan

end Reshape
