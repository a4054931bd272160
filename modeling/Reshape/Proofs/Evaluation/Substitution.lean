import Reshape.Proofs.Evaluation.FreeNames

/-!
# Substitution

The variables and the free element of an expression are replaced by other expressions. The result
has the value of the expression in a scope that binds each of them to the value of its image.
-/

namespace Reshape

namespace Expr

/-- The names that occur in a sort key, filter or map. -/
def argumentNames : Expr → List String
  | root => []
  | var _ => []
  | element => []
  | literal _ => []
  | spread a => a.argumentNames
  | not a => a.argumentNames
  | toBool a => a.argumentNames
  | sort base => base.argumentNames
  | dedup base => base.argumentNames
  | reparse base => base.argumentNames
  | field a b => a.argumentNames ++ b.argumentNames
  | search a b => a.argumentNames ++ b.argumentNames
  | or a b => a.argumentNames ++ b.argumentNames
  | and a b => a.argumentNames ++ b.argumentNames
  | equals a b => a.argumentNames ++ b.argumentNames
  | add a b => a.argumentNames ++ b.argumentNames
  | sortBy base key => base.argumentNames ++ key.names
  | filter base test => base.argumentNames ++ test.names
  | map base body => base.argumentNames ++ body.names

theorem argumentNames_subset (e : Expr) : e.argumentNames ⊆ e.names := by
  induction e with
  | root | var name | element | literal v => exact List.nil_subset _
  | spread a ih | not a ih | toBool a ih | sort a ih | dedup a ih | reparse a ih => exact ih
  | field a b iha ihb | search a b iha ihb | or a b iha ihb | and a b iha ihb
  | equals a b iha ihb | add a b iha ihb =>
    exact List.append_subset.mpr
      ⟨List.subset_append_of_subset_left _ iha, List.subset_append_of_subset_right _ ihb⟩
  | sortBy base key ih _ | filter base key ih _ | map base key ih _ =>
    exact List.append_subset.mpr
      ⟨List.subset_append_of_subset_left _ ih, List.subset_append_right _ _⟩

/-- Variables are replaced everywhere, the element only where it is not bound anew. -/
def substitute : Expr → (onVar : String → Expr) → (onElement : Expr) → Expr
  | var name, onVar, _ => onVar name
  | element, _, onElement => onElement
  | root, _, _ => root
  | literal v, _, _ => literal v
  | spread a, onVar, onElement => spread (a.substitute onVar onElement)
  | not a, onVar, onElement => not (a.substitute onVar onElement)
  | toBool a, onVar, onElement => toBool (a.substitute onVar onElement)
  | sort base, onVar, onElement => sort (base.substitute onVar onElement)
  | dedup base, onVar, onElement => dedup (base.substitute onVar onElement)
  | reparse base, onVar, onElement => reparse (base.substitute onVar onElement)
  | field a b, onVar, onElement =>
    field (a.substitute onVar onElement) (b.substitute onVar onElement)
  | search a b, onVar, onElement =>
    search (a.substitute onVar onElement) (b.substitute onVar onElement)
  | or a b, onVar, onElement => or (a.substitute onVar onElement) (b.substitute onVar onElement)
  | and a b, onVar, onElement => and (a.substitute onVar onElement) (b.substitute onVar onElement)
  | equals a b, onVar, onElement =>
    equals (a.substitute onVar onElement) (b.substitute onVar onElement)
  | add a b, onVar, onElement => add (a.substitute onVar onElement) (b.substitute onVar onElement)
  | sortBy base key, onVar, onElement =>
    sortBy (base.substitute onVar onElement) (key.substitute onVar element)
  | filter base test, onVar, onElement =>
    filter (base.substitute onVar onElement) (test.substitute onVar element)
  | map base body, onVar, onElement =>
    map (base.substitute onVar onElement) (body.substitute onVar element)

/-- In `t` an image has the value that `s` binds what it stands for to, also inside arguments. -/
structure Realizes (onVar : String → Expr) (onElement e : Expr) (s t : Scope) : Prop where
  root : t.get rootName = s.get rootName
  var : ∀ name ∈ e.names, (onVar name).eval t = s.get name
  element : e.usesElement = true → onElement.eval t = s.get elementName
  argument : ∀ name ∈ e.argumentNames, ∀ v,
    (onVar name).eval (.bind elementName v t) = (Scope.bind elementName v s).get name

variable {onVar : String → Expr} {onElement e : Expr} {s t : Scope}

theorem isSpread_substitute (hVar : ∀ name, (onVar name).isSpread = false)
    (hElement : onElement.isSpread = false) (e : Expr) :
    (e.substitute onVar onElement).isSpread = e.isSpread := by
  cases e with
  | var name => exact hVar name
  | element => exact hElement
  | _ => rfl

theorem Realizes.mono {a : Expr} (h : Realizes onVar onElement e s t) (hNames : a.names ⊆ e.names)
    (hArguments : a.argumentNames ⊆ e.argumentNames)
    (hElement : a.usesElement = true → e.usesElement = true) : Realizes onVar onElement a s t where
  root := h.root
  var name hName := h.var name (hNames hName)
  element hUses := h.element (hElement hUses)
  argument name hName := h.argument name (hArguments hName)

theorem Realizes.bindElement {key : Expr} (h : Realizes onVar onElement e s t)
    (hKey : key.names ⊆ e.argumentNames) (v : Value) :
    Realizes onVar .element key (.bind elementName v s) (.bind elementName v t) where
  root := by simp [h.root]
  var name hName := h.argument name (hKey hName) v
  element _ := by simp [eval]
  argument name hName w := by
    have hArgument := h.argument name (hKey (key.argumentNames_subset hName)) w
    -- The inner binding of the element hides the outer one.
    have hShadow := Scope.agree_bind_bind [name] elementName w v s name List.mem_cons_self
    rw [eval_eq_of_freeNames (Scope.agree_bind_bind _ elementName w v t), hArgument,
      Scope.get_eq_of_get? hShadow]

theorem eval_substitute (hVar : ∀ name, (onVar name).isSpread = false)
    (hElement : onElement.isSpread = false) (h : Realizes onVar onElement e s t) :
    (e.substitute onVar onElement).eval t = e.eval s := by
  induction e generalizing onElement s t with
  | root => exact h.root
  | var name => exact h.var name List.mem_cons_self
  | element => exact h.element rfl
  | literal v => rfl
  | spread a ih | not a ih | toBool a ih | sort a ih | dedup a ih | reparse a ih =>
    have ha := ih hElement (h.mono (fun _ h => h) (fun _ h => h) (fun h => h))
    simp only [substitute, eval, ha]
  | field a b iha ihb | search a b iha ihb | or a b iha ihb | and a b iha ihb
  | equals a b iha ihb | add a b iha ihb =>
    have ha := iha hElement (h.mono (List.subset_append_left _ _) (List.subset_append_left _ _)
      fun hUses => by rw [usesElement, hUses, Bool.true_or])
    have hb := ihb hElement (h.mono (List.subset_append_right _ _) (List.subset_append_right _ _)
      fun hUses => by rw [usesElement, hUses, Bool.or_true])
    simp only [substitute, eval, ha, hb, isSpread_substitute hVar hElement]
  | sortBy base key ihBase ihKey | filter base key ihBase ihKey | map base key ihBase ihKey =>
    have hBase := ihBase hElement (h.mono (List.subset_append_left _ _)
      (List.subset_append_left _ _) fun h => h)
    have hKey (v : Value) := ihKey rfl (h.bindElement (List.subset_append_right _ _) v)
    simp only [substitute, eval, hBase, hKey]

end Expr

end Reshape
