import Reshape.Proofs.Template.Placement

/-!
# Templates one after another

A compiler has the same names in scope behind a template as in front of it, also where a fault
stops it inside of loops. So it reads each of several templates as if it were the first.
-/

namespace Reshape.Template

namespace Compiler

/-- Compiles each template with the names that the one before left; a fault does not end it. -/
def compileEach : List Value → StateM (List String) (List (Except LocatedFault Plan))
  | [] => return []
  | v :: rest => do
    let result ← (template [] v).run
    return result :: (← compileEach rest)

@[simp]
theorem run_template (names : List String) (path : Path) (v : Value) :
    (template path v).run.run names = ((compileAt names path v, names) : _ × List String) := by
  have hKeeps := (carries_template (List.Subset.refl names) path path v).keeps
  exact Prod.ext rfl hKeeps

@[simp]
theorem run_compileEach (names : List String) (templates : List Value) :
    (compileEach templates).run names =
      ((templates.map (compileAt names []), names) : _ × List String) := by
  induction templates with
  | nil => rfl
  | cons v rest ih =>
    have hRest : (do return compileAt names [] v :: (← compileEach rest) : StateM _ _).run names =
        ((compileAt names [] v :: rest.map (compileAt names []), names) : _ × List String) := by
      rw [StateT.run_bind, ih]
      rfl
    rw [compileEach, StateT.run_bind, run_template]
    exact hRest

end Compiler

/--
Behind a template the same names are in scope as in front of it, whether it compiles or has a fault
anywhere. So each of several templates gives what it gives by itself.
-/
theorem compileEach_eq_map_compile :
    (∀ names path v, ((Compiler.template path v).run.run names).2 = names) ∧
      (∀ names templates, (Compiler.compileEach templates).run names =
        ((templates.map (compileAt names []), names) : _ × List String)) ∧
      ∀ templates, ((Compiler.compileEach templates).run [] : _ × List String).1 =
        templates.map compile := by
  refine ⟨?_, Compiler.run_compileEach, ?_⟩
  · intro names path v
    rw [Compiler.run_template]
  · intro templates
    rw [Compiler.run_compileEach]
    rfl

-- The name of the loop is unknown again behind it, although the loop inside of it has a fault.
example :
    let loop (body : Value) : Value :=
      .array [.string "foreach", .string ".rows", .string "$x", body]
    let templates := [loop (loop (.string "$y")), .string "$x", loop (.string "$x")]
    let results : List (Except LocatedFault Plan) × List String :=
      (Compiler.compileEach templates).run []
    results.1.map (·.toOption.isSome) = [false, false, true] := by
  with_unfolding_all rfl

end Reshape.Template
