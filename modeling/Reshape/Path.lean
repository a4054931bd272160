import Reshape.Text.Numeral

/-!
# Paths

The place of a part inside a value: `$` is the value itself, `.key` a field and `[i]` an item.
-/

namespace Reshape

inductive Step where
  | field (key : String)
  | item (index : Nat)
  deriving DecidableEq

abbrev Path := List Step

def Step.render : Step → String
  | field key => "." ++ key
  | item index => "[" ++ String.ofList (Text.decimal index) ++ "]"

def Path.render (path : Path) : String := path.foldl (fun s step => s ++ step.render) "$"

theorem Path.foldl_render (s : String) (path : Path) :
    path.foldl (fun s step => s ++ step.render) s = s ++ String.join (path.map Step.render) := by
  induction path generalizing s with
  | nil => simp
  | cons step rest ih =>
    rw [List.foldl_cons, ih, List.map_cons, String.join_cons, String.append_assoc]

theorem Path.render_eq (path : Path) : path.render = "$" ++ String.join (path.map Step.render) :=
  foldl_render "$" path

end Reshape
