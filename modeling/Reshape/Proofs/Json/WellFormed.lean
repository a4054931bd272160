import Reshape.Json.Embedded
import Reshape.Proofs.Json.Inherited
import Reshape.Proofs.Json.StringSize

/-!
# Values read from JSON

Whatever text is read, the value is well formed: a number that is too large is refused or read as
another one that is not, and a key that comes again replaces its first value. So is what a string
is unfolded to.
-/

namespace Reshape.Json

theorem inherited_wellFormed : Inherited fun _ v => v.WellFormed where
  widens := widens_const Value.WellFormed
  null := trivial
  bool _ := trivial
  number _ h := h
  string s := (reads_readString sizing_one s).mono fun _ _ _ => trivial
  array _ _ h := Value.wellFormed_array.mpr h
  object _ _ h := Value.wellFormed_fieldsOf h

theorem wellFormed_read {text : String} {v : Value} (h : read text = .ok v) : v.WellFormed :=
  inherited_wellFormed.of_read h

/-! ## Strings that hold JSON -/

theorem wellFormed_unfoldWithin (bound : Nat) (s : String) :
    (unfoldWithin bound s).WellFormed := by
  induction bound generalizing s with
  | zero => trivial
  | succ bound ih =>
    unfold unfoldWithin
    split
    · rename_i v hRead
      exact Value.wellFormed_mapStrings ih v (wellFormed_read hRead)
    · trivial

theorem wellFormed_unfold (s : String) : (unfold s).WellFormed := wellFormed_unfoldWithin _ s

end Reshape.Json

namespace Reshape.Value

theorem wellFormed_reparse {v : Value} (h : v.WellFormed) : v.reparse.WellFormed :=
  wellFormed_mapStrings Json.wellFormed_unfold v h

end Reshape.Value
