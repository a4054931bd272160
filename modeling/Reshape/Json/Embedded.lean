import Reshape.Json.Reader

/-!
# JSON inside strings

A string that holds JSON text is replaced by what it holds, again and again, at every depth of a
value. A string is longer than each string written in it, so its length bounds the repetition.
-/

namespace Reshape.Json

/-- What a string holds, looking at most `bound` levels of embedding deep. -/
def unfoldWithin : Nat → String → Value
  | 0, s => .string s
  | bound + 1, s =>
    match read s with
    | .ok v => v.mapStrings (unfoldWithin bound)
    | .error _ => .string s

def unfold (s : String) : Value := unfoldWithin s.length s

end Reshape.Json

namespace Reshape.Value

def reparse (v : Value) : Value := v.mapStrings Json.unfold

end Reshape.Value
