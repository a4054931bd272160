/-!
# Lengths in UTF-8
-/

namespace Reshape.Text

def byteCount (s : List Char) : Nat := s.foldr (fun c n => c.utf8Size + n) 0

end Reshape.Text
