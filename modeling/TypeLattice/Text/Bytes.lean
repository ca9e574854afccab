/-!
# Bytes of a text

The number of bytes of a text in UTF-8, counted over its characters. The main facts say how the
counts of two texts add up and that the count is the size of the text as a string.
-/

namespace TypeLattice.Text

def byteCount : List Char → Nat
  | [] => 0
  | c :: cs => c.utf8Size + byteCount cs

theorem byteCount_append (cs ds : List Char) :
    byteCount (cs ++ ds) = byteCount cs + byteCount ds := by
  induction cs with
  | nil => simp [byteCount]
  | cons c cs ih => simp [byteCount, ih, Nat.add_assoc]

theorem utf8ByteSize_ofList (cs : List Char) :
    (String.ofList cs).utf8ByteSize = byteCount cs := by
  induction cs with
  | nil => simp [byteCount]
  | cons c cs ih =>
    have h : String.ofList (c :: cs) = String.singleton c ++ String.ofList cs := by
      rw [String.singleton_eq_ofList, ← String.ofList_append]
      rfl
    rw [h, String.utf8ByteSize_append, String.utf8ByteSize_singleton, ih, byteCount]

end TypeLattice.Text
