/-!
# Tables of code points

A character class of the Unicode standard is a list of closed ranges of code
points in increasing order. The order is what lets a search end early; nothing
here depends on which class a table holds.
-/

namespace GoSource.Text

/-- Whether one of the ranges holds `n`. The ranges increase, so the search ends
at the first one that starts above `n`. -/
def inRanges : List (Nat × Nat) → Nat → Bool
  | [], _ => false
  | (lo, hi) :: rest, n => if n < lo then false else n ≤ hi || inRanges rest n

/-- Bytes that the characters take in UTF-8; every offset in this library counts these. -/
def byteSize : List Char → Nat
  | [] => 0
  | c :: cs => c.utf8Size + byteSize cs

@[simp] theorem byteSize_append (cs ds : List Char) :
    byteSize (cs ++ ds) = byteSize cs + byteSize ds := by
  induction cs with
  | nil => simp [byteSize]
  | cons c cs ih => simp [byteSize, ih, Nat.add_assoc]

/-- A list of characters takes as many bytes as the string made of it. -/
theorem utf8ByteSize_ofList (cs : List Char) : (String.ofList cs).utf8ByteSize = byteSize cs := by
  induction cs with
  | nil => rfl
  | cons c cs ih =>
    have h : String.ofList (c :: cs) = String.singleton c ++ String.ofList cs := by
      rw [String.singleton_eq_ofList, ← String.ofList_append]
      rfl
    rw [h, String.utf8ByteSize_append, ih, String.utf8ByteSize_singleton, byteSize]

/-- A carriage return or a line feed. -/
def isLineBreak (c : Char) : Bool := c == '\n' || c == '\r'

end GoSource.Text
