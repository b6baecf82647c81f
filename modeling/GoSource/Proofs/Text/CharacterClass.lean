import GoSource.Imports.Qualifier
import GoSource.Name
import GoSource.Token.Lexeme
import Mathlib.Data.Bool.AllAny
import Mathlib.Tactic.Common

/-!
# Names and other character classes

Names, blanks, boundaries and line breaks do not overlap. The tables of code
points are compared range by range, so the facts below hold for every
character and not only for the ASCII ones.
-/

namespace GoSource.Text

/-- A code point found in a table lies in one of its ranges. -/
theorem exists_range_of_inRanges {ranges : List (Nat × Nat)} {n : Nat}
    (h : inRanges ranges n = true) : ∃ r ∈ ranges, r.1 ≤ n ∧ n ≤ r.2 := by
  induction ranges with
  | nil => simp [inRanges] at h
  | cons r rest ih =>
    obtain ⟨lo, hi⟩ := r
    simp only [inRanges] at h
    split at h
    · cases h
    · rename_i hlo
      rcases Bool.or_eq_true_iff.mp h with hhi | hrest
      · exact ⟨(lo, hi), by simp, by omega, by simpa using hhi⟩
      · obtain ⟨r, hr, hn⟩ := ih hrest
        exact ⟨r, by simp [hr], hn⟩

/-- Tables whose ranges are pairwise apart share no code point. -/
theorem inRanges_eq_false_of_apart {xs ys : List (Nat × Nat)} {n : Nat}
    (apart : ∀ x ∈ xs, ∀ y ∈ ys, x.2 < y.1 ∨ y.2 < x.1) (h : inRanges xs n = true) :
    inRanges ys n = false := by
  obtain ⟨x, hx, hlo, hhi⟩ := exists_range_of_inRanges h
  by_contra hy
  obtain ⟨y, hy, hlo', hhi'⟩ := exists_range_of_inRanges (Bool.not_eq_false _ ▸ hy)
  have := apart x hx y hy
  omega

theorem letter_blank_apart :
    ∀ x ∈ letterRanges, ∀ y ∈ blankRanges, x.2 < y.1 ∨ y.2 < x.1 := by decide +kernel

theorem digit_blank_apart :
    ∀ x ∈ decimalDigitRanges, ∀ y ∈ blankRanges, x.2 < y.1 ∨ y.2 < x.1 := by decide +kernel

theorem letter_ascii_digit_apart :
    ∀ x ∈ letterRanges, ∀ y ∈ [(48, 57)], x.2 < y.1 ∨ y.2 < x.1 := by decide +kernel

end GoSource.Text

namespace GoSource

open Text

theorem isNamePart_of_isNameStart {c : Char} (h : isNameStart c = true) : isNamePart c = true := by
  simp [isNamePart, h]

/-- No part of a name is a blank. -/
theorem isBlank_eq_false_of_isNamePart {c : Char} (h : isNamePart c = true) :
    isBlank c = false := by
  simp only [isNamePart, isNameStart, Bool.or_eq_true, beq_iff_eq] at h
  rcases h with (rfl | hletter) | hdigit
  · decide
  · exact inRanges_eq_false_of_apart letter_blank_apart hletter
  · exact inRanges_eq_false_of_apart digit_blank_apart hdigit

/-- A name does not start like a number. -/
theorem isDigit_eq_false_of_isNameStart {c : Char} (h : isNameStart c = true) :
    c.isDigit = false := by
  simp only [isNameStart, Bool.or_eq_true, beq_iff_eq] at h
  rcases h with rfl | hletter
  · decide
  · have hr := inRanges_eq_false_of_apart letter_ascii_digit_apart hletter
    have hout : ¬ (48 ≤ c.toNat ∧ c.toNat ≤ 57) := by
      rintro ⟨hlo, hhi⟩
      simp only [inRanges, Nat.not_lt.mpr hlo, hhi, if_false, decide_true, Bool.true_or] at hr
      cases hr
    by_contra hd
    have hd : '0'.val ≤ c.val ∧ c.val ≤ '9'.val := by
      simpa only [Char.isDigit, Bool.and_eq_true, decide_eq_true_eq, ge_iff_le] using
        Bool.of_not_eq_false hd
    exact hout hd

/-- A character of a finite list without name parts is no name part. -/
theorem ne_of_isNamePart {c d : Char} (h : isNamePart c = true) (hd : isNamePart d = false) :
    c ≠ d := by
  rintro rfl
  simp [hd] at h

/-- No part of a name is a boundary. -/
theorem isBoundary_eq_false_of_isNamePart {c : Char} (h : isNamePart c = true) :
    Qualifier.isBoundary c = false := by
  by_contra hb
  have hc : ∀ d ∈ [' ', '\t', '\n', '&', ';', ',', '!', '~', '^', '=', '+', '-', '*', '/', '(',
      ')', '[', ']', '\x7b', '\x7d'], isNamePart d = false :=
    List.all_iff_forall_prop.mp (by decide)
  have hmem := List.contains_iff_mem.mp (Bool.of_not_eq_false hb)
  rw [hc c hmem] at h
  cases h

theorem isEmpty_eq_false_of_isIdentifier {name : String} (h : isIdentifier name = true) :
    name.isEmpty = false := by
  by_contra he
  rw [String.isEmpty_iff.mp (Bool.of_not_eq_false he)] at h
  exact absurd h (by decide)

/-- The characters of an identifier. -/
def IsName : List Char → Prop
  | [] => False
  | c :: cs => isNameStart c = true ∧ ∀ d ∈ cs, isNamePart d = true

theorem isName_iff {s : String} : isIdentifier s = true ↔ IsName s.toList := by
  unfold isIdentifier
  split <;> rename_i h <;> simp [h, IsName]

theorem IsName.isNamePart {name : List Char} (h : IsName name) {c : Char} (hc : c ∈ name) :
    isNamePart c = true := by
  cases name with
  | nil => cases hc
  | cons d ds =>
    rcases List.mem_cons.mp hc with rfl | hc
    · exact isNamePart_of_isNameStart h.1
    · exact h.2 c hc

theorem takeWhile_append_of_head {α : Type} {p : α → Bool} {w rest : List α}
    (hw : ∀ a ∈ w, p a = true) (hr : ∀ a ∈ rest.head?, p a = false) :
    (w ++ rest).takeWhile p = w ∧ (w ++ rest).dropWhile p = rest := by
  rw [List.takeWhile_append_of_pos hw, List.dropWhile_append_of_pos hw]
  cases rest with
  | nil => simp
  | cons a as => simp [hr a (by simp)]

end GoSource
