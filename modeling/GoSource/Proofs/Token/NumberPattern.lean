import GoSource.Proofs.Token.Respelled
import Mathlib.Computability.RegularExpressions
import Mathlib.Data.List.TakeWhile

/-!
# Number literals and their patterns

The declared patterns of integers, floats and imaginary numbers, as regular expressions, and
what reading a number has to do with them. Reading goes part by part and takes of each part as
much as there is. That finds the longest text of a pattern because no part starts with a
character that the part before it could have taken. The one place where nothing shorter will do
is a hexadecimal mantissa with a point, which is a number only together with its exponent.
-/

namespace GoSource.Number

open RegularExpression (char star)

/-- One of the characters. -/
def oneOf (cs : List Char) : RegularExpression Char := (cs.map char).sum

/-- Any number of the characters. -/
def anyOf (cs : List Char) : RegularExpression Char := star (oneOf cs)

/-- At least one of the characters. -/
def someOf (cs : List Char) : RegularExpression Char := oneOf cs * anyOf cs

/-- The pattern or nothing. -/
def optional (p : RegularExpression Char) : RegularExpression Char := 1 + p

def digits : List Char := "0123456789".toList

def decimalParts : List Char := "0123456789_".toList

def binaryParts : List Char := "01_".toList

def octalParts : List Char := "01234567_".toList

def hexParts : List Char := "0123456789abcdefABCDEF_".toList

/-- A mark, a sign if there is one, and digits. -/
def exponentPattern (marks : List Char) : RegularExpression Char :=
  oneOf marks * optional (oneOf ['+', '-']) * someOf decimalParts

/-- Two characters that mark the base, and digits of it. -/
def basedPattern (marks parts : List Char) : RegularExpression Char :=
  char '0' * oneOf marks * someOf parts

def hexFloatPattern : RegularExpression Char :=
  char '0' * oneOf ['x', 'X'] * anyOf hexParts * optional (char '.') * anyOf hexParts *
    exponentPattern ['p', 'P']

/-- A leading zero may be followed by any decimal digits. -/
def intPattern : RegularExpression Char :=
  basedPattern ['x', 'X'] hexParts + basedPattern ['b', 'B'] binaryParts +
    basedPattern ['o', 'O'] octalParts + char '0' * anyOf decimalParts +
    oneOf "123456789".toList * anyOf decimalParts

def floatPattern : RegularExpression Char :=
  oneOf digits * anyOf decimalParts * char '.' * anyOf decimalParts *
      optional (exponentPattern ['e', 'E']) +
    oneOf digits * anyOf decimalParts * exponentPattern ['e', 'E'] +
    char '.' * oneOf digits * anyOf decimalParts * optional (exponentPattern ['e', 'E']) +
    hexFloatPattern

def imaginaryPattern : RegularExpression Char :=
  (oneOf digits * anyOf decimalParts * optional (char '.' * anyOf decimalParts) *
      optional (exponentPattern ['e', 'E']) +
    char '.' * oneOf digits * anyOf decimalParts * optional (exponentPattern ['e', 'E'])) *
    char 'i'

/-- The pattern of a form of literals; those that are no numbers have none. -/
def pattern : Literal → RegularExpression Char
  | .int => intPattern
  | .float => floatPattern
  | .imaginary => imaginaryPattern
  | .rune | .string => 0

section Membership

variable {p q : RegularExpression Char} {cs w : List Char} {c : Char}

theorem mem_char : w ∈ (char c).matches' ↔ w = [c] := Iff.rfl

theorem mem_mul : w ∈ (p * q).matches' ↔ ∃ u ∈ p.matches', ∃ v ∈ q.matches', u ++ v = w :=
  Language.mem_mul

theorem mem_add : w ∈ (p + q).matches' ↔ w ∈ p.matches' ∨ w ∈ q.matches' := Iff.rfl

theorem mem_optional : w ∈ (optional p).matches' ↔ w = [] ∨ w ∈ p.matches' := Iff.rfl

theorem mem_oneOf : w ∈ (oneOf cs).matches' ↔ ∃ c ∈ cs, w = [c] := by
  induction cs with
  | nil =>
    show w ∈ (0 : Language Char) ↔ _
    simp [Language.notMem_zero]
  | cons c cs ih =>
    have hsum : oneOf (c :: cs) = char c + oneOf cs := rfl
    rw [hsum, mem_add, mem_char, ih]
    simp

theorem mem_anyOf : w ∈ (anyOf cs).matches' ↔ ∀ c ∈ w, c ∈ cs := by
  rw [anyOf, RegularExpression.matches'_star, Language.mem_kstar]
  constructor
  · intro ⟨words, hw, hwords⟩ c hc
    rw [hw, List.mem_flatten] at hc
    obtain ⟨word, hword, hc⟩ := hc
    obtain ⟨d, hd, rfl⟩ := mem_oneOf.mp (hwords word hword)
    rwa [List.mem_singleton.mp hc]
  · intro h
    refine ⟨w.map fun c => [c], (w.flatMap_singleton').symm, fun word hword => ?_⟩
    obtain ⟨c, hc, rfl⟩ := List.mem_map.mp hword
    exact mem_oneOf.mpr ⟨c, h c hc, rfl⟩

theorem mem_someOf : w ∈ (someOf cs).matches' ↔ w ≠ [] ∧ ∀ c ∈ w, c ∈ cs := by
  rw [someOf, mem_mul]
  constructor
  · intro ⟨u, hu, v, hv, hw⟩
    obtain ⟨c, hc, rfl⟩ := mem_oneOf.mp hu
    rw [← hw, List.singleton_append]
    exact ⟨List.cons_ne_nil _ _, List.forall_mem_cons.mpr ⟨hc, mem_anyOf.mp hv⟩⟩
  · intro ⟨hne, h⟩
    cases w with
    | nil => exact absurd rfl hne
    | cons c w =>
      obtain ⟨hc, hw⟩ := List.forall_mem_cons.mp h
      exact ⟨[c], mem_oneOf.mpr ⟨c, hc, rfl⟩, w, mem_anyOf.mpr hw, rfl⟩

end Membership

section Classes

/-- A range of characters is found in every list that has its members. -/
theorem mem_of_between {lo hi c : Char} {cs : List Char}
    (hall : ∀ n ≤ hi.toNat - lo.toNat, Char.ofNat (lo.toNat + n) ∈ cs) (hlo : lo ≤ c)
    (hhi : c ≤ hi) : c ∈ cs := by
  have hlo : lo.toNat ≤ c.toNat := hlo
  have hhi : c.toNat ≤ hi.toNat := hhi
  have hmem := hall (c.toNat - lo.toNat) (by omega)
  rwa [Nat.add_sub_cancel' hlo, Char.ofNat_toNat] at hmem

theorem isDigit_iff (c : Char) : c.isDigit = true ↔ c ∈ digits := by
  have hall : ∀ d ∈ digits, d.isDigit = true := List.all_iff_forall_prop.mp (by decide)
  constructor
  · intro h
    have hbounds : '0'.val ≤ c.val ∧ c.val ≤ '9'.val := by
      simpa only [Char.isDigit, Bool.and_eq_true, decide_eq_true_eq, ge_iff_le] using h
    exact mem_of_between (by decide) hbounds.1 hbounds.2
  · exact hall c

theorem mem_decimalParts : ∀ d ∈ digits, d ∈ decimalParts := List.all_iff_forall_prop.mp (by decide)

theorem decimalPart_iff (c : Char) : decimalPart c = true ↔ c ∈ decimalParts := by
  have hparts : decimalParts = digits ++ ['_'] := by decide
  simp [hparts, decimalPart, isDigit_iff]

theorem binaryPart_iff (c : Char) : binaryPart c = true ↔ c ∈ binaryParts := by
  have hparts : binaryParts = ['0', '1', '_'] := by decide
  simp [hparts, binaryPart, or_assoc]

theorem octalPart_iff (c : Char) : octalPart c = true ↔ c ∈ octalParts := by
  have hall : ∀ d ∈ octalParts, octalPart d = true := List.all_iff_forall_prop.mp (by decide)
  constructor
  · intro h
    simp only [octalPart, Bool.or_eq_true, Bool.and_eq_true, decide_eq_true_eq, beq_iff_eq] at h
    obtain ⟨hlo, hhi⟩ | rfl := h
    · exact mem_of_between (by decide) hlo hhi
    · decide
  · exact hall c

theorem hexPart_iff (c : Char) : hexPart c = true ↔ c ∈ hexParts := by
  have hall : ∀ d ∈ hexParts, hexPart d = true := List.all_iff_forall_prop.mp (by decide)
  have hdigits : ∀ d ∈ digits, d ∈ hexParts := List.all_iff_forall_prop.mp (by decide)
  constructor
  · intro h
    simp only [hexPart, Bool.or_eq_true, Bool.and_eq_true, decide_eq_true_eq, beq_iff_eq] at h
    obtain ((hdigit | ⟨hlo, hhi⟩) | ⟨hlo, hhi⟩) | rfl := h
    · exact hdigits c ((isDigit_iff c).mp hdigit)
    · exact mem_of_between (by decide) hlo hhi
    · exact mem_of_between (by decide) hlo hhi
    · decide
  · exact hall c

end Classes

section Longest

/-- The number of characters that a reader takes of a text is that of its longest head in a
language. -/
structure Longest (l : Language Char) (size : List Char → Nat) : Prop where
  le_length : ∀ cs, size cs ≤ cs.length
  mem : ∀ cs : List Char, cs.take (size cs) ∈ l
  longest : ∀ {cs w : List Char}, w ∈ l → w <+: cs → w.length ≤ size cs

variable {l m : Language Char} {size next : List Char → Nat}

/-- A reader stops before a character that no text of its language has. -/
theorem Longest.stops (h : Longest l size) {c : Char} (hc : ∀ w ∈ l, c ∉ w) {w : List Char}
    (hw : w ∈ l) (rest : List Char) : size (w ++ c :: rest) = w.length := by
  have hlower : w.length ≤ size (w ++ c :: rest) := h.longest hw (List.prefix_append _ _)
  by_contra hne
  have hmem : c ∈ (w ++ c :: rest).take (size (w ++ c :: rest)) := by
    obtain ⟨n, hn⟩ : ∃ n, size (w ++ c :: rest) = w.length + (n + 1) :=
      ⟨size (w ++ c :: rest) - w.length - 1, by omega⟩
    rw [hn, List.take_length_add_append, List.take_succ_cons]
    simp
  exact hc _ (h.mem _) hmem

/-- Two parts are cut where the second one starts. -/
theorem Longest.cut (h : Longest l size) (hm : ∀ c v, c :: v ∈ m → ∀ w ∈ l, c ∉ w)
    {cs u v : List Char} (hu : u ∈ l) (hv : v ∈ m) (hne : v ≠ []) (huv : u ++ v <+: cs) :
    size cs = u.length ∧ v <+: cs.drop (size cs) := by
  obtain ⟨rest, rfl⟩ := huv
  cases v with
  | nil => exact absurd rfl hne
  | cons c v =>
    have hsize : size (u ++ c :: v ++ rest) = u.length := by
      rw [List.append_assoc]
      exact h.stops (hm c v hv) hu _
    rw [hsize, List.append_assoc, List.drop_left]
    exact ⟨rfl, List.prefix_append _ _⟩

/-- Part after part, each as far as it goes, is the longest text of both, if the second part
starts with a character that the first cannot have. -/
theorem Longest.mul (h : Longest l size) (h' : Longest m next)
    (hm : ∀ c v, c :: v ∈ m → ∀ w ∈ l, c ∉ w) :
    Longest (l * m) fun cs => size cs + next (cs.drop (size cs)) where
  le_length cs := by
    have hfirst := h.le_length cs
    have hsecond := h'.le_length (cs.drop (size cs))
    rw [List.length_drop] at hsecond
    omega
  mem cs := by
    rw [List.take_add]
    exact Language.append_mem_mul (h.mem cs) (h'.mem _)
  longest {cs w} hw hhead := by
    obtain ⟨u, hu, v, hv, rfl⟩ := Language.mem_mul.mp hw
    by_cases hne : v = []
    · subst hne
      rw [List.append_nil] at hhead ⊢
      have := h.longest hu hhead
      omega
    · obtain ⟨hsize, hrest⟩ := h.cut hm hu hv hne hhead
      have := h'.longest hv hrest
      rw [List.length_append]
      omega

end Longest

section Letters

/-- The characters that a pattern speaks of. -/
def letters : RegularExpression Char → List Char
  | .zero | .epsilon => []
  | .char c => [c]
  | .plus p q | .comp p q => letters p ++ letters q
  | .star p => letters p

theorem mem_letters {p : RegularExpression Char} {w : List Char} (h : w ∈ p.matches') {c : Char}
    (hc : c ∈ w) : c ∈ letters p := by
  induction p generalizing w with
  | zero => exact absurd h (Language.notMem_zero w)
  | epsilon =>
    obtain rfl : w = [] := h
    cases hc
  | char d =>
    obtain rfl : w = [d] := h
    exact hc
  | plus p q hp hq =>
    rcases h with h | h
    · exact List.mem_append_left _ (hp h hc)
    · exact List.mem_append_right _ (hq h hc)
  | comp p q hp hq =>
    obtain ⟨u, hu, v, hv, rfl⟩ := mem_mul.mp h
    rcases List.mem_append.mp hc with hc | hc
    · exact List.mem_append_left _ (hp hu hc)
    · exact List.mem_append_right _ (hq hv hc)
  | star p hp =>
    obtain ⟨words, rfl, hwords⟩ := Language.mem_kstar.mp h
    obtain ⟨word, hword, hc⟩ := List.mem_flatten.mp hc
    exact hp (hwords word hword) hc

end Letters

section Parts

variable {p : Char → Bool} {parts : List Char}

theorem longest_run (hp : ∀ c, p c = true ↔ c ∈ parts) :
    Longest (anyOf parts).matches' (run p) where
  le_length cs := run_le p cs
  mem cs := by
    rw [run, ← List.prefix_iff_eq_take.mp (List.takeWhile_prefix p)]
    exact mem_anyOf.mpr fun c hc => (hp c).mp (List.mem_takeWhile_imp hc)
  longest {cs w} hw hhead := by
    obtain ⟨rest, rfl⟩ := hhead
    rw [run, List.takeWhile_append_of_pos fun c hc => (hp c).mpr (mem_anyOf.mp hw c hc),
      List.length_append]
    exact Nat.le_add_right _ _

/-- The length of a point and the digits after it, zero if there is no point. -/
def pointed (p : Char → Bool) : List Char → Nat
  | '.' :: cs => 1 + run p cs
  | _ => 0

theorem fraction_eq_pointed (cs : List Char) : fraction cs = pointed decimalPart cs := by
  unfold fraction pointed
  split <;> simp_all

/-- A point and digits. -/
def pointPattern (parts : List Char) : RegularExpression Char := char '.' * anyOf parts

theorem mem_pointPattern {w : List Char} :
    w ∈ (pointPattern parts).matches' ↔ ∃ ds, w = '.' :: ds ∧ ∀ c ∈ ds, c ∈ parts := by
  rw [pointPattern, mem_mul]
  constructor
  · intro ⟨u, hu, v, hv, hw⟩
    rw [mem_char.mp hu] at hw
    exact ⟨v, hw.symm, mem_anyOf.mp hv⟩
  · intro ⟨ds, hw, hds⟩
    exact ⟨['.'], rfl, ds, mem_anyOf.mpr hds, hw.symm⟩

theorem longest_pointed (hp : ∀ c, p c = true ↔ c ∈ parts) :
    Longest (optional (pointPattern parts)).matches' (pointed p) := by
  have hrun := longest_run hp
  constructor
  · intro cs
    unfold pointed
    split
    · rename_i cs
      have := hrun.le_length cs
      rw [List.length_cons]
      omega
    · exact Nat.zero_le _
  · intro cs
    unfold pointed
    split
    · rename_i cs
      rw [Nat.add_comm, List.take_succ_cons]
      exact .inr (mem_pointPattern.mpr ⟨_, rfl, mem_anyOf.mp (hrun.mem cs)⟩)
    · exact .inl rfl
  · intro cs w hw hhead
    rcases mem_optional.mp hw with rfl | hw
    · exact Nat.zero_le _
    · obtain ⟨ds, rfl, hds⟩ := mem_pointPattern.mp hw
      obtain ⟨rest, rfl⟩ := hhead
      have := hrun.longest (mem_anyOf.mpr hds) (List.prefix_append ds rest)
      simp only [List.cons_append, pointed, List.length_cons]
      omega

theorem mem_exponentPattern {marks w : List Char} :
    w ∈ (exponentPattern marks).matches' ↔
      ∃ c ∈ marks, ∃ sign ds, w = c :: (sign ++ ds) ∧ (sign = [] ∨ sign = ['+'] ∨ sign = ['-']) ∧
        ds ≠ [] ∧ ∀ d ∈ ds, d ∈ decimalParts := by
  simp only [exponentPattern, mem_mul, mem_optional, mem_oneOf, mem_someOf]
  constructor
  · rintro ⟨_, ⟨_, ⟨c, hc, rfl⟩, sign, hsign, rfl⟩, ds, hds, rfl⟩
    refine ⟨c, hc, sign, ds, by simp, ?_, hds⟩
    simpa using hsign
  · rintro ⟨c, hc, sign, ds, rfl, hsign, hds⟩
    exact ⟨_, ⟨[c], ⟨c, hc, rfl⟩, sign, by simpa using hsign, rfl⟩, ds, hds, by simp⟩

theorem take_run_ne_nil {cs : List Char} (h : run p cs ≠ 0) : cs.take (run p cs) ≠ [] := by
  intro hnil
  have hlength := congrArg List.length hnil
  rw [List.length_take_of_le (run_le p cs)] at hlength
  exact h hlength

/-- The digits of an exponent, behind its mark and its sign. -/
theorem mem_exponentPattern_take {marks sign : List Char} {c : Char} (hc : c ∈ marks)
    (hsign : sign = [] ∨ sign = ['+'] ∨ sign = ['-']) {cs : List Char}
    (hdigits : run decimalPart cs ≠ 0) :
    c :: (sign ++ cs.take (run decimalPart cs)) ∈ (exponentPattern marks).matches' := by
  have hrun := longest_run decimalPart_iff
  exact mem_exponentPattern.mpr
    ⟨c, hc, sign, _, rfl, hsign, take_run_ne_nil hdigits, mem_anyOf.mp (hrun.mem cs)⟩

theorem isMark_iff {lower upper c : Char} : isMark lower upper c = true ↔ c ∈ [lower, upper] := by
  simp [isMark]

theorem longest_exponent (lower upper : Char) :
    Longest (optional (exponentPattern [lower, upper])).matches'
      (exponent (isMark lower upper)) := by
  have hrun := longest_run decimalPart_iff
  constructor
  · exact exponent_le _
  · intro cs
    cases cs with
    | nil => exact .inl rfl
    | cons c cs =>
      by_cases hsign : cs.head? = some '+' ∨ cs.head? = some '-'
      · obtain ⟨s, cs, rfl, hs⟩ : ∃ s rest, cs = s :: rest ∧ (s = '+' ∨ s = '-') := by
          cases cs <;> simp_all
        rw [exponent_signed hs]
        split
        · rename_i h
          have hsign : [s] = [] ∨ [s] = ['+'] ∨ [s] = ['-'] := by simpa using hs
          exact .inr (mem_exponentPattern_take (isMark_iff.mp h.1) hsign h.2)
        · exact .inl rfl
      · rw [exponent_unsigned hsign]
        split
        · rename_i h
          exact .inr (mem_exponentPattern_take (isMark_iff.mp h.1) (.inl rfl) h.2)
        · exact .inl rfl
  · intro cs w hw hhead
    rcases mem_optional.mp hw with rfl | hw
    · exact Nat.zero_le _
    · obtain ⟨c, hc, sign, ds, rfl, hsign, hne, hds⟩ := mem_exponentPattern.mp hw
      obtain ⟨rest, rfl⟩ := hhead
      have hdigits := hrun.longest (mem_anyOf.mpr hds) (List.prefix_append ds rest)
      have hpos := List.length_pos_of_ne_nil hne
      have hnonzero : run decimalPart (ds ++ rest) ≠ 0 := by omega
      have hc := isMark_iff.mpr hc
      rcases hsign with rfl | hsign
      · have hunsigned : ¬ ((ds ++ rest).head? = some '+' ∨ (ds ++ rest).head? = some '-') := by
          cases ds with
          | nil => exact absurd rfl hne
          | cons d ds =>
            have hsigns : ∀ d ∈ decimalParts, d ≠ '+' ∧ d ≠ '-' :=
              List.all_iff_forall_prop.mp (by decide)
            have hd := hsigns d (hds d (by simp))
            simpa using hd
        rw [List.nil_append, List.cons_append, exponent_unsigned hunsigned,
          if_pos ⟨hc, hnonzero⟩, List.length_cons]
        omega
      · obtain ⟨s, rfl, hs⟩ : ∃ s, sign = [s] ∧ (s = '+' ∨ s = '-') := by
          rcases hsign with rfl | rfl <;> simp
        show (c :: s :: ds).length ≤ exponent (isMark lower upper) (c :: s :: (ds ++ rest))
        rw [exponent_signed hs, if_pos ⟨hc, hnonzero⟩, List.length_cons, List.length_cons]
        omega

/-- An exponent starts with its mark. -/
theorem head_mem_of_exponent {marks v : List Char} {c : Char}
    (h : c :: v ∈ (optional (exponentPattern marks)).matches') : c ∈ marks := by
  rcases mem_optional.mp h with h | h
  · cases h
  · obtain ⟨d, hd, sign, ds, hw, -⟩ := mem_exponentPattern.mp h
    rwa [(List.cons.inj hw).1]

/-- A fraction starts with its point. -/
theorem head_eq_of_pointed {v : List Char} {c : Char}
    (h : c :: v ∈ (optional (pointPattern parts)).matches') : c = '.' := by
  rcases mem_optional.mp h with h | h
  · cases h
  · obtain ⟨ds, hw, -⟩ := mem_pointPattern.mp h
    exact (List.cons.inj hw).1

end Parts

section Mantissa

/-- Digits, and a point with digits or none. -/
def mantissaPattern (parts : List Char) : RegularExpression Char :=
  anyOf parts * optional (pointPattern parts)

/-- The length of a mantissa. -/
def mantissa (p : Char → Bool) (cs : List Char) : Nat :=
  run p cs + pointed p (cs.drop (run p cs))

/-- The length of a mantissa and the exponent after it. -/
def scaled (p mark : Char → Bool) (cs : List Char) : Nat :=
  mantissa p cs + exponent mark (cs.drop (mantissa p cs))

theorem longest_mantissa {p : Char → Bool} {parts : List Char}
    (hp : ∀ c, p c = true ↔ c ∈ parts) (hpoint : '.' ∉ parts) :
    Longest (mantissaPattern parts).matches' (mantissa p) := by
  refine (longest_run hp).mul (longest_pointed hp) fun c v hv w hw hc => ?_
  rw [head_eq_of_pointed hv] at hc
  exact hpoint (mem_anyOf.mp hw _ hc)

/-- A decimal number: a mantissa and an exponent or none. -/
def decimalPattern : RegularExpression Char :=
  mantissaPattern decimalParts * optional (exponentPattern ['e', 'E'])

theorem longest_decimal : Longest decimalPattern.matches' (scaled decimalPart (isMark 'e' 'E')) := by
  have hmarks : ∀ c ∈ ['e', 'E'], c ∉ letters (mantissaPattern decimalParts) :=
    List.all_iff_forall_prop.mp (by decide)
  exact (longest_mantissa decimalPart_iff (by decide)).mul (longest_exponent 'e' 'E')
    fun c v hv w hw hc => hmarks c (head_mem_of_exponent hv) (mem_letters hw hc)

end Mantissa

end GoSource.Number
