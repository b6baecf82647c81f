import GoSource.Proofs.Imports.QualifierUse
import GoSource.Proofs.Token.Line

/-!
# Texts that differ in one name

Two texts are compared that are the same except that one has a new name in some of the
places where the other has an old one. Such a place follows a boundary or starts the text,
and the name ends there. A number is read alike in both texts unless one of the names is
drawn into its exponent, which takes an underscore right after the exponent's sign.
-/

namespace GoSource

open Qualifier (isBoundary)
open Text (isLineBreak)

/-- The second text has `new` in some of the places where the first has `old`; the flag says
that such a place may stand at the start. -/
inductive Respelled (old new : List Char) : Bool → List Char → List Char → Prop
  | nil (b : Bool) : Respelled old new b [] []
  | char {b : Bool} {c : Char} {cs cs' : List Char} (h : Respelled old new (isBoundary c) cs cs') :
      Respelled old new b (c :: cs) (c :: cs')
  | use {cs cs' rest rest' : List Char} (hcs : cs = old ++ rest) (hcs' : cs' = new ++ rest')
      (hend : ∀ c ∈ rest.head?, isNamePart c = false) (h : Respelled old new false rest rest') :
      Respelled old new true cs cs'

namespace Respelled

variable {old new : List Char} {b : Bool} {c : Char} {cs cs' : List Char}

theorem false_cons (h : Respelled old new false (c :: cs) cs') :
    ∃ ds, cs' = c :: ds ∧ Respelled old new (isBoundary c) cs ds := by
  cases h with
  | char h => exact ⟨_, rfl, h⟩

theorem false_nil (h : Respelled old new false [] cs') : cs' = [] := by
  cases h
  rfl

/-- Where no name may stand, the next characters are the same. -/
theorem head?_eq (h : Respelled old new false cs cs') : cs'.head? = cs.head? := by
  cases h <;> rfl

theorem nil_right (hnew : IsName new) (h : Respelled old new b cs []) : cs = [] := by
  cases h with
  | nil => rfl
  | use hcs hcs' hend h =>
    cases new with
    | nil => exact hnew.elim
    | cons d new => cases hcs'

variable (hold : IsName old) (hnew : IsName new)
include hold

theorem nil_left (h : Respelled old new b [] cs') : cs' = [] := by
  cases h with
  | nil => rfl
  | use hcs hcs' hend h =>
    cases old with
    | nil => exact hold.elim
    | cons d old => cases hcs

/-- A character that starts no name is kept. -/
theorem cons_of_not_isNameStart (hc : isNameStart c = false)
    (h : Respelled old new b (c :: cs) cs') :
    ∃ ds, cs' = c :: ds ∧ Respelled old new (isBoundary c) cs ds := by
  cases h with
  | char h => exact ⟨_, rfl, h⟩
  | use hcs hcs' hend h =>
    cases old with
    | nil => exact hold.elim
    | cons d old =>
      obtain rfl : c = d := (List.cons.inj hcs).1
      rw [hold.1] at hc
      cases hc

include hnew

/-- Whether such a character comes next is the same in both texts. -/
theorem head?_iff (hc : isNameStart c = false) (h : Respelled old new b cs cs') :
    cs'.head? = some c ↔ cs.head? = some c := by
  have apart : ∀ {name : List Char}, IsName name → ∀ rest, (name ++ rest).head? ≠ some c := by
    intro name hname rest heq
    cases name with
    | nil => exact hname
    | cons d name =>
      obtain rfl : d = c := by simpa using heq
      rw [hname.1] at hc
      cases hc
  cases h with
  | nil => rfl
  | char h => rfl
  | use hcs hcs' hend h =>
    subst hcs
    subst hcs'
    exact iff_of_false (apart hnew _) (apart hold _)

omit hold hnew

/-- A word that is kept. -/
theorem append_word {w : List Char} (hw : ∀ d ∈ w, isNamePart d = true)
    (h : Respelled old new false cs cs') : Respelled old new false (w ++ cs) (w ++ cs') := by
  induction w with
  | nil => exact h
  | cons d w ih =>
    refine .char ?_
    rw [isBoundary_eq_false_of_isNamePart (hw d (by simp))]
    exact ih fun e he => hw e (List.mem_cons_of_mem _ he)

/-- Putting one name for another leaves two such texts. -/
theorem of_respell (old new : List Char) (b : Bool) (cs : List Char) :
    Respelled old new b cs (Qualifier.respell (Qualifier.replaceName old new) b cs) := by
  fun_induction Qualifier.pieces b cs with
  | case1 b => simpa [Qualifier.respell] using Respelled.nil b
  | case2 b c cs h ih =>
    obtain ⟨rfl, hstarts⟩ := Bool.and_eq_true_iff.mp h
    obtain ⟨hname, hpoint⟩ := Qualifier.isName_of_startsUse hstarts
    have hsplit : c :: cs = (c :: cs.takeWhile isNamePart) ++ cs.dropWhile isNamePart := by
      rw [List.cons_append, List.takeWhile_append_dropWhile]
    have hspell := Qualifier.respell_name_append (Qualifier.replaceName old new) hname hpoint
    rw [← hsplit, Qualifier.replaceName] at hspell
    rw [hspell]
    split
    · rename_i heq
      exact .use (by rw [← heq]; exact hsplit) rfl (Qualifier.isNamePart_head_of_point hpoint) ih
    · rw [hsplit]
      refine .char ?_
      rw [isBoundary_eq_false_of_isNamePart (isNamePart_of_isNameStart hname.1)]
      exact append_word hname.2 ih
  | case3 b c cs h ih =>
    rw [Qualifier.respell_char _ (by simpa using h)]
    exact .char ih

end Respelled

section Agreement

/-- The texts have the same first characters, and no name may stand right after them. -/
structure Agree (old new : List Char) (n : Nat) (cs cs' : List Char) : Prop where
  head : cs'.take n = cs.take n
  rest : Respelled old new false (cs.drop n) (cs'.drop n)

namespace Agree

variable {old new : List Char} {m n : Nat} {c : Char} {cs cs' : List Char}

theorem zero (h : Respelled old new false cs cs') : Agree old new 0 cs cs' := ⟨rfl, h⟩

theorem cons (h : Agree old new n cs cs') : Agree old new (n + 1) (c :: cs) (c :: cs') :=
  ⟨by simp [h.head], by simpa using h.rest⟩

theorem add (h : Agree old new m cs cs') (hn : Agree old new n (cs.drop m) (cs'.drop m)) :
    Agree old new (m + n) cs cs' :=
  ⟨by rw [List.take_add, List.take_add, h.head, hn.head],
    by simpa only [List.drop_drop] using hn.rest⟩

end Agree

/-- An underscore stands right after a sign. -/
def Loose (text : List Char) : Prop := ['+', '_'] <:+: text ∨ ['-', '_'] <:+: text

instance (text : List Char) : Decidable (Loose text) := inferInstanceAs (Decidable (_ ∨ _))

theorem Loose.mono {text text' : List Char} (h : Loose text) (hwithin : text <:+: text') :
    Loose text' :=
  h.imp (·.trans hwithin) (·.trans hwithin)

theorem Loose.ne_zero {cs : List Char} {n : Nat} (h : Loose (cs.take n)) : n ≠ 0 := by
  intro hn
  subst hn
  obtain h | h := h <;> cases List.eq_nil_of_infix_nil h

/-- Stretches of the texts that agree, unless a name that starts with an underscore has got
behind a sign in one of them. -/
def Consistent (old new : List Char) (n n' : Nat) (cs cs' : List Char) : Prop :=
  n' = n ∧ Agree old new n cs cs' ∨
    old.head? = some '_' ∧ Loose (cs.take n) ∨ new.head? = some '_' ∧ Loose (cs'.take n')

theorem Loose.take_add {cs : List Char} {m n : Nat} (h : Loose ((cs.drop m).take n)) :
    Loose (cs.take (m + n)) := by
  rw [List.take_add]
  exact h.mono (List.suffix_append _ _).isInfix

theorem Consistent.after {old new : List Char} {m n n' : Nat} {cs cs' : List Char}
    (h : Consistent old new n n' (cs.drop m) (cs'.drop m)) (hm : Agree old new m cs cs') :
    Consistent old new (m + n) (m + n') cs cs' := by
  obtain ⟨rfl, hagree⟩ | ⟨hold, hloose⟩ | ⟨hnew, hloose⟩ := h
  · exact .inl ⟨rfl, hm.add hagree⟩
  · exact .inr (.inl ⟨hold, hloose.take_add⟩)
  · exact .inr (.inr ⟨hnew, hloose.take_add⟩)

/-- A class of characters without boundaries. -/
def Solid (p : Char → Bool) : Prop := ∀ c, p c = true → isBoundary c = false

theorem solid_isNamePart : Solid isNamePart := fun _ => isBoundary_eq_false_of_isNamePart

theorem solid_of_all {p : Char → Bool}
    (h : [' ', '\t', '\n', '&', ';', ',', '!', '~', '^', '=', '+', '-', '*', '/', '(', ')', '[', ']',
      '\x7b', '\x7d'].all (fun c => !p c) = true) : Solid p := by
  intro c hc
  by_contra hb
  have hmem := List.contains_iff_mem.mp (Bool.of_not_eq_false hb)
  have hp := List.all_eq_true.mp h c hmem
  rw [hc] at hp
  cases hp

/-- A run of such characters is the same in both texts. -/
theorem takeWhile_respelled {old new cs cs' : List Char} {p : Char → Bool} (hp : Solid p)
    (h : Respelled old new false cs cs') :
    cs'.takeWhile p = cs.takeWhile p ∧ Agree old new (cs.takeWhile p).length cs cs' := by
  induction cs generalizing cs' with
  | nil =>
    obtain rfl := h.false_nil
    exact ⟨rfl, .zero h⟩
  | cons c cs ih =>
    obtain ⟨ds, rfl, hds⟩ := h.false_cons
    cases hc : p c with
    | true =>
      rw [hp c hc] at hds
      obtain ⟨hrun, hagree⟩ := ih hds
      rw [List.takeWhile_cons_of_pos hc, List.takeWhile_cons_of_pos hc, hrun]
      exact ⟨rfl, hagree.cons⟩
    | false =>
      have hc : ¬ p c = true := by simp [hc]
      rw [List.takeWhile_cons_of_neg hc, List.takeWhile_cons_of_neg hc]
      exact ⟨rfl, .zero h⟩

end Agreement

namespace Number

variable {old new cs cs' : List Char}

theorem solid_decimalPart : Solid decimalPart := solid_of_all (by decide)

theorem solid_hexPart : Solid hexPart := solid_of_all (by decide)

theorem solid_binaryPart : Solid binaryPart := solid_of_all (by decide)

theorem solid_octalPart : Solid octalPart := solid_of_all (by decide)

theorem run_respelled {p : Char → Bool} (hp : Solid p) (h : Respelled old new false cs cs') :
    run p cs' = run p cs ∧ Agree old new (run p cs) cs cs' := by
  obtain ⟨hrun, hagree⟩ := takeWhile_respelled hp h
  rw [run, run, hrun]
  exact ⟨rfl, hagree⟩

theorem fraction_respelled (h : Respelled old new false cs cs') :
    fraction cs' = fraction cs ∧ Agree old new (fraction cs) cs cs' := by
  cases cs with
  | nil =>
    obtain rfl := h.false_nil
    exact ⟨rfl, .zero h⟩
  | cons c cs =>
    obtain ⟨ds, rfl, hds⟩ := h.false_cons
    by_cases hc : c = '.'
    · subst hc
      obtain ⟨hrun, hagree⟩ := run_respelled solid_decimalPart hds
      simp only [fraction, hrun, Nat.add_comm 1]
      exact ⟨trivial, hagree.cons⟩
    · have hzero : ∀ es, fraction (c :: es) = 0 := by
        intro es
        simp [fraction, hc]
      rw [hzero, hzero]
      exact ⟨rfl, .zero h⟩

theorem exponent_signed {mark : Char → Bool} {c s : Char} (hs : s = '+' ∨ s = '-')
    (cs : List Char) :
    exponent mark (c :: s :: cs) =
      if mark c = true ∧ run decimalPart cs ≠ 0 then run decimalPart cs + 2 else 0 := by
  simp only [exponent, hs, if_true, List.drop_succ_cons, List.drop_zero]
  split <;> omega

theorem exponent_unsigned {mark : Char → Bool} {c : Char} {cs : List Char}
    (hs : ¬ (cs.head? = some '+' ∨ cs.head? = some '-')) :
    exponent mark (c :: cs) =
      if mark c = true ∧ run decimalPart cs ≠ 0 then run decimalPart cs + 1 else 0 := by
  cases cs with
  | nil => simp [exponent, run]
  | cons s cs =>
    have hs : ¬ (s = '+' ∨ s = '-') := by simpa using hs
    simp only [exponent, hs, if_false, List.drop_zero]
    split <;> omega

/-- A name starts with a digit class only by an underscore. -/
theorem run_eq_zero_of_isName {name : List Char} (h : IsName name) (hu : name.head? ≠ some '_')
    (rest : List Char) : run decimalPart (name ++ rest) = 0 := by
  cases name with
  | nil => exact h.elim
  | cons c name =>
    have hdigit := isDigit_eq_false_of_isNameStart h.1
    have hc : c ≠ '_' := by simpa using hu
    simp [run, decimalPart, hdigit, hc]

/-- A signed exponent that starts with an underscore. -/
theorem loose_exponent {mark : Char → Bool} {c s : Char} (hc : mark c = true)
    (hs : s = '+' ∨ s = '-') {cs : List Char} (hu : cs.head? = some '_') :
    Loose ((c :: s :: cs).take (exponent mark (c :: s :: cs))) := by
  obtain ⟨rest, rfl⟩ := List.head?_eq_some_iff.mp hu
  have hrun : run decimalPart ('_' :: rest) = run decimalPart rest + 1 := by
    simp [run, decimalPart]
  rw [exponent_signed hs, if_pos ⟨hc, by omega⟩, hrun]
  obtain rfl | rfl := hs
  · exact .inl ⟨[c], rest.take (run decimalPart rest), rfl⟩
  · exact .inr ⟨[c], rest.take (run decimalPart rest), rfl⟩

variable (hold : IsName old) (hnew : IsName new)
include hold hnew

/-- What follows the sign of an exponent: the same digits, or two names. -/
theorem signed_respelled {mark : Char → Bool} {c s : Char} (hs : s = '+' ∨ s = '-')
    (hc : mark c = true)
    (hfalse : Respelled old new false (c :: s :: cs) (c :: s :: cs'))
    (h : Respelled old new true cs cs') :
    Consistent old new (exponent mark (c :: s :: cs)) (exponent mark (c :: s :: cs'))
      (c :: s :: cs) (c :: s :: cs') := by
  have none : run decimalPart cs = 0 → run decimalPart cs' = 0 →
      Consistent old new (exponent mark (c :: s :: cs)) (exponent mark (c :: s :: cs'))
        (c :: s :: cs) (c :: s :: cs') := by
    intro hzero hzero'
    rw [exponent_signed hs, exponent_signed hs, if_neg (by simp [hzero]), if_neg (by simp [hzero'])]
    exact .inl ⟨rfl, .zero hfalse⟩
  cases h with
  | nil => exact none rfl rfl
  | @char _ d cs cs' h =>
    cases hd : decimalPart d with
    | true =>
      rw [solid_decimalPart d hd] at h
      have hds : Respelled old new false (d :: cs) (d :: cs') :=
        .char (by rwa [solid_decimalPart d hd])
      obtain ⟨hrun, hagree⟩ := run_respelled solid_decimalPart hds
      have hpos : run decimalPart (d :: cs) ≠ 0 := by simp [run, hd]
      rw [exponent_signed hs, exponent_signed hs, hrun, if_pos ⟨hc, hpos⟩]
      exact .inl ⟨rfl, hagree.cons.cons⟩
    | false => exact none (by simp [run, hd]) (by simp [run, hd])
  | @use _ _ rest rest' hcs hcs' hend h =>
    by_cases hu : old.head? = some '_'
    · refine .inr (.inl ⟨hu, loose_exponent hc hs ?_⟩)
      rw [hcs, List.head?_append, hu]
      rfl
    · by_cases hu' : new.head? = some '_'
      · refine .inr (.inr ⟨hu', loose_exponent hc hs ?_⟩)
        rw [hcs', List.head?_append, hu']
        rfl
      · rw [hcs, hcs'] at none ⊢
        exact none (run_eq_zero_of_isName hold hu rest) (run_eq_zero_of_isName hnew hu' rest')

theorem exponent_respelled {mark : Char → Bool} (hmark : Solid mark)
    (h : Respelled old new false cs cs') :
    Consistent old new (exponent mark cs) (exponent mark cs') cs cs' := by
  cases cs with
  | nil =>
    obtain rfl := h.false_nil
    exact .inl ⟨rfl, .zero h⟩
  | cons c cs =>
    obtain ⟨ds, rfl, hds⟩ := h.false_cons
    by_cases hc : mark c = true
    · rw [hmark c hc] at hds
      by_cases hsign : cs.head? = some '+' ∨ cs.head? = some '-'
      · obtain ⟨s, es, rfl, hs⟩ : ∃ s es, cs = s :: es ∧ (s = '+' ∨ s = '-') := by
          cases cs <;> simp_all
        obtain ⟨fs, rfl, hfs⟩ := hds.false_cons
        have hboundary : isBoundary s = true := by
          obtain rfl | rfl := hs <;> decide
        rw [hboundary] at hfs
        exact signed_respelled hold hnew hs hc h hfs
      · obtain ⟨hrun, hagree⟩ := run_respelled solid_decimalPart hds
        rw [exponent_unsigned hsign, exponent_unsigned (by rwa [hds.head?_eq]), hrun]
        split
        · exact .inl ⟨rfl, hagree.cons⟩
        · exact .inl ⟨rfl, .zero h⟩
    · have hzero : ∀ es, exponent mark (c :: es) = 0 := by
        intro es
        simp [exponent, hc]
      rw [hzero, hzero]
      exact .inl ⟨rfl, .zero h⟩

/-- The same literal is read in both texts, unless it is one that has drawn in a name. -/
def ReadsAlike (old new : List Char) (r r' : Option (Literal × Nat)) (cs cs' : List Char) : Prop :=
  (r' = r ∧ ∀ form n, r = some (form, n) → Agree old new n cs cs') ∨
    (old.head? = some '_' ∧ ∃ form n, r = some (form, n) ∧ Loose (cs.take n)) ∨
    (new.head? = some '_' ∧ ∃ form n, r' = some (form, n) ∧ Loose (cs'.take n))

theorem readDecimal_respelled (h : Respelled old new false cs cs') :
    ReadsAlike old new (some (readDecimal cs)) (some (readDecimal cs')) cs cs' := by
  obtain ⟨hwhole, hagree⟩ := run_respelled solid_decimalPart h
  obtain ⟨hfraction, hagree'⟩ := fraction_respelled hagree.rest
  have hmantissa := hagree.add hagree'
  have hexponent := exponent_respelled hold hnew (solid_of_all (p := isMark 'e' 'E') (by decide))
    hmantissa.rest
  have hsize := hexponent.after hmantissa
  have grown : ∀ {k : Nat} {ds : List Char}, Loose (ds.take k) → Loose (ds.take (k + 1)) :=
    fun hloose => hloose.mono (List.take_prefix_take_left (by omega)).isInfix
  unfold readDecimal
  simp only [hwhole, hfraction]
  generalize run decimalPart cs + fraction _ + exponent _ (cs.drop _) = size at hsize ⊢
  generalize run decimalPart cs + fraction _ + exponent _ (cs'.drop _) = size' at hsize ⊢
  obtain ⟨rfl, hagree⟩ | ⟨hu, hloose⟩ | ⟨hu, hloose⟩ := hsize
  · rw [hagree.rest.head?_eq]
    refine .inl ⟨rfl, fun form n heq => ?_⟩
    split at heq
    · rename_i himaginary
      obtain ⟨ds, hds⟩ := List.head?_eq_some_iff.mp himaginary
      cases heq
      have hrest := hagree.rest
      rw [hds] at hrest
      obtain ⟨ds', hds', hi⟩ := hrest.false_cons
      refine hagree.add ?_
      rw [hds, hds']
      exact .cons (.zero hi)
    · split at heq <;> cases heq <;> exact hagree
  · refine .inr (.inl ⟨hu, ?_⟩)
    split
    · exact ⟨_, _, rfl, grown hloose⟩
    · split <;> exact ⟨_, _, rfl, hloose⟩
  · refine .inr (.inr ⟨hu, ?_⟩)
    split
    · exact ⟨_, _, rfl, grown hloose⟩
    · split <;> exact ⟨_, _, rfl, hloose⟩

omit hold hnew in
/-- Without a digit a marked number is its zero only. -/
theorem readBased_respelled {digit : Char → Bool} (hdigit : Solid digit) {c : Char}
    (hc : isBoundary c = false) (h : Respelled old new false cs cs') :
    ReadsAlike old new (some (readBased digit cs)) (some (readBased digit cs'))
      ('0' :: c :: cs) ('0' :: c :: cs') := by
  obtain ⟨hrun, hagree⟩ := run_respelled hdigit h
  have hmarked : Respelled old new false (c :: cs) (c :: cs') := .char (by rwa [hc])
  refine .inl ⟨by simp only [readBased, hrun], fun form n heq => ?_⟩
  simp only [readBased] at heq
  split at heq
  · cases heq
    exact .cons (.zero hmarked)
  · cases heq
    rw [Nat.add_comm 2]
    exact hagree.cons.cons

omit hold hnew in
/-- A number that has an exponent if one follows, and is something else if none does. -/
theorem readsAlike_powered {fallback fallback' : Option (Literal × Nat)} {k power power' : Nat}
    (hk : Agree old new k cs cs')
    (hpower : Consistent old new power power' (cs.drop k) (cs'.drop k))
    (hfallback : ReadsAlike old new fallback fallback' cs cs') :
    ReadsAlike old new (if power = 0 then fallback else some (.float, k + power))
      (if power' = 0 then fallback' else some (.float, k + power')) cs cs' := by
  obtain ⟨rfl, hagree⟩ | ⟨hu, hloose⟩ | ⟨hu, hloose⟩ := hpower
  · by_cases hzero : power' = 0
    · rw [if_pos hzero, if_pos hzero]
      exact hfallback
    · rw [if_neg hzero, if_neg hzero]
      refine .inl ⟨rfl, fun form n heq => ?_⟩
      cases heq
      exact hk.add hagree
  · rw [if_neg hloose.ne_zero]
    exact .inr (.inl ⟨hu, _, _, rfl, hloose.take_add⟩)
  · rw [if_neg hloose.ne_zero]
    exact .inr (.inr ⟨hu, _, _, rfl, hloose.take_add⟩)

omit hold hnew in
theorem readHex_point {rest : List Char} (h : cs.drop (run hexPart cs) = '.' :: rest) :
    readHex cs =
      if exponent (isMark 'p' 'P') (rest.drop (run hexPart rest)) = 0 then none
      else some (.float, run hexPart cs + (run hexPart rest + 1) + 2 +
        exponent (isMark 'p' 'P') (rest.drop (run hexPart rest))) := by
  simp only [readHex, h]
  split
  · rfl
  · congr 2
    omega

omit hold hnew in
theorem readHex_plain (h : (cs.drop (run hexPart cs)).head? ≠ some '.') :
    readHex cs =
      if exponent (isMark 'p' 'P') (cs.drop (run hexPart cs)) = 0 then some (readBased hexPart cs)
      else some (.float, run hexPart cs + 2 +
        exponent (isMark 'p' 'P') (cs.drop (run hexPart cs))) := by
  unfold readHex
  simp only
  split
  · simp_all
  · rw [Nat.add_comm 2]

/-- A hexadecimal number, with its zero and its mark. -/
theorem readHex_respelled {c : Char} (hc : isBoundary c = false)
    (h : Respelled old new false cs cs') :
    ReadsAlike old new (readHex cs) (readHex cs') ('0' :: c :: cs) ('0' :: c :: cs') := by
  obtain ⟨hwhole, hagree⟩ := run_respelled solid_hexPart h
  have hmark : Solid (isMark 'p' 'P') := solid_of_all (by decide)
  by_cases hpoint : (cs.drop (run hexPart cs)).head? = some '.'
  · obtain ⟨rest, hrest⟩ := List.head?_eq_some_iff.mp hpoint
    have htail := hagree.rest
    rw [hrest] at htail
    obtain ⟨rest', hrest', hds⟩ := htail.false_cons
    obtain ⟨hpart, hagree'⟩ := run_respelled solid_hexPart hds
    have hdigits : Agree old new (run hexPart cs + (run hexPart rest + 1)) cs cs' := by
      refine hagree.add ?_
      rw [hrest, hrest']
      exact hagree'.cons
    have hpower := exponent_respelled hold hnew hmark hagree'.rest
    rw [readHex_point hrest, readHex_point (by rw [hwhole, hrest']), hwhole, hpart]
    refine readsAlike_powered hdigits.cons.cons ?_ (.inl ⟨rfl, fun _ _ heq => nomatch heq⟩)
    have hdrop : ∀ {ds es : List Char} {k : Nat}, ds.drop k = '.' :: es →
        ∀ j, ('0' :: c :: ds).drop (k + (j + 1) + 1 + 1) = es.drop j := by
      intro ds es k hds j
      rw [List.drop_succ_cons, List.drop_succ_cons, ← List.drop_drop, hds, List.drop_succ_cons]
    rw [hdrop hrest, hdrop hrest']
    exact hpower
  · have hpoint' : (cs'.drop (run hexPart cs')).head? ≠ some '.' := by
      rw [hwhole, hagree.rest.head?_eq]
      exact hpoint
    rw [readHex_plain hpoint, readHex_plain hpoint', hwhole]
    exact readsAlike_powered hagree.cons.cons
      (exponent_respelled hold hnew hmark hagree.rest) (readBased_respelled solid_hexPart hc h)

/-- A number is read alike in both texts. -/
theorem read_respelled (h : Respelled old new false cs cs') :
    ReadsAlike old new (read cs) (read cs') cs cs' := by
  have hdecimal := readDecimal_respelled hold hnew h
  cases cs with
  | nil =>
    obtain rfl := h.false_nil
    exact hdecimal
  | cons c cs =>
    obtain ⟨ds, rfl, hds⟩ := h.false_cons
    by_cases hc : c = '0'
    · subst hc
      cases cs with
      | nil =>
        obtain rfl := Respelled.false_nil hds
        exact hdecimal
      | cons m cs =>
        obtain ⟨es, rfl, hes⟩ := Respelled.false_cons hds
        have marked : ∀ {lower upper : Char}, Solid (isMark lower upper) →
            isMark lower upper m = true → isBoundary m = false ∧ Respelled old new false cs es := by
          intro lower upper hsolid hm
          have hb := hsolid m hm
          exact ⟨hb, hb ▸ hes⟩
        simp only [read]
        by_cases hx : isMark 'x' 'X' m = true
        · obtain ⟨hm, hrest⟩ := marked (solid_of_all (by decide)) hx
          rw [if_pos hx, if_pos hx]
          exact readHex_respelled hold hnew hm hrest
        · rw [if_neg hx, if_neg hx]
          by_cases hb : isMark 'b' 'B' m = true
          · obtain ⟨hm, hrest⟩ := marked (solid_of_all (by decide)) hb
            rw [if_pos hb, if_pos hb]
            exact readBased_respelled solid_binaryPart hm hrest
          · rw [if_neg hb, if_neg hb]
            by_cases ho : isMark 'o' 'O' m = true
            · obtain ⟨hm, hrest⟩ := marked (solid_of_all (by decide)) ho
              rw [if_pos ho, if_pos ho]
              exact readBased_respelled solid_octalPart hm hrest
            · rw [if_neg ho, if_neg ho]
              exact hdecimal
    · simpa [read, hc] using hdecimal

end Number

end GoSource
