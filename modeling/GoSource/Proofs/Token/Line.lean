import GoSource.Proofs.Token.LexemeRules
import Mathlib.Data.List.Basic

/-!
# Lexemes and the separators after them

A lexeme never looks past a separator, a blank or a line break, to find out where it
ends, except for what is still open there: a raw string or a block comment, and before
a blank also a quoted literal. So a text can be continued after a line feed without a
change to the lexemes before it. Two lexemes grow at the end of the text: a carriage
return takes a line feed in, and a line comment a blank. Numbers end in the same way
before every character that is no part of one.
-/

namespace GoSource

section Stretch

variable {p : Char → Bool} {d : Char}

theorem takeWhile_stop (hp : p d = false) (cs ds : List Char) :
    (cs ++ d :: ds).takeWhile p = cs.takeWhile p := by
  induction cs with
  | nil => simp [hp]
  | cons c cs ih => simp only [List.cons_append, List.takeWhile_cons, ih]

theorem head?_stop {c : Char} (hc : d ≠ c) (cs ds : List Char) :
    (cs ++ d :: ds).head? = some c ↔ cs.head? = some c := by
  cases cs with
  | nil => simp [hc]
  | cons d cs => simp

theorem drop_stop {n : Nat} {cs : List Char} (h : n ≤ cs.length) (ds : List Char) :
    (cs ++ d :: ds).drop n = cs.drop n ++ d :: ds :=
  List.drop_append_of_le_length h

end Stretch

namespace Number

/-- A character that no number goes on with. -/
structure Ends (d : Char) : Prop where
  decimal : decimalPart d = false
  binary : binaryPart d = false
  octal : octalPart d = false
  hex : hexPart d = false
  exponent : isMark 'e' 'E' d = false
  power : isMark 'p' 'P' d = false
  base : isMark 'x' 'X' d = false ∧ isMark 'b' 'B' d = false ∧ isMark 'o' 'O' d = false
  sign : ¬ (d = '+' ∨ d = '-')
  point : d ≠ '.'
  unit : d ≠ 'i'

variable {d : Char} (ds : List Char)

theorem run_le (p : Char → Bool) (cs : List Char) : run p cs ≤ cs.length :=
  (List.takeWhile_prefix p).length_le

theorem run_stop {p : Char → Bool} (hp : p d = false) (cs : List Char) :
    run p (cs ++ d :: ds) = run p cs := by
  rw [run, takeWhile_stop hp, run]

theorem exponent_le (mark : Char → Bool) (cs : List Char) : exponent mark cs ≤ cs.length := by
  cases cs with
  | nil => simp [exponent]
  | cons c cs =>
    cases cs with
    | nil => simp [exponent, run]
    | cons s cs =>
      have hsign := run_le decimalPart cs
      have hplain := run_le decimalPart (s :: cs)
      by_cases hs : s = '+' ∨ s = '-' <;> simp only [exponent, hs, if_true, if_false] <;>
        split <;> simp_all <;> omega

theorem exponent_stop (h : Ends d) {mark : Char → Bool} (hm : mark d = false) (cs : List Char) :
    exponent mark (cs ++ d :: ds) = exponent mark cs := by
  cases cs with
  | nil => simp [exponent, hm]
  | cons c cs =>
    cases cs with
    | nil => simp [exponent, run, h.decimal, h.sign]
    | cons s cs =>
      have hsign := run_stop ds h.decimal cs
      have hplain := run_stop ds h.decimal (s :: cs)
      simp only [List.cons_append] at hplain
      by_cases hs : s = '+' ∨ s = '-' <;> simp [exponent, hs, hsign, hplain]

theorem fraction_le (cs : List Char) : fraction cs ≤ cs.length := by
  unfold fraction
  split
  · rename_i cs
    have := run_le decimalPart cs
    simp only [List.length_cons]
    omega
  · simp

theorem fraction_stop (h : Ends d) (cs : List Char) :
    fraction (cs ++ d :: ds) = fraction cs := by
  cases cs with
  | nil => simp [fraction, h.point]
  | cons c cs =>
    by_cases hc : c = '.'
    · subst hc
      simp only [List.cons_append, fraction, run_stop ds h.decimal]
    · simp [fraction, hc]

/-- The digits before the point, those up to the exponent, and all of them. -/
theorem decimal_bounds (cs : List Char) :
    let whole := run decimalPart cs
    let mantissa := whole + fraction (cs.drop whole)
    whole ≤ cs.length ∧ mantissa ≤ cs.length ∧
      mantissa + exponent (isMark 'e' 'E') (cs.drop mantissa) ≤ cs.length := by
  intro whole mantissa
  have hwhole : whole ≤ cs.length := run_le decimalPart cs
  have hfraction := fraction_le (cs.drop whole)
  rw [List.length_drop] at hfraction
  have hmantissa : mantissa ≤ cs.length := by omega
  have hexponent := exponent_le (isMark 'e' 'E') (cs.drop mantissa)
  rw [List.length_drop] at hexponent
  exact ⟨hwhole, hmantissa, by omega⟩

theorem readDecimal_le (cs : List Char) : (readDecimal cs).2 ≤ cs.length := by
  obtain ⟨-, -, hsize⟩ := decimal_bounds cs
  unfold readDecimal
  simp only
  split <;> rename_i himaginary
  · -- The letter after the number is still in the text.
    have hlt := List.length_pos_of_mem (List.mem_of_mem_head? himaginary)
    rw [List.length_drop] at hlt
    simp only
    omega
  · split <;> exact hsize

theorem readDecimal_stop (h : Ends d) (cs : List Char) :
    readDecimal (cs ++ d :: ds) = readDecimal cs := by
  obtain ⟨hwhole, hmantissa, hsize⟩ := decimal_bounds cs
  unfold readDecimal
  simp only [run_stop ds h.decimal, drop_stop hwhole, fraction_stop ds h, drop_stop hmantissa,
    exponent_stop ds h h.exponent, drop_stop hsize, head?_stop h.unit]

theorem readBased_le (digit : Char → Bool) (cs : List Char) :
    (readBased digit cs).2 ≤ cs.length + 2 := by
  have := run_le digit cs
  unfold readBased
  simp only
  split <;> simp only <;> omega

theorem readBased_stop {digit : Char → Bool} (hd : digit d = false) (cs : List Char) :
    readBased digit (cs ++ d :: ds) = readBased digit cs := by
  simp only [readBased, run_stop ds hd]

theorem readHex_le {cs : List Char} {form : Literal} {n : Nat}
    (h : readHex cs = some (form, n)) : n ≤ cs.length + 2 := by
  have hwhole := run_le hexPart cs
  have hlen := congrArg List.length (List.take_append_drop (run hexPart cs) cs)
  unfold readHex at h
  simp only at h
  split at h
  · rename_i rest hrest
    have hpart := run_le hexPart rest
    have hpower := exponent_le (isMark 'p' 'P') (rest.drop (run hexPart rest))
    rw [List.length_drop] at hpower
    simp only [hrest, List.length_append, List.length_take, List.length_cons] at hlen
    split at h
    · cases h
    · cases h
      omega
  · have hpower := exponent_le (isMark 'p' 'P') (cs.drop (run hexPart cs))
    rw [List.length_drop] at hpower
    split at h
    · have hbased := readBased_le hexPart cs
      rw [Option.some.inj h] at hbased
      exact hbased
    · cases h
      omega

theorem readHex_stop (h : Ends d) (cs : List Char) : readHex (cs ++ d :: ds) = readHex cs := by
  have hwhole := run_le hexPart cs
  unfold readHex
  simp only [run_stop ds h.hex, drop_stop hwhole, readBased_stop ds h.hex]
  cases hdrop : cs.drop (run hexPart cs) with
  | nil => simp [exponent, h.power, h.point]
  | cons c rest =>
    by_cases hc : c = '.'
    · subst hc
      simp only [List.cons_append, run_stop ds h.hex, drop_stop (run_le hexPart rest),
        exponent_stop ds h h.power]
    · have hpower := exponent_stop ds h h.power (c :: rest)
      simp only [List.cons_append] at hpower
      simp [hc, hpower]

theorem read_le {cs : List Char} {form : Literal} {n : Nat} (h : read cs = some (form, n)) :
    n ≤ cs.length := by
  have hdecimal := readDecimal_le cs
  unfold read at h
  split at h
  · rename_i c cs
    have hbinary := readBased_le binaryPart cs
    have hoctal := readBased_le octalPart cs
    simp only [List.length_cons] at hdecimal ⊢
    split at h
    · have := readHex_le h
      omega
    · split at h
      · rw [Option.some.inj h] at hbinary
        exact hbinary
      · split at h
        · rw [Option.some.inj h] at hoctal
          exact hoctal
        · rw [Option.some.inj h] at hdecimal
          exact hdecimal
  · rw [Option.some.inj h] at hdecimal
    exact hdecimal

/-- A number is read as far as if the text ended there. -/
theorem read_stop (h : Ends d) (cs : List Char) (hne : cs ≠ []) :
    read (cs ++ d :: ds) = read cs := by
  have hdecimal := readDecimal_stop ds h cs
  cases cs with
  | nil => exact absurd rfl hne
  | cons c cs =>
    by_cases hc : c = '0'
    · subst hc
      cases cs with
      | nil =>
        simp only [List.cons_append, List.nil_append] at hdecimal
        simp [read, h.base, hdecimal]
      | cons e cs =>
        simp only [List.cons_append] at hdecimal ⊢
        simp only [read, readHex_stop ds h, readBased_stop ds h.binary, readBased_stop ds h.octal,
          hdecimal]
    · simp only [List.cons_append] at hdecimal ⊢
      simp [read, hc, hdecimal]

theorem starts_stop (hd : d.isDigit = false) (c : Char) (cs : List Char) :
    starts (c :: (cs ++ d :: ds)) = starts (c :: cs) := by
  cases cs with
  | nil => by_cases hc : c = '.' <;> simp [starts, hc, hd]
  | cons e cs => by_cases hc : c = '.' <;> simp [starts, hc]

end Number

section Closing

variable (ds : List Char)

theorem closeComment?_le {cs : List Char} {n : Nat} (h : closeComment? cs = some n) :
    n ≤ cs.length := by
  fun_induction closeComment? cs generalizing n with
  | case1 cs =>
    cases h
    simp
  | case2 c cs hcs ih =>
    obtain ⟨m, hm, rfl⟩ := Option.map_eq_some_iff.mp h
    have := ih hm
    simp only [List.length_cons]
    omega
  | case3 => cases h

/-- A block comment that is closed stays so. -/
theorem closeComment?_append {cs : List Char} {n : Nat} (h : closeComment? cs = some n) :
    closeComment? (cs ++ ds) = some n := by
  fun_induction closeComment? cs generalizing n with
  | case1 cs => simpa [closeComment?] using h
  | case2 c cs hcs ih =>
    obtain ⟨m, hm, rfl⟩ := Option.map_eq_some_iff.mp h
    rw [List.cons_append, closeComment?, ih hm]
    · rfl
    · rintro rest rfl heq
      cases cs with
      | nil => cases hm
      | cons d cs => simp_all
  | case3 => cases h

/-- One that is open at a character of neither mark is closed only by what follows. -/
theorem closeComment?_stop {d : Char} (hstar : d ≠ '*') (hslash : d ≠ '/') {cs : List Char}
    (h : closeComment? cs = none) (hds : closeComment? ds = none) :
    closeComment? (cs ++ d :: ds) = none := by
  fun_induction closeComment? cs with
  | case1 cs => cases h
  | case2 c cs hcs ih =>
    rw [List.cons_append, closeComment?, ih (Option.map_eq_none_iff.mp h)]
    · rfl
    · rintro rest rfl heq
      cases cs with
      | nil => exact hslash (List.cons.inj heq).1
      | cons d cs => simp_all
  | case3 => simp [closeComment?, hstar, hds]

theorem closeRaw?_le {cs : List Char} {n : Nat} (h : closeRaw? cs = some n) : n ≤ cs.length := by
  induction cs generalizing n with
  | nil => cases h
  | cons c cs ih =>
    simp only [closeRaw?] at h
    split at h
    · cases h
      simp
    · obtain ⟨m, hm, rfl⟩ := Option.map_eq_some_iff.mp h
      have := ih hm
      simp only [List.length_cons]
      omega

theorem closeRaw?_append {cs : List Char} {n : Nat} (h : closeRaw? cs = some n) :
    closeRaw? (cs ++ ds) = some n := by
  induction cs generalizing n with
  | nil => cases h
  | cons c cs ih =>
    simp only [closeRaw?, List.cons_append] at h ⊢
    split at h
    · simp_all
    · obtain ⟨m, hm, rfl⟩ := Option.map_eq_some_iff.mp h
      simp_all

theorem closeRaw?_stop {d : Char} (hd : d ≠ '\x60') {cs : List Char} (h : closeRaw? cs = none)
    (hds : closeRaw? ds = none) : closeRaw? (cs ++ d :: ds) = none := by
  induction cs with
  | nil => simp [closeRaw?, hd, hds]
  | cons c cs ih =>
    simp only [closeRaw?, List.cons_append] at h ⊢
    split at h
    · cases h
    · simp_all

theorem closeQuote?_le {quote : Char} {cs : List Char} {n : Nat}
    (h : closeQuote? quote cs = some n) : n ≤ cs.length := by
  fun_induction closeQuote? quote cs generalizing n with
  | case1 => cases h
  | case2 c cs hc => cases h
  | case3 c cs hc ih =>
    obtain ⟨m, hm, rfl⟩ := Option.map_eq_some_iff.mp h
    have := ih hm
    simp only [List.length_cons]
    omega
  | case4 cs hcs => simp_all
  | case5 c cs hcs hquote hbreak => cases h
  | case6 c cs hcs hquote hbreak ih =>
    obtain ⟨m, hm, rfl⟩ := Option.map_eq_some_iff.mp h
    have := ih hm
    simp only [List.length_cons]
    omega

/-- A quoted literal that is closed stays so. -/
theorem closeQuote?_closed {quote : Char} (hq : quote ≠ '\\') {cs : List Char} {n : Nat}
    (h : closeQuote? quote cs = some n) : closeQuote? quote (cs ++ ds) = some n := by
  fun_induction closeQuote? quote cs generalizing n with
  | case1 => cases h
  | case2 c cs hc => cases h
  | case3 c cs hc ih =>
    obtain ⟨m, hm, rfl⟩ := Option.map_eq_some_iff.mp h
    simp [closeQuote?, hc, ih hm]
  | case4 cs hcs => simpa [closeQuote?, hq] using h
  | case5 c cs hcs hquote hbreak => cases h
  | case6 c cs hcs hquote hbreak ih =>
    obtain ⟨m, hm, rfl⟩ := Option.map_eq_some_iff.mp h
    have hbreak' : Text.isLineBreak c = false ∧ ¬ c = '\\' := by simpa using hbreak
    simp [closeQuote?, hquote, hbreak', ih hm]

/-- One that is open at the end of its line, or at a character that what follows does not
make part of one, stays open. -/
theorem closeQuote?_stop {quote d : Char} (hquote : d ≠ quote) (hslash : d ≠ '\\') {cs : List Char}
    (h : closeQuote? quote cs = none)
    (hds : Text.isLineBreak d = true ∨ closeQuote? quote ds = none) :
    closeQuote? quote (cs ++ d :: ds) = none := by
  fun_induction closeQuote? quote cs with
  | case1 =>
    rcases hds with hds | hds <;> simp [closeQuote?, hquote, hslash, hds]
  | case2 c cs hc => simp [closeQuote?, hc]
  | case3 c cs hc ih => simp [closeQuote?, hc, ih (Option.map_eq_none_iff.mp h)]
  | case4 cs hcs => cases h
  | case5 c cs hcs hq hstop =>
    by_cases hc : c = '\\'
    · subst hc
      cases cs with
      | nil => rcases hds with hds | hds <;> simp [closeQuote?, hds]
      | cons e cs => exact absurd rfl (hcs e cs rfl)
    · simp [closeQuote?, hc, hq, by simpa [hc] using hstop]
  | case6 c cs hcs hq hstop ih =>
    have hstop' : Text.isLineBreak c = false ∧ ¬ c = '\\' := by simpa using hstop
    simp [closeQuote?, hq, hstop', ih (Option.map_eq_none_iff.mp h)]

end Closing

section Symbols

theorem isPrefixOf_stop {d : Char} {w : List Char} (hw : d ∉ w) (cs ds : List Char) :
    w.isPrefixOf (cs ++ d :: ds) = w.isPrefixOf cs := by
  induction w generalizing cs with
  | nil => simp
  | cons c w ih =>
    have hc : (c == d) = false := by simpa using fun h => hw (by simp [h])
    cases cs with
    | nil => simp [List.isPrefixOf, hc]
    | cons e cs => simp [List.isPrefixOf, ih (fun h => hw (List.mem_cons_of_mem _ h))]

theorem Symbol.longest?_stop {d : Char} (hd : ∀ s : Symbol, d ∉ s.spelling.toList)
    (cs ds : List Char) : Symbol.longest? (cs ++ d :: ds) = Symbol.longest? cs := by
  unfold Symbol.longest?
  congr 1
  funext s
  exact isPrefixOf_stop (hd s) cs ds

theorem Symbol.longest?_le {cs : List Char} {s : Symbol} (h : Symbol.longest? cs = some s) :
    s.spelling.length ≤ cs.length := by
  have hprefix := List.find?_some (p := fun s : Symbol => s.spelling.toList.isPrefixOf cs) h
  have hlength := (List.isPrefixOf_iff_prefix.mp hprefix).length_le
  rwa [String.length_toList] at hlength

end Symbols

/-- A lexeme lies within the text. -/
theorem readLexeme_le {c : Char} {cs : List Char} {kind : Kind} {n : Nat}
    (h : readLexeme c cs = .ok (kind, n)) : n ≤ cs.length := by
  have hstretch (p : Char → Bool) : (cs.takeWhile p).length ≤ cs.length :=
    (List.takeWhile_prefix p).length_le
  cases readLexeme_eq_iff.mp h with
  | lineFeed _ => exact Nat.zero_le _
  | carriageReturn _ =>
    split
    · exact List.length_pos_of_mem (List.mem_of_mem_head? ‹_›)
    · exact Nat.zero_le _
  | lineComment _ => exact hstretch _
  | blockComment hc hclose =>
    obtain ⟨rest, rfl⟩ := List.head?_eq_some_iff.mp hc.2
    exact Nat.succ_le_succ (closeComment?_le hclose)
  | word _ => exact hstretch _
  | number _ hread =>
    have hsize := Number.read_le hread
    rw [List.length_cons] at hsize
    omega
  | rune _ hclose => exact closeQuote?_le hclose
  | string _ hclose => exact closeQuote?_le hclose
  | rawString _ hclose => exact closeRaw?_le hclose
  | opening _ => exact Nat.zero_le _
  | closing _ => exact Nat.zero_le _
  | symbol _ hmark =>
    have hsize := Symbol.longest?_le hmark
    rw [List.length_cons] at hsize
    omega

/-- A character that stands between tokens: a blank that is passed over, or a line break. -/
def isSeparator (d : Char) : Bool := isSkipped d || Text.isLineBreak d

/-- What no lexeme goes on with, unless it is open. -/
structure Separates (d : Char) : Prop where
  name : isNamePart d = false
  digit : d.isDigit = false
  number : Number.Ends d
  symbol : ∀ s : Symbol, d ∉ s.spelling.toList
  mark : ∀ c ∈ ['/', '*', '\'', '"', '\x60', '\\'], d ≠ c

theorem separates_of_isSeparator {d : Char} (h : isSeparator d = true) : Separates d := by
  have hcases : d ∈ [' ', '\t', '\x0c', '\ufeff', '\n', '\r'] := by
    simpa [isSeparator, isSkipped, Text.isLineBreak, or_assoc] using h
  have hall : ∀ d ∈ [' ', '\t', '\x0c', '\ufeff', '\n', '\r'], Separates d := by
    simp only [List.forall_mem_cons]
    refine ⟨?_, ?_, ?_, ?_, ?_, ?_, by simp⟩
    all_goals
      refine ⟨by decide +kernel, by decide, by constructor <;> decide, ?_,
        List.all_iff_forall_prop.mp (by decide)⟩
      intro s
      cases s <;> decide
  exact hall d hcases

/-- No raw string and no block comment ends in the text. -/
def ClosesNothing (ds : List Char) : Prop := closeRaw? ds = none ∧ closeComment? ds = none

/-- What is open before the separator `d` is open after the text `ds` behind it too. -/
def StaysOpen (d : Char) (ds : List Char) : Prop :=
  ClosesNothing ds ∧ (Text.isLineBreak d = true ∨ ∀ quote, closeQuote? quote ds = none)

section Separated

variable {c d : Char} {cs ds : List Char}

/-- A quoted literal ends where it did, and one that was open is so still. -/
theorem closeQuote?_separated (hd : Separates d) (hc : c = '\'' ∨ c = '"')
    (hopen : closeQuote? c cs = none → StaysOpen d ds) :
    closeQuote? c (cs ++ d :: ds) = closeQuote? c cs := by
  have hmark : c ≠ '\\' ∧ d ≠ c := by
    rcases hc with rfl | rfl
    · exact ⟨by decide, hd.mark _ (by decide)⟩
    · exact ⟨by decide, hd.mark _ (by decide)⟩
  cases hclose : closeQuote? c cs with
  | some n => exact closeQuote?_closed _ hmark.1 hclose
  | none =>
    exact closeQuote?_stop ds hmark.2 (hd.mark '\\' (by decide)) hclose
      ((hopen hclose).2.imp_right fun h => h c)

/-- A separator and what follows it do not change how the lexeme before it is read, unless the
separator itself becomes part of it. -/
theorem ReadAs.stop {r : Except Problem (Kind × Nat)} (h : ReadAs c cs r) (hd : Separates d)
    (hr : ¬ (c = '\r' ∧ cs = [] ∧ d = '\n'))
    (hline : c = '/' ∧ cs.head? = some '/' →
      (cs ++ d :: ds).takeWhile (fun d => !Text.isLineBreak d) =
        cs.takeWhile fun d => !Text.isLineBreak d)
    (hopen : r.isOk = true ∨ StaysOpen d ds) : ReadAs c (cs ++ d :: ds) r := by
  have hstarts : Number.starts (c :: (cs ++ d :: ds)) = Number.starts (c :: cs) :=
    Number.starts_stop ds hd.digit c cs
  have hnumber : Number.read (c :: (cs ++ d :: ds)) = Number.read (c :: cs) :=
    Number.read_stop ds hd.number (c :: cs) (List.cons_ne_nil c cs)
  have hmark : Symbol.longest? (c :: (cs ++ d :: ds)) = Symbol.longest? (c :: cs) :=
    Symbol.longest?_stop hd.symbol (c :: cs) ds
  have hhead {e : Char} (he : d ≠ e) (h : c = '/' ∧ cs.head? = some e) :
      c = '/' ∧ (cs ++ d :: ds).head? = some e := ⟨h.1, (head?_stop he cs ds).mpr h.2⟩
  have hsign (h : IsSign c cs) : IsSign c (cs ++ d :: ds) :=
    h.congr (head?_stop (hd.mark '/' (by decide)) cs ds) (head?_stop (hd.mark '*' (by decide)) cs ds)
      hstarts
  -- Where no lexeme fits, nothing that follows may close what is open.
  have hstays {problem : Problem}
      (h : (Except.error problem : Except Problem (Kind × Nat)).isOk = true ∨ StaysOpen d ds) :
      StaysOpen d ds := h.resolve_left nofun
  cases h with
  | lineFeed hc => exact .lineFeed hc
  | carriageReturn hc =>
    have hfeed : (cs ++ d :: ds).head? = some '\n' ↔ cs.head? = some '\n' := by
      cases cs with
      | nil => simpa using fun hd => hr ⟨hc, rfl, hd⟩
      | cons e cs => rfl
    have hreturn : ReadAs c (cs ++ d :: ds) _ := .carriageReturn hc
    simpa only [hfeed] using hreturn
  | lineComment hc =>
    rw [← hline hc]
    exact .lineComment (hhead (hd.mark '/' (by decide)) hc)
  | blockComment hc hclose =>
    refine .blockComment (hhead (hd.mark '*' (by decide)) hc) ?_
    obtain ⟨rest, rfl⟩ := List.head?_eq_some_iff.mp hc.2
    exact closeComment?_append _ hclose
  | openComment hc hclose =>
    refine .openComment (hhead (hd.mark '*' (by decide)) hc) ?_
    obtain ⟨rest, rfl⟩ := List.head?_eq_some_iff.mp hc.2
    exact closeComment?_stop ds (hd.mark '*' (by decide)) (hd.mark '/' (by decide)) hclose
      (hstays hopen).1.2
  | word hc =>
    have hword : ReadAs c (cs ++ d :: ds) _ := .word hc
    rwa [takeWhile_stop hd.name] at hword
  | number hs hread => exact .number (hstarts.trans hs) (hnumber.trans hread)
  | noNumber hs hread => exact .noNumber (hstarts.trans hs) (hnumber.trans hread)
  | rune hc hclose => exact .rune hc (closeQuote?_closed _ (by rw [hc]; decide) hclose)
  | noRune hc hclose =>
    refine .noRune hc ?_
    rwa [closeQuote?_separated hd (.inl hc) fun _ => hstays hopen]
  | string hc hclose => exact .string hc (closeQuote?_closed _ (by rw [hc]; decide) hclose)
  | openString hc hclose =>
    refine .openString hc ?_
    rwa [closeQuote?_separated hd (.inr hc) fun _ => hstays hopen]
  | rawString hc hclose => exact .rawString hc (closeRaw?_append _ hclose)
  | openRawString hc hclose =>
    exact .openRawString hc
      (closeRaw?_stop ds (hd.mark '\x60' (by decide)) hclose (hstays hopen).1.1)
  | opening hc => exact .opening hc
  | closing hc => exact .closing hc
  | symbol hs hlongest => exact .symbol (hsign hs) (hmark.trans hlongest)
  | noSymbol hs hlongest => exact .noSymbol (hsign hs) (hmark.trans hlongest)

/-- What follows a separator does not change the lexeme before it, unless the separator itself
becomes part of it. -/
theorem readLexeme_stop (hd : Separates d) (hr : ¬ (c = '\r' ∧ cs = [] ∧ d = '\n'))
    (hline : c = '/' ∧ cs.head? = some '/' →
      (cs ++ d :: ds).takeWhile (fun d => !Text.isLineBreak d) =
        cs.takeWhile fun d => !Text.isLineBreak d)
    (h : (readLexeme c cs).isOk = true ∨ StaysOpen d ds) :
    readLexeme c (cs ++ d :: ds) = readLexeme c cs :=
  ((readAs_readLexeme c cs).stop hd hr hline h).eq

end Separated

/-- What follows a line feed does not change the lexeme before it. -/
theorem readLexeme_line {c : Char} {cs ds : List Char} (hr : ¬ (c = '\r' ∧ cs = []))
    (h : (readLexeme c cs).isOk = true ∨ ClosesNothing ds) :
    readLexeme c (cs ++ '\n' :: ds) = readLexeme c cs :=
  readLexeme_stop (separates_of_isSeparator (by decide)) (fun h => hr ⟨h.1, h.2.1⟩)
    (fun _ => takeWhile_stop (by decide) cs ds) (h.imp_right fun h => ⟨h, .inl (by decide)⟩)

end GoSource
