import GoSource.Proofs.Text.CharacterClass

/-!
# How lexemes are read

One rule for every way in which a lexeme can begin, and one for every way in which none fits
there. The rules do not overlap, so something is read exactly if a rule says so. How far
comments, numbers and literals reach is left to the searches for their ends.
-/

namespace GoSource

open Text (isLineBreak)

/-- The kind of a name: a keyword, or an identifier. -/
def wordKind (w : List Char) : Kind :=
  match Keyword.ofSpelling? w with
  | some word => .keyword word
  | none => .ident

theorem isTrivia_wordKind (w : List Char) : (wordKind w).isTrivia = false := by
  unfold wordKind
  split <;> rfl

/-- Neither a line break, a comment, a name, a number nor a literal begins with `c` and goes on
in `cs`, and `c` is no delimiter. What is left are operators and separators. -/
structure IsSign (c : Char) (cs : List Char) : Prop where
  plain : ∀ d ∈ ['\n', '\r', '\'', '"', '\x60'], c ≠ d
  line : ¬ (c = '/' ∧ cs.head? = some '/')
  block : ¬ (c = '/' ∧ cs.head? = some '*')
  name : isNameStart c = false
  number : Number.starts (c :: cs) = false
  delimiter : ∀ pair ∈ Delimiter.all, pair.opener ≠ c ∧ pair.closer ≠ c

/-- What is read where a lexeme begins with `c` and goes on in `cs`: its kind and how many
characters of `cs` belong to it, or the problem if no lexeme fits. -/
inductive ReadAs (c : Char) (cs : List Char) : Except Problem (Kind × Nat) → Prop where
  | lineFeed (hc : c = '\n') : ReadAs c cs (.ok (.newline, 0))
  | carriageReturn (hc : c = '\r') :
      ReadAs c cs (.ok (.newline, if cs.head? = some '\n' then 1 else 0))
  | lineComment (hc : c = '/' ∧ cs.head? = some '/') :
      ReadAs c cs (.ok (.lineComment, (cs.takeWhile fun d => !isLineBreak d).length))
  | blockComment {n : Nat} (hc : c = '/' ∧ cs.head? = some '*')
      (hclose : closeComment? cs.tail = some n) : ReadAs c cs (.ok (.blockComment, n + 1))
  | openComment (hc : c = '/' ∧ cs.head? = some '*') (hclose : closeComment? cs.tail = none) :
      ReadAs c cs (.error .unterminatedComment)
  | word (hc : isNameStart c = true) :
      ReadAs c cs (.ok (wordKind (c :: cs.takeWhile isNamePart), (cs.takeWhile isNamePart).length))
  | number {form : Literal} {n : Nat} (hstarts : Number.starts (c :: cs) = true)
      (hread : Number.read (c :: cs) = some (form, n)) : ReadAs c cs (.ok (.literal form, n - 1))
  | noNumber (hstarts : Number.starts (c :: cs) = true) (hread : Number.read (c :: cs) = none) :
      ReadAs c cs (.error .invalidToken)
  | rune {n : Nat} (hc : c = '\'') (hclose : closeQuote? c cs = some (n + 2)) :
      ReadAs c cs (.ok (.literal .rune, n + 2))
  | noRune (hc : c = '\'') (hclose : ∀ n, closeQuote? c cs ≠ some (n + 2)) :
      ReadAs c cs (.error .invalidToken)
  | string {n : Nat} (hc : c = '"') (hclose : closeQuote? c cs = some n) :
      ReadAs c cs (.ok (.literal .string, n))
  | openString (hc : c = '"') (hclose : closeQuote? c cs = none) :
      ReadAs c cs (.error .unterminatedString)
  | rawString {n : Nat} (hc : c = '\x60') (hclose : closeRaw? cs = some n) :
      ReadAs c cs (.ok (.rawString, n))
  | openRawString (hc : c = '\x60') (hclose : closeRaw? cs = none) :
      ReadAs c cs (.error .unterminatedString)
  | opening {pair : Delimiter} (hc : c = pair.opener) : ReadAs c cs (.ok (.opening pair, 0))
  | closing {pair : Delimiter} (hc : c = pair.closer) : ReadAs c cs (.ok (.closing pair, 0))
  | symbol {mark : Symbol} (hsign : IsSign c cs) (hmark : Symbol.longest? (c :: cs) = some mark) :
      ReadAs c cs (.ok (.symbol mark, mark.spelling.length - 1))
  | noSymbol (hsign : IsSign c cs) (hmark : Symbol.longest? (c :: cs) = none) :
      ReadAs c cs (.error .invalidToken)

variable {c : Char} {cs : List Char}

section Beginnings

theorem Delimiter.eq_of_find {sign : Delimiter → Char} {pair : Delimiter}
    (h : Delimiter.all.find? (sign · == c) = some pair) : c = sign pair :=
  (eq_of_beq (List.find?_some (p := fun pair => sign pair == c) h)).symm

theorem Delimiter.ne_of_find {sign : Delimiter → Char}
    (h : Delimiter.all.find? (sign · == c) = none) {pair : Delimiter} (hpair : pair ∈ all) :
    sign pair ≠ c := by
  simpa using List.find?_eq_none.mp h pair hpair

/-- A name begins with none of the signs that begin something else. -/
theorem ne_of_isNameStart {d : Char} (h : isNameStart c = true) (hd : isNameStart d = false) :
    c ≠ d := by
  rintro rfl
  rw [hd] at h
  cases h

theorem Number.eq_point_or_isDigit_of_starts (h : Number.starts (c :: cs) = true) :
    c = '.' ∨ c.isDigit = true := by
  by_cases hpoint : c = '.'
  · exact .inl hpoint
  · exact .inr (by simpa [Number.starts, hpoint] using h)

theorem Number.ne_of_starts {d : Char} (h : Number.starts (c :: cs) = true) (hpoint : d ≠ '.')
    (hdigit : d.isDigit = false) : c ≠ d := by
  rintro rfl
  rcases eq_point_or_isDigit_of_starts h with hc | hc
  · exact hpoint hc
  · rw [hdigit] at hc
    cases hc

theorem Number.isNameStart_eq_false_of_starts (h : Number.starts (c :: cs) = true) :
    isNameStart c = false := by
  by_contra hstart
  have hdigit := isDigit_eq_false_of_isNameStart (Bool.of_not_eq_false hstart)
  rcases eq_point_or_isDigit_of_starts h with rfl | hc
  · exact absurd hstart (by decide)
  · rw [hdigit] at hc
    cases hc

/-- A sign stays one before another text that neither makes it a comment nor a number. -/
theorem IsSign.congr {cs' : List Char} (h : IsSign c cs)
    (hslash : cs'.head? = some '/' ↔ cs.head? = some '/')
    (hstar : cs'.head? = some '*' ↔ cs.head? = some '*')
    (hstarts : Number.starts (c :: cs') = Number.starts (c :: cs)) : IsSign c cs' where
  plain := h.plain
  line := by rw [hslash]; exact h.line
  block := by rw [hstar]; exact h.block
  name := h.name
  number := hstarts.trans h.number
  delimiter := h.delimiter

/-- A sign is read as the longest operator or separator. -/
theorem IsSign.readLexeme_eq (h : IsSign c cs) : readLexeme c cs =
    (Symbol.longest? (c :: cs)).elim (.error .invalidToken)
      fun mark => .ok (.symbol mark, mark.spelling.length - 1) := by
  have hopener : Delimiter.all.find? (·.opener == c) = none :=
    List.find?_eq_none.mpr fun pair hpair => by simpa using (h.delimiter pair hpair).1
  have hcloser : Delimiter.all.find? (·.closer == c) = none :=
    List.find?_eq_none.mpr fun pair hpair => by simpa using (h.delimiter pair hpair).2
  rw [readLexeme, if_neg (h.plain _ (by simp)), if_neg (h.plain _ (by simp)), if_neg h.line,
    if_neg h.block, if_neg (by simp [h.name]), if_neg (by simp [h.number]),
    if_neg (h.plain _ (by simp)), if_neg (h.plain _ (by simp)), if_neg (h.plain _ (by simp)),
    hopener, hcloser]
  cases Symbol.longest? (c :: cs) <;> rfl

/-- Where a number may begin, a number is read. -/
theorem readLexeme_of_starts (h : Number.starts (c :: cs) = true) :
    readLexeme c cs = (Number.read (c :: cs)).elim (.error .invalidToken)
      fun r => .ok (.literal r.1, r.2 - 1) := by
  have hne {d : Char} (hpoint : d ≠ '.') (hdigit : d.isDigit = false) : c ≠ d :=
    Number.ne_of_starts h hpoint hdigit
  rw [readLexeme, if_neg (hne (by decide) (by decide)), if_neg (hne (by decide) (by decide)),
    if_neg fun h => hne (by decide) (by decide) h.1,
    if_neg fun h => hne (by decide) (by decide) h.1,
    if_neg (by simp [Number.isNameStart_eq_false_of_starts h]), if_pos h]
  cases Number.read (c :: cs) <;> rfl

end Beginnings

/-- Whatever is read is read by one of the rules. -/
theorem readAs_readLexeme (c : Char) (cs : List Char) : ReadAs c cs (readLexeme c cs) := by
  unfold readLexeme
  split
  · exact .lineFeed ‹_›
  rename_i hfeed
  split
  · exact .carriageReturn ‹_›
  rename_i hreturn
  split
  · exact .lineComment ‹_›
  rename_i hline
  split
  · split
    · exact .blockComment ‹_› ‹_›
    · exact .openComment ‹_› ‹_›
  rename_i hblock
  split
  · have hword : ReadAs c cs (.ok (wordKind (c :: cs.takeWhile isNamePart), _)) := .word ‹_›
    cases hspelling : Keyword.ofSpelling? (c :: cs.takeWhile isNamePart) <;>
      simpa [wordKind, hspelling] using hword
  rename_i hname
  split
  · split
    · exact .number ‹_› ‹_›
    · exact .noNumber ‹_› ‹_›
  rename_i hnumber
  split
  · split
    · exact .rune ‹_› ‹_›
    · exact .noRune ‹_› ‹_›
  rename_i hrune
  split
  · split
    · exact .string ‹_› ‹_›
    · exact .openString ‹_› ‹_›
  rename_i hstring
  split
  · split
    · exact .rawString ‹_› ‹_›
    · exact .openRawString ‹_› ‹_›
  rename_i hraw
  split
  · exact .opening (Delimiter.eq_of_find ‹_›)
  · exact .closing (Delimiter.eq_of_find ‹_›)
  · rename_i hopener hcloser
    have hsign : IsSign c cs := by
      refine ⟨?_, hline, hblock, Bool.of_not_eq_true hname, Bool.of_not_eq_true hnumber, ?_⟩
      · simp [hfeed, hreturn, hrune, hstring, hraw]
      · intro pair hpair
        exact ⟨Delimiter.ne_of_find hopener hpair, Delimiter.ne_of_find hcloser hpair⟩
    split
    · exact .symbol hsign ‹_›
    · exact .noSymbol hsign ‹_›

/-- No rule reads what another one reads. -/
theorem ReadAs.eq {r : Except Problem (Kind × Nat)} (h : ReadAs c cs r) : readLexeme c cs = r := by
  have hquotes : isNameStart '\'' = false ∧ isNameStart '"' = false ∧
      isNameStart '\x60' = false := by decide
  cases h with
  | lineFeed hc => rw [readLexeme, if_pos hc]
  | carriageReturn hc =>
    subst hc
    rfl
  | lineComment hc =>
    obtain ⟨rfl, hslash⟩ := hc
    simp [readLexeme, hslash]
  | blockComment hc hclose | openComment hc hclose =>
    obtain ⟨rfl, hstar⟩ := hc
    simp [readLexeme, hstar, hclose]
  | word hc =>
    have hne {d : Char} (hd : isNameStart d = false) : c ≠ d := ne_of_isNameStart hc hd
    rw [readLexeme, if_neg (hne (by decide)), if_neg (hne (by decide)),
      if_neg fun h => hne (by decide) h.1, if_neg fun h => hne (by decide) h.1, if_pos hc, wordKind]
    cases hspelling : Keyword.ofSpelling? (c :: cs.takeWhile isNamePart) <;> simp [hspelling]
  | number hstarts hread | noNumber hstarts hread => simp [readLexeme_of_starts hstarts, hread]
  | rune hc hclose | string hc hclose | openString hc hclose | rawString hc hclose
  | openRawString hc hclose =>
    subst hc
    simp [readLexeme, hquotes, Number.starts, hclose]
  | noRune hc hclose =>
    subst hc
    -- The alternative of a rune that is read is ruled out by `hclose`.
    simp [readLexeme, hquotes, Number.starts]
  | @opening pair hc | @closing pair hc =>
    subst hc
    cases pair <;> rfl
  | symbol hsign hmark | noSymbol hsign hmark => simp [hsign.readLexeme_eq, hmark]

/-- The rules say what is read. -/
theorem readLexeme_eq_iff {r : Except Problem (Kind × Nat)} :
    readLexeme c cs = r ↔ ReadAs c cs r :=
  ⟨fun h => h ▸ readAs_readLexeme c cs, ReadAs.eq⟩

end GoSource
