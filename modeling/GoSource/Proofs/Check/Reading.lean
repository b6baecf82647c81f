import GoSource.Proofs.Check.Phase
import GoSource.Proofs.Layout.Output
import GoSource.Proofs.Text.CharacterClass
import GoSource.Text.Quoted

/-!
# Reading a text piece by piece

How far a piece of text takes the check of a file, whatever comes after it. A piece
may ask something of what follows: a name must not be followed by more of a name, a
point or a star must be followed by one.
-/

namespace GoSource

/-- Where a check of a file stands; `pending` says that the last token ends a statement. -/
structure Config where
  phase : Phase
  pending : Bool
deriving DecidableEq, Repr

/-- The phase at the end of a text. -/
def Config.scan (s : Config) (cs : List Char) : Option Phase := s.phase.scan s.pending cs

/-- The text takes the check from one place to another, before everything that may follow. -/
def Reaches (follow : List Char → Prop) (s : Config) (cs : List Char) (t : Config) : Prop :=
  ∀ rest, follow rest → s.scan (cs ++ rest) = t.scan rest

/-- Everything may follow. -/
def Anything (_ : List Char) : Prop := True

/-- No name goes on. -/
def Apart (rest : List Char) : Prop := ∀ c ∈ rest.head?, isNamePart c = false

/-- A name comes next. -/
def NameNext (rest : List Char) : Prop := ∃ c cs, rest = c :: cs ∧ isNameStart c = true

theorem apart_cons {c : Char} (h : isNamePart c = false) (cs : List Char) : Apart (c :: cs) := by
  intro d hd
  obtain rfl : c = d := by simpa using hd
  exact h

theorem NameNext.of_isName {w : List Char} (h : IsName w) (rest : List Char) :
    NameNext (w ++ rest) := by
  cases w with
  | nil => cases h
  | cons c w => exact ⟨c, w ++ rest, rfl, h.1⟩

namespace Reaches

variable {follow follow' : List Char → Prop} {s t u : Config} {cs ds : List Char}

theorem refl (follow : List Char → Prop) (s : Config) : Reaches follow s [] s := fun _ _ => rfl

theorem mono (h : Reaches follow s cs t) (hf : ∀ rest, follow' rest → follow rest) :
    Reaches follow' s cs t := fun rest hrest => h rest (hf rest hrest)

/-- One piece after another. -/
theorem append (h : Reaches follow s cs t) (h' : Reaches follow' t ds u)
    (hf : ∀ rest, follow' rest → follow (ds ++ rest)) : Reaches follow' s (cs ++ ds) u := by
  intro rest hrest
  rw [List.append_assoc, h _ (hf rest hrest), h' rest hrest]

theorem trans (h : Reaches Anything s cs t) (h' : Reaches follow' t ds u) :
    Reaches follow' s (cs ++ ds) u := h.append h' fun _ _ => trivial

/-- A piece that ends in a name, and a sign that ends the name. -/
theorem append_sign {c : Char} (h : Reaches Apart s cs t) (hc : isNamePart c = false)
    (h' : Reaches follow' t (c :: ds) u) : Reaches follow' s (cs ++ c :: ds) u :=
  h.append h' fun rest _ => apart_cons hc (ds ++ rest)

theorem skipped (h : ∀ c ∈ cs, isSkipped c = true) (s : Config) : Reaches Anything s cs s := by
  intro rest _
  induction cs with
  | nil => rfl
  | cons c cs ih =>
    rw [← ih fun d hd => h d (List.mem_cons_of_mem _ hd)]
    simp only [Config.scan, Phase.scan, List.cons_append, kindsFrom_skipped (h c (by simp))]

theorem space (s : Config) : Reaches Anything s [' '] s := skipped (by simp [isSkipped]) s

theorem margin (indent : Indent) (depth : Nat) (s : Config) :
    Reaches Anything s (indent.margin depth) s := by
  apply skipped
  intro c hc
  rcases Indent.mem_margin hc with rfl | rfl <;> decide

/-- A token of the text. -/
theorem token {c : Char} {kind : Kind} {phase : Phase} (hs : isSkipped c = false)
    (hk : kind.isTrivia = false)
    (hread : ∀ rest, follow rest → readLexeme c (cs ++ rest) = .ok (kind, cs.length))
    (hstep : s.phase.step kind = some phase) :
    Reaches follow s (c :: cs) ⟨phase, kind.endsStatement⟩ := by
  intro rest hrest
  simp only [Config.scan, Phase.scan]
  rw [List.cons_append, kindsFrom_token hs (hread rest hrest) hk, List.drop_left]
  cases kindsFrom kind.endsStatement rest <;> simp [hstep]

/-- The end of a line on which nothing has to be ended. -/
theorem newline_idle (phase : Phase) : Reaches Anything ⟨phase, false⟩ ['\n'] ⟨phase, false⟩ := by
  intro rest _
  simp [Config.scan, Phase.scan, kindsFrom_newline]

/-- The end of a line whose last token ends a statement. -/
theorem newline {phase next : Phase} (h : phase.step .semicolon = some next) :
    Reaches Anything ⟨phase, true⟩ ['\n'] ⟨next, false⟩ := by
  intro rest _
  simp only [Config.scan, Phase.scan, List.cons_append, List.nil_append, kindsFrom_newline]
  cases kindsFrom false rest <;> simp [h]

end Reaches

theorem isSkipped_eq_false_of_isNameStart {c : Char} (h : isNameStart c = true) :
    isSkipped c = false := by
  have hskipped : ∀ d ∈ [' ', '\t', '\x0c', '\ufeff'], isNameStart d = false :=
    List.all_iff_forall_prop.mp (by decide +kernel)
  by_contra hs
  have hmem : c ∈ [' ', '\t', '\x0c', '\ufeff'] := by
    simpa [isSkipped, or_assoc] using Bool.of_not_eq_false hs
  rw [hskipped c hmem] at h
  cases h

/-- A name is read as far as it goes. -/
theorem readLexeme_word {c : Char} {cs rest : List Char} (hw : IsName (c :: cs))
    (hrest : Apart rest) : readLexeme c (cs ++ rest) = .ok (wordKind (c :: cs), cs.length) := by
  have hword : ReadAs c (cs ++ rest) _ := .word hw.1
  rw [(takeWhile_append_of_head hw.2 hrest).1] at hword
  exact hword.eq

namespace Number

theorem readDecimal_digits {ds : List Char} (h : ∀ c ∈ ds, c.isDigit = true) (rest : List Char) :
    readDecimal (ds ++ ']' :: rest) = (.int, ds.length) := by
  have hdigits : ∀ c ∈ ds, decimalPart c = true := fun c hc => by simp [decimalPart, h c hc]
  have hend : ∀ c ∈ (']' :: rest).head?, decimalPart c = false := by
    simp [decimalPart]
  have hrun : run decimalPart (ds ++ ']' :: rest) = ds.length := by
    rw [run, (takeWhile_append_of_head hdigits hend).1]
  have hmark : isMark 'e' 'E' ']' = false := by decide
  simp [readDecimal, hrun, fraction, exponent, hmark]

/-- Digits before a closing bracket are one integer, whatever the first of them is. -/
theorem read_digits {ds : List Char} (hne : ds ≠ []) (h : ∀ c ∈ ds, c.isDigit = true)
    (rest : List Char) : read (ds ++ ']' :: rest) = some (.int, ds.length) := by
  have hdecimal := readDecimal_digits h rest
  have hmarks : ∀ c, c.isDigit = true ∨ c = ']' →
      isMark 'x' 'X' c = false ∧ isMark 'b' 'B' c = false ∧ isMark 'o' 'O' c = false := by
    intro c hc
    have hletters : ∀ d ∈ ['x', 'X', 'b', 'B', 'o', 'O'], d.isDigit = false ∧ d ≠ ']' :=
      List.all_iff_forall_prop.mp (by decide)
    have hne : ∀ d ∈ ['x', 'X', 'b', 'B', 'o', 'O'], c ≠ d := by
      rintro d hd rfl
      rcases hc with hc | hc
      · rw [(hletters c hd).1] at hc
        cases hc
      · exact (hletters c hd).2 hc
    simp only [List.forall_mem_cons] at hne
    simp [isMark, hne]
  cases ds with
  | nil => exact absurd rfl hne
  | cons c ds =>
    by_cases hc : c = '0'
    · subst hc
      cases ds with
      | nil =>
        have hm := hmarks ']' (.inr rfl)
        simp only [List.cons_append, List.nil_append] at hdecimal ⊢
        simp [read, hm, hdecimal]
      | cons d ds =>
        have hm := hmarks d (.inl (h d (by simp)))
        simp only [List.cons_append] at hdecimal ⊢
        simp [read, hm, hdecimal]
    · simp only [List.cons_append] at hdecimal ⊢
      simp [read, hc, hdecimal]

end Number

section Lexemes

variable {s : Config} {phase : Phase}

theorem Reaches.word {w : List Char} (hw : IsName w)
    (hstep : s.phase.step (wordKind w) = some phase) :
    Reaches Apart s w ⟨phase, (wordKind w).endsStatement⟩ := by
  cases w with
  | nil => cases hw
  | cons c cs =>
    exact Reaches.token (isSkipped_eq_false_of_isNameStart hw.1) (isTrivia_wordKind _)
      (fun _ hrest => readLexeme_word hw hrest) hstep

/-- A name that is no keyword. -/
theorem Reaches.name {name : String} (hname : isIdentifier name = true)
    (hkeyword : Keyword.ofSpelling? name.toList = none) (hstep : s.phase.step .ident = some phase) :
    Reaches Apart s name.toList ⟨phase, true⟩ := by
  have hkind : wordKind name.toList = .ident := by rw [wordKind, hkeyword]
  have hword : Reaches Apart s name.toList ⟨phase, (wordKind name.toList).endsStatement⟩ :=
    Reaches.word (isName_iff.mp hname) (by rwa [hkind])
  rwa [hkind] at hword

theorem Reaches.keyword (word : Keyword) (hstep : s.phase.step (.keyword word) = some phase) :
    Reaches Apart s word.spelling.toList ⟨phase, word.endsStatement⟩ := by
  have hname : IsName word.spelling.toList := isName_iff.mp (by cases word <;> decide)
  have hkind : wordKind word.spelling.toList = .keyword word := by cases word <;> decide
  have hword : Reaches Apart s word.spelling.toList
      ⟨phase, (wordKind word.spelling.toList).endsStatement⟩ := Reaches.word hname (by rwa [hkind])
  rwa [hkind] at hword

theorem Reaches.opening (pair : Delimiter) (hstep : s.phase.step (.opening pair) = some phase) :
    Reaches Anything s [pair.opener] ⟨phase, false⟩ :=
  Reaches.token (by cases pair <;> decide) rfl (fun rest _ => by cases pair <;> rfl) hstep

theorem Reaches.closing (pair : Delimiter) (hstep : s.phase.step (.closing pair) = some phase) :
    Reaches Anything s [pair.closer] ⟨phase, true⟩ :=
  Reaches.token (by cases pair <;> decide) rfl (fun rest _ => by cases pair <;> rfl) hstep

theorem Reaches.comma (hstep : s.phase.step .comma = some phase) :
    Reaches Anything s [','] ⟨phase, false⟩ :=
  Reaches.token (by decide) rfl (fun rest _ => rfl) hstep

theorem Reaches.ellipsis (hstep : s.phase.step (.symbol .ellipsis) = some phase) :
    Reaches Anything s ['.', '.', '.'] ⟨phase, false⟩ :=
  Reaches.token (by decide) rfl (fun rest _ => rfl) hstep

theorem Reaches.assign (hstep : s.phase.step (.symbol .assign) = some phase) :
    Reaches Anything s ['=', ' '] ⟨phase, false⟩ := by
  have hsign : Reaches (fun rest => ∃ cs, rest = ' ' :: cs) s ['='] ⟨phase, false⟩ :=
    Reaches.token (by decide) rfl (by rintro _ ⟨cs, rfl⟩; rfl) hstep
  exact hsign.append (Reaches.space _) fun rest _ => ⟨rest, rfl⟩

/-- A star or a point before a name is a sign. -/
theorem readLexeme_symbol {c d : Char} {cs : List Char} {mark : Symbol} (hc : c = '*' ∨ c = '.')
    (hd : isNameStart d = true) (h : Symbol.longest? (c :: d :: cs) = some mark) :
    readLexeme c (d :: cs) = .ok (.symbol mark, mark.spelling.length - 1) := by
  have hdigit := isDigit_eq_false_of_isNameStart hd
  have hsign : IsSign c (d :: cs) := by
    rcases hc with rfl | rfl
    · exact ⟨by simp, by simp, by simp, by decide, rfl, by decide⟩
    · exact ⟨by simp, by simp, by simp, by decide, hdigit, by decide⟩
  exact (ReadAs.symbol hsign h).eq

/-- A star before a name. -/
theorem Reaches.star (hstep : s.phase.step (.symbol .star) = some phase) :
    Reaches NameNext s ['*'] ⟨phase, false⟩ := by
  refine Reaches.token (by decide) rfl ?_ hstep
  rintro _ ⟨c, cs, rfl, hc⟩
  have hassign : ('=' == c) = false := by
    rw [beq_eq_false_iff_ne]
    rintro rfl
    exact absurd hc (by decide)
  have hstar : Symbol.longest? ('*' :: c :: cs) = some .star := by
    simp [Symbol.longest?, Symbol.all, Symbol.spelling, List.isPrefixOf, hassign]
  exact readLexeme_symbol (.inl rfl) hc hstar

/-- A point before a name. -/
theorem Reaches.dot (hstep : s.phase.step .dot = some phase) :
    Reaches NameNext s ['.'] ⟨phase, false⟩ := by
  refine Reaches.token (by decide) rfl ?_ hstep
  rintro _ ⟨c, cs, rfl, hc⟩
  have hpoint : ('.' == c) = false := by
    rw [beq_eq_false_iff_ne]
    rintro rfl
    exact absurd hc (by decide)
  have hdot : Symbol.longest? ('.' :: c :: cs) = some .dot := by
    simp [Symbol.longest?, Symbol.all, Symbol.spelling, List.isPrefixOf, hpoint]
  exact readLexeme_symbol (.inr rfl) hc hdot

/-- A length before its closing bracket. -/
theorem Reaches.digits {ds : List Char} (hne : ds ≠ []) (h : ∀ c ∈ ds, c.isDigit = true)
    (hstep : s.phase.step (.literal .int) = some phase) :
    Reaches (fun rest => ∃ cs, rest = ']' :: cs) s ds ⟨phase, true⟩ := by
  cases ds with
  | nil => exact absurd rfl hne
  | cons c ds =>
    have hc := h c (by simp)
    have hsigns : ∀ d ∈ [' ', '\t', '\x0c', '\ufeff', '.'], d.isDigit = false :=
      List.all_iff_forall_prop.mp (by decide)
    have hne : ∀ d ∈ [' ', '\t', '\x0c', '\ufeff', '.'], c ≠ d := by
      rintro d hd rfl
      rw [hsigns c hd] at hc
      cases hc
    simp only [List.forall_mem_cons] at hne
    obtain ⟨hspace, htab, hform, hmark, hdot, -⟩ := hne
    refine Reaches.token (by simp [isSkipped, hspace, htab, hform, hmark]) rfl ?_ hstep
    rintro _ ⟨rest, rfl⟩
    have hstarts : Number.starts (c :: (ds ++ ']' :: rest)) = true := by
      simp [Number.starts, hdot, hc]
    exact (ReadAs.number hstarts (Number.read_digits hne h rest)).eq

end Lexemes

section Quoted

/-- What an escape puts for one character of a quoted literal. -/
def Escaped (cs : List Char) : Prop :=
  (∃ c, cs = [c] ∧ c ≠ '"' ∧ c ≠ '\\' ∧ Text.isLineBreak c = false) ∨
    ∃ c, cs = ['\\', c] ∧ Text.isLineBreak c = false

theorem Escaped.isLineBreak_eq_false {cs : List Char} (h : Escaped cs) {c : Char} (hc : c ∈ cs) :
    Text.isLineBreak c = false := by
  rcases h with ⟨d, rfl, -, -, hd⟩ | ⟨d, rfl, hd⟩
  · rwa [List.mem_singleton.mp hc]
  · rcases List.mem_cons.mp hc with rfl | hc
    · rfl
    · rwa [List.mem_singleton.mp hc]

theorem escaped_escapePath {c : Char} (h : Text.isLineBreak c = false) :
    Escaped (Text.escapePath c) := by
  unfold Text.escapePath
  split
  · exact .inr ⟨c, rfl, h⟩
  · rename_i hplain
    exact .inl ⟨c, rfl, fun he => hplain (.inl he), fun he => hplain (.inr he), h⟩

theorem escaped_escapeTag (c : Char) : Escaped (Text.escapeTag c) := by
  unfold Text.escapeTag
  split
  · rename_i h
    exact .inr ⟨c, rfl, by rcases h with rfl | rfl <;> decide⟩
  · rename_i h
    split
    · exact .inr ⟨'n', rfl, by decide⟩
    · split
      · exact .inr ⟨'r', rfl, by decide⟩
      · split
        · exact .inr ⟨'t', rfl, by decide⟩
        · refine .inl ⟨c, rfl, fun he => h (.inl he), fun he => h (.inr he), ?_⟩
          simp_all [Text.isLineBreak]

/-- Escaped characters do not end a literal, whatever comes after them. -/
theorem closeQuote?_append {escape : Char → List Char} {cs : List Char}
    (h : ∀ c ∈ cs, Escaped (escape c)) (rest : List Char) :
    closeQuote? '"' (cs.flatMap escape ++ rest) =
      (closeQuote? '"' rest).map (· + (cs.flatMap escape).length) := by
  induction cs with
  | nil => simp
  | cons c cs ih =>
    have ih' := ih fun d hd => h d (List.mem_cons_of_mem _ hd)
    rw [List.flatMap_cons, List.append_assoc]
    rcases h c (by simp) with ⟨d, hd, hquote, hslash, hbreak⟩ | ⟨d, hd, hbreak⟩
    · simp [hd, closeQuote?, hquote, hslash, hbreak, ih', Function.comp_def, Nat.add_assoc]
    · simp [hd, closeQuote?, hbreak, ih', Function.comp_def, Nat.add_assoc]

theorem closeQuote?_flatMap {escape : Char → List Char} {cs : List Char}
    (h : ∀ c ∈ cs, Escaped (escape c)) (rest : List Char) :
    closeQuote? '"' (cs.flatMap escape ++ '"' :: rest) = some ((cs.flatMap escape).length + 1) := by
  simp [closeQuote?_append h, closeQuote?, Nat.add_comm]

theorem Reaches.quoted {s : Config} {phase : Phase} {escape : Char → List Char} {text : String}
    (h : ∀ c ∈ text.toList, Escaped (escape c))
    (hstep : s.phase.step (.literal .string) = some phase) :
    Reaches Anything s (Text.quoteWith escape text).toList ⟨phase, true⟩ := by
  rw [Text.quoteWith, String.toList_ofList, List.cons_append]
  refine Reaches.token (by decide) rfl ?_ hstep
  intro rest _
  rw [List.append_assoc, List.singleton_append, List.length_append]
  exact (ReadAs.string rfl (closeQuote?_flatMap h rest)).eq

end Quoted

section Comments

/-- A comment line changes nothing. -/
theorem Reaches.commentLine {line : List Char} (h : ∀ c ∈ line, Text.isLineBreak c = false)
    (phase : Phase) :
    Reaches Anything ⟨phase, false⟩ ('/' :: '/' :: (line ++ ['\n'])) ⟨phase, false⟩ := by
  intro rest _
  have htext : ∀ c ∈ '/' :: line, (!Text.isLineBreak c) = true := by
    intro c hc
    rcases List.mem_cons.mp hc with rfl | hc
    · decide
    · simp [h c hc]
  have hend : ∀ c ∈ ('\n' :: rest).head?, (!Text.isLineBreak c) = false := by
    simp [Text.isLineBreak]
  have hread : readLexeme '/' ('/' :: line ++ '\n' :: rest) =
      .ok (.lineComment, ('/' :: line).length) := by
    have hcomment : ReadAs '/' ('/' :: line ++ '\n' :: rest) _ := .lineComment ⟨rfl, rfl⟩
    rw [(takeWhile_append_of_head htext hend).1] at hcomment
    exact hcomment.eq
  have hidle := Reaches.newline_idle phase rest trivial
  simp only [Config.scan, Phase.scan] at hidle ⊢
  rw [← hidle, List.cons_append, List.cons_append, List.append_assoc, List.singleton_append,
    ← List.cons_append, kindsFrom_trivia (by decide) hread rfl, List.drop_left]
  rfl

end Comments

section FreeText

/-- A text that can be read on its own, and what follows on the next line. -/
theorem Phase.scan_line {s : Phase} {pending : Bool} {cs : List Char} {ks : List Kind}
    (h : kindsFrom pending cs = some ks) (ds : List Char) :
    s.scan pending (cs ++ '\n' :: ds) = (s.run ks).bind (·.scan false ds) := by
  rw [Phase.scan, kindsFrom_line h ds]
  cases hds : kindsFrom false ds <;> cases hrun : s.run ks <;>
    simp [Phase.scan, Phase.run_append, hds, hrun]

/-- A text that can be read on its own, at the end of its line. -/
theorem Reaches.line {pending : Bool} {cs : List Char} {ks : List Kind} {phase next : Phase}
    (hks : kindsFrom pending cs = some ks) (hrun : phase.run ks = some next) :
    Reaches Anything ⟨phase, pending⟩ (cs ++ ['\n']) ⟨next, false⟩ := by
  intro rest _
  rw [List.append_assoc, List.singleton_append, Config.scan, Phase.scan_line hks, hrun]
  rfl

/-- A text that passes as an expression, at the end of a line of a declaration. -/
theorem Reaches.value {value : String} (hcheck : Expression.check value = .ok ())
    (hfits : Expression.FitsLine value) (pastImports : Bool) (opened : List Delimiter) :
    Reaches Anything ⟨.inside pastImports opened true, false⟩ (value.toList ++ ['\n'])
      ⟨.lineEnd pastImports opened, false⟩ := by
  obtain ⟨ks, hks, hrun⟩ := Expression.exists_kinds hcheck hfits
  exact Reaches.line hks (hrun pastImports opened)

theorem closesNothing_brace : ClosesNothing ['\x7d', '\n'] := ⟨rfl, rfl⟩

/-- The brace that ends a function, on a line of its own. -/
theorem kindsFrom_lastBrace (cs : List Char) :
    kindsFrom false ('\x7d' :: '\n' :: cs) =
      (kindsFrom false cs).map ([.closing .brace, .semicolon] ++ ·) := by
  have hread : readLexeme '\x7d' ('\n' :: cs) = .ok (.closing .brace, 0) := rfl
  rw [kindsFrom_token (by decide) hread rfl, List.drop_zero, Kind.endsStatement, kindsFrom_newline]
  simp [Function.comp_def]

theorem Reaches.lastBrace {phase next : Phase}
    (h : phase.run [.closing .brace, .semicolon] = some next) :
    Reaches Anything ⟨phase, false⟩ ['\x7d', '\n'] ⟨next, false⟩ := by
  intro rest _
  simp only [Config.scan, Phase.scan, List.cons_append, List.nil_append, kindsFrom_lastBrace]
  cases kindsFrom false rest with
  | none => rfl
  | some ks =>
    change phase.run ([.closing .brace, .semicolon] ++ ks) = _
    rw [Phase.run_append, h]
    rfl

theorem reaches_packageClause :
    Reaches Anything ⟨.packageClause, false⟩ "package p\n".toList ⟨.outside false, false⟩ := by
  have hname : Reaches Anything ⟨.packageName, false⟩ ("p".toList ++ ['\n'])
      ⟨.outside false, false⟩ :=
    (Reaches.name (by decide) (by decide) rfl).append_sign (by decide) (Reaches.newline rfl)
  exact (Reaches.keyword .kwPackage rfl).append_sign (by decide) ((Reaches.space _).trans hname)

/-- The head of a function without parameters, up to its body. -/
theorem reaches_funcOpening {name : String} (hname : isIdentifier name = true)
    (hkeyword : Keyword.ofSpelling? name.toList = none) (pastImports : Bool) :
    Reaches Anything ⟨.outside pastImports, false⟩
      ("func ".toList ++ (name.toList ++ "() \x7b\n".toList))
      ⟨.inside true [.brace] true, false⟩ := by
  have hbraces : Reaches Anything ⟨.inside true [] true, true⟩
      (['('] ++ ([')'] ++ ([' '] ++ (['\x7b'] ++ ['\n'])))) ⟨.inside true [.brace] true, false⟩ :=
    (Reaches.opening .paren rfl).trans ((Reaches.closing .paren rfl).trans ((Reaches.space _).trans
      ((Reaches.opening .brace rfl).trans (Reaches.newline_idle _))))
  exact (Reaches.keyword .kwFunc rfl).append_sign (by decide) ((Reaches.space _).trans
    ((Reaches.name hname hkeyword rfl).append_sign (by decide) hbraces))

theorem reaches_bodyOpening :
    Reaches Anything ⟨.packageClause, false⟩ SourceFile.bodyOpening.toList
      ⟨.inside true [.brace] true, false⟩ := by
  have hname : isIdentifier "_" = true := by decide
  exact reaches_packageClause.trans (reaches_funcOpening hname (by decide) false)

/-- A text between the braces of a function, which ends its last line itself or has
the line ended after it. -/
theorem Reaches.text {content : String} {ks : List Kind} {phase next : Phase}
    (hks : kindsFrom false content.toList = some ks) (hrun : phase.run ks = some next) :
    Reaches Anything ⟨phase, false⟩
      (content.toList ++
        if content.isEmpty || content.toList.getLast? == some '\n' then [] else ['\n'])
      ⟨next, false⟩ := by
  cases hempty : content.isEmpty with
  | true =>
    obtain rfl := String.isEmpty_iff.mp hempty
    obtain rfl : [] = ks := by simpa [kindsFrom] using hks
    obtain rfl := Option.some.inj hrun
    exact Reaches.refl _ _
  | false =>
    by_cases hlast : content.toList.getLast? = some '\n'
    · obtain ⟨cs, hcs⟩ := List.getLast?_eq_some_iff.mp hlast
      rw [hcs] at hks
      have hline : kindsFrom false cs = some ks := by
        cases hinit : kindsFrom false cs with
        | none =>
          rw [kindsFrom_line_eq_none hinit ⟨rfl, rfl⟩] at hks
          cases hks
        | some ls => simpa [kindsFrom, kindsFrom_line hinit] using hks
      simpa [hlast, hcs] using Reaches.line hline hrun
    · simpa [hempty, hlast] using Reaches.line hks hrun

/-- A text passes as a function body if a check that stands inside a brace gets from it and
the brace after it to the end of a declaration. -/
theorem SourceFile.checkBody_eq_ok_iff (src : String) :
    checkBody src = .ok () ↔ ∃ pastImports, (Phase.inside true [.brace] true).scan false
      (src.toList ++ '\n' :: ['\x7d', '\n']) = some (.outside pastImports) := by
  have hverdict : checkBody src = .ok () ↔ check (bodyOpening ++ src ++ bodyClosing) = .ok () := by
    unfold checkBody
    cases check (bodyOpening ++ src ++ bodyClosing) <;> simp [Except.mapError]
  have htext : (bodyOpening ++ src ++ bodyClosing).toList =
      bodyOpening.toList ++ (src.toList ++ '\n' :: ['\x7d', '\n']) := by
    rw [String.toList_append, String.toList_append, List.append_assoc]
    rfl
  have hopening := reaches_bodyOpening (src.toList ++ '\n' :: ['\x7d', '\n']) trivial
  simp only [Config.scan] at hopening
  rw [hverdict, check_eq_ok_iff, htext, hopening]

/-- A text that passes as a function body can be read on its own. -/
theorem SourceFile.checkBody_eq_ok_iff_run (src : String) :
    checkBody src = .ok () ↔ ∃ ks, kindsFrom false src.toList = some ks ∧
      ∃ pastImports, (Phase.inside true [.brace] true).run (ks ++ [.closing .brace, .semicolon]) =
        some (.outside pastImports) := by
  rw [checkBody_eq_ok_iff]
  cases hks : kindsFrom false src.toList with
  | none =>
    -- The line after the body closes no comment and no string that the body leaves open.
    simp [Phase.scan, kindsFrom_line_eq_none hks closesNothing_brace]
  | some ks => simp [Phase.scan, kindsFrom_line hks, kindsFrom_lastBrace]

/-- A text that passes as a function body or is left out, and the brace after it. -/
theorem Reaches.body {content : String}
    (h : content.isEmpty = true ∨ SourceFile.checkBody content = .ok ()) :
    ∃ phase pastImports,
      Reaches Anything ⟨.inside true [.brace] true, false⟩
        (content.toList ++
          if content.isEmpty || content.toList.getLast? == some '\n' then [] else ['\n'])
        ⟨phase, false⟩ ∧
      Reaches Anything ⟨phase, false⟩ ['\x7d', '\n'] ⟨.outside pastImports, false⟩ := by
  rcases h with hempty | hbody
  · obtain rfl := String.isEmpty_iff.mp hempty
    exact ⟨_, true, Reaches.refl _ _, (Reaches.closing .brace rfl).trans (Reaches.newline rfl)⟩
  · obtain ⟨ks, hks, pastImports, h⟩ := (SourceFile.checkBody_eq_ok_iff_run content).mp hbody
    rw [Phase.run_append] at h
    obtain ⟨phase, hrun, hlast⟩ := Option.bind_eq_some_iff.mp h
    exact ⟨phase, pastImports, Reaches.text hks hrun, Reaches.lastBrace hlast⟩

end FreeText

end GoSource
