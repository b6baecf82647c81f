import GoSource.Proofs.Token.Kinds
import GoSource.Proofs.Token.Lexemes
import Mathlib.Data.List.TakeWhile

/-!
# Where semicolons are inserted

The rule of insertion, told about the whole gap between two tokens: a token that ends a
statement is followed by one semicolon if the line ends in the gap or the source ends
there, and the semicolon stands at the first line break after the token. Reading that
stops at a problem follows the same rule up to it, without the end of the source.
-/

namespace GoSource

open Text (isLineBreak byteSize)

/-- The line ends with this lexeme: a line end, or a block comment with a line break. -/
def Lexeme.EndsLine (l : Lexeme) : Prop :=
  l.kind = .newline ∨ (l.kind = .blockComment ∧ ∃ c ∈ l.text.toList, isLineBreak c = true)

/-- The trivia before the next token. -/
def gap (ls : List Lexeme) : List Lexeme := ls.takeWhile (·.kind.isTrivia)

/-- The first line break of a text that starts at the byte offset `start` is at `offset`. -/
def BreaksAt (start : Nat) (cs : List Char) (offset : Nat) : Prop :=
  ∃ before c after, cs = before ++ c :: after ∧ (∀ d ∈ before, isLineBreak d = false) ∧
    isLineBreak c = true ∧ offset = start + byteSize before

/-- The first line break of the source at or after the byte offset `start` is at `offset`. -/
def FirstBreakFrom (src : String) (start offset : Nat) : Prop :=
  ∃ before cs, src.toList = before ++ cs ∧ start = byteSize before ∧ BreaksAt start cs offset

/-- The lexeme of a token that is written in the source. -/
def Token.lexeme? : Token → Option Lexeme
  | written l => some l
  | inserted _ => none

/-- The line ends before the next token. -/
def LineEnds (after : List Lexeme) : Prop := ∃ m ∈ gap after, m.EndsLine

/-- After the token `l` of the source, which the lexemes `after` follow, a semicolon is due. -/
def SemicolonDue (src : String) (l : Lexeme) (after : List Lexeme) : Prop :=
  l.kind.endsStatement = true ∧
    (LineEnds after ∨ ((∀ m ∈ after, m.kind.isTrivia = true) ∧ (lex src).stopped = none))

/-- What the rule says about the tokens inserted after the token `l` of the source, which
the lexemes `after` follow. -/
structure InsertedAfter (src : String) (l : Lexeme) (after : List Lexeme)
    (inserted : List Token) : Prop where
  atMostOne : inserted.length ≤ 1
  inserted_iff : inserted ≠ [] ↔ SemicolonDue src l after
  isSemicolon : ∀ t ∈ inserted, t.kind = .semicolon ∧ t.stop = t.start
  atLineBreak : ∀ t ∈ inserted, LineEnds after →
    FirstBreakFrom src l.stop t.start ∧
      ∃ m ∈ gap after, m.EndsLine ∧ m.start ≤ t.start ∧ t.start < m.stop
  atEnd : ∀ t ∈ inserted, ¬ LineEnds after → t.start = src.utf8ByteSize

section LineBreaks

theorem BreaksAt.append {start offset : Nat} {cs : List Char} (h : BreaksAt start cs offset)
    (rest : List Char) : BreaksAt start (cs ++ rest) offset := by
  obtain ⟨before, c, after, rfl, hbefore, hc, hoffset⟩ := h
  exact ⟨before, c, after ++ rest, by simp, hbefore, hc, hoffset⟩

theorem BreaksAt.after {start offset : Nat} {first cs : List Char}
    (hfirst : ∀ d ∈ first, isLineBreak d = false)
    (h : BreaksAt (start + byteSize first) cs offset) : BreaksAt start (first ++ cs) offset := by
  obtain ⟨before, c, after, rfl, hbefore, hc, hoffset⟩ := h
  refine ⟨first ++ before, c, after, by simp, ?_, hc, ?_⟩
  · intro d hd
    rcases List.mem_append.mp hd with hd | hd
    · exact hfirst d hd
    · exact hbefore d hd
  · rw [hoffset, Text.byteSize_append, Nat.add_assoc]

theorem BreaksAt.bounds {start offset : Nat} {cs : List Char} (h : BreaksAt start cs offset) :
    start ≤ offset ∧ offset < start + byteSize cs := by
  obtain ⟨before, c, after, rfl, -, -, rfl⟩ := h
  have hc := c.utf8Size_pos
  simp only [Text.byteSize_append, byteSize]
  omega

theorem byteSize_toList (s : String) : byteSize s.toList = s.utf8ByteSize := by
  rw [← Text.utf8ByteSize_ofList, String.ofList_toList]

theorem Lexeme.lineBreak?_eq_none_iff (l : Lexeme) :
    l.lineBreak? = none ↔ ∀ c ∈ l.text.toList, isLineBreak c = false := by
  rw [← Option.not_isSome_iff_eq_none, l.isSome_lineBreak?]
  simp

theorem Lexeme.breaksAt_of_lineBreak? {l : Lexeme} {offset : Nat} (h : l.lineBreak? = some offset) :
    BreaksAt l.start l.text.toList offset := by
  simp only [Lexeme.lineBreak?] at h
  split at h
  · rename_i hlength
    obtain rfl := Option.some.inj h
    have hsplit := List.takeWhile_append_dropWhile (p := fun c => !isLineBreak c)
      (l := l.text.toList)
    cases hrest : l.text.toList.dropWhile fun c => !isLineBreak c with
    | nil =>
      rw [hrest, List.append_nil] at hsplit
      rw [hsplit] at hlength
      omega
    | cons c after =>
      rw [hrest] at hsplit
      refine ⟨_, c, after, hsplit.symm, fun d hd => ?_, ?_, rfl⟩
      · simpa using List.mem_takeWhile_imp hd
      · have hhead := List.head_dropWhile_not (fun c => !isLineBreak c) (l := l.text.toList)
          (by simp [hrest])
        simpa [hrest] using hhead
  · cases h

/-- Of the lexemes of a text, those that end the line are the trivia with a line break. -/
theorem Lexeme.endsLine_iff {offset : Nat} {cs : List Char} {l : Lexeme}
    (hl : l ∈ (lexFrom offset cs).items) (hk : l.kind.isTrivia = true) :
    l.EndsLine ↔ l.lineBreak? ≠ none := by
  obtain ⟨c, rest, n, hread, htext⟩ := exists_readLexeme hl
  rw [ne_eq, l.lineBreak?_eq_none_iff, EndsLine]
  obtain ⟨hkind, hc⟩ | ⟨hkind, ⟨rfl, -⟩, rfl⟩ | hkind := readLexeme_trivia hread hk
  · have hmem : c ∈ l.text.toList := by simp [htext]
    simp only [hkind, true_or, true_iff]
    intro hnone
    rw [hnone c hmem] at hc
    cases hc
  · -- A line comment ends before the first line break.
    have htake : rest.take (rest.takeWhile fun d => !isLineBreak d).length =
        rest.takeWhile fun d => !isLineBreak d :=
      (List.prefix_iff_eq_take.mp (List.takeWhile_prefix _)).symm
    have hnone : ∀ d ∈ l.text.toList, isLineBreak d = false := by
      intro d hd
      rw [htext, htake] at hd
      rcases List.mem_cons.mp hd with rfl | hd
      · decide
      · simpa using List.mem_takeWhile_imp hd
    simpa [hkind] using hnone
  · simp [hkind]

theorem isLineBreak_eq_false_of_isSkipped {c : Char} (h : isSkipped c = true) :
    isLineBreak c = false := by
  simp only [isSkipped, Bool.or_eq_true, beq_iff_eq] at h
  obtain ((rfl | rfl) | rfl) | rfl := h <;> decide

/-- The first line break in the gap before the next token is the first one of the text. -/
theorem breaksAt_of_gap {offset place : Nat} {cs : List Char}
    (h : (gap (lexFrom offset cs).items).findSome? Lexeme.lineBreak? = some place) :
    BreaksAt offset cs place := by
  fun_induction lexFrom offset cs with
  | case1 offset => cases h
  | case2 offset c cs hs ih =>
    show BreaksAt offset ([c] ++ cs) place
    refine BreaksAt.after ?_ (ih h)
    intro d hd
    rw [List.mem_singleton.mp hd]
    exact isLineBreak_eq_false_of_isSkipped hs
  | case3 offset c cs hs problem hread => cases h
  | case4 offset c cs hs kind n hread text ih =>
    rw [Reading.cons, gap, List.takeWhile_cons] at h
    split at h
    · rw [List.findSome?_cons] at h
      rw [← cons_take_append_drop c cs n]
      split at h
      · rename_i hline
        obtain rfl := Option.some.inj h
        have hbreaks := Lexeme.breaksAt_of_lineBreak? hline
        rw [String.toList_ofList] at hbreaks
        exact hbreaks.append _
      · rename_i hline
        have hnone := (Lexeme.lineBreak?_eq_none_iff _).mp hline
        rw [String.toList_ofList] at hnone
        exact BreaksAt.after hnone (ih h)
    · cases h

end LineBreaks

section Stream

/-- The semicolon that is due in the lexemes after a token that ends a statement. -/
def semicolonDue? (finish : Option Nat) (ls : List Lexeme) : Option Nat :=
  ((gap ls).findSome? Lexeme.lineBreak?).or (if ls.all (·.kind.isTrivia) then finish else none)

theorem insertSemicolons_token {finish : Option Nat} {pending : Bool} {l : Lexeme}
    (hl : l.kind.isTrivia = false) (ls : List Lexeme) :
    insertSemicolons finish pending (l :: ls) =
      .written l :: insertSemicolons finish l.kind.endsStatement ls := by
  rw [insertSemicolons.eq_def]
  simp only [hl, Bool.false_eq_true, if_false]

/-- Trivia adds a semicolon if one is pending and the line ends, and then none is pending. -/
theorem insertSemicolons_trivia {finish : Option Nat} {pending : Bool} {l : Lexeme}
    (hl : l.kind.isTrivia = true) (ls : List Lexeme) :
    insertSemicolons finish pending (l :: ls) =
      (if pending then l.lineBreak? else none).toList.map .inserted ++
        insertSemicolons finish (pending && l.lineBreak?.isNone) ls := by
  rw [insertSemicolons.eq_def]
  simp only [hl, if_true]
  cases pending <;> cases l.lineBreak? <;> rfl

/-- What comes before a token depends neither on it nor on how the source ends. -/
theorem insertSemicolons_append {l : Lexeme} (hl : l.kind.isTrivia = false)
    (finish : Option Nat) (pending : Bool) (before after : List Lexeme) :
    insertSemicolons finish pending (before ++ l :: after) =
      insertSemicolons none pending before ++
        .written l :: insertSemicolons finish l.kind.endsStatement after := by
  induction before generalizing pending with
  | nil =>
    rw [List.nil_append, insertSemicolons_token hl]
    cases pending <;> rfl
  | cons m before ih =>
    rw [List.cons_append]
    cases hm : m.kind.isTrivia with
    | false => rw [insertSemicolons_token hm, insertSemicolons_token hm, ih, List.cons_append]
    | true => rw [insertSemicolons_trivia hm, insertSemicolons_trivia hm, ih, List.append_assoc]

theorem filterMap_inserted (place : Option Nat) :
    (place.toList.map Token.inserted).filterMap Token.lexeme? = [] := by
  cases place <;> rfl

/-- The written tokens are the lexemes that are no trivia. -/
theorem filterMap_insertSemicolons (finish : Option Nat) (pending : Bool) (ls : List Lexeme) :
    (insertSemicolons finish pending ls).filterMap Token.lexeme? =
      ls.filter (!·.kind.isTrivia) := by
  induction ls generalizing pending with
  | nil =>
    cases pending with
    | false => rfl
    | true => cases finish <;> rfl
  | cons m ls ih =>
    cases hm : m.kind.isTrivia with
    | false =>
      rw [insertSemicolons_token hm, List.filter_cons_of_pos (by simp [hm]), ← ih]
      rfl
    | true =>
      rw [insertSemicolons_trivia hm, List.filterMap_append, filterMap_inserted,
        List.nil_append, ih, List.filter_cons_of_neg (by simp [hm])]

/-- The tokens inserted before the next written one: none if no semicolon is pending. -/
theorem takeWhile_insertSemicolons (finish : Option Nat) (pending : Bool) (ls : List Lexeme) :
    (insertSemicolons finish pending ls).takeWhile Token.isInserted =
      if pending then (semicolonDue? finish ls).toList.map .inserted else [] := by
  induction ls generalizing pending with
  | nil =>
    cases pending with
    | false => rfl
    | true => cases finish <;> rfl
  | cons m ls ih =>
    cases hm : m.kind.isTrivia with
    | false =>
      rw [insertSemicolons_token hm]
      simp [Token.isInserted, semicolonDue?, gap, hm]
    | true =>
      rw [insertSemicolons_trivia hm]
      cases pending with
      | false => simp [ih]
      | true =>
        cases hline : m.lineBreak? with
        | none => simp [ih, semicolonDue?, gap, hm, hline]
        | some place =>
          simp [ih, semicolonDue?, gap, hm, hline, List.takeWhile_cons, Token.isInserted]

/-- Lexemes without a token leave the semicolon that is pending; all others end in a token,
with a semicolon after it if it ends a statement. -/
theorem insertSemicolons_last (finish : Nat) (pending : Bool) (ls : List Lexeme) :
    (∃ place, insertSemicolons (some finish) pending ls =
      if pending then [.inserted place] else []) ∨
    ∃ before l place, insertSemicolons (some finish) pending ls =
      before ++ .written l :: if l.kind.endsStatement then [.inserted place] else [] := by
  induction ls generalizing pending with
  | nil => exact .inl ⟨finish, rfl⟩
  | cons m ls ih =>
    cases hm : m.kind.isTrivia with
    | false =>
      rw [insertSemicolons_token hm]
      rcases ih m.kind.endsStatement with ⟨place, hrest⟩ | ⟨before, l, place, hrest⟩
      · exact .inr ⟨[], m, place, by rw [hrest, List.nil_append]⟩
      · exact .inr ⟨.written m :: before, l, place, by rw [hrest, List.cons_append]⟩
    | true =>
      rw [insertSemicolons_trivia hm]
      rcases ih (pending && m.lineBreak?.isNone) with ⟨place, hrest⟩ | ⟨before, l, place, hrest⟩
      · refine .inl ⟨m.lineBreak?.getD place, ?_⟩
        rw [hrest]
        cases pending <;> cases m.lineBreak? <;> rfl
      · exact .inr ⟨_, l, place, by rw [hrest, ← List.append_assoc]⟩

/-- The tokens of a text end in a token that is written, with a semicolon after it if it ends
a statement. -/
theorem exists_last_token {src : String} {ts : List Token} (h : tokenize src = .ok ts)
    (hne : ts ≠ []) :
    ∃ before l place, ts = before ++ .written l ::
      if l.kind.endsStatement then [.inserted place] else [] := by
  cases hstopped : (lex src).stopped with
  | some d => simp [tokenize, scan, hstopped, Reading.toExcept] at h
  | none =>
    obtain rfl : insertSemicolons (some src.utf8ByteSize) false (lex src).items = ts := by
      simpa [tokenize, scan, hstopped, Reading.toExcept] using h
    rcases insertSemicolons_last src.utf8ByteSize false (lex src).items with ⟨place, hnil⟩ | hlast
    · exact absurd hnil hne
    · exact hlast

end Stream

section Rule

variable {src : String} {before after : List Lexeme} {l : Lexeme}

theorem mem_gap {ls : List Lexeme} {m : Lexeme} (h : m ∈ gap ls) :
    m ∈ ls ∧ m.kind.isTrivia = true := by
  constructor
  · exact (List.takeWhile_prefix _).subset h
  · exact List.mem_takeWhile_imp (p := fun l : Lexeme => l.kind.isTrivia) h

/-- Whether the line ends before the next token, told from the line breaks in the gap. -/
theorem lineEnds_iff (offset : Nat) (cs : List Char) :
    LineEnds (lexFrom offset cs).items ↔
      (gap (lexFrom offset cs).items).findSome? Lexeme.lineBreak? ≠ none := by
  have hends : ∀ m ∈ gap (lexFrom offset cs).items, (m.EndsLine ↔ m.lineBreak? ≠ none) := by
    intro m hm
    obtain ⟨hmem, htrivia⟩ := mem_gap hm
    exact Lexeme.endsLine_iff hmem htrivia
  rw [ne_eq, List.findSome?_eq_none_iff]
  constructor
  · intro ⟨m, hm, hline⟩ hnone
    exact (hends m hm).mp hline (hnone m hm)
  · intro hsome
    by_contra hno
    apply hsome
    intro m hm
    by_contra hline
    exact hno ⟨m, hm, (hends m hm).mpr hline⟩

theorem insertedAfter_nil (h : ¬ SemicolonDue src l after) : InsertedAfter src l after [] where
  atMostOne := Nat.zero_le 1
  inserted_iff := iff_of_false (fun hne => hne rfl) h
  isSemicolon := by simp
  atLineBreak := by simp
  atEnd := by simp

theorem insertedAfter_singleton {place : Nat} (hdue : SemicolonDue src l after)
    (hbreak : LineEnds after → FirstBreakFrom src l.stop place ∧
      ∃ m ∈ gap after, m.EndsLine ∧ m.start ≤ place ∧ place < m.stop)
    (hend : ¬ LineEnds after → place = src.utf8ByteSize) :
    InsertedAfter src l after [.inserted place] where
  atMostOne := Nat.le_refl 1
  inserted_iff := iff_of_true (List.cons_ne_nil _ _) hdue
  isSemicolon := List.forall_mem_singleton.mpr ⟨rfl, rfl⟩
  atLineBreak := List.forall_mem_singleton.mpr hbreak
  atEnd := List.forall_mem_singleton.mpr hend

/-- The first line break of the gap is where the semicolon of a line end belongs. -/
theorem insertedAfter_lineBreak {place : Nat} (h : (lex src).items = before ++ l :: after)
    (hends : l.kind.endsStatement = true)
    (hplace : (gap after).findSome? Lexeme.lineBreak? = some place) :
    InsertedAfter src l after [.inserted place] := by
  obtain ⟨read, rest, hsrc, hstop, hrest⟩ := lexFrom_resumes h
  rw [Nat.zero_add] at hstop
  have hafter : (lexFrom l.stop rest).items = after := by rw [hrest]
  have hbreaks : BreaksAt l.stop rest place := by
    apply breaksAt_of_gap
    rw [hafter, hplace]
  obtain ⟨m, hm, hline⟩ := List.exists_of_findSome?_eq_some hplace
  have hmends : m.EndsLine := by
    obtain ⟨hmem, htrivia⟩ := mem_gap hm
    rw [← hafter] at hmem
    rw [Lexeme.endsLine_iff hmem htrivia, hline]
    exact Option.some_ne_none place
  obtain ⟨hfrom, hto⟩ := (Lexeme.breaksAt_of_lineBreak? hline).bounds
  rw [byteSize_toList] at hto
  have hlineEnds : LineEnds after := ⟨m, hm, hmends⟩
  apply insertedAfter_singleton ⟨hends, .inl hlineEnds⟩
  · intro _
    exact ⟨⟨read, rest, hsrc, hstop, hbreaks⟩, m, hm, hmends, hfrom, hto⟩
  · intro hno
    exact absurd hlineEnds hno

/-- The tokens inserted after a token follow the rule. -/
theorem insertedAfter_of_split (h : (lex src).items = before ++ l :: after) :
    InsertedAfter src l after
      ((insertSemicolons (if (lex src).stopped.isNone then some src.utf8ByteSize else none)
        l.kind.endsStatement after).takeWhile Token.isInserted) := by
  obtain ⟨read, rest, hsrc, hstop, hrest⟩ := lexFrom_resumes h
  have hlineEnds := lineEnds_iff l.stop rest
  rw [hrest] at hlineEnds
  rw [takeWhile_insertSemicolons]
  cases hends : l.kind.endsStatement with
  | false => exact insertedAfter_nil (by simp [SemicolonDue, hends])
  | true =>
    rw [if_pos rfl, semicolonDue?]
    cases hplace : (gap after).findSome? Lexeme.lineBreak? with
    | some place => exact insertedAfter_lineBreak h hends hplace
    | none =>
      have hno : ¬ LineEnds after := by
        rw [hlineEnds, hplace]
        exact fun hne => hne rfl
      by_cases hlast : (∀ m ∈ after, m.kind.isTrivia = true) ∧ (lex src).stopped = none
      · have hall : after.all (·.kind.isTrivia) = true := List.all_eq_true.mpr hlast.1
        simp only [hlast.2, hall]
        exact insertedAfter_singleton ⟨hends, .inr hlast⟩ (fun hline => absurd hline hno)
          fun _ => rfl
      · have hnot : ¬ SemicolonDue src l after := fun hdue => hdue.2.elim hno hlast
        have hfinish : (if after.all (·.kind.isTrivia) then
            if (lex src).stopped.isNone then some src.utf8ByteSize else none else none) = none := by
          split
          · split
            · rename_i hall hnone
              exact absurd ⟨List.all_eq_true.mp hall, Option.isNone_iff_eq_none.mp hnone⟩ hlast
            · rfl
          · rfl
        rw [hfinish]
        exact insertedAfter_nil hnot

end Rule

/-- The tokens of a source text. Those that are written are its lexemes less the trivia, in
order. The source does not start with an inserted token, and after every written token the
rule says what is inserted. A problem stops both readings; it is reported where the text
that could not be read starts, after all lexemes. -/
theorem scan_inserts_by_rule (src : String) :
    (scan src).items.filterMap Token.lexeme? = (lex src).items.filter (!·.kind.isTrivia) ∧
    (scan src).items.takeWhile Token.isInserted = [] ∧
    (∀ before l after, (lex src).items = before ++ l :: after → l.kind.isTrivia = false →
      ∃ first rest, (scan src).items = first ++ .written l :: rest ∧
        first.filterMap Token.lexeme? = before.filter (!·.kind.isTrivia) ∧
        InsertedAfter src l after (rest.takeWhile Token.isInserted)) ∧
    (scan src).stopped = (lex src).stopped ∧
    ∀ d, (lex src).stopped = some d →
      (∃ before c after, src.toList = before ++ c :: after ∧ d.offset = byteSize before ∧
        isSkipped c = false ∧ readLexeme c after = .error d.problem) ∧
      ∀ l ∈ (lex src).items, l.stop ≤ d.offset := by
  refine ⟨filterMap_insertSemicolons _ _ _, takeWhile_insertSemicolons _ _ _, ?_, rfl, ?_⟩
  · intro before l after hitems hl
    refine ⟨insertSemicolons none false before, _, ?_, filterMap_insertSemicolons _ _ _,
      insertedAfter_of_split hitems⟩
    rw [scan, hitems]
    exact insertSemicolons_append hl _ _ _ _
  · intro d hd
    obtain ⟨before, c, after, hsrc, hskipped, hread, hoffset⟩ := exists_of_stopped hd
    rw [Nat.zero_add] at hoffset
    exact ⟨⟨before, c, after, hsrc, hoffset, hskipped, hread⟩,
      fun l hl => stop_le_of_stopped hd hl⟩

end GoSource
