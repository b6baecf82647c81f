import GoSource.Proofs.Token.Line

/-!
# Lexemes and the text they stand for

Reading is local: what follows a lexeme is read from the byte offset where the lexeme ends,
and what could not be read starts at the offset that is reported. Of the kinds that no
grammar sees, a line end starts with a line break, a line comment holds none, and nothing
is said here about block comments.
-/

namespace GoSource

open Text (isLineBreak byteSize)

/-- A text is what a lexeme took of it and the rest. -/
theorem cons_take_append_drop {α : Type} (a : α) (as : List α) (n : Nat) :
    (a :: as.take n) ++ as.drop n = a :: as := by
  rw [List.cons_append, List.take_append_drop]

theorem Lexeme.stop_ofList (kind : Kind) (offset : Nat) (text : List Char) :
    Lexeme.stop ⟨kind, offset, String.ofList text⟩ = offset + byteSize text := by
  rw [Lexeme.stop, Text.utf8ByteSize_ofList]

/-- Reading goes on at the end of every lexeme as if the text started there. -/
theorem lexFrom_resumes {offset : Nat} {cs : List Char} {before after : List Lexeme} {l : Lexeme}
    (h : (lexFrom offset cs).items = before ++ l :: after) :
    ∃ read rest, cs = read ++ rest ∧ l.stop = offset + byteSize read ∧
      lexFrom l.stop rest = ⟨after, (lexFrom offset cs).stopped⟩ := by
  fun_induction lexFrom offset cs generalizing before with
  | case1 offset => simp at h
  | case2 offset c cs hs ih =>
    obtain ⟨read, rest, rfl, hstop, hrest⟩ := ih h
    refine ⟨c :: read, rest, rfl, ?_, hrest⟩
    rw [hstop, byteSize, Nat.add_assoc]
  | case3 offset c cs hs problem hread => simp at h
  | case4 offset c cs hs kind n hread text =>
    rename_i ih
    have hsplit : text ++ cs.drop n = c :: cs := cons_take_append_drop c cs n
    cases before with
    | nil =>
      obtain ⟨rfl, rfl⟩ := List.cons.inj h
      have hstop := Lexeme.stop_ofList kind offset text
      exact ⟨text, cs.drop n, hsplit.symm, hstop, by rw [hstop]; rfl⟩
    | cons first before =>
      obtain ⟨read, rest, hcs, hstop, hrest⟩ := ih (List.cons.inj h).2
      refine ⟨text ++ read, rest, ?_, ?_, hrest⟩
      · rw [← hsplit, hcs, List.append_assoc]
      · rw [hstop, Text.byteSize_append, Nat.add_assoc]

/-- A problem is reported at the first character of the text that could not be read. -/
theorem exists_of_stopped {offset : Nat} {cs : List Char} {d : Diagnostic}
    (h : (lexFrom offset cs).stopped = some d) :
    ∃ before c after, cs = before ++ c :: after ∧ isSkipped c = false ∧
      readLexeme c after = .error d.problem ∧ d.offset = offset + byteSize before := by
  fun_induction lexFrom offset cs with
  | case1 offset => cases h
  | case2 offset c cs hs ih =>
    obtain ⟨before, e, after, rfl, hskipped, hread, hoffset⟩ := ih h
    refine ⟨c :: before, e, after, rfl, hskipped, hread, ?_⟩
    rw [hoffset, byteSize, Nat.add_assoc]
  | case3 offset c cs hs problem hread =>
    obtain rfl := Option.some.inj h
    exact ⟨[], c, cs, rfl, by simpa using hs, hread, rfl⟩
  | case4 offset c cs hs kind n hread text ih =>
    obtain ⟨before, e, after, hsplit, hskipped, hread, hoffset⟩ := ih h
    refine ⟨text ++ before, e, after, ?_, hskipped, hread, ?_⟩
    · rw [List.append_assoc, ← hsplit, cons_take_append_drop]
    · rw [hoffset, Text.byteSize_append, Nat.add_assoc]

/-- No lexeme reaches beyond the problem that stopped the reading. -/
theorem stop_le_of_stopped {offset : Nat} {cs : List Char} {d : Diagnostic} {l : Lexeme}
    (h : (lexFrom offset cs).stopped = some d) (hl : l ∈ (lexFrom offset cs).items) :
    l.stop ≤ d.offset := by
  obtain ⟨before, after, hitems⟩ := List.append_of_mem hl
  obtain ⟨read, rest, -, -, hrest⟩ := lexFrom_resumes hitems
  have hstopped : (lexFrom l.stop rest).stopped = some d := by rw [hrest, h]
  obtain ⟨skipped, c, unread, -, -, -, hoffset⟩ := exists_of_stopped hstopped
  omega

/-- A lexeme is what was read at the character where it starts. -/
theorem exists_readLexeme_at {offset : Nat} {cs : List Char} {l : Lexeme}
    (hl : l ∈ (lexFrom offset cs).items) :
    ∃ before c rest n, cs = before ++ c :: rest ∧ isSkipped c = false ∧
      l.start = offset + byteSize before ∧ readLexeme c rest = .ok (l.kind, n) ∧
      l.text.toList = c :: rest.take n := by
  fun_induction lexFrom offset cs with
  | case1 offset => cases hl
  | case2 offset c cs hs ih =>
    obtain ⟨before, d, rest, n, rfl, hskipped, hstart, hread⟩ := ih hl
    refine ⟨c :: before, d, rest, n, rfl, hskipped, ?_, hread⟩
    rw [hstart, byteSize, Nat.add_assoc]
  | case3 offset c cs hs problem hread => cases hl
  | case4 offset c cs hs kind n hread text ih =>
    rcases List.mem_cons.mp hl with rfl | hl
    · exact ⟨[], c, cs, n, rfl, by simpa using hs, rfl, hread, String.toList_ofList⟩
    · obtain ⟨before, d, rest, m, hsplit, hskipped, hstart, hread⟩ := ih hl
      refine ⟨text ++ before, d, rest, m, ?_, hskipped, ?_, hread⟩
      · rw [List.append_assoc, ← hsplit, cons_take_append_drop]
      · rw [hstart, Text.byteSize_append, Nat.add_assoc]

/-- The kind and the text of a lexeme are what was read at some character. -/
theorem exists_readLexeme {offset : Nat} {cs : List Char} {l : Lexeme}
    (hl : l ∈ (lexFrom offset cs).items) :
    ∃ c rest n, readLexeme c rest = .ok (l.kind, n) ∧ l.text.toList = c :: rest.take n := by
  obtain ⟨before, c, rest, n, -, -, -, hread, htext⟩ := exists_readLexeme_at hl
  exact ⟨c, rest, n, hread, htext⟩

/-- How the kinds that no grammar sees are read. -/
theorem readLexeme_trivia {c : Char} {cs : List Char} {kind : Kind} {n : Nat}
    (h : readLexeme c cs = .ok (kind, n)) (hk : kind.isTrivia = true) :
    (kind = .newline ∧ isLineBreak c = true) ∨
    (kind = .lineComment ∧ (c = '/' ∧ cs.head? = some '/') ∧
      n = (cs.takeWhile fun d => !isLineBreak d).length) ∨
    kind = .blockComment := by
  cases readLexeme_eq_iff.mp h with
  | lineFeed hc => exact .inl ⟨rfl, by rw [hc]; decide⟩
  | carriageReturn hc => exact .inl ⟨rfl, by rw [hc]; decide⟩
  | lineComment hc => exact .inr (.inl ⟨rfl, hc, rfl⟩)
  | blockComment _ _ => exact .inr (.inr rfl)
  | word _ =>
    rw [isTrivia_wordKind] at hk
    cases hk
  | number _ _ | rune _ _ | string _ _ | rawString _ _ | opening _ | closing _ | symbol _ _ =>
    cases hk

end GoSource
