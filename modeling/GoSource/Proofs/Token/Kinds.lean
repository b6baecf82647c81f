import GoSource.Proofs.Token.Line
import GoSource.Token.Semicolon

/-!
# Kinds of the tokens of a text

Which tokens a text has, without saying where they stand. The judgement on a file
looks at nothing else. A text that cannot be read has no kinds, and no lines after it
mend that.
-/

namespace GoSource

/-- The kinds of the tokens of a text, inserted semicolons included; `pending` says
that the last token before the text ends a statement. -/
def kindsFrom (pending : Bool) : List Char → Option (List Kind)
  | [] => some (if pending then [.semicolon] else [])
  | c :: cs =>
    if isSkipped c then kindsFrom pending cs
    else match readLexeme c cs with
      | .error _ => none
      | .ok (kind, n) =>
        if kind.isTrivia then
          if pending && (c :: cs.take n).any Text.isLineBreak then
            (kindsFrom false (cs.drop n)).map (.semicolon :: ·)
          else kindsFrom pending (cs.drop n)
        else (kindsFrom kind.endsStatement (cs.drop n)).map (kind :: ·)
termination_by cs => cs.length
decreasing_by all_goals simp; try omega

section Equations

variable {pending : Bool} {c : Char} {cs : List Char} {kind : Kind} {n : Nat}

@[simp] theorem kindsFrom_nil (pending : Bool) :
    kindsFrom pending [] = some (if pending then [.semicolon] else []) := by
  rw [kindsFrom]

theorem kindsFrom_skipped (h : isSkipped c = true) :
    kindsFrom pending (c :: cs) = kindsFrom pending cs := by
  rw [kindsFrom, if_pos h]

theorem kindsFrom_error {problem : Problem} (hs : isSkipped c = false)
    (h : readLexeme c cs = .error problem) : kindsFrom pending (c :: cs) = none := by
  rw [kindsFrom, if_neg (by simp [hs]), h]

theorem kindsFrom_token (hs : isSkipped c = false) (h : readLexeme c cs = .ok (kind, n))
    (hk : kind.isTrivia = false) :
    kindsFrom pending (c :: cs) =
      (kindsFrom kind.endsStatement (cs.drop n)).map (kind :: ·) := by
  rw [kindsFrom, if_neg (by simp [hs]), h]
  simp [hk]

theorem kindsFrom_trivia (hs : isSkipped c = false) (h : readLexeme c cs = .ok (kind, n))
    (hk : kind.isTrivia = true) :
    kindsFrom pending (c :: cs) =
      if pending && (c :: cs.take n).any Text.isLineBreak then
        (kindsFrom false (cs.drop n)).map (.semicolon :: ·)
      else kindsFrom pending (cs.drop n) := by
  rw [kindsFrom, if_neg (by simp [hs]), h]
  simp only [hk, if_true]

end Equations

section Tokens

theorem length_takeWhile_lt_iff (p : Char → Bool) (cs : List Char) :
    (cs.takeWhile fun c => !p c).length < cs.length ↔ cs.any p = true := by
  induction cs with
  | nil => simp
  | cons c cs ih => cases hc : p c <;> simp [hc, ← ih]

theorem Lexeme.isSome_lineBreak? (l : Lexeme) :
    l.lineBreak?.isSome = l.text.toList.any Text.isLineBreak := by
  rw [Bool.eq_iff_iff, ← length_takeWhile_lt_iff, Lexeme.lineBreak?]
  split <;> simp_all

/-- The kinds of a text that can be read to its end. -/
theorem kindsFrom_of_lexFrom (finish : Nat) {offset : Nat} {cs : List Char}
    (h : (lexFrom offset cs).stopped = none) (pending : Bool) :
    kindsFrom pending cs =
      some ((insertSemicolons (some finish) pending (lexFrom offset cs).items).map Token.kind) := by
  fun_induction lexFrom offset cs generalizing pending with
  | case1 offset => cases pending <;> simp [insertSemicolons, Token.kind]
  | case2 offset c cs hs ih => rw [kindsFrom_skipped hs, ih h]
  | case3 offset c cs hs problem hread => cases h
  | case4 offset c cs hs kind n hread text ih =>
    have hs : isSkipped c = false := by simpa using hs
    cases hk : kind.isTrivia with
    | false =>
      rw [kindsFrom_token hs hread hk, ih h]
      simp [Reading.cons, insertSemicolons, hk, Token.kind]
    | true =>
      rw [kindsFrom_trivia hs hread hk]
      have hbreak := Lexeme.isSome_lineBreak? ⟨kind, offset, String.ofList text⟩
      rw [String.toList_ofList] at hbreak
      cases pending with
      | false =>
        rw [Bool.false_and, if_neg (by decide), ih h]
        simp [Reading.cons, insertSemicolons, hk]
      | true =>
        rw [Bool.true_and, ← hbreak]
        cases hline : (Lexeme.mk kind offset (String.ofList text)).lineBreak? with
        | none =>
          rw [if_neg (by simp), ih h]
          simp [Reading.cons, insertSemicolons, hk, hline]
        | some place =>
          rw [if_pos (by simp), ih h]
          simp [Reading.cons, insertSemicolons, hk, hline, Token.kind]

theorem kindsFrom_of_lexFrom_stopped {offset : Nat} {cs : List Char}
    (h : (lexFrom offset cs).stopped ≠ none) (pending : Bool) : kindsFrom pending cs = none := by
  fun_induction lexFrom offset cs generalizing pending with
  | case1 offset => exact absurd rfl h
  | case2 offset c cs hs ih => rw [kindsFrom_skipped hs, ih h]
  | case3 offset c cs hs problem hread => exact kindsFrom_error (by simpa using hs) hread
  | case4 offset c cs hs kind n hread text ih =>
    have hs : isSkipped c = false := by simpa using hs
    cases hk : kind.isTrivia with
    | false => rw [kindsFrom_token hs hread hk, ih h, Option.map_none]
    | true =>
      rw [kindsFrom_trivia hs hread hk, ih h, ih h, Option.map_none, ite_self]

/-- The kinds of the tokens of a source text. -/
theorem kindsFrom_toList (src : String) :
    kindsFrom false src.toList = (tokenize src).toOption.map (·.map Token.kind) := by
  cases h : (lexFrom 0 src.toList).stopped with
  | none =>
    rw [kindsFrom_of_lexFrom src.utf8ByteSize h]
    simp [tokenize, scan, lex, h, Reading.toExcept, Except.toOption]
  | some d =>
    have hstopped : (lexFrom 0 src.toList).stopped ≠ none := by simp [h]
    rw [kindsFrom_of_lexFrom_stopped hstopped]
    simp [tokenize, scan, lex, h, Reading.toExcept, Except.toOption]

theorem kindsFrom_of_tokenize {src : String} {ts : List Token} (h : tokenize src = .ok ts) :
    kindsFrom false src.toList = some (ts.map Token.kind) := by
  rw [kindsFrom_toList, h]
  rfl

end Tokens

section Lines

theorem kindsFrom_newline (pending : Bool) (cs : List Char) :
    kindsFrom pending ('\n' :: cs) =
      (kindsFrom false cs).map ((if pending then [.semicolon] else []) ++ ·) := by
  have hread : readLexeme '\n' cs = .ok (.newline, 0) := rfl
  rw [kindsFrom_trivia (by decide) hread rfl]
  cases pending <;> simp [Text.isLineBreak]

/-- The first lexeme of a text that goes on after a line feed, and what it leaves. -/
theorem readLexeme_ok_line {c : Char} {cs : List Char} {kind : Kind} {n : Nat}
    (hr : ¬ (c = '\r' ∧ cs = [])) (h : readLexeme c cs = .ok (kind, n)) (ds : List Char) :
    readLexeme c (cs ++ '\n' :: ds) = .ok (kind, n) ∧
      (cs ++ '\n' :: ds).take n = cs.take n ∧
      (cs ++ '\n' :: ds).drop n = cs.drop n ++ '\n' :: ds := by
  have hn := readLexeme_le h
  exact ⟨by rw [readLexeme_line hr (.inl (by rw [h]; rfl)), h],
    List.take_append_of_le_length hn, drop_stop hn ds⟩

/-- A text that cannot be read cannot be read before a line feed either, as long as
nothing after that ends what is open there. -/
theorem kindsFrom_line_eq_none {pending : Bool} {cs ds : List Char}
    (h : kindsFrom pending cs = none) (hds : ClosesNothing ds) :
    kindsFrom pending (cs ++ '\n' :: ds) = none := by
  fun_induction kindsFrom pending cs with
  | case1 pending => cases h
  | case2 pending c cs hs ih => rw [List.cons_append, kindsFrom_skipped hs, ih h]
  | case3 pending c cs hs problem hread =>
    have hr : ¬ (c = '\r' ∧ cs = []) := by
      rintro ⟨rfl, rfl⟩
      cases hread
    have hread' := readLexeme_line hr (.inr hds)
    exact kindsFrom_error (by simpa using hs) (hread'.trans hread)
  | case4 pending c cs hs kind n hread hk hbreak ih =>
    have hs : isSkipped c = false := by simpa using hs
    have hr : ¬ (c = '\r' ∧ cs = []) := by
      rintro ⟨rfl, rfl⟩
      simp at h
    obtain ⟨hread', htake, hdrop⟩ := readLexeme_ok_line hr hread ds
    rw [List.cons_append, kindsFrom_trivia hs hread' hk, htake, if_pos hbreak, hdrop,
      ih (Option.map_eq_none_iff.mp h), Option.map_none]
  | case5 pending c cs hs kind n hread hk hbreak ih =>
    have hs : isSkipped c = false := by simpa using hs
    have hr : ¬ (c = '\r' ∧ cs = []) := by
      rintro ⟨rfl, rfl⟩
      simp at h
    obtain ⟨hread', htake, hdrop⟩ := readLexeme_ok_line hr hread ds
    rw [List.cons_append, kindsFrom_trivia hs hread' hk, htake, if_neg hbreak, hdrop, ih h]
  | case6 pending c cs hs kind n hread hk ih =>
    have hs : isSkipped c = false := by simpa using hs
    have hk : kind.isTrivia = false := by simpa using hk
    have hr : ¬ (c = '\r' ∧ cs = []) := by
      rintro ⟨rfl, rfl⟩
      simp at h
    obtain ⟨hread', -, hdrop⟩ := readLexeme_ok_line hr hread ds
    rw [List.cons_append, kindsFrom_token hs hread' hk, hdrop,
      ih (Option.map_eq_none_iff.mp h), Option.map_none]

end Lines

end GoSource
