import GoSource.Proofs.Token.Joining

/-!
# Padding around a text

Blanks and line breaks before or after a text do not change which tokens are written in it.
They may change where semicolons are inserted, and they may become part of what no grammar
sees: a carriage return takes a line feed in, and a line comment at the end takes a blank in.
What is open at the end of the text stays open.
-/

namespace GoSource

open Text (isLineBreak)

/-- The kinds of the tokens that are written in a text that could be read to its end. -/
def Reading.written? (r : Reading Lexeme) : Option (List Kind) :=
  match r.stopped with
  | none => some ((r.items.map Lexeme.kind).filter (!·.isTrivia))
  | some _ => none

section Equations

variable {r : Reading Lexeme} {l : Lexeme}

theorem Reading.written?_cons_trivia (h : l.kind.isTrivia = true) :
    (r.cons l).written? = r.written? := by
  rw [Reading.written?, Reading.written?]
  cases hr : r.stopped <;> simp [Reading.cons, hr, h]

theorem Reading.written?_cons_token (h : l.kind.isTrivia = false) :
    (r.cons l).written? = r.written?.map (l.kind :: ·) := by
  rw [Reading.written?, Reading.written?]
  cases hr : r.stopped <;> simp [Reading.cons, hr, h]

theorem Reading.written?_cons_congr {r' : Reading Lexeme} (h : r.written? = r'.written?) :
    (r.cons l).written? = (r'.cons l).written? := by
  cases hl : l.kind.isTrivia with
  | true => rw [written?_cons_trivia hl, written?_cons_trivia hl, h]
  | false => rw [written?_cons_token hl, written?_cons_token hl, h]

variable {c : Char} {cs : List Char} {kind : Kind} {n : Nat}

/-- Where a text starts does not show in what is written. -/
theorem written?_offset (offset : Nat) (cs : List Char) :
    (lexFrom offset cs).written? = (lexFrom 0 cs).written? := by
  have hshift := lexFrom_shift offset 0 cs
  rw [Nat.zero_add] at hshift
  rw [hshift, Reading.written?, Reading.written?]
  cases (lexFrom 0 cs).stopped <;> simp [Lexeme.shift, Function.comp_def]

theorem written?_skipped (hs : isSkipped c = true) (offset : Nat) :
    (lexFrom offset (c :: cs)).written? = (lexFrom 0 cs).written? := by
  rw [lexFrom, if_pos hs, written?_offset]

theorem written?_trivia (hs : isSkipped c = false) (h : readLexeme c cs = .ok (kind, n))
    (hk : kind.isTrivia = true) (offset : Nat) :
    (lexFrom offset (c :: cs)).written? = (lexFrom 0 (cs.drop n)).written? := by
  rw [lexFrom_lexeme hs h, Reading.written?_cons_trivia hk, written?_offset]

end Equations

section Before

theorem written?_newline (offset : Nat) (cs : List Char) :
    (lexFrom offset ('\n' :: cs)).written? = (lexFrom 0 cs).written? := by
  have hread : readLexeme '\n' cs = .ok (.newline, 0) := rfl
  exact written?_trivia (by decide) hread rfl offset

/-- A separator before a text adds nothing to it. -/
theorem written?_cons {d : Char} (hd : isSeparator d = true) (offset : Nat) (cs : List Char) :
    (lexFrom offset (d :: cs)).written? = (lexFrom 0 cs).written? := by
  by_cases hs : isSkipped d = true
  · exact written?_skipped hs offset
  · have hbreak : d = '\n' ∨ d = '\r' := by
      simpa [isSeparator, hs, isLineBreak] using hd
    rcases hbreak with rfl | rfl
    · exact written?_newline offset cs
    · -- A line feed behind the carriage return is part of the same line end.
      rw [written?_trivia (by decide) rfl rfl]
      split
      · rename_i hfeed
        obtain ⟨rest, rfl⟩ := List.head?_eq_some_iff.mp hfeed
        exact (written?_newline 0 rest).symm
      · rfl

theorem written?_before {before : List Char} (h : ∀ c ∈ before, isSeparator c = true)
    (cs : List Char) : (lexFrom 0 (before ++ cs)).written? = (lexFrom 0 cs).written? := by
  induction before with
  | nil => rfl
  | cons d before ih =>
    obtain ⟨hd, hbefore⟩ := List.forall_mem_cons.mp h
    rw [List.cons_append, written?_cons hd, ih hbefore]

end Before

section After

variable {d : Char} {cs : List Char}

/-- A stretch that one more character changes reaches to the end. -/
theorem takeWhile_grows {p : Char → Bool} (h : (cs ++ [d]).takeWhile p ≠ cs.takeWhile p) :
    cs.takeWhile p = cs ∧ (cs ++ [d]).takeWhile p = cs ++ [d] := by
  rw [List.takeWhile_append] at h ⊢
  split at h
  · rename_i hall
    have hcs : cs.takeWhile p = cs := (List.takeWhile_prefix p).eq_of_length hall
    cases hd : p d with
    | false => simp [hd, hcs] at h
    | true => simp [hd, hcs]
  · exact absurd rfl h

/-- A separator at the end of a text leaves the lexeme before it as it is, or is taken in by
one that no grammar sees and that reaches to the end. -/
theorem readLexeme_append (hd : isSeparator d = true) (c : Char) (cs : List Char) :
    readLexeme c (cs ++ [d]) = readLexeme c cs ∨
    ∃ kind, kind.isTrivia = true ∧ readLexeme c cs = .ok (kind, cs.length) ∧
      readLexeme c (cs ++ [d]) = .ok (kind, (cs ++ [d]).length) := by
  have hopen : StaysOpen d [] := ⟨⟨rfl, rfl⟩, .inr fun _ => rfl⟩
  by_cases hreturn : c = '\r' ∧ cs = [] ∧ d = '\n'
  · obtain ⟨rfl, rfl, rfl⟩ := hreturn
    exact .inr ⟨.newline, rfl, rfl, rfl⟩
  by_cases hgrows : (c = '/' ∧ cs.head? = some '/') ∧
      (cs ++ [d]).takeWhile (fun d => !isLineBreak d) ≠ cs.takeWhile fun d => !isLineBreak d
  · obtain ⟨⟨rfl, hslash⟩, hgrows⟩ := hgrows
    obtain ⟨rest, rfl⟩ := List.head?_eq_some_iff.mp hslash
    obtain ⟨hcs, hcsd⟩ := takeWhile_grows hgrows
    have hcomment (cs : List Char) : readLexeme '/' ('/' :: cs) =
        .ok (.lineComment, (('/' :: cs).takeWhile fun d => !isLineBreak d).length) := rfl
    refine .inr ⟨.lineComment, rfl, by rw [hcomment, hcs], ?_⟩
    rw [List.cons_append, hcomment, ← List.cons_append, hcsd]
  · left
    refine readLexeme_stop (separates_of_isSeparator hd) hreturn (fun hcomment => ?_) (.inr hopen)
    by_contra hne
    exact hgrows ⟨hcomment, hne⟩

/-- A separator after a text adds nothing to it. -/
theorem written?_append (hd : isSeparator d = true) (offset : Nat) (cs : List Char) :
    (lexFrom offset (cs ++ [d])).written? = (lexFrom offset cs).written? := by
  fun_induction lexFrom offset cs with
  | case1 offset => rw [List.nil_append, written?_cons hd, lexFrom]
  | case2 offset c cs hs ih => rw [List.cons_append, lexFrom, if_pos hs, ih]
  | case3 offset c cs hs problem hread =>
    rcases readLexeme_append hd c cs with hsame | ⟨kind, -, hread', -⟩
    · rw [List.cons_append, lexFrom, if_neg hs, hsame, hread]
    · rw [hread] at hread'
      cases hread'
  | case4 offset c cs hs kind n hread text ih =>
    have hs : isSkipped c = false := by simpa using hs
    rcases readLexeme_append hd c cs with hsame | ⟨kind, hk, hread', hgrown⟩
    · have hn := readLexeme_le hread
      rw [hread] at hsame
      rw [List.cons_append, lexFrom_lexeme hs hsame, List.take_append_of_le_length hn,
        drop_stop hn]
      exact Reading.written?_cons_congr ih
    · rw [hread] at hread'
      cases hread'
      rw [List.cons_append, written?_trivia hs hgrown hk, Reading.written?_cons_trivia hk,
        List.drop_length, List.drop_length]
      exact (written?_offset _ []).symm

theorem written?_after {after : List Char} (h : ∀ c ∈ after, isSeparator c = true)
    (cs : List Char) : (lexFrom 0 (cs ++ after)).written? = (lexFrom 0 cs).written? := by
  induction after generalizing cs with
  | nil => rw [List.append_nil]
  | cons d after ih =>
    obtain ⟨hd, hafter⟩ := List.forall_mem_cons.mp h
    rw [← List.singleton_append, ← List.append_assoc, ih hafter, written?_append hd]

end After

/-- Padding adds nothing to what is written in a text. -/
theorem written?_padded {first last : String} (hfirst : ∀ c ∈ first.toList, isSeparator c = true)
    (hlast : ∀ c ∈ last.toList, isSeparator c = true) (src : String) :
    (lex (first ++ src ++ last)).written? = (lex src).written? := by
  rw [lex, lex, String.toList_append, String.toList_append, written?_after hlast,
    written?_before hfirst]

end GoSource
