import GoSource.Proofs.Token.Insertion

/-!
# Joining texts at a line feed

A text that can be read on its own keeps its tokens when a line feed and more text follow,
and what follows is read as if it stood alone, further on by as many bytes. The semicolon
that the end of the first text inserts is then inserted by the line feed. Nothing is said
about texts that are joined without a line feed, or after a text that cannot be read.
-/

namespace GoSource

open Text (isLineBreak byteSize)

/-- The same lexeme, `size` bytes further on. -/
def Lexeme.shift (size : Nat) (l : Lexeme) : Lexeme := { l with start := l.start + size }

/-- The same token, `size` bytes further on. -/
def Token.shift (size : Nat) : Token → Token
  | written l => .written (l.shift size)
  | inserted offset => .inserted (offset + size)

@[simp] theorem Token.kind_shift (size : Nat) (t : Token) : (t.shift size).kind = t.kind := by
  cases t <;> rfl

@[simp] theorem Token.start_shift (size : Nat) (t : Token) :
    (t.shift size).start = t.start + size := by
  cases t <;> rfl

/-- The same problem, `size` bytes further on. -/
def Diagnostic.shift (size : Nat) (d : Diagnostic) : Diagnostic :=
  { d with offset := d.offset + size }

/-- What was read, after other things. -/
def Reading.prepend {α : Type} (first : List α) (r : Reading α) : Reading α :=
  { r with items := first ++ r.items }

/-- The tokens of a text whose first character has the byte offset `offset`; `pending` says
that the last token before the text ends a statement. -/
def scanFrom (offset : Nat) (pending : Bool) (cs : List Char) : Reading Token :=
  let lexed := lexFrom offset cs
  let finish := if lexed.stopped.isNone then some (offset + byteSize cs) else none
  ⟨insertSemicolons finish pending lexed.items, lexed.stopped⟩

theorem scan_eq_scanFrom (src : String) : scan src = scanFrom 0 false src.toList := by
  simp only [scan, scanFrom, lex, Nat.zero_add, byteSize_toList]
  rfl

section Equations

variable {offset : Nat} {pending : Bool} {c : Char} {cs : List Char} {kind : Kind} {n : Nat}

theorem lexFrom_lexeme (hs : isSkipped c = false) (h : readLexeme c cs = .ok (kind, n)) :
    lexFrom offset (c :: cs) =
      (lexFrom (offset + byteSize (c :: cs.take n)) (cs.drop n)).cons
        ⟨kind, offset, String.ofList (c :: cs.take n)⟩ := by
  rw [lexFrom, if_neg (by simp [hs]), h]

theorem scanFrom_nil : scanFrom offset pending [] =
    ⟨if pending then [.inserted offset] else [], none⟩ := by
  rw [scanFrom, lexFrom]
  cases pending <;> rfl

theorem scanFrom_skipped (hs : isSkipped c = true) :
    scanFrom offset pending (c :: cs) = scanFrom (offset + c.utf8Size) pending cs := by
  simp only [scanFrom, byteSize, ← Nat.add_assoc]
  rw [lexFrom, if_pos hs]

/-- The end of a text is where its rest ends after the first lexeme. -/
theorem byteSize_take_add_drop (offset : Nat) (c : Char) (cs : List Char) (n : Nat) :
    offset + byteSize (c :: cs.take n) + byteSize (cs.drop n) = offset + byteSize (c :: cs) := by
  rw [Nat.add_assoc, ← Text.byteSize_append, cons_take_append_drop]

theorem scanFrom_token (hs : isSkipped c = false) (h : readLexeme c cs = .ok (kind, n))
    (hk : kind.isTrivia = false) :
    scanFrom offset pending (c :: cs) =
      (scanFrom (offset + byteSize (c :: cs.take n)) kind.endsStatement (cs.drop n)).prepend
        [.written ⟨kind, offset, String.ofList (c :: cs.take n)⟩] := by
  simp only [scanFrom, lexFrom_lexeme hs h, Reading.cons, Reading.prepend]
  rw [insertSemicolons_token hk, byteSize_take_add_drop]
  rfl

theorem scanFrom_trivia (hs : isSkipped c = false) (h : readLexeme c cs = .ok (kind, n))
    (hk : kind.isTrivia = true) :
    let l : Lexeme := ⟨kind, offset, String.ofList (c :: cs.take n)⟩
    scanFrom offset pending (c :: cs) =
      (scanFrom (offset + byteSize (c :: cs.take n)) (pending && l.lineBreak?.isNone)
        (cs.drop n)).prepend ((if pending then l.lineBreak? else none).toList.map .inserted) := by
  simp only [scanFrom, lexFrom_lexeme hs h, Reading.cons, Reading.prepend]
  rw [insertSemicolons_trivia hk, byteSize_take_add_drop]

/-- A line end adds the semicolon that is pending, at its start, and leaves none. -/
theorem scanFrom_lineEnd (hc : isLineBreak c = true) (h : readLexeme c cs = .ok (.newline, n)) :
    scanFrom offset pending (c :: cs) =
      (scanFrom (offset + byteSize (c :: cs.take n)) false (cs.drop n)).prepend
        (if pending then [.inserted offset] else []) := by
  have hs : isSkipped c = false := by
    by_contra hs
    rw [isLineBreak_eq_false_of_isSkipped (Bool.of_not_eq_false hs)] at hc
    cases hc
  have hline : Lexeme.lineBreak? ⟨.newline, offset, String.ofList (c :: cs.take n)⟩ =
      some offset := by
    simp [Lexeme.lineBreak?, hc, byteSize]
  rw [scanFrom_trivia hs h rfl, hline]
  cases pending <;> rfl

end Equations

section Shift

variable (size : Nat)

theorem Lexeme.lineBreak?_shift (l : Lexeme) :
    (l.shift size).lineBreak? = l.lineBreak?.map (· + size) := by
  have hbreak := apply_ite (Option.map (· + size))
    ((l.text.toList.takeWhile fun c => !isLineBreak c).length < l.text.toList.length)
    (some (l.start + byteSize (l.text.toList.takeWhile fun c => !isLineBreak c))) none
  rw [Option.map_some, Option.map_none, Nat.add_right_comm] at hbreak
  exact hbreak.symm

/-- Where a text starts shows in the offsets only. -/
theorem lexFrom_shift (offset : Nat) (cs : List Char) :
    lexFrom (offset + size) cs =
      ⟨(lexFrom offset cs).items.map (Lexeme.shift size),
        (lexFrom offset cs).stopped.map (Diagnostic.shift size)⟩ := by
  fun_induction lexFrom offset cs with
  | case1 offset =>
    rw [lexFrom]
    rfl
  | case2 offset c cs hs ih => rw [lexFrom, if_pos hs, Nat.add_right_comm, ih]
  | case3 offset c cs hs problem hread =>
    rw [lexFrom, if_neg hs, hread]
    rfl
  | case4 offset c cs hs kind n hread text ih =>
    rw [lexFrom_lexeme (by simpa using hs) hread, Nat.add_right_comm, ih]
    rfl

theorem insertSemicolons_shift (finish : Option Nat) (pending : Bool) (ls : List Lexeme) :
    insertSemicolons (finish.map (· + size)) pending (ls.map (Lexeme.shift size)) =
      (insertSemicolons finish pending ls).map (Token.shift size) := by
  induction ls generalizing pending with
  | nil => cases pending <;> cases finish <;> rfl
  | cons l ls ih =>
    have hkind : (l.shift size).kind = l.kind := rfl
    rw [List.map_cons]
    cases hl : l.kind.isTrivia with
    | false =>
      rw [insertSemicolons_token hl, insertSemicolons_token (hkind ▸ hl), hkind, ih]
      rfl
    | true =>
      rw [insertSemicolons_trivia hl, insertSemicolons_trivia (hkind ▸ hl), l.lineBreak?_shift,
        Option.isNone_map, ih]
      cases pending <;> cases l.lineBreak? <;> rfl

/-- A text further on in a source has the tokens that it has on its own, further on. -/
theorem scanFrom_shift (offset : Nat) (pending : Bool) (cs : List Char) :
    scanFrom (offset + size) pending cs =
      ⟨(scanFrom offset pending cs).items.map (Token.shift size),
        (scanFrom offset pending cs).stopped.map (Diagnostic.shift size)⟩ := by
  simp only [scanFrom, lexFrom_shift, Option.isNone_map, ← insertSemicolons_shift]
  rw [Nat.add_right_comm]
  cases (lexFrom offset cs).stopped <;> rfl

end Shift

section Line

theorem Reading.prepend_prepend {α : Type} (first second : List α) (r : Reading α) :
    (r.prepend second).prepend first = r.prepend (first ++ second) := by
  simp only [Reading.prepend, List.append_assoc]

/-- Reading goes on after a line feed as it does at the start of a text. -/
theorem scanFrom_line {offset : Nat} {cs : List Char} (h : (lexFrom offset cs).stopped = none)
    (pending : Bool) (ds : List Char) :
    scanFrom offset pending (cs ++ '\n' :: ds) =
      (scanFrom (offset + byteSize cs + 1) false ds).prepend
        (scanFrom offset pending cs).items := by
  fun_induction lexFrom offset cs generalizing pending with
  | case1 offset =>
    have hread : readLexeme '\n' ds = .ok (.newline, 0) := rfl
    rw [List.nil_append, scanFrom_lineEnd (by decide) hread, scanFrom_nil]
    rfl
  | case2 offset c cs hs ih =>
    rw [List.cons_append, scanFrom_skipped hs, scanFrom_skipped hs, ih h, byteSize,
      Nat.add_assoc offset]
  | case3 offset c cs hs problem hread => cases h
  | case4 offset c cs hs kind n hread text ih =>
    have hs : isSkipped c = false := by simpa using hs
    by_cases hr : c = '\r' ∧ cs = []
    · -- The carriage return takes the line feed in, so there is one line end, not two.
      obtain ⟨rfl, rfl⟩ := hr
      have hboth : readLexeme '\r' ('\n' :: ds) = .ok (.newline, 1) := rfl
      have halone : readLexeme '\r' [] = .ok (.newline, 0) := rfl
      have hfeed : '\n'.utf8Size = 1 := rfl
      rw [List.singleton_append, scanFrom_lineEnd (by decide) hboth,
        scanFrom_lineEnd (by decide) halone]
      simp [scanFrom_nil, Reading.prepend, byteSize, hfeed, Nat.add_assoc]
    · obtain ⟨hread', htake, hdrop⟩ := readLexeme_ok_line hr hread ds
      cases hk : kind.isTrivia with
      | false =>
        rw [List.cons_append, scanFrom_token hs hread' hk, scanFrom_token hs hread hk, htake,
          hdrop, ih h, byteSize_take_add_drop, Reading.prepend_prepend]
        rfl
      | true =>
        rw [List.cons_append, scanFrom_trivia hs hread' hk, scanFrom_trivia hs hread hk, htake,
          hdrop, ih h, byteSize_take_add_drop, Reading.prepend_prepend]
        rfl

/-- The kinds of a text are those of its tokens, wherever it starts. -/
theorem kindsFrom_eq_scanFrom (offset : Nat) (pending : Bool) (cs : List Char) :
    kindsFrom pending cs =
      (scanFrom offset pending cs).toExcept.toOption.map (·.map Token.kind) := by
  cases hstopped : (lexFrom offset cs).stopped with
  | none =>
    rw [kindsFrom_of_lexFrom (offset + byteSize cs) hstopped]
    simp [scanFrom, hstopped, Reading.toExcept, Except.toOption]
  | some d =>
    have hsome : (lexFrom offset cs).stopped ≠ none := by simp [hstopped]
    rw [kindsFrom_of_lexFrom_stopped hsome]
    simp [scanFrom, hstopped, Reading.toExcept, Except.toOption]

/-- The end of a text acts on the kinds of its tokens as a line feed does. -/
theorem kindsFrom_line {pending : Bool} {cs : List Char} {ks : List Kind}
    (h : kindsFrom pending cs = some ks) (ds : List Char) :
    kindsFrom pending (cs ++ '\n' :: ds) = (kindsFrom false ds).map (ks ++ ·) := by
  have hstopped : (lexFrom 0 cs).stopped = none := by
    by_contra hstopped
    rw [kindsFrom_of_lexFrom_stopped hstopped] at h
    cases h
  have hks : (scanFrom 0 pending cs).items.map Token.kind = ks := by
    rw [kindsFrom_eq_scanFrom 0] at h
    simpa [scanFrom, hstopped, Reading.toExcept, Except.toOption] using h
  rw [kindsFrom_eq_scanFrom 0, scanFrom_line hstopped,
    kindsFrom_eq_scanFrom (0 + byteSize cs + 1) false ds]
  simp only [Reading.toExcept, Reading.prepend]
  split <;> simp [Except.toOption, hks]

/-- The tokens of two texts with a line feed between them. -/
theorem scan_line {a : String} (h : (lex a).stopped = none) (b : String) :
    scan (a ++ "\n" ++ b) =
      ⟨(scan a).items ++ (scan b).items.map (Token.shift (a.utf8ByteSize + 1)),
        (scan b).stopped.map (Diagnostic.shift (a.utf8ByteSize + 1))⟩ := by
  have htext : (a ++ "\n" ++ b).toList = a.toList ++ '\n' :: b.toList := by
    simp [String.toList_append]
  have hshift := scanFrom_shift (a.utf8ByteSize + 1) 0 false b.toList
  rw [Nat.zero_add] at hshift
  rw [scan_eq_scanFrom, htext, scanFrom_line h, byteSize_toList, Nat.zero_add, hshift]
  simp only [Reading.prepend, scan_eq_scanFrom]

end Line

/-- A text that can be read, a line feed, and any text after it can be read together exactly
if the second text can be read. Its tokens then come after those of the first, moved on by
the bytes before them, and its problem, if it cannot be read, is moved on by as much. -/
theorem tokenize_append_line {a : String} {ts : List Token} (h : tokenize a = .ok ts)
    (b : String) :
    ((∃ all, tokenize (a ++ "\n" ++ b) = .ok all) ↔ ∃ us, tokenize b = .ok us) ∧
    (∀ us, tokenize b = .ok us →
      tokenize (a ++ "\n" ++ b) = .ok (ts ++ us.map (Token.shift (a.utf8ByteSize + 1)))) ∧
    ∀ d, tokenize b = .error d →
      tokenize (a ++ "\n" ++ b) = .error (d.shift (a.utf8ByteSize + 1)) := by
  have hstopped : (scan a).stopped = none := by
    cases hd : (scan a).stopped with
    | none => rfl
    | some d => simp [tokenize, Reading.toExcept, hd] at h
  have hitems : (scan a).items = ts := by
    simpa [tokenize, Reading.toExcept, hstopped] using h
  have hjoined := scan_line hstopped b
  rw [hitems] at hjoined
  simp only [tokenize, hjoined, Reading.toExcept]
  cases (scan b).stopped <;> simp

/-- A comment at the end of the first text ends with its line, and the name before it ends a
statement there. -/
theorem tokenize_append_line_comment :
    tokenize "é // é" = .ok [.written ⟨.ident, 0, "é"⟩, .inserted 8] ∧
    tokenize ("é // é" ++ "\n" ++ "+1") =
      .ok [.written ⟨.ident, 0, "é"⟩, .inserted 8, .written ⟨.symbol .plus, 9, "+"⟩,
        .written ⟨.literal .int, 10, "1"⟩, .inserted 11] ∧
    tokenize ("é // é" ++ "\n" ++ "\"") = .error ⟨.unterminatedString, 9⟩ := by
  have hfirst : tokenize "é // é" = .ok [.written ⟨.ident, 0, "é"⟩, .inserted 8] := by
    decide +kernel
  have hsum : tokenize "+1" = .ok [.written ⟨.symbol .plus, 0, "+"⟩,
      .written ⟨.literal .int, 1, "1"⟩, .inserted 2] := by decide +kernel
  have hopen : tokenize "\"" = .error ⟨.unterminatedString, 0⟩ := by decide +kernel
  exact ⟨hfirst, (tokenize_append_line hfirst _).2.1 _ hsum,
    (tokenize_append_line hfirst _).2.2 _ hopen⟩

end GoSource
