import GoSource.Proofs.Token.LexemeForms

/-!
# Where tokens stand in their source

A token that is written stands in the source at its byte offset, and a semicolon that a line
end inserts stands where that line breaks. What a diagnostic says about its place is told here
as well, and what the reading of lexemes reports is shown to be so.
-/

namespace GoSource

open Text (byteSize)

section Places

/-- The text stands in the source at the byte offset. -/
def StandsAt (src : String) (place : Nat) (text : String) : Prop :=
  ∃ before after, src = before ++ text ++ after ∧ before.utf8ByteSize = place

/-- A line breaks in the source at the byte offset. -/
def LineBreaksAt (src : String) (place : Nat) : Prop :=
  StandsAt src place "\n" ∨ StandsAt src place "\r"

/-- What is found at the place of a problem. -/
def Problem.Shows (src : String) (place : Nat) : Problem → Prop
  | invalidToken => place < src.utf8ByteSize
  | unterminatedComment => StandsAt src place "/*"
  | unterminatedString => StandsAt src place "\"" ∨ StandsAt src place "\x60"
  | empty => place = 0
  | unexpected found _ =>
    (found ≠ "" ∧ StandsAt src place found) ∨ (found = "newline" ∧ LineBreaksAt src place)
  | endOfInput _ => place = src.utf8ByteSize
  | unclosed pair => StandsAt src place (String.singleton pair.opener)
  | unmatched pair => StandsAt src place (String.singleton pair.closer)

/-- A diagnostic points at a character boundary of the source, its end included, and there
at what it is about. -/
structure Diagnostic.PointsInto (d : Diagnostic) (src : String) : Prop where
  boundary : String.Pos.Raw.IsValid src ⟨d.offset⟩
  within : d.offset ≤ src.utf8ByteSize
  shows : d.problem.Shows src d.offset

variable {src text : String} {place : Nat}

theorem standsAt_of_chars {before cs after : List Char}
    (h : src.toList = before ++ (cs ++ after)) :
    StandsAt src (byteSize before) (String.ofList cs) := by
  refine ⟨String.ofList before, String.ofList after, ?_, Text.utf8ByteSize_ofList before⟩
  apply String.toList_injective
  simp [h]

theorem StandsAt.boundary (h : StandsAt src place text) :
    String.Pos.Raw.IsValid src ⟨place⟩ ∧ place + text.utf8ByteSize ≤ src.utf8ByteSize := by
  obtain ⟨before, after, rfl, rfl⟩ := h
  constructor
  · rw [String.append_assoc]
    exact isValid_append _ _
  · simp only [String.utf8ByteSize_append]
    omega

/-- Nothing stands at every character boundary. -/
theorem standsAt_empty_iff : StandsAt src place "" ↔ String.Pos.Raw.IsValid src ⟨place⟩ := by
  rw [String.Pos.Raw.isValid_iff_exists_append]
  constructor
  · rintro ⟨before, after, rfl, rfl⟩
    exact ⟨before, after, by rw [String.append_empty], rfl⟩
  · rintro ⟨before, after, rfl, hplace⟩
    exact ⟨before, after, by rw [String.append_empty], (congrArg String.Pos.Raw.byteIdx hplace).symm⟩

/-- What stands in a text stands in the source further on. -/
theorem StandsAt.part (h : StandsAt src place text) {before cs after : List Char}
    (htext : text.toList = before ++ (cs ++ after)) :
    StandsAt src (place + byteSize before) (String.ofList cs) := by
  obtain ⟨first, last, rfl, rfl⟩ := h
  have hchars : (first ++ text ++ last).toList =
      (first.toList ++ before) ++ (cs ++ (after ++ last.toList)) := by
    simp [htext]
  have hplace := standsAt_of_chars hchars
  rwa [Text.byteSize_append, byteSize_toList] at hplace

/-- What stands in the second of two texts stands there in that text alone. -/
theorem StandsAt.beyond {first second : String} (h : StandsAt (first ++ second) place text)
    (hplace : first.utf8ByteSize ≤ place) :
    StandsAt second (place - first.utf8ByteSize) text := by
  obtain ⟨before, after, hsrc, rfl⟩ := h
  have hchars : first.toList ++ second.toList =
      before.toList ++ (text.toList ++ after.toList) := by
    have := congrArg String.toList hsrc
    simpa using this
  obtain ⟨gap, hbefore, hsecond⟩ : ∃ gap, before.toList = first.toList ++ gap ∧
      second.toList = gap ++ (text.toList ++ after.toList) := by
    rcases List.append_eq_append_iff.mp hchars with ⟨gap, hbefore, hsecond⟩ | ⟨gap, hfirst, hrest⟩
    · exact ⟨gap, hbefore, hsecond⟩
    · -- The first text is no longer than what stands before.
      have hsize := congrArg byteSize hfirst
      rw [Text.byteSize_append, byteSize_toList, byteSize_toList] at hsize
      have hgap : gap = [] := by
        by_contra hne
        have := Text.byteSize_pos hne
        omega
      exact ⟨[], by simp [hfirst, hgap], by simpa [hgap] using hrest.symm⟩
  have hstands := standsAt_of_chars hsecond
  have hsize := congrArg byteSize hbefore
  rw [Text.byteSize_append, byteSize_toList, byteSize_toList] at hsize
  rw [String.ofList_toList] at hstands
  rwa [hsize, Nat.add_sub_cancel_left]

theorem LineBreaksAt.boundary (h : LineBreaksAt src place) :
    String.Pos.Raw.IsValid src ⟨place⟩ ∧ place ≤ src.utf8ByteSize := by
  rcases h with h | h
  · exact ⟨h.boundary.1, by have := h.boundary.2; omega⟩
  · exact ⟨h.boundary.1, by have := h.boundary.2; omega⟩

/-- A diagnostic in the second of two texts points into that text alone. -/
theorem Diagnostic.PointsInto.beyond {first second : String} {d : Diagnostic}
    (h : d.PointsInto (first ++ second)) (hplace : first.utf8ByteSize ≤ d.offset) :
    (d.rebase first.utf8ByteSize).PointsInto second := by
  obtain ⟨problem, place⟩ := d
  obtain ⟨hvalid, hwithin, hshows⟩ := h
  change first.utf8ByteSize ≤ place at hplace
  change place ≤ _ at hwithin
  change problem.Shows (first ++ second) place at hshows
  have hsize : (first ++ second).utf8ByteSize = first.utf8ByteSize + second.utf8ByteSize :=
    String.utf8ByteSize_append
  refine ⟨standsAt_empty_iff.mp ((standsAt_empty_iff.mpr hvalid).beyond hplace), ?_, ?_⟩
  · show place - first.utf8ByteSize ≤ second.utf8ByteSize
    omega
  · show problem.Shows second (place - first.utf8ByteSize)
    cases problem with
    | invalidToken =>
      change place < _ at hshows
      show place - first.utf8ByteSize < second.utf8ByteSize
      omega
    | empty =>
      change place = 0 at hshows
      show place - first.utf8ByteSize = 0
      omega
    | endOfInput expected =>
      change place = _ at hshows
      show place - first.utf8ByteSize = second.utf8ByteSize
      omega
    | unterminatedComment | unclosed pair | unmatched pair => exact StandsAt.beyond hshows hplace
    | unterminatedString => exact hshows.imp (·.beyond hplace) (·.beyond hplace)
    | unexpected found expected =>
      refine hshows.imp (And.imp_right (·.beyond hplace)) (And.imp_right fun hbreak => ?_)
      exact hbreak.imp (·.beyond hplace) (·.beyond hplace)

end Places

section Lexemes

variable {src : String} {l : Lexeme}

/-- A lexeme is a text of the source, and a delimiter is written as one. -/
structure Lexeme.StandsIn (l : Lexeme) (src : String) : Prop where
  place : StandsAt src l.start l.text
  nonempty : l.text ≠ ""
  opener : ∀ pair, l.kind = .opening pair → l.text = String.singleton pair.opener
  closer : ∀ pair, l.kind = .closing pair → l.text = String.singleton pair.closer

theorem Lexeme.standsIn (hl : l ∈ (lex src).items) : l.StandsIn src := by
  obtain ⟨before, c, rest, n, hsrc, -, hstart, hread, htext⟩ := exists_readLexeme_at hl
  have hchars : src.toList = before ++ (l.text.toList ++ rest.drop n) := by
    rw [hsrc, htext, cons_take_append_drop]
  have hsingle {d : Char} (hc : c = d) (hn : n = 0) : l.text = String.singleton d := by
    apply String.toList_injective
    simp [htext, hc, hn]
  constructor
  · have hplace := standsAt_of_chars hchars
    rwa [String.ofList_toList, ← Nat.zero_add (byteSize before), ← hstart] at hplace
  · intro hnil
    rw [hnil] at htext
    cases htext
  · intro pair hkind
    obtain ⟨hc, hn⟩ := (delimiter_of_readLexeme hread).1 hkind
    exact hsingle hc hn
  · intro pair hkind
    obtain ⟨hc, hn⟩ := (delimiter_of_readLexeme hread).2 hkind
    exact hsingle hc hn

/-- A line break inside a lexeme is one of the source. -/
theorem Lexeme.StandsIn.lineBreaksAt (h : l.StandsIn src) {place : Nat}
    (hbreak : l.lineBreak? = some place) : LineBreaksAt src place := by
  obtain ⟨before, c, after, htext, -, hc, rfl⟩ := Lexeme.breaksAt_of_lineBreak? hbreak
  have hstands : StandsAt src _ (String.ofList [c]) := h.place.part htext
  have hcases : c = '\n' ∨ c = '\r' := by simpa [Text.isLineBreak] using hc
  rcases hcases with rfl | rfl
  · exact .inl hstands
  · exact .inr hstands

/-- The problem that stops the reading is found where it is reported. -/
theorem pointsInto_of_stopped {d : Diagnostic} (h : (lex src).stopped = some d) :
    d.PointsInto src := by
  obtain ⟨before, c, after, hsrc, -, hread, hoffset⟩ := exists_of_stopped h
  rw [Nat.zero_add] at hoffset
  have hhead : StandsAt src d.offset (String.ofList [c]) := hoffset ▸ standsAt_of_chars hsrc
  obtain ⟨hvalid, hsize⟩ := hhead.boundary
  refine ⟨hvalid, by omega, ?_⟩
  rcases problem_of_readLexeme hread with ⟨hp, rfl, hnext⟩ | ⟨hp, hquote⟩ | hp <;> rw [hp]
  · obtain ⟨rest, rfl⟩ := List.head?_eq_some_iff.mp hnext
    have hmark : StandsAt src _ (String.ofList ['/', '*']) := standsAt_of_chars hsrc
    exact hoffset ▸ hmark
  · rcases hquote with rfl | rfl
    · exact .inl hhead
    · exact .inr hhead
  · have hpos : 0 < (String.ofList [c]).utf8ByteSize := by
      rw [Text.utf8ByteSize_ofList]
      exact Text.byteSize_pos (List.cons_ne_nil _ _)
    show d.offset < src.utf8ByteSize
    omega

end Lexemes

section Tokens

variable {src : String} {ts : List Token} {t : Token}

/-- A written token stands in the source; an inserted one stands where a line breaks. -/
def Token.StandsIn (src : String) : Token → Prop
  | written l => l.StandsIn src
  | inserted place => LineBreaksAt src place

theorem tokenize_eq_error {d : Diagnostic} (h : tokenize src = .error d) :
    (lex src).stopped = some d := by
  cases hstopped : (lex src).stopped with
  | none => simp [tokenize, scan, hstopped, Reading.toExcept] at h
  | some e => simpa [tokenize, scan, hstopped, Reading.toExcept] using h

theorem tokenize_eq_ok (h : tokenize src = .ok ts) :
    ts = insertSemicolons (some src.utf8ByteSize) false (lex src).items ∧
      (lex src).stopped = none := by
  cases hstopped : (lex src).stopped with
  | none => simpa [tokenize, scan, hstopped, Reading.toExcept, eq_comm] using h
  | some e => simp [tokenize, scan, hstopped, Reading.toExcept] at h

/-- The end of the source inserts at most one semicolon, after everything else. -/
theorem insertSemicolons_eq_append (finish : Nat) (pending : Bool) (ls : List Lexeme) :
    ∃ tail, insertSemicolons (some finish) pending ls = insertSemicolons none pending ls ++ tail ∧
      (tail = [] ∨ tail = [.inserted finish]) := by
  induction ls generalizing pending with
  | nil => cases pending <;> simp [insertSemicolons]
  | cons l ls ih =>
    cases hl : l.kind.isTrivia with
    | false =>
      obtain ⟨tail, htail, hcases⟩ := ih l.kind.endsStatement
      exact ⟨tail, by rw [insertSemicolons_token hl, insertSemicolons_token hl, htail]; rfl, hcases⟩
    | true =>
      obtain ⟨tail, htail, hcases⟩ := ih (pending && l.lineBreak?.isNone)
      refine ⟨tail, ?_, hcases⟩
      rw [insertSemicolons_trivia hl, insertSemicolons_trivia hl, htail, List.append_assoc]

/-- Before the end of the source a token is a lexeme or comes from the line break in one. -/
theorem mem_insertSemicolons {pending : Bool} {ls : List Lexeme}
    (ht : t ∈ insertSemicolons none pending ls) :
    (∃ l ∈ ls, t = .written l) ∨
      ∃ l ∈ ls, ∃ place, l.lineBreak? = some place ∧ t = .inserted place := by
  induction ls generalizing pending with
  | nil => cases pending <;> cases ht
  | cons l ls ih =>
    have hlater : ∀ {pending'}, t ∈ insertSemicolons none pending' ls →
        (∃ m ∈ l :: ls, t = .written m) ∨
          ∃ m ∈ l :: ls, ∃ place, m.lineBreak? = some place ∧ t = .inserted place := by
      intro pending' ht
      rcases ih ht with ⟨m, hm, hwritten⟩ | ⟨m, hm, hinserted⟩
      · exact .inl ⟨m, List.mem_cons_of_mem _ hm, hwritten⟩
      · exact .inr ⟨m, List.mem_cons_of_mem _ hm, hinserted⟩
    cases hl : l.kind.isTrivia with
    | false =>
      rw [insertSemicolons_token hl] at ht
      rcases List.mem_cons.mp ht with rfl | ht
      · exact .inl ⟨l, List.mem_cons_self, rfl⟩
      · exact hlater ht
    | true =>
      rw [insertSemicolons_trivia hl] at ht
      rcases List.mem_append.mp ht with ht | ht
      · cases pending <;> cases hbreak : l.lineBreak? <;> simp [hbreak] at ht
        exact .inr ⟨l, List.mem_cons_self, _, hbreak, ht⟩
      · exact hlater ht

/-- Every token stands in the source but the semicolon that its end inserts. -/
theorem exists_standing (h : tokenize src = .ok ts) :
    ∃ first tail, ts = first ++ tail ∧ (∀ t ∈ first, t.StandsIn src) ∧
      (tail = [] ∨ tail = [.inserted src.utf8ByteSize]) := by
  obtain ⟨tail, htokens, htail⟩ := insertSemicolons_eq_append src.utf8ByteSize false (lex src).items
  refine ⟨_, tail, (tokenize_eq_ok h).1.trans htokens, fun t ht => ?_, htail⟩
  rcases mem_insertSemicolons ht with ⟨l, hl, rfl⟩ | ⟨l, hl, place, hbreak, rfl⟩
  · exact Lexeme.standsIn hl
  · exact (Lexeme.standsIn hl).lineBreaksAt hbreak

theorem standsIn_of_written {l : Lexeme} (h : tokenize src = .ok ts) (hl : .written l ∈ ts) :
    l.StandsIn src := by
  obtain ⟨first, tail, rfl, hfirst, htail⟩ := exists_standing h
  rcases List.mem_append.mp hl with hl | hl
  · exact hfirst _ hl
  · rcases htail with rfl | rfl <;> simp at hl

end Tokens

end GoSource
