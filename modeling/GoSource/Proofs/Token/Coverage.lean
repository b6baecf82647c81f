import GoSource.Proofs.Token.Insertion

/-!
# What the lexemes cover

Reading accounts for every character. The lexemes stand in the source one after another,
each at least one character long, and whatever lies outside them, up to the place where
reading ended, is a character that is passed over. What is read at a place depends on the
text from there on alone. Nothing is said here about the kind that a stretch of text is
given, or about the text after a problem.
-/

namespace GoSource

open Text (byteSize)

/-- The lexemes, with skipped characters before, between and after them, make up a text that
starts at the byte offset `offset`, up to an unread rest. -/
inductive Tiles : Nat → List Char → List Lexeme → List Char → Prop where
  | unread (offset : Nat) (rest : List Char) : Tiles offset rest [] rest
  | skipped {offset : Nat} {c : Char} {cs rest : List Char} {ls : List Lexeme}
      (hc : isSkipped c = true) (h : Tiles (offset + c.utf8Size) cs ls rest) :
      Tiles offset (c :: cs) ls rest
  | lexeme {offset : Nat} {kind : Kind} {text cs rest : List Char} {ls : List Lexeme}
      (htext : text ≠ []) (h : Tiles (offset + byteSize text) cs ls rest) :
      Tiles offset (text ++ cs) (⟨kind, offset, String.ofList text⟩ :: ls) rest

/-- The byte offset that a reading got to: that of the problem which stopped it, or the end
of the text. -/
def Reading.reach {α : Type} (finish : Nat) (r : Reading α) : Nat :=
  (r.stopped.map Diagnostic.offset).getD finish

/-- The byte offset lies in the lexeme. -/
def Lexeme.Covers (l : Lexeme) (place : Nat) : Prop := l.start ≤ place ∧ place < l.stop

/-- What was read accounts for the source up to where reading ended. -/
structure Reading.AccountsFor (r : Reading Lexeme) (src : String) : Prop where
  nonempty : ∀ l ∈ r.items, l.start < l.stop
  atCharacters : ∀ l ∈ r.items,
    String.Pos.Raw.IsValid src ⟨l.start⟩ ∧ String.Pos.Raw.IsValid src ⟨l.stop⟩
  inPlace : ∀ l ∈ r.items, ∃ before after, src = before ++ l.text ++ after ∧
    l.start = before.utf8ByteSize
  ordered : r.items.Pairwise fun l m => l.stop ≤ m.start
  inReach : ∀ l ∈ r.items, l.stop ≤ r.reach src.utf8ByteSize
  /-- A character that was passed and lies in no lexeme is one of the four that are skipped. -/
  skipped : ∀ before c after, src = before ++ String.singleton c ++ after →
    before.utf8ByteSize < r.reach src.utf8ByteSize →
    (∀ l ∈ r.items, ¬ l.Covers before.utf8ByteSize) →
    c = ' ' ∨ c = '\t' ∨ c = '\x0c' ∨ c = '\ufeff'
  stopped : ∀ d, r.stopped = some d →
    String.Pos.Raw.IsValid src ⟨d.offset⟩ ∧ d.offset < src.utf8ByteSize

theorem Text.byteSize_pos {cs : List Char} (h : cs ≠ []) : 0 < byteSize cs := by
  cases cs with
  | nil => exact absurd rfl h
  | cons c cs =>
    have hc := c.utf8Size_pos
    rw [byteSize]
    omega

/-- A text is cut at a byte offset in one way. -/
theorem Text.append_inj_of_byteSize {as bs cs ds : List Char} (h : as ++ bs = cs ++ ds)
    (hsize : byteSize as = byteSize cs) : as = cs ∧ bs = ds := by
  have hempty {gap : List Char} (hgap : byteSize gap = 0) : gap = [] := by
    by_contra hne
    have := Text.byteSize_pos hne
    omega
  rcases List.append_eq_append_iff.mp h with ⟨gap, rfl, rfl⟩ | ⟨gap, rfl, rfl⟩
  · rw [Text.byteSize_append] at hsize
    have hgap : byteSize gap = 0 := by omega
    simp [hempty hgap]
  · rw [Text.byteSize_append] at hsize
    have hgap : byteSize gap = 0 := by omega
    simp [hempty hgap]

namespace Tiles

variable {offset : Nat} {cs rest : List Char} {ls : List Lexeme}

/-- The unread rest is the end of the text. -/
theorem suffix (h : Tiles offset cs ls rest) : rest <:+ cs := by
  induction h with
  | unread offset rest => exact List.suffix_refl rest
  | skipped hc h ih => exact ih.trans (List.suffix_cons _ _)
  | lexeme htext h ih => exact ih.trans (List.suffix_append _ _)

/-- Every lexeme is a stretch of the text before the unread rest. -/
theorem stands (h : Tiles offset cs ls rest) {l : Lexeme} (hl : l ∈ ls) :
    ∃ before after, cs = before ++ (l.text.toList ++ (after ++ rest)) ∧
      l.start = offset + byteSize before ∧ l.text.toList ≠ [] := by
  induction h with
  | unread offset rest => cases hl
  | @skipped offset c cs rest ls hc h ih =>
    obtain ⟨before, after, hcs, hstart, hne⟩ := ih hl
    refine ⟨c :: before, after, ?_, ?_, hne⟩
    · rw [hcs, List.cons_append]
    · rw [hstart, byteSize, Nat.add_assoc]
  | @lexeme offset kind text cs rest ls htext h ih =>
    rcases List.mem_cons.mp hl with rfl | hl
    · obtain ⟨after, hcs⟩ := h.suffix
      exact ⟨[], after, by rw [hcs]; simp, rfl, by simpa using htext⟩
    · obtain ⟨before, after, hcs, hstart, hne⟩ := ih hl
      refine ⟨text ++ before, after, ?_, ?_, hne⟩
      · rw [hcs, List.append_assoc]
      · rw [hstart, Text.byteSize_append, Nat.add_assoc]

/-- A lexeme ends before every later one starts. -/
theorem ordered (h : Tiles offset cs ls rest) : ls.Pairwise fun l m => l.stop ≤ m.start := by
  induction h with
  | unread offset rest => exact .nil
  | skipped hc h ih => exact ih
  | @lexeme offset kind text cs rest ls htext h ih =>
    refine .cons ?_ ih
    intro m hm
    obtain ⟨before, after, -, hstart, -⟩ := h.stands hm
    rw [Lexeme.stop_ofList, hstart]
    omega

/-- Of the characters before the unread rest, those that no lexeme covers are skipped. -/
theorem isSkipped_of_not_covers (h : Tiles offset cs ls rest) {before after : List Char} {c : Char}
    (hcs : cs = before ++ c :: after) (hread : byteSize before + byteSize rest < byteSize cs)
    (hfree : ∀ l ∈ ls, ¬ l.Covers (offset + byteSize before)) : isSkipped c = true := by
  induction h generalizing before with
  | unread offset rest => omega
  | @skipped offset d cs rest ls hd h ih =>
    cases before with
    | nil =>
      obtain ⟨rfl, -⟩ := List.cons.inj hcs
      exact hd
    | cons e before =>
      obtain ⟨rfl, htail⟩ := List.cons.inj hcs
      simp only [byteSize] at hread hfree
      apply ih htail
      · omega
      · simpa only [Nat.add_assoc] using hfree
  | @lexeme offset kind text cs rest ls htext h ih =>
    rcases List.append_eq_append_iff.mp hcs with ⟨gap, rfl, hgap⟩ | ⟨tail, rfl, htail⟩
    · -- The character lies after the first lexeme.
      simp only [Text.byteSize_append] at hread hfree
      apply ih hgap
      · omega
      · intro l hl
        simpa only [Nat.add_assoc] using hfree l (List.mem_cons_of_mem _ hl)
    · cases tail with
      | nil =>
        -- The character is the first one after it.
        have hnext : cs = [] ++ c :: after := htail.symm
        simp only [List.append_nil, Text.byteSize_append] at hread
        apply ih hnext
        · simp only [byteSize]
          omega
        · intro l hl
          simpa [byteSize] using hfree l (List.mem_cons_of_mem _ hl)
      | cons e tail =>
        -- The character lies in the first lexeme, which covers it.
        have he := e.utf8Size_pos
        refine absurd ⟨?_, ?_⟩ (hfree _ List.mem_cons_self)
        · exact Nat.le_add_right _ _
        · rw [Lexeme.stop_ofList, Text.byteSize_append, byteSize]
          omega

end Tiles

/-- Reading a text tiles it, up to where the reading ends. -/
theorem lexFrom_tiles (offset : Nat) (cs : List Char) :
    ∃ rest, Tiles offset cs (lexFrom offset cs).items rest ∧
      (lexFrom offset cs).reach (offset + byteSize cs) + byteSize rest = offset + byteSize cs ∧
      ((lexFrom offset cs).stopped ≠ none → rest ≠ []) := by
  fun_induction lexFrom offset cs with
  | case1 offset => exact ⟨[], .unread offset [], rfl, fun h => absurd rfl h⟩
  | case2 offset c cs hs ih =>
    obtain ⟨rest, htiles, hreach, hrest⟩ := ih
    refine ⟨rest, .skipped hs htiles, ?_, hrest⟩
    rwa [byteSize, ← Nat.add_assoc]
  | case3 offset c cs hs problem hread =>
    exact ⟨c :: cs, .unread offset _, rfl, fun _ => List.cons_ne_nil c cs⟩
  | case4 offset c cs hs kind n hread text ih =>
    obtain ⟨rest, htiles, hreach, hrest⟩ := ih
    have hsplit : text ++ cs.drop n = c :: cs := cons_take_append_drop c cs n
    rw [← hsplit]
    refine ⟨rest, .lexeme (List.cons_ne_nil _ _) htiles, ?_, hrest⟩
    rwa [Text.byteSize_append, ← Nat.add_assoc]

section Source

variable {src : String} {ls : List Lexeme} {rest : List Char}

/-- Where one text ends and another begins is a character boundary of the two together. -/
theorem isValid_append (before after : String) :
    String.Pos.Raw.IsValid (before ++ after) ⟨before.utf8ByteSize⟩ :=
  String.Pos.Raw.isValid_iff_exists_append.mpr ⟨before, after, rfl, rfl⟩

/-- The unread rest starts at a character boundary. -/
theorem Tiles.isValid_rest (h : Tiles 0 src.toList ls rest) {place : Nat}
    (hplace : place + byteSize rest = src.utf8ByteSize) :
    String.Pos.Raw.IsValid src ⟨place⟩ := by
  obtain ⟨read, hread⟩ := h.suffix
  have hsrc : src = String.ofList read ++ String.ofList rest := by
    rw [← String.ofList_append, hread, String.ofList_toList]
  have hsize : place = (String.ofList read).utf8ByteSize := by
    have hsum := congrArg byteSize hread
    rw [Text.byteSize_append, byteSize_toList] at hsum
    rw [Text.utf8ByteSize_ofList]
    omega
  rw [hsrc, hsize]
  exact isValid_append _ _

/-- Every lexeme is a stretch of the source before the unread rest. -/
theorem Tiles.exists_split (h : Tiles 0 src.toList ls rest) {l : Lexeme} (hl : l ∈ ls) :
    ∃ before after, src = before ++ l.text ++ after ∧ l.start = before.utf8ByteSize ∧
      l.start < l.stop ∧ l.stop + byteSize rest ≤ src.utf8ByteSize := by
  obtain ⟨before, after, hcs, hstart, hne⟩ := h.stands hl
  have hsrc : src = String.ofList before ++ l.text ++ String.ofList (after ++ rest) := by
    apply String.toList_injective
    simp [hcs]
  have hpos := Text.byteSize_pos hne
  have hsize := congrArg String.utf8ByteSize hsrc
  rw [byteSize_toList] at hpos
  simp only [String.utf8ByteSize_append, Text.utf8ByteSize_ofList, Text.byteSize_append] at hsize
  refine ⟨_, _, hsrc, ?_, ?_, ?_⟩
  · rw [hstart, Text.utf8ByteSize_ofList, Nat.zero_add]
  · rw [Lexeme.stop]
    omega
  · rw [Lexeme.stop]
    omega

/-- Of the characters of the source before the unread rest, those that no lexeme covers are
skipped. -/
theorem Tiles.skipped_of_not_covers (h : Tiles 0 src.toList ls rest) {before after : String}
    {c : Char} (hsrc : src = before ++ String.singleton c ++ after)
    (hread : before.utf8ByteSize + byteSize rest < src.utf8ByteSize)
    (hfree : ∀ l ∈ ls, ¬ l.Covers before.utf8ByteSize) :
    c = ' ' ∨ c = '\t' ∨ c = '\x0c' ∨ c = '\ufeff' := by
  have hcs : src.toList = before.toList ++ c :: after.toList := by
    simp [hsrc]
  rw [← byteSize_toList before, ← byteSize_toList src] at hread
  have hskipped : isSkipped c = true := by
    apply h.isSkipped_of_not_covers hcs hread
    rwa [Nat.zero_add, byteSize_toList]
  simpa [isSkipped, or_assoc] using hskipped

end Source

/-- Reading loses no text and invents none. Every lexeme is a stretch of the source that is
not empty and is cut at character boundaries, the lexemes follow one another without overlap,
and every other character up to the end of the source, or up to the problem that stopped the
reading, is a space, a tab, a form feed or a byte order mark. A problem lies before the end. -/
theorem lex_accountsFor (src : String) : (lex src).AccountsFor src := by
  show (lexFrom 0 src.toList).AccountsFor src
  obtain ⟨rest, htiles, hreach, hrest⟩ := lexFrom_tiles 0 src.toList
  rw [Nat.zero_add, byteSize_toList] at hreach
  constructor
  · intro l hl
    obtain ⟨before, after, -, -, hlt, -⟩ := htiles.exists_split hl
    exact hlt
  · intro l hl
    obtain ⟨before, after, hsrc, hstart, -, -⟩ := htiles.exists_split hl
    rw [Lexeme.stop, hstart, ← String.utf8ByteSize_append, hsrc]
    refine ⟨?_, isValid_append _ _⟩
    rw [String.append_assoc]
    exact isValid_append _ _
  · intro l hl
    obtain ⟨before, after, hsrc, hstart, -, -⟩ := htiles.exists_split hl
    exact ⟨before, after, hsrc, hstart⟩
  · exact htiles.ordered
  · intro l hl
    obtain ⟨before, after, -, -, -, hle⟩ := htiles.exists_split hl
    omega
  · intro before c after hsrc hplace hfree
    exact htiles.skipped_of_not_covers hsrc (by omega) hfree
  · intro d hd
    have hpos := Text.byteSize_pos (hrest (by rw [hd]; exact Option.some_ne_none d))
    have hoffset : (lexFrom 0 src.toList).reach src.utf8ByteSize = d.offset := by
      rw [Reading.reach, hd]
      rfl
    rw [hoffset] at hreach
    exact ⟨htiles.isValid_rest hreach, by omega⟩

example : (lex "é /*é*/x$ y").items.map (fun l => (l.start, l.stop)) = [(0, 2), (3, 9), (9, 10)] ∧
    (lex "é /*é*/x$ y").stopped = some ⟨.invalidToken, 10⟩ := by decide +kernel

/-- A token of the source starts at a byte offset: one is read there, or the reading stops
there. -/
def TokenStarts (src : String) (place : Nat) : Prop :=
  (∃ l ∈ (lex src).items, l.start = place) ∨
    ∃ d, (lex src).stopped = some d ∧ d.offset = place

/-- What is left of a source behind a place depends on the place alone. -/
theorem toList_eq_of_byteSize {before rest : String} {read unread : List Char}
    (hsrc : (before ++ rest).toList = read ++ unread)
    (hplace : before.utf8ByteSize = 0 + byteSize read) : rest.toList = unread := by
  rw [String.toList_append] at hsrc
  rw [Nat.zero_add, ← byteSize_toList] at hplace
  exact (Text.append_inj_of_byteSize hsrc hplace).2

/-- What is read where a token starts depends on the rest of the source alone. -/
theorem TokenStarts.exists_read {before rest : String}
    (h : TokenStarts (before ++ rest) before.utf8ByteSize) :
    ∃ c cs, rest.toList = c :: cs ∧
      ((∃ kind n, readLexeme c cs = .ok (kind, n) ∧
        ⟨kind, before.utf8ByteSize, String.ofList (c :: cs.take n)⟩ ∈
          (lex (before ++ rest)).items) ∨
      ∃ problem, readLexeme c cs = .error problem ∧
        (lex (before ++ rest)).stopped = some ⟨problem, before.utf8ByteSize⟩) := by
  rcases h with ⟨l, hl, hstart⟩ | ⟨d, hd, hoffset⟩
  · obtain ⟨read, c, cs, n, hsrc, -, hplace, hread, htext⟩ := exists_readLexeme_at hl
    refine ⟨c, cs, toList_eq_of_byteSize hsrc (hstart ▸ hplace), .inl ⟨l.kind, n, hread, ?_⟩⟩
    rw [← htext, String.ofList_toList, ← hstart]
    exact hl
  · obtain ⟨read, c, cs, hsrc, -, hread, hplace⟩ := exists_of_stopped hd
    refine ⟨c, cs, toList_eq_of_byteSize hsrc (hoffset ▸ hplace), .inr ⟨d.problem, hread, ?_⟩⟩
    rw [hd, ← hoffset]

/-- Reading goes on right behind a lexeme that stands in the source. -/
theorem lex_resumes {before text after : String} {kind : Kind} {l : Lexeme}
    (hl : l ∈ (lex (before ++ (text ++ after))).items)
    (hform : l = ⟨kind, before.utf8ByteSize, text⟩) :
    ∃ earlier, lex (before ++ (text ++ after)) =
      ⟨earlier ++ l :: (lexFrom l.stop after.toList).items,
        (lexFrom l.stop after.toList).stopped⟩ := by
  obtain ⟨earlier, later, hitems⟩ := List.append_of_mem hl
  obtain ⟨read, rest, hsrc, hstop, hrest⟩ := lexFrom_resumes hitems
  have hsize : (before ++ text).utf8ByteSize = 0 + byteSize read := by
    rw [← hstop, hform, String.utf8ByteSize_append]
    rfl
  rw [← String.append_assoc] at hsrc
  rw [toList_eq_of_byteSize hsrc hsize, hrest]
  refine ⟨earlier, ?_⟩
  rw [← hitems]
  rfl

end GoSource
