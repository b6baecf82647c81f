import GoSource.Proofs.Check.Document
import GoSource.Proofs.Token.Joining

/-!
# Reading a comment back

A comment is written line by line, two slashes before each, and only a line feed ends a line
of it. For the reader a carriage return ends a line as well, and the comment on it. So what
stands in a comment after a carriage return is read as code, unless it is blank or a comment
again. Which code that is, and whether it can be read at all, is not described.
-/

namespace GoSource

open Text (isLineBreak)

/-- Line comments and line ends were read, nothing else, up to the end of the text. -/
def Reading.OnlyComments (r : Reading Lexeme) : Prop :=
  r.stopped = none ∧ ∀ l ∈ r.items, l.kind = .lineComment ∨ l.kind = .newline

instance (r : Reading Lexeme) : Decidable r.OnlyComments := inferInstanceAs (Decidable (_ ∧ _))

theorem Reading.onlyComments_cons {l : Lexeme} {r : Reading Lexeme} :
    (r.cons l).OnlyComments ↔ (l.kind = .lineComment ∨ l.kind = .newline) ∧ r.OnlyComments := by
  simp only [Reading.OnlyComments, Reading.cons, List.forall_mem_cons]
  exact and_left_comm

/-- A line that is blank or holds a line comment. -/
def IsCommentLine (line : List Char) : Prop :=
  line.dropWhile isSkipped = [] ∨ ['/', '/'] <+: line.dropWhile isSkipped

section CommentLine

variable {c : Char} {line : List Char}

theorem isCommentLine_nil : IsCommentLine [] := .inl rfl

theorem isCommentLine_skipped (hs : isSkipped c = true) :
    IsCommentLine (c :: line) ↔ IsCommentLine line := by
  simp [IsCommentLine, hs]

theorem isCommentLine_cons (hs : isSkipped c = false) :
    IsCommentLine (c :: line) ↔ c = '/' ∧ line.head? = some '/' := by
  cases line <;> simp [IsCommentLine, hs, eq_comm]

theorem isCommentLine_margin {margin : List Char} (h : ∀ c ∈ margin, isSkipped c = true)
    (line : List Char) : IsCommentLine (margin ++ '/' :: '/' :: line) := by
  induction margin with
  | nil => exact (isCommentLine_cons (by decide)).mpr ⟨rfl, rfl⟩
  | cons c margin ih =>
    rw [List.cons_append, isCommentLine_skipped (h c (by simp))]
    exact ih fun d hd => h d (List.mem_cons_of_mem c hd)

end CommentLine

/-- Every line of the text is blank or holds a line comment. -/
def Commented (cs : List Char) : Prop := ∀ line ∈ cs.splitOnP isLineBreak, IsCommentLine line

section Commented

/-- What is left behind the longest stretch of which every member satisfies `p`. -/
theorem drop_length_takeWhile {α : Type} (p : α → Bool) (l : List α) :
    l.drop (l.takeWhile p).length = l.dropWhile p :=
  calc l.drop (l.takeWhile p).length
    _ = (l.takeWhile p ++ l.dropWhile p).drop (l.takeWhile p).length := by
      rw [List.takeWhile_append_dropWhile]
    _ = l.dropWhile p := List.drop_left

/-- The first line of a text, and the lines after it. -/
theorem splitOnP_eq_cons (cs : List Char) :
    cs.splitOnP isLineBreak = cs.takeWhile (fun d => !isLineBreak d) ::
      ((cs.dropWhile fun d => !isLineBreak d).splitOnP isLineBreak).tail := by
  induction cs with
  | nil => rfl
  | cons c cs ih =>
    rw [List.splitOnP_cons_eq_if_modifyHead, ih]
    cases hc : isLineBreak c with
    | true => simp [List.splitOnP_cons_eq_if_modifyHead, hc, ← ih]
    | false => simp [hc]

theorem commented_lineBreak {c : Char} (hc : isLineBreak c = true) (cs : List Char) :
    Commented (c :: cs) ↔ Commented cs := by
  rw [Commented, List.splitOnP_cons_eq_if_modifyHead, if_pos hc, List.forall_mem_cons]
  exact and_iff_right isCommentLine_nil

/-- The lines of a text, the first of them on its own. -/
theorem commented_iff (cs : List Char) :
    Commented cs ↔ IsCommentLine (cs.takeWhile fun d => !isLineBreak d) ∧
      Commented (cs.dropWhile fun d => !isLineBreak d) := by
  rw [Commented, splitOnP_eq_cons, List.forall_mem_cons]
  refine and_congr_right fun _ => ?_
  cases hrest : cs.dropWhile fun d => !isLineBreak d with
  | nil => simp [Commented, isCommentLine_nil]
  | cons c rest =>
    have hc : isLineBreak c = true := by
      have hhead := List.head_dropWhile_not (fun d => !isLineBreak d) (l := cs) (by simp [hrest])
      simpa [hrest] using hhead
    rw [commented_lineBreak hc, List.splitOnP_cons_eq_if_modifyHead, if_pos hc, List.tail_cons,
      Commented]

/-- Two texts with a line break between them. -/
theorem commented_append {c : Char} (hc : isLineBreak c = true) (cs ds : List Char) :
    Commented (cs ++ c :: ds) ↔ Commented cs ∧ Commented ds := by
  rw [Commented, List.splitOnP_append_cons cs ds hc, List.forall_mem_append]
  rfl

/-- The first line of a text that starts with neither a blank nor a line break. -/
theorem commented_cons {c : Char} (hs : isSkipped c = false) (hc : isLineBreak c = false)
    (cs : List Char) :
    Commented (c :: cs) ↔ (c = '/' ∧ cs.head? = some '/') ∧
      Commented (cs.dropWhile fun d => !isLineBreak d) := by
  have hhead : (cs.takeWhile fun d => !isLineBreak d).head? = some '/' ↔
      cs.head? = some '/' := by
    rw [List.head?_takeWhile, Option.filter_eq_some_iff]
    exact and_iff_left (by decide)
  rw [commented_iff]
  simp [hc, isCommentLine_cons hs, hhead]

/-- What reading has to find where a text goes on, and how the text goes on behind it. -/
theorem commented_iff_read {c : Char} (hs : isSkipped c = false) (cs : List Char) :
    Commented (c :: cs) ↔ ∃ kind n, readLexeme c cs = .ok (kind, n) ∧
      (kind = .lineComment ∨ kind = .newline) ∧ Commented (cs.drop n) := by
  cases hc : isLineBreak c with
  | true =>
    have hline : c = '\n' ∨ c = '\r' := by simpa [isLineBreak] using hc
    rw [commented_lineBreak hc]
    rcases hline with rfl | rfl
    · simp [(ReadAs.lineFeed rfl).eq]
    · rw [(ReadAs.carriageReturn rfl).eq]
      -- A line feed right after the carriage return belongs to the same line end.
      cases cs with
      | nil => simp
      | cons d cs =>
        by_cases hd : d = '\n'
        · rw [hd, commented_lineBreak (by decide)]
          simp
        · simp [hd]
  | false =>
    rw [commented_cons hs hc, ← drop_length_takeWhile]
    constructor
    · rintro ⟨hslash, hrest⟩
      exact ⟨.lineComment, _, (ReadAs.lineComment hslash).eq, .inl rfl, hrest⟩
    · rintro ⟨kind, n, hread, hkind, hrest⟩
      have htrivia : kind.isTrivia = true := by rcases hkind with rfl | rfl <;> rfl
      obtain ⟨-, hbreak⟩ | ⟨-, hslash, rfl⟩ | rfl := readLexeme_trivia hread htrivia
      · rw [hc] at hbreak
        cases hbreak
      · exact ⟨hslash, hrest⟩
      · rcases hkind with hkind | hkind <;> cases hkind

end Commented

/-- A text is read as comments exactly if all its lines are comments or blank. -/
theorem onlyComments_lexFrom (offset : Nat) (cs : List Char) :
    (lexFrom offset cs).OnlyComments ↔ Commented cs := by
  fun_induction lexFrom offset cs with
  | case1 offset => simp [Reading.OnlyComments, Commented, isCommentLine_nil]
  | case2 offset c cs hs ih =>
    have hc := isLineBreak_eq_false_of_isSkipped hs
    rw [ih, commented_iff cs, commented_iff (c :: cs)]
    simp [hc, isCommentLine_skipped hs]
  | case3 offset c cs hs problem hread =>
    rw [commented_iff_read (by simpa using hs)]
    simp [Reading.OnlyComments, hread]
  | case4 offset c cs hs kind n hread text ih =>
    rw [Reading.onlyComments_cons, ih, commented_iff_read (by simpa using hs)]
    simp [hread]

section Written

/-- A line of a comment on its own: what follows a line break in it counts, and that alone. -/
theorem commented_commentLine {margin : List Char} (h : ∀ c ∈ margin, isSkipped c = true)
    (body : List Char) :
    Commented (margin ++ '/' :: '/' :: body) ↔
      ∀ piece ∈ (body.splitOnP isLineBreak).tail, IsCommentLine piece := by
  have hhead : (margin ++ '/' :: '/' :: body).splitOnP isLineBreak =
      (margin ++ '/' :: '/' :: body.takeWhile fun d => !isLineBreak d) ::
        (body.splitOnP isLineBreak).tail := by
    induction margin with
    | nil =>
      have hslash : isLineBreak '/' = false := by decide
      simp [List.splitOnP_cons_eq_if_modifyHead, hslash, splitOnP_eq_cons body]
    | cons c margin ih =>
      have hc := isLineBreak_eq_false_of_isSkipped (h c (by simp))
      rw [List.cons_append, List.splitOnP_cons_eq_if_modifyHead,
        ih fun d hd => h d (List.mem_cons_of_mem c hd)]
      simp [hc]
  rw [Commented, hhead, List.forall_mem_cons]
  exact and_iff_right (isCommentLine_margin h _)

theorem commented_commentChars {margin : List Char} (h : ∀ c ∈ margin, isSkipped c = true)
    (fresh : Bool) (lines : List String) :
    Commented (Doc.commentChars margin fresh lines) ↔
      ∀ line ∈ lines, ∀ piece ∈ (line.toList.splitOnP isLineBreak).tail, IsCommentLine piece := by
  induction lines generalizing fresh with
  | nil => simp [Doc.commentChars, Commented, isCommentLine_nil]
  | cons line lines ih =>
    have hmargin : ∀ c ∈ (if fresh then margin else []), isSkipped c = true := by
      split
      · exact h
      · simp
    have hbody : ((if line.isEmpty then [] else ' ' :: line.toList).splitOnP isLineBreak).tail =
        (line.toList.splitOnP isLineBreak).tail := by
      split
      · rename_i hempty
        rw [String.isEmpty_iff.mp hempty]
        rfl
      · have hspace : isLineBreak ' ' = false := by decide
        simp [List.splitOnP_cons_eq_if_modifyHead, hspace]
    have hcut := commented_append (c := '\n') (by decide)
      ((if fresh then margin else []) ++ '/' :: '/' ::
        (if line.isEmpty then [] else ' ' :: line.toList)) (Doc.commentChars margin true lines)
    rw [commented_commentLine hmargin, hbody, ih true] at hcut
    rw [Doc.commentChars, List.forall_mem_cons, ← hcut]
    simp

end Written

/-- What a comment adds to a page, with any indentation, at any depth and wherever on a line, is
read as comments and line ends only, exactly if every stretch of a line of it that follows a
line break is blank or starts with a comment again. Lines of a comment hold no line feeds, so a
comment without carriage returns always is. -/
theorem Page.onlyComments_comment (p : Page) (text : String) :
    ∃ added, (p.comment text).text = p.text ++ added ∧
      ((lex added).OnlyComments ↔ ∀ line ∈ commentLines text,
        ∀ piece ∈ (line.toList.splitOnP isLineBreak).tail, IsCommentLine piece) ∧
      ('\r' ∉ text.toList → (lex added).OnlyComments) := by
  have hmargin : ∀ c ∈ p.indent.margin p.depth, isSkipped c = true := by
    intro c hc
    rcases Indent.mem_margin hc with rfl | rfl <;> decide
  let added := String.ofList
    (Doc.commentChars (p.indent.margin p.depth) p.fresh (commentLines text))
  have hadded : (p.comment text).text = p.text ++ added := by
    rw [Page.comment, Doc.foldl_commentLine_eq]
    rfl
  have hread : (lex added).OnlyComments ↔ ∀ line ∈ commentLines text,
      ∀ piece ∈ (line.toList.splitOnP isLineBreak).tail, IsCommentLine piece := by
    rw [lex, String.toList_ofList, onlyComments_lexFrom, commented_commentChars hmargin]
  refine ⟨added, hadded, hread, fun hreturn => hread.mpr ?_⟩
  intro line hline piece hpiece
  have hsolid : ∀ c ∈ line.toList, isLineBreak c = false := by
    intro c hc
    obtain ⟨hmem, hfeed⟩ := mem_of_mem_commentLines hline hc
    have hne : c ≠ '\r' := fun he => hreturn (he ▸ hmem)
    simp [isLineBreak, hfeed, hne]
  rw [List.splitOnP_eq_singleton hsolid] at hpiece
  cases hpiece

/-- The second half of the comment is a statement for the reader. -/
theorem Page.comment_carriageReturn :
    (({} : Page).comment "see\rreturn").text = "// see\rreturn\n" ∧
    lex "// see\rreturn\n" =
      ⟨[⟨.lineComment, 0, "// see"⟩, ⟨.newline, 6, "\r"⟩, ⟨.keyword .kwReturn, 7, "return"⟩,
        ⟨.newline, 13, "\n"⟩], none⟩ ∧
    ¬ (lex "// see\rreturn\n").OnlyComments := by
  decide +kernel

end GoSource
