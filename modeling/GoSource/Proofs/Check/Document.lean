import GoSource.Proofs.Check.Reading
import GoSource.Proofs.Layout.Type

/-!
# Reading what a document writes

How far a document takes the check of a file, at any depth, with any indentation
and wherever on a line it starts. Margins are blanks and comments are trivia, so
only the texts between them count. What a document needs from the text after it
is passed to the document that follows.
-/

namespace GoSource

/-- The characters of a line of a comment come from the comment, line feeds left out. -/
theorem mem_of_mem_commentLines {text line : String} {c : Char} (hline : line ∈ commentLines text)
    (hc : c ∈ line.toList) : c ∈ text.toList ∧ c ≠ '\n' := by
  have htrim : ∀ (p : Char → Bool) (cs : List Char), Text.trimEnd p cs ⊆ cs := by
    intro p cs d hd
    rw [Text.trimEnd, List.mem_reverse] at hd
    exact List.mem_reverse.mp ((List.dropWhile_suffix p).subset hd)
  have hsplit : ∀ (cs l : List Char), l ∈ Text.splitLines cs → ∀ d ∈ l, d ∈ cs ∧ d ≠ '\n' := by
    intro cs
    induction cs with
    | nil => simp [Text.splitLines]
    | cons e cs ih =>
      intro l hl d hd
      unfold Text.splitLines at hl
      split at hl
      · rcases List.mem_cons.mp hl with rfl | hl
        · cases hd
        · exact ⟨List.mem_cons_of_mem _ (ih l hl d hd).1, (ih l hl d hd).2⟩
      · rename_i hfeed
        cases hlines : Text.splitLines cs with
        | nil => simp_all
        | cons first lines =>
          rw [hlines] at hl ih
          rcases List.mem_cons.mp hl with rfl | hl
          · rcases List.mem_cons.mp hd with rfl | hd
            · exact ⟨by simp, hfeed⟩
            · have hfirst := ih first (by simp) d hd
              exact ⟨List.mem_cons_of_mem _ hfirst.1, hfirst.2⟩
          · have hrest := ih l (by simp [hl]) d hd
            exact ⟨List.mem_cons_of_mem _ hrest.1, hrest.2⟩
  unfold commentLines at hline
  split at hline
  · cases hline
  · obtain ⟨l, hl, rfl⟩ := List.mem_map.mp hline
    rw [String.toList_ofList] at hc
    have hmem := hsplit _ l hl c (htrim _ _ hc)
    exact ⟨htrim _ _ hmem.1, hmem.2⟩

namespace Doc

/-- The document takes the check from one place to another. -/
def Takes (d : Doc) (follow : List Char → Prop) (s t : Config) : Prop :=
  ∀ indent depth fresh, Reaches follow s (d.chars indent depth fresh) t

/-- What is asked of a following text is met by the document and what may follow it. -/
def Meets (d : Doc) (follow' follow : List Char → Prop) : Prop :=
  ∀ indent depth fresh rest, follow' rest → follow (d.chars indent depth fresh ++ rest)

section Meets

variable {follow follow' : List Char → Prop} {d e : Doc}

theorem meets_anything : d.Meets follow Anything := fun _ _ _ _ _ => trivial

theorem meets_empty : empty.Meets follow follow := fun _ _ _ _ h => h

theorem Meets.mono (h : d.Meets Anything follow) : d.Meets follow' follow :=
  fun indent depth fresh rest _ => h indent depth fresh rest trivial

theorem Meets.append (h : d.Meets Anything follow) : (d ++ e).Meets follow' follow := by
  intro indent depth fresh rest _
  rw [append_eq, chars, List.append_assoc]
  exact h indent depth fresh _ trivial

/-- A text that starts with a sign does not go on with a name, indented or not. -/
theorem meets_sign {s : String} {c : Char} {cs : List Char} (hs : s.toList = c :: cs)
    (hc : isNamePart c = false) : (text s).Meets follow Apart := by
  intro indent depth fresh rest _
  have hmargin : ∀ d ∈ indent.margin depth, isNamePart d = false := by
    intro d hd
    rcases Indent.mem_margin hd with rfl | rfl <;> decide
  rw [chars, hs]
  split
  · cases h : indent.margin depth with
    | nil => exact apart_cons hc _
    | cons d ds => exact apart_cons (hmargin d (by simp [h])) _
  · exact apart_cons hc _

theorem meets_newline : newline.Meets follow Apart := fun _ _ _ rest _ =>
  apart_cons (by decide) rest

end Meets

namespace Takes

variable {follow follow' : List Char → Prop} {s t u : Config} {d e : Doc}

theorem mono (h : d.Takes follow s t) (hf : ∀ rest, follow' rest → follow rest) :
    d.Takes follow' s t := fun indent depth fresh => (h indent depth fresh).mono hf

theorem anywhere (h : d.Takes Anything s t) : d.Takes follow s t := h.mono fun _ _ => trivial

theorem empty (s : Config) : Doc.empty.Takes follow s s := fun _ _ _ => Reaches.refl _ s

/-- A text is read after its margin. -/
theorem text {w : String} (h : Reaches follow s w.toList t) : (Doc.text w).Takes follow s t := by
  intro indent depth fresh
  rw [chars]
  split
  · exact (Reaches.margin indent depth s).trans h
  · exact h

theorem space (s : Config) : (Doc.text " ").Takes Anything s s := text (Reaches.space s)

theorem append (h : d.Takes follow s t) (h' : e.Takes follow' t u) (hf : e.Meets follow' follow) :
    (d ++ e).Takes follow' s u := fun indent depth fresh =>
  (h indent depth fresh).append (h' indent depth _) (hf indent depth _)

theorem trans (h : d.Takes Anything s t) (h' : e.Takes follow' t u) :
    (d ++ e).Takes follow' s u := h.append h' meets_anything

theorem assoc {d e c : Doc} (h : (d ++ (e ++ c)).Takes follow s t) :
    (d ++ e ++ c).Takes follow s t := by
  intro indent depth fresh
  simpa using h indent depth fresh

theorem nest (h : d.Takes follow s t) : (Doc.nest d).Takes follow s t :=
  fun indent depth fresh => h indent (depth + 1) fresh

theorem within (segment : Segment) (h : d.Takes follow s t) :
    (Doc.within segment d).Takes follow s t := h

/-- A document that starts on the current line may have a margin before it. -/
theorem of_leads (hleads : d.leads = true)
    (h : ∀ indent depth, Reaches follow s (d.chars indent depth false) t) :
    d.Takes follow s t := by
  intro indent depth fresh
  cases fresh with
  | false => exact h indent depth
  | true =>
    rw [(chars_of_leads hleads indent depth).1]
    exact (Reaches.margin indent depth s).trans (h indent depth)

/-- Documents that lead back to where they start. -/
theorem concat {ds : List Doc} (h : ∀ d ∈ ds, d.Takes Anything s s) :
    (Doc.concat ds).Takes Anything s s := by
  induction ds with
  | nil => exact empty s
  | cons d ds ih =>
    exact (h d (by simp)).trans (ih fun e he => h e (List.mem_cons_of_mem _ he))

theorem newline_idle (phase : Phase) : Doc.newline.Takes Anything ⟨phase, false⟩ ⟨phase, false⟩ :=
  fun _ _ _ => Reaches.newline_idle phase

theorem newline {phase next : Phase} (h : phase.step .semicolon = some next) :
    Doc.newline.Takes Anything ⟨phase, true⟩ ⟨next, false⟩ := fun _ _ _ => Reaches.newline h

/-- A comment that stands where no statement has to be ended changes nothing. -/
theorem comment {c : String} (h : '\r' ∉ c.toList) (phase : Phase) :
    (Doc.comment c).Takes Anything ⟨phase, false⟩ ⟨phase, false⟩ := by
  have hlines : ∀ line ∈ commentLines c, ∀ d ∈ (if line.isEmpty then [] else ' ' :: line.toList),
      Text.isLineBreak d = false := by
    intro line hline d hd
    split at hd
    · cases hd
    · rcases List.mem_cons.mp hd with rfl | hd
      · rfl
      · obtain ⟨hmem, hfeed⟩ := mem_of_mem_commentLines hline hd
        have hreturn : d ≠ '\r' := fun he => h (he ▸ hmem)
        simp [Text.isLineBreak, hfeed, hreturn]
  intro indent depth fresh
  rw [chars]
  revert hlines
  induction commentLines c generalizing fresh with
  | nil => exact fun _ => Reaches.refl _ _
  | cons line lines ih =>
    intro hlines
    have hline := Reaches.commentLine (hlines line (by simp)) phase
    have hrest := ih true fun l hl => hlines l (List.mem_cons_of_mem _ hl)
    have hmargin : Reaches Anything ⟨phase, false⟩ (if fresh then indent.margin depth else [])
        ⟨phase, false⟩ := by
      split
      · exact Reaches.margin indent depth _
      · exact Reaches.refl _ _
    simpa [commentChars] using hmargin.trans (hline.trans hrest)

end Takes

end Doc

end GoSource
