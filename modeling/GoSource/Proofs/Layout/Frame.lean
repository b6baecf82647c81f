import GoSource.Proofs.Layout.Failure

/-!
# What writing leaves as it was

Writing a document only appends, and leaves the depth and the indentation of the page as they
were, also if it fails at some depth. A page can so be used further after a failure; that the
line on which the failure happened is then still open is not mended. Declarations, groups and
files laid out from their declarations end their last line.
-/

namespace GoSource

/-- The second page goes on where the first one stopped: same depth, same indentation, and all
that was written before. -/
structure Page.Continues (p q : Page) : Prop where
  depth : q.depth = p.depth
  indent : q.indent = p.indent
  text : ∃ added, q.text = p.text ++ added

namespace Page

section Operations

variable {p q r : Page}

theorem Continues.refl (p : Page) : p.Continues p := ⟨rfl, rfl, "", String.append_empty.symm⟩

theorem Continues.trans (h : p.Continues q) (h' : q.Continues r) : p.Continues r := by
  obtain ⟨added, hadded⟩ := h.text
  obtain ⟨more, hmore⟩ := h'.text
  refine ⟨h'.depth.trans h.depth, h'.indent.trans h.indent, added ++ more, ?_⟩
  rw [hmore, hadded, String.append_assoc]

theorem continues_emit (p : Page) (s : String) : p.Continues (p.emit s) := by
  unfold emit
  split
  · exact .refl p
  · split
    · exact ⟨rfl, rfl, p.margin ++ s, String.append_assoc⟩
    · exact ⟨rfl, rfl, s, rfl⟩

theorem continues_newline (p : Page) : p.Continues p.newline := ⟨rfl, rfl, "\n", rfl⟩

theorem continues_verbatim (p : Page) (s : String) : p.Continues (p.verbatim s) := by
  unfold verbatim
  split
  · exact .refl p
  · exact ⟨rfl, rfl, s, rfl⟩

theorem continues_commentLine (p : Page) (line : String) : p.Continues (p.commentLine line) := by
  unfold commentLine
  split
  · exact (p.continues_emit "//").trans (continues_newline _)
  · exact ((p.continues_emit "// ").trans (continues_emit _ line)).trans (continues_newline _)

theorem continues_comment (p : Page) (text : String) : p.Continues (p.comment text) := by
  rw [comment]
  induction commentLines text generalizing p with
  | nil => exact .refl p
  | cons line lines ih => exact (p.continues_commentLine line).trans (ih _)

/-- What keeps the deeper level keeps the level from which it was entered: the one level taken
off at the end is the one added at the start. -/
theorem continues_indented {α : Type} {f : Page → Page × α} (h : ∀ q : Page, q.Continues (f q).1)
    (p : Page) : p.Continues (p.indented f).1 := by
  have hbody := h { p with depth := p.depth + 1 }
  have hdepth : (f { p with depth := p.depth + 1 }).1.depth - 1 = p.depth := by
    rw [hbody.depth, Nat.add_sub_cancel]
  exact ⟨hdepth, hbody.indent, hbody.text⟩

end Operations

end Page

namespace Doc

/-- Writing a document goes on with the page, up to where it fails if it does. -/
theorem continues_write (d : Doc) (p : Page) : p.Continues (d.write p).1 := by
  induction d generalizing p with
  | empty => exact .refl p
  | text s => exact p.continues_emit s
  | verbatim s => exact p.continues_verbatim s
  | newline => exact p.continues_newline
  | comment s => exact p.continues_comment s
  | append first second hfirst hsecond =>
    have hp := hfirst p
    rw [write]
    split
    · rename_i q hq
      rw [hq] at hp
      exact hp.trans (hsecond q)
    · rename_i q fault hq
      rwa [hq] at hp
  | nest body ih => exact Page.continues_indented ih p
  | within segment body ih => exact ih p
  | fail fault => exact .refl p

/-- Whether the current line is empty after a document that did not fail. -/
theorem fresh_write {d : Doc} {p : Page} (h : (d.write p).2 = none) :
    (d.write p).1.fresh = d.freshAfter p.fresh := by
  rw [write_eq (d.write_snd p ▸ h)]
  rfl

theorem freshAfter_concat {ds : List Doc} (h : ∀ d ∈ ds, ∀ fresh, d.freshAfter fresh = true) :
    (concat ds).freshAfter true = true := by
  induction ds with
  | nil => rfl
  | cons d ds ih =>
    rw [concat_cons, freshAfter, h d (by simp)]
    exact ih fun e he => h e (List.mem_cons_of_mem _ he)

end Doc

section WholeLines

theorem freshAfter_declarationDoc {α : Type} [Grouped α] (member : α → Doc) (a : α)
    (fresh : Bool) : (declarationDoc member a).freshAfter fresh = true := rfl

/-- A group ends its line in parentheses as well as without. -/
theorem Group.freshAfter_doc {α : Type} [Grouped α] (member : α → Doc) (g : Group α)
    (fresh : Bool) : (g.doc member).freshAfter fresh = true := by
  rw [Group.doc]
  split
  · rfl
  · rfl

theorem Group.freshAfter_of_mem_docs {α : Type} [Grouped α] {member : α → Doc}
    {gs : List (Group α)} {d : Doc} (h : d ∈ Group.docs member gs) (fresh : Bool) :
    d.freshAfter fresh = true := by
  obtain ⟨g, -, rfl⟩ := Group.exists_of_mem_docs h
  exact g.freshAfter_doc member fresh

theorem FuncDecl.freshAfter_doc (f : FuncDecl) (fresh : Bool) : f.doc.freshAfter fresh = true :=
  rfl

theorem File.freshAfter_of_mem_sections {f : File} {d : Doc} (h : d ∈ f.sections) (fresh : Bool) :
    d.freshAfter fresh = true := by
  simp only [File.sections, List.mem_append, List.mem_map] at h
  rcases h with (((h | h) | h) | h) | ⟨func, -, rfl⟩
  · exact Group.freshAfter_of_mem_docs h fresh
  · exact Group.freshAfter_of_mem_docs h fresh
  · exact Group.freshAfter_of_mem_docs h fresh
  · exact Group.freshAfter_of_mem_docs h fresh
  · exact func.freshAfter_doc fresh

/-- After the package clause, every section ends its line. -/
theorem File.freshAfter_doc {f : File} (h : f.content.isEmpty = true) (fresh : Bool) :
    f.doc.freshAfter fresh = true := by
  rw [File.doc, if_pos h]
  refine Doc.freshAfter_concat fun d hd => ?_
  obtain ⟨part, hpart, rfl⟩ := List.mem_map.mp hd
  exact fun _ => File.freshAfter_of_mem_sections hpart true

/-- Laid out in whole lines: every declaration and every group, and a file unless it has
content of its own. -/
def Node.isWholeLines : Node → Bool
  | type _ | field _ => false
  | file f => f.content.isEmpty
  | _ => true

theorem Node.freshAfter_doc {n : Node} (h : n.isWholeLines = true) (fresh : Bool) :
    n.doc.freshAfter fresh = true := by
  cases n with
  | type t => cases h
  | field f => cases h
  | const c => exact freshAfter_declarationDoc Const.member c fresh
  | var v => exact freshAfter_declarationDoc Var.member v fresh
  | typeDecl t => exact freshAfter_declarationDoc TypeDecl.member t fresh
  | func f => exact f.freshAfter_doc fresh
  | importDecl i => exact freshAfter_declarationDoc Import.member i fresh
  | constGroup g => exact g.freshAfter_doc Const.member fresh
  | varGroup g => exact g.freshAfter_doc Var.member fresh
  | typeGroup g => exact g.freshAfter_doc TypeDecl.member fresh
  | importGroup g => exact g.freshAfter_doc Import.member fresh
  | file f => exact File.freshAfter_doc h fresh

end WholeLines

/-- Whatever a node is and wherever on a page it is written, with a fault or without, the depth
and the indentation of the page are as before and its text has only grown. A declaration, a
group or a file without content of its own has ended its last line if it did not fail. -/
theorem Node.write_continues (n : Node) (p : Page) :
    (n.doc.write p).1.depth = p.depth ∧ (n.doc.write p).1.indent = p.indent ∧
      (∃ added, (n.doc.write p).1.text = p.text ++ added) ∧
      (n.isWholeLines = true → (n.doc.write p).2 = none → (n.doc.write p).1.fresh = true) := by
  have hwritten := n.doc.continues_write p
  refine ⟨hwritten.depth, hwritten.indent, hwritten.text, fun hlines hok => ?_⟩
  rw [Doc.fresh_write hok, Node.freshAfter_doc hlines]

/-- Two constants in parentheses, behind something else and two levels deep. -/
theorem Node.write_continues_bounds :
    let n : Node := .constGroup ⟨"Bounds.", [⟨"Low", "", [], none, "1"⟩, ⟨"High", "", [], none, "2"⟩]⟩
    let p : Page := { text := "x", depth := 2, fresh := false }
    (n.doc.write p).2 = none ∧ (n.doc.write p).1.depth = 2 ∧ (n.doc.write p).1.fresh = true := by
  intro n p
  have hok : (n.doc.write p).2 = none := by decide +kernel
  obtain ⟨hdepth, -, -, hfresh⟩ := n.write_continues p
  exact ⟨hok, hdepth, hfresh rfl hok⟩

/-- Without a value for the second constant the group stops inside its parentheses. -/
example :
    (Node.constGroup ⟨"", [⟨"Low", "", [], none, "1"⟩, ⟨"High", "", [], none, ""⟩]⟩).doc.write
        { text := "x", depth := 2, fresh := false } =
      ({ text := "xconst (\n\t\t\tLow = 1\n", depth := 2, fresh := true },
        some (.invariant [.item "Consts" 1, .part "Value"] (.valuelessConstant "High"))) := by
  decide +kernel

end GoSource
