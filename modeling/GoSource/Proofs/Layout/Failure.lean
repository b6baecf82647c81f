import GoSource.Proofs.Layout.Decl

/-!
# Why a valid node cannot be laid out

Validation leaves one reason: a constant without a value. The layout of a valid node is
followed piece by piece, together with the parts of the node that it shows; it fails at the
first of them that is such a constant. What is written before that place is not described.
-/

namespace GoSource

section Writing

/-- A document fails with the fault of the first place that fails, wherever it is written. -/
theorem Doc.write_snd (d : Doc) (p : Page) : (d.write p).2 = d.fault? := by
  induction d generalizing p with
  | append first second hfirst hsecond =>
    -- The second half is written only if the first has not failed, and on whatever page that left.
    have hp := hfirst p
    rw [Doc.write, Doc.fault?]
    split
    · rename_i q hq
      rw [hq] at hp
      rw [hsecond q, ← hp, Option.none_or]
    · rename_i q fault hq
      rw [hq] at hp
      rw [← hp, Option.some_or]
  | nest body ih => exact ih _
  | within segment body ih => simp [Doc.write, ih]
  | _ => rfl

theorem Doc.render_eq_error_iff {d : Doc} {indent : Indent} {fault : Fault} :
    d.render indent = .error fault ↔ d.fault? = some fault := by
  have hsnd := d.write_snd { indent }
  unfold Doc.render
  split <;> rename_i hwrite <;> rw [hwrite] at hsnd <;> simp [← hsnd]

/-- What a document that was rendered has written. -/
theorem Doc.chars_of_render {d : Doc} {indent : Indent} {out : String}
    (h : d.render indent = .ok out) : d.chars indent 0 true = out.toList := by
  have hfault : d.fault? = none := by
    by_contra hfault
    obtain ⟨fault, hfault⟩ := Option.ne_none_iff_exists'.mp hfault
    rw [Doc.render_eq_error_iff.mpr hfault] at h
    cases h
  rw [Doc.render_eq hfault] at h
  rw [← Except.ok.inj h, String.toList_ofList]

end Writing

section Blame

/-- The fault lies at the missing value of the constant, below whatever holds the constant. -/
def Fault.Blames (fault : Fault) (c : Const) : Prop :=
  ∃ path, fault = .invariant (path ++ [.part "Value"]) (.valuelessConstant c.name)

theorem Fault.Blames.within {fault : Fault} {c : Const} (h : fault.Blames c)
    (segment : Segment) : (fault.within segment).Blames c := by
  obtain ⟨path, rfl⟩ := h
  exact ⟨segment :: path, rfl⟩

theorem blames_or {first second : Option Fault} {a b : Option Const}
    (hfirst : Option.Rel Fault.Blames first a) (hsecond : Option.Rel Fault.Blames second b) :
    Option.Rel Fault.Blames (first.or second) (a.or b) := by
  cases hfirst with
  | some h => exact .some h
  | none => simpa using hsecond

theorem blames_within {fault : Option Fault} {a : Option Const}
    (h : Option.Rel Fault.Blames fault a) (segment : Segment) :
    Option.Rel Fault.Blames (fault.map (Fault.within segment)) a := by
  cases h with
  | some h => exact .some (h.within segment)
  | none => exact .none

/-- The node itself, if it is a constant without a value. -/
def Node.valueless? : Node → Option Const
  | const c => if c.value.isEmpty then some c else none
  | _ => none

theorem Node.findSome?_valueless?_eq_none {ps : List Node} (h : ∀ c, .const c ∉ ps) :
    ps.findSome? Node.valueless? = none := by
  rw [List.findSome?_eq_none_iff]
  intro p hp
  cases p with
  | const c => exact absurd hp (h c)
  | _ => rfl

theorem Node.isSome_findSome?_valueless?_iff {ps : List Node} :
    (ps.findSome? Node.valueless?).isSome = true ↔ ∃ c, .const c ∈ ps ∧ c.value = "" := by
  rw [List.findSome?_isSome_iff]
  constructor
  · rintro ⟨p, hp, hsome⟩
    cases p with
    | const c => exact ⟨c, hp, by simpa [Node.valueless?] using hsome⟩
    | _ => cases hsome
  · rintro ⟨c, hc, hvalue⟩
    exact ⟨_, hc, by simp [Node.valueless?, hvalue]⟩

end Blame

namespace Doc

/-- The document shows the parts in this order: it fails at the first of them that is a
constant without a value, and nowhere else. -/
def Shows (d : Doc) (ps : List Node) : Prop :=
  Option.Rel Fault.Blames d.fault? (ps.findSome? Node.valueless?)

variable {d e : Doc} {ps qs : List Node}

theorem shows_of_fault?_eq_none (hd : d.fault? = none) (hps : ∀ c, .const c ∉ ps) :
    d.Shows ps := by
  rw [Shows, hd, Node.findSome?_valueless?_eq_none hps]
  exact .none

theorem Shows.append (hd : d.Shows ps) (he : e.Shows qs) : (d ++ e).Shows (ps ++ qs) := by
  rw [Shows, append_eq, fault?, List.findSome?_append]
  exact blames_or hd he

theorem Shows.after (h : e.Shows ps) (hd : d.fault? = none) : (d ++ e).Shows ps :=
  (shows_of_fault?_eq_none hd fun _ => List.not_mem_nil).append h

theorem Shows.before (h : d.Shows ps) (he : e.fault? = none) : (d ++ e).Shows ps := by
  simpa using h.append (shows_of_fault?_eq_none he fun _ => List.not_mem_nil)

theorem Shows.cons {p : Node} (h : d.Shows ps) (hp : p.valueless? = none) :
    d.Shows (p :: ps) := by
  rwa [Shows, List.findSome?_cons, hp]

/-- Parts other than constants may stand before those that the document shows. -/
theorem Shows.skip (h : d.Shows ps) (hqs : ∀ c, .const c ∉ qs) : d.Shows (qs ++ ps) := by
  rwa [Shows, List.findSome?_append, Node.findSome?_valueless?_eq_none hqs, Option.none_or]

theorem Shows.within (h : d.Shows ps) (segment : Segment) : (Doc.within segment d).Shows ps :=
  blames_within h segment

theorem Shows.nest (h : d.Shows ps) : (Doc.nest d).Shows ps := h

theorem Shows.concat_append {ds es : List Doc} (hd : (concat ds).Shows ps)
    (he : (concat es).Shows qs) : (concat (ds ++ es)).Shows (ps ++ qs) := by
  have hfault : (concat (ds ++ es)).fault? = (concat ds ++ concat es).fault? := by
    simp only [append_eq, fault?, fault?_concat_eq, List.findSome?_append]
  rw [Shows, hfault]
  exact hd.append he

theorem shows_concat_map {α : Type} {as : List α} {doc : α → Doc} {parts : α → List Node}
    (h : ∀ a ∈ as, (doc a).Shows (parts a)) :
    (concat (as.map doc)).Shows (as.flatMap parts) := by
  induction as with
  | nil => exact shows_of_fault?_eq_none rfl fun _ => List.not_mem_nil
  | cons a as ih => exact (h a (by simp)).append (ih fun b hb => h b (List.mem_cons_of_mem _ hb))

end Doc

section Groups

variable {α : Type} [Grouped α] {member : α → Doc} {node : Group α → Node} {parts : α → List Node}

theorem shows_declarationDoc {a : α} (h : (member a).Shows (parts a)) :
    (declarationDoc member a).Shows (parts a) :=
  (h.after rfl).before rfl

theorem Group.shows_itemDocs {as : List α} (h : ∀ a ∈ as, (member a).Shows (parts a))
    (index : Nat) :
    (Doc.concat (Group.itemDocs member index as)).Shows (as.flatMap parts) := by
  induction as generalizing index with
  | nil => exact Doc.shows_of_fault?_eq_none rfl fun _ => List.not_mem_nil
  | cons a as ih =>
    have hitem := (((h a (by simp)).within (.item (Grouped.plural α) index)).after
      (d := .comment (Grouped.comment a)) rfl).before (e := .newline) rfl
    exact hitem.append (ih (fun b hb => h b (List.mem_cons_of_mem _ hb)) (index + 1))

/-- A group shows what its elements show, with parentheses around them or without. -/
theorem Group.shows_doc {g : Group α} (hnode : (node g).valueless? = none)
    (h : ∀ a ∈ g.items, (member a).Shows (parts a)) :
    (g.doc member).Shows (g.parts node parts) := by
  refine (Doc.Shows.after ?_ rfl).cons hnode
  split
  · rename_i a honly
    have hitems : g.items.flatMap parts = parts a := by simp [Group.items_of_only? honly]
    rw [hitems]
    exact shows_declarationDoc (h a (Group.mem_of_only? honly))
  · exact (((Group.shows_itemDocs h 0).nest.after rfl).before rfl).before rfl

/-- The groups of a file; one without elements is left out, and has nothing to show. -/
theorem Group.shows_docs {gs : List (Group α)} (hnode : ∀ g, (node g).valueless? = none)
    (h : ∀ g ∈ gs, ∀ a ∈ g.items, (member a).Shows (parts a)) :
    (Doc.concat ((Group.docs member gs).map (.newline ++ ·))).Shows
      (gs.flatMap (Group.parts node parts)) := by
  induction gs with
  | nil => exact Doc.shows_of_fault?_eq_none rfl fun _ => List.not_mem_nil
  | cons g gs ih =>
    have hrest := ih fun k hk => h k (List.mem_cons_of_mem _ hk)
    rw [List.flatMap_cons, Group.docs, List.filter_cons]
    split
    · exact ((Group.shows_doc (hnode g) (h g (by simp))).after rfl).append hrest
    · -- The parts of an empty group still list the group, of which nothing is written.
      rename_i hempty
      have hparts : g.parts node parts = [node g] := by
        have hitems : g.items = [] := by simpa using hempty
        simp [Group.parts, hitems]
      rw [hparts]
      exact hrest.cons (hnode g)

end Groups

section Nodes

variable {checker : Checker}

/-- Constants lie outside types. -/
theorem TypeExpr.const_notMem_parts (c : Const) (t : TypeExpr) : .const c ∉ t.parts := by
  induction t using TypeExpr.induction with
  | _ => simp_all [TypeExpr.parts]

theorem Const.shows_member {c : Const} (h : c.validate checker = .ok ()) :
    c.member.Shows c.parts := by
  refine Doc.Shows.skip ?_ fun d => by simp [TypeExpr.const_notMem_parts]
  by_cases hvalue : c.value = ""
  · have hfault : c.member.fault? = some (.onPart "Value" (.valuelessConstant c.name)) := by
      simp [Const.member, hvalue]
    have hfirst : [Node.const c].findSome? Node.valueless? = some c := by
      simp [Node.valueless?, hvalue]
    rw [Doc.Shows, hfault, hfirst]
    exact .some ⟨[], rfl⟩
  · have hfirst : [Node.const c].findSome? Node.valueless? = none := by
      simp [Node.valueless?, hvalue]
    rw [Doc.Shows, Const.fault?_member h hvalue, hfirst]
    exact .none

theorem Var.shows_member {v : Var} (h : v.validate checker = .ok ()) : v.member.Shows v.parts :=
  Doc.shows_of_fault?_eq_none (Var.fault?_member h) fun c => by
    simp [Var.parts, TypeExpr.const_notMem_parts]

theorem TypeDecl.shows_member {t : TypeDecl} (h : t.validate = .ok ()) :
    t.member.Shows t.parts :=
  Doc.shows_of_fault?_eq_none (TypeDecl.fault?_member h) fun c => by
    simp [TypeDecl.parts, TypeExpr.const_notMem_parts]

theorem Import.shows_member (i : Import) : i.member.Shows i.parts :=
  Doc.shows_of_fault?_eq_none i.fault?_member fun c => by simp [Import.parts]

theorem FuncDecl.shows_doc {f : FuncDecl} (h : f.validate checker = .ok ()) :
    f.doc.Shows f.parts :=
  Doc.shows_of_fault?_eq_none (FuncDecl.fault?_doc h) fun c => by
    simp [FuncDecl.parts, TypeExpr.const_notMem_parts]

/-- The parts that the layout of a node shows: content of its own stands in for all that a
file declares. -/
def Node.shown : Node → List Node
  | file f => if f.content.isEmpty then f.parts else [file f]
  | n => n.parts

theorem File.shows_doc {f : File} (h : f.validate checker = .ok ()) :
    f.doc.Shows (Node.file f).shown := by
  obtain ⟨-, -, -, -, -, hc, hv, ht, hf⟩ := File.validate_eq_ok.mp h
  rw [File.doc, Node.shown]
  split
  · -- The sections are written in the order in which the parts of the file list them.
    refine (Doc.Shows.after ?_ rfl).cons rfl
    simp only [File.sections, List.map_append, List.map_map]
    refine (((Doc.Shows.concat_append ?_ ?_).concat_append ?_).concat_append ?_).concat_append ?_
    · exact Group.shows_docs (fun _ => rfl) fun _ _ i _ => i.shows_member
    · exact Group.shows_docs (fun _ => rfl) fun g hg c hc' => Const.shows_member (hc g hg c hc')
    · exact Group.shows_docs (fun _ => rfl) fun g hg v hv' => Var.shows_member (hv g hg v hv')
    · exact Group.shows_docs (fun _ => rfl) fun g hg t ht' => TypeDecl.shows_member (ht g hg t ht')
    · exact Doc.shows_concat_map fun func hfunc => (FuncDecl.shows_doc (hf func hfunc)).after rfl
  · exact Doc.shows_of_fault?_eq_none rfl (by simp)

/-- The layout of a valid node shows its parts. -/
theorem Node.shows_doc {n : Node} (h : n.validate checker = .ok ()) : n.doc.Shows n.shown := by
  cases n with
  | type t =>
    exact Doc.shows_of_fault?_eq_none (TypeExpr.fault?_layout h).1 fun c => t.const_notMem_parts c
  | field f =>
    have htype := (TypeExpr.fault?_layout (Field.validate_eq_ok.mp h).2.2).2
    have hdoc : f.doc.fault? = none := by
      simp [Field.doc, MemberLayout.structField, fault?_typed, htype]
    exact Doc.shows_of_fault?_eq_none hdoc fun c => by
      simp [Node.shown, Node.parts, TypeExpr.const_notMem_parts]
  | const c => exact shows_declarationDoc (Const.shows_member h)
  | var v => exact shows_declarationDoc (Var.shows_member h)
  | typeDecl t => exact shows_declarationDoc (TypeDecl.shows_member h)
  | func f => exact FuncDecl.shows_doc h
  | importDecl i => exact shows_declarationDoc i.shows_member
  | constGroup g =>
    exact Group.shows_doc rfl fun c hc => Const.shows_member (Group.validate_eq_ok.mp h c hc)
  | varGroup g =>
    exact Group.shows_doc rfl fun v hv => Var.shows_member (Group.validate_eq_ok.mp h v hv)
  | typeGroup g =>
    exact Group.shows_doc rfl fun t ht => TypeDecl.shows_member (Group.validate_eq_ok.mp h t ht)
  | importGroup g => exact Group.shows_doc rfl fun i _ => i.shows_member
  | file f => exact File.shows_doc h

/-- A valid node cannot be laid out exactly if its layout shows a constant without a value,
and then the fault lies at the value of the first such constant. -/
theorem Node.render_fails_at_valueless {n : Node} (h : n.validate checker = .ok ())
    (indent : Indent) :
    ((∃ fault, n.render indent = .error fault) ↔ ∃ c, .const c ∈ n.shown ∧ c.value = "") ∧
      ∀ fault, n.render indent = .error fault →
        ∃ c path, n.shown.findSome? Node.valueless? = some c ∧
          fault = .invariant (path ++ [.part "Value"]) (.valuelessConstant c.name) := by
  have hshows := Node.shows_doc h
  rw [Doc.Shows] at hshows
  simp only [Node.render, Doc.render_eq_error_iff]
  rw [← Node.isSome_findSome?_valueless?_iff]
  generalize n.doc.fault? = fault? at hshows ⊢
  generalize n.shown.findSome? Node.valueless? = first at hshows ⊢
  cases hshows with
  | none => simp
  | some hblames =>
    refine ⟨by simp, fun fault hfault => ?_⟩
    obtain rfl := Option.some.inj hfault
    obtain ⟨path, rfl⟩ := hblames
    exact ⟨_, path, rfl, rfl⟩

/-- A file with two constants that still lack a value. -/
def File.limits : File where
  name := "limits.go"
  package := "limits"
  consts := [⟨"", [⟨"Low", "", [], none, "1"⟩]⟩,
    ⟨"Bounds.", [⟨"Mid", "", [], none, "2"⟩, ⟨"High", "", [], none, ""⟩,
      ⟨"Top", "", [], none, ""⟩]⟩]

theorem Node.render_limits_fails :
    (Node.file File.limits).validate .standard = .ok () ∧
      ∃ path, (Node.file File.limits).render .tab =
        .error (.invariant (path ++ [.part "Value"]) (.valuelessConstant "High")) := by
  have hvalid : (Node.file File.limits).validate .standard = .ok () := by decide +kernel
  obtain ⟨hfails, hfirst⟩ := Node.render_fails_at_valueless hvalid .tab
  obtain ⟨fault, hfault⟩ := hfails.mpr ⟨⟨"High", "", [], none, ""⟩, by decide, rfl⟩
  obtain ⟨c, path, hc, rfl⟩ := hfirst fault hfault
  obtain rfl : ⟨"High", "", [], none, ""⟩ = c := Option.some.inj hc
  exact ⟨hvalid, path, hfault⟩

end Nodes

end GoSource
