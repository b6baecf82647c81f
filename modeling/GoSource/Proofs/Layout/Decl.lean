import GoSource.Proofs.Layout.Type

/-!
# Layouts of declarations that do not fail

Beyond the rules of validation the layout of a file asks one thing: that every
constant has a value. What the layout then writes is not described here.
-/

namespace GoSource

theorem fault?_bindingDoc {name value : String} {type : Option TypeExpr}
    (h : ∀ t, type = some t → t.validate = .ok ()) :
    (bindingDoc name type value).fault? = none := by
  cases type with
  | none => simp [bindingDoc]
  | some t => simp [bindingDoc, (TypeExpr.fault?_layout (h t rfl)).2]

section Members

variable {checker : Checker}

theorem Const.fault?_member {c : Const} (h : c.validate checker = .ok ()) (hvalue : c.value ≠ "") :
    c.member.fault? = none := by
  have htype := (Const.validate_eq_ok.mp h).2.2.1
  simp [Const.member, hvalue, fault?_bindingDoc fun t ht => (htype t ht).2]

theorem Var.fault?_member {v : Var} (h : v.validate checker = .ok ()) : v.member.fault? = none :=
  fault?_bindingDoc (Var.validate_eq_ok.mp h).2.2.1

theorem TypeDecl.fault?_member {t : TypeDecl} (h : t.validate = .ok ()) :
    t.member.fault? = none := by
  apply fault?_bindingDoc
  intro type htype
  obtain rfl := Option.some.inj htype
  exact (TypeDecl.validate_eq_ok.mp h).2.2

theorem Import.fault?_member (i : Import) : i.member.fault? = none := by
  simp [Import.member]

/-- A function can be laid out if its receiver and its signature can. -/
theorem FuncDecl.fault?_doc {f : FuncDecl} (h : f.validate checker = .ok ()) :
    f.doc.fault? = none := by
  obtain ⟨-, -, hreceiver, hsignature, -⟩ := FuncDecl.validate_eq_ok.mp h
  have hdoc : f.signature.doc.fault? = none :=
    (TypeExpr.fault?_layout (t := .func f.signature) hsignature).1
  rw [Signature.doc_eq] at hdoc
  cases hr : f.receiver with
  | none => simp [FuncDecl.doc, hr, hdoc]
  | some r =>
    have htype := (TypeExpr.fault?_layout (Field.validate_eq_ok.mp (hreceiver r hr).2).2.2).2
    simp [FuncDecl.doc, hr, hdoc, fault?_typed, htype]

end Members

section Groups

variable {α : Type} [Grouped α] {member : α → Doc}

theorem Group.items_of_only? {g : Group α} {a : α} (h : g.only? = some a) : g.items = [a] := by
  unfold Group.only? at h
  split at h
  · split at h
    · simp_all
    · cases h
  · cases h

theorem Group.mem_of_only? {g : Group α} {a : α} (h : g.only? = some a) : a ∈ g.items := by
  simp [Group.items_of_only? h]

/-- An element in parentheses, at whatever place in its group. -/
theorem Group.mem_itemDocs {index : Nat} {as : List α} {d : Doc}
    (h : d ∈ Group.itemDocs member index as) :
    ∃ a ∈ as, ∃ segment,
      d = .comment (Grouped.comment a) ++ .within segment (member a) ++ .newline := by
  induction as generalizing index with
  | nil => cases h
  | cons a as ih =>
    rcases List.mem_cons.mp h with rfl | h
    · exact ⟨a, by simp, _, rfl⟩
    · obtain ⟨b, hb, segment, rfl⟩ := ih h
      exact ⟨b, List.mem_cons_of_mem _ hb, segment, rfl⟩

/-- A group can be laid out if its elements can. -/
theorem Group.fault?_doc {g : Group α} (h : ∀ a ∈ g.items, (member a).fault? = none) :
    (g.doc member).fault? = none := by
  have hitems : (Doc.concat (Group.itemDocs member 0 g.items)).fault? = none := by
    rw [Doc.fault?_concat]
    intro d hd
    obtain ⟨a, ha, segment, rfl⟩ := Group.mem_itemDocs hd
    simp [h a ha]
  cases honly : g.only? with
  | none => simp [Group.doc, honly, hitems]
  | some a => simp [Group.doc, honly, declarationDoc, h a (Group.mem_of_only? honly)]

theorem Group.exists_of_mem_docs {gs : List (Group α)} {d : Doc} (h : d ∈ Group.docs member gs) :
    ∃ g ∈ gs, d = g.doc member := by
  obtain ⟨g, hg, rfl⟩ := List.mem_map.mp h
  exact ⟨g, (List.mem_filter.mp hg).1, rfl⟩

theorem Group.fault?_of_mem_docs {gs : List (Group α)}
    (h : ∀ g ∈ gs, ∀ a ∈ g.items, (member a).fault? = none) :
    ∀ d ∈ Group.docs member gs, d.fault? = none := by
  intro d hd
  obtain ⟨g, hg, rfl⟩ := Group.exists_of_mem_docs hd
  exact Group.fault?_doc (h g hg)

end Groups

/-- A valid file whose constants have values can be laid out. -/
theorem File.fault?_doc {checker : Checker} {f : File} (h : f.validate checker = .ok ())
    (hconsts : ∀ g ∈ f.consts, ∀ c ∈ g.items, c.value ≠ "") : f.doc.fault? = none := by
  obtain ⟨-, -, -, -, -, hc, hv, ht, hf⟩ := File.validate_eq_ok.mp h
  have hsections : ∀ d ∈ f.sections, d.fault? = none := by
    simp only [File.sections, List.forall_mem_append]
    refine ⟨⟨⟨⟨?_, ?_⟩, ?_⟩, ?_⟩, fun d hd => ?_⟩
    · exact Group.fault?_of_mem_docs fun _ _ i _ => i.fault?_member
    · exact Group.fault?_of_mem_docs fun g hg c hmem =>
        Const.fault?_member (hc g hg c hmem) (hconsts g hg c hmem)
    · exact Group.fault?_of_mem_docs fun g hg v hmem => Var.fault?_member (hv g hg v hmem)
    · exact Group.fault?_of_mem_docs fun g hg t hmem => TypeDecl.fault?_member (ht g hg t hmem)
    · obtain ⟨func, hfunc, rfl⟩ := List.mem_map.mp hd
      exact FuncDecl.fault?_doc (hf func hfunc)
  have hconcat : (Doc.concat (f.sections.map (.newline ++ ·))).fault? = none := by
    rw [Doc.fault?_concat]
    intro d hd
    obtain ⟨part, hsection, rfl⟩ := List.mem_map.mp hd
    simpa using hsections part hsection
  simp only [Doc.append_eq] at hconcat
  simp [File.doc, hconcat]

end GoSource
