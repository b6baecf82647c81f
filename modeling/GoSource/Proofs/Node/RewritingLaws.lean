import GoSource.Proofs.Node.Rewriting

/-!
# Laws of rewriting a node

Two rewritings one after the other are one rewriting, and a rewriting depends only on
what it does to the places that the node has. Both laws hold of every sort of node,
foreign types included.
-/

namespace GoSource

/-- The first rewriting and then the second, place by place. -/
def Rewriting.andThen (w v : Rewriting) : Rewriting where
  package := v.package ∘ w.package
  code := v.code ∘ w.code
  entry := v.entry ∘ w.entry

/-- The two rewritings do the same to every place of the parts. -/
structure Rewriting.Agree (w v : Rewriting) (parts : List Node) : Prop where
  package : ∀ t, .type (.named t) ∈ parts → w.package t.package = v.package t.package
  entry : ∀ i, .importDecl i ∈ parts → w.entry i = v.entry i
  code : ∀ p ∈ parts, ∀ text ∈ p.text?, w.code text = v.code text

section Composition

variable (w v : Rewriting)

theorem TypeExpr.rewrite_rewrite (t : TypeExpr) :
    (t.rewrite w).rewrite v = t.rewrite (w.andThen v) := by
  have fields : ∀ fs : List Field,
      (∀ f ∈ fs, (f.type.rewrite w).rewrite v = f.type.rewrite (w.andThen v)) →
      (fs.map (Field.rewrite w)).map (Field.rewrite v) = fs.map (Field.rewrite (w.andThen v)) := by
    intro fs h
    rw [List.map_map]
    apply List.map_congr_left
    intro f hf
    simp [h f hf]
  induction t using TypeExpr.induction with
  | named type => rfl
  | array element length ellipsis ih => simp only [TypeExpr.rewrite, ih]
  | map key value hk hv => simp only [TypeExpr.rewrite, hk, hv]
  | struct fs ih => simp only [TypeExpr.rewrite, Field.rewriteAll_eq, fields fs ih]
  | interface fs ih => simp only [TypeExpr.rewrite, Field.rewriteAll_eq, fields fs ih]
  | func s hp hr => simp only [TypeExpr.rewrite, Signature.rewrite_eq, fields _ hp, fields _ hr]
  | foreign kind data => rfl

theorem Field.rewrite_rewrite (f : Field) :
    (f.rewrite w).rewrite v = f.rewrite (w.andThen v) := by
  simp [TypeExpr.rewrite_rewrite]

theorem Signature.rewrite_rewrite (s : Signature) :
    (s.rewrite w).rewrite v = s.rewrite (w.andThen v) := by
  have h := TypeExpr.rewrite_rewrite w v (.func s)
  exact TypeExpr.func.inj h

theorem Const.rewrite_rewrite (c : Const) :
    (c.rewrite w).rewrite v = c.rewrite (w.andThen v) := by
  simp [Const.rewrite, Rewriting.andThen, Function.comp_def, TypeExpr.rewrite_rewrite]

theorem Var.rewrite_rewrite (x : Var) :
    (x.rewrite w).rewrite v = x.rewrite (w.andThen v) := by
  simp [Var.rewrite, Rewriting.andThen, Function.comp_def, TypeExpr.rewrite_rewrite]

theorem TypeDecl.rewrite_rewrite (t : TypeDecl) :
    (t.rewrite w).rewrite v = t.rewrite (w.andThen v) := by
  simp [TypeDecl.rewrite, TypeExpr.rewrite_rewrite]

theorem FuncDecl.rewrite_rewrite (f : FuncDecl) :
    (f.rewrite w).rewrite v = f.rewrite (w.andThen v) := by
  simp only [FuncDecl.rewrite, Signature.rewrite_rewrite, Option.map_map, Function.comp_def,
    Field.rewrite_rewrite]
  rfl

theorem Group.mapItems_mapItems {α : Type} {f g h : α → α} (hfg : ∀ a, g (f a) = h a)
    (x : Group α) : (x.mapItems f).mapItems g = x.mapItems h := by
  simp only [Group.mapItems, List.map_map, Function.comp_def, hfg]

theorem File.rewrite_rewrite (f : File) :
    (f.rewrite w).rewrite v = f.rewrite (w.andThen v) := by
  have himports (g : Group Import) :
      (g.mapItems w.entry).mapItems v.entry = g.mapItems (w.andThen v).entry :=
    Group.mapItems_mapItems (fun _ => rfl) g
  simp only [File.rewrite, List.map_map, Function.comp_def, himports,
    Group.mapItems_mapItems (Const.rewrite_rewrite w v),
    Group.mapItems_mapItems (Var.rewrite_rewrite w v),
    Group.mapItems_mapItems (TypeDecl.rewrite_rewrite w v), FuncDecl.rewrite_rewrite]
  rfl

/-- Rewriting twice is rewriting once. -/
theorem Node.rewrite_rewrite (n : Node) : (n.rewrite w).rewrite v = n.rewrite (w.andThen v) := by
  cases n with
  | type t => exact congrArg Node.type (t.rewrite_rewrite w v)
  | field f => exact congrArg Node.field (f.rewrite_rewrite w v)
  | const c => exact congrArg Node.const (c.rewrite_rewrite w v)
  | var x => exact congrArg Node.var (x.rewrite_rewrite w v)
  | typeDecl t => exact congrArg Node.typeDecl (t.rewrite_rewrite w v)
  | func f => exact congrArg Node.func (f.rewrite_rewrite w v)
  | importDecl i => rfl
  | constGroup g =>
    exact congrArg Node.constGroup (Group.mapItems_mapItems (Const.rewrite_rewrite w v) g)
  | varGroup g => exact congrArg Node.varGroup (Group.mapItems_mapItems (Var.rewrite_rewrite w v) g)
  | typeGroup g =>
    exact congrArg Node.typeGroup (Group.mapItems_mapItems (TypeDecl.rewrite_rewrite w v) g)
  | importGroup g => exact congrArg Node.importGroup (Group.mapItems_mapItems (fun _ => rfl) g)
  | file f => exact congrArg Node.file (f.rewrite_rewrite w v)

end Composition

section Congruence

variable {w v : Rewriting}

theorem Rewriting.Agree.mono {ps qs : List Node} (h : w.Agree v qs) (hsub : ps ⊆ qs) :
    w.Agree v ps where
  package t ht := h.package t (hsub ht)
  entry i hi := h.entry i (hsub hi)
  code p hp := h.code p (hsub hp)

theorem Rewriting.Agree.of_append {ps qs : List Node} (h : w.Agree v (ps ++ qs)) :
    w.Agree v ps ∧ w.Agree v qs :=
  ⟨h.mono (List.subset_append_left ..), h.mono (List.subset_append_right ..)⟩

/-- Agreement on the parts of all elements gives agreement on those of each. -/
theorem Rewriting.Agree.of_mem {α : Type} {parts : α → List Node} {l : List α} {a : α}
    (h : w.Agree v (l.flatMap parts)) (ha : a ∈ l) : w.Agree v (parts a) :=
  h.mono fun _ hp => List.mem_flatMap.mpr ⟨a, ha, hp⟩

theorem TypeExpr.rewrite_congr {t : TypeExpr} (h : w.Agree v t.parts) :
    t.rewrite w = t.rewrite v := by
  have fields : ∀ fs : List Field,
      (∀ f ∈ fs, w.Agree v f.type.parts → f.type.rewrite w = f.type.rewrite v) →
      w.Agree v (fs.flatMap Field.parts) →
      fs.map (Field.rewrite w) = fs.map (Field.rewrite v) := by
    intro fs ih h
    apply List.map_congr_left
    intro f hf
    have hf' : w.Agree v f.type.parts := (h.of_mem hf).mono (by simp)
    simp [ih f hf hf']
  induction t using TypeExpr.induction with
  | named type => simp only [TypeExpr.rewrite, h.package type (by simp [TypeExpr.parts])]
  | array element length ellipsis ih =>
    simp only [TypeExpr.rewrite, ih (h.mono (by simp [TypeExpr.parts]))]
  | map key value hk hv =>
    simp only [TypeExpr.rewrite, hk (h.mono (by simp [TypeExpr.parts])),
      hv (h.mono (by simp [TypeExpr.parts]))]
  | struct fs ih =>
    simp only [TypeExpr.rewrite, Field.rewriteAll_eq,
      fields fs ih (h.mono (by simp [TypeExpr.parts]))]
  | interface fs ih =>
    simp only [TypeExpr.rewrite, Field.rewriteAll_eq,
      fields fs ih (h.mono (by simp [TypeExpr.parts]))]
  | func s hp hr =>
    simp only [TypeExpr.rewrite, Signature.rewrite_eq,
      fields _ hp (h.mono (by simp [TypeExpr.parts])),
      fields _ hr (h.mono (by simp [TypeExpr.parts]))]
  | foreign kind data => rfl

theorem Field.rewrite_congr {f : Field} (h : w.Agree v f.parts) : f.rewrite w = f.rewrite v := by
  simp [TypeExpr.rewrite_congr (h.mono (by simp : f.type.parts ⊆ f.parts))]

/-- Agreement on an optional part. -/
theorem Rewriting.Agree.option_map {α : Type} {parts : α → List Node} {f g : α → α}
    {o : Option α} (hcongr : ∀ a, w.Agree v (parts a) → f a = g a)
    (h : w.Agree v (o.toList.flatMap parts)) : o.map f = o.map g := by
  cases o with
  | none => rfl
  | some a => simp [hcongr a (by simpa using h)]

/-- Agreement on the elements of a group. -/
theorem Rewriting.Agree.mapItems {α : Type} {parts : α → List Node} {f g : α → α} {x : Group α}
    (hcongr : ∀ a, w.Agree v (parts a) → f a = g a) (h : w.Agree v (x.items.flatMap parts)) :
    x.mapItems f = x.mapItems g := by
  simp only [Group.mapItems, List.map_congr_left fun a ha => hcongr a (h.of_mem ha)]

theorem Const.rewrite_congr {c : Const} (h : w.Agree v c.parts) : c.rewrite w = c.rewrite v := by
  have htype := h.of_append.1.option_map fun _ => TypeExpr.rewrite_congr
  have hvalue := h.code (.const c) (by simp [Const.parts]) c.value rfl
  simp only [Const.rewrite, htype, hvalue]

theorem Var.rewrite_congr {x : Var} (h : w.Agree v x.parts) : x.rewrite w = x.rewrite v := by
  have htype := h.of_append.1.option_map fun _ => TypeExpr.rewrite_congr
  have hvalue := h.code (.var x) (by simp [Var.parts]) x.value rfl
  simp only [Var.rewrite, htype, hvalue]

theorem TypeDecl.rewrite_congr {t : TypeDecl} (h : w.Agree v t.parts) :
    t.rewrite w = t.rewrite v := by
  simp only [TypeDecl.rewrite, TypeExpr.rewrite_congr (h.mono (List.subset_cons_self ..))]

theorem FuncDecl.rewrite_congr {f : FuncDecl} (h : w.Agree v f.parts) :
    f.rewrite w = f.rewrite v := by
  obtain ⟨hhead, -⟩ := h.of_append
  obtain ⟨hreceiver, hsignature⟩ := hhead.of_append
  have hcontent := h.code (.func f) (by simp [FuncDecl.parts]) f.content rfl
  simp only [FuncDecl.rewrite, hreceiver.option_map fun _ => Field.rewrite_congr,
    TypeExpr.func.inj (TypeExpr.rewrite_congr hsignature), hcontent]

theorem Import.entry_congr {i : Import} (h : w.Agree v i.parts) : w.entry i = v.entry i :=
  h.entry i (by simp [Import.parts])

/-- Agreement on groups of declarations of one sort. -/
theorem Rewriting.Agree.map_mapItems {α : Type} {node : Group α → Node} {parts : α → List Node}
    {f g : α → α} {l : List (Group α)} (hcongr : ∀ a, w.Agree v (parts a) → f a = g a)
    (h : w.Agree v (l.flatMap (Group.parts node parts))) :
    l.map (Group.mapItems f) = l.map (Group.mapItems g) :=
  List.map_congr_left fun _ hx =>
    ((h.of_mem hx).mono (List.subset_cons_self ..)).mapItems hcongr

theorem File.rewrite_congr {f : File} (h : w.Agree v f.parts) : f.rewrite w = f.rewrite v := by
  have hcontent := h.code (.file f) (by simp [File.parts]) f.content rfl
  obtain ⟨hrest, hfuncs⟩ := (h.mono (List.subset_cons_self ..)).of_append
  obtain ⟨hrest, htypes⟩ := hrest.of_append
  obtain ⟨hrest, hvars⟩ := hrest.of_append
  obtain ⟨himports, hconsts⟩ := hrest.of_append
  simp only [File.rewrite, hcontent, himports.map_mapItems fun _ => Import.entry_congr,
    hconsts.map_mapItems fun _ => Const.rewrite_congr,
    hvars.map_mapItems fun _ => Var.rewrite_congr,
    htypes.map_mapItems fun _ => TypeDecl.rewrite_congr,
    List.map_congr_left fun f hf => FuncDecl.rewrite_congr (hfuncs.of_mem hf)]

/-- Rewritings that agree on the parts of a node rewrite it alike. -/
theorem Node.rewrite_congr {n : Node} (h : w.Agree v n.parts) : n.rewrite w = n.rewrite v := by
  have hitems {α : Type} {node : Group α → Node} {parts : α → List Node} {g : Group α}
      (h : w.Agree v (g.parts node parts)) : w.Agree v (g.items.flatMap parts) :=
    h.mono (List.subset_cons_self ..)
  cases n with
  | type t => exact congrArg Node.type (TypeExpr.rewrite_congr h)
  | field f => exact congrArg Node.field (Field.rewrite_congr h)
  | const c => exact congrArg Node.const (Const.rewrite_congr h)
  | var x => exact congrArg Node.var (Var.rewrite_congr h)
  | typeDecl t => exact congrArg Node.typeDecl (TypeDecl.rewrite_congr h)
  | func f => exact congrArg Node.func (FuncDecl.rewrite_congr h)
  | importDecl i => exact congrArg Node.importDecl (Import.entry_congr h)
  | constGroup g =>
    exact congrArg Node.constGroup ((hitems h).mapItems fun _ => Const.rewrite_congr)
  | varGroup g => exact congrArg Node.varGroup ((hitems h).mapItems fun _ => Var.rewrite_congr)
  | typeGroup g =>
    exact congrArg Node.typeGroup ((hitems h).mapItems fun _ => TypeDecl.rewrite_congr)
  | importGroup g =>
    exact congrArg Node.importGroup ((hitems h).mapItems fun _ => Import.entry_congr)
  | file f => exact congrArg Node.file (File.rewrite_congr h)

end Congruence

end GoSource
