import GoSource.Proofs.Validate.Rules

/-!
# Validity as a rule for every part

A tree passes its checks exactly if every part of it, at any depth, keeps a rule of its
own. The rule of a part looks at that part and at most at the shapes right below it, so
neither the order of the checks nor the way to a part matters. Which fault a failed check
names is left out here.
-/

namespace GoSource

/-- Nobody holds anything against the annotations. -/
def Annotations.Sound (as : Annotations) : Prop := ∀ a ∈ as, a.complaint = none

theorem Annotations.validateFrom_eq_ok {index : Nat} {as : Annotations} :
    Annotations.validateFrom index as = .ok () ↔ as.Sound := by
  induction as generalizing index with
  | nil => simp [validateFrom, Sound]
  | cons a as ih =>
    rw [validateFrom, Sound, List.forall_mem_cons]
    cases a.complaint with
    | none => simpa [Sound] using ih
    | some complaint => simp

@[simp] theorem Annotations.validate_eq_ok {as : Annotations} :
    as.validate = .ok () ↔ as.Sound := validateFrom_eq_ok

/-- The rule that a type keeps by its own shape. -/
def TypeExpr.Obeys : TypeExpr → Prop
  | .named t => isIdentifier t.name = true ∧ (t.package = "" ∨ isIdentifier t.package = true)
  | .array _ length ellipsis => 0 ≤ length ∧ ¬ (0 < length ∧ ellipsis = true)
  | .map _ _ => True
  | .struct fields => ∀ f ∈ fields, f.name = "" → ∃ t, f.type = .named t
  | .interface members => ∀ f ∈ members,
      f.name = "" ∧ (∃ t, f.type = .named t ∧ t.pointer = false) ∨
        f.name ≠ "" ∧ ∃ s, f.type = .func s
  | .func s =>
      (s.variadic = true →
        ∃ last element, s.params.getLast? = some last ∧ last.type = .array element 0 false) ∧
      ((∀ f ∈ s.results, f.name ≠ "") ∨ ∀ f ∈ s.results, f.name = "")
  | .foreign _ _ => False

/-- The rule that a part of a tree keeps, whatever stands above it; groups have none. -/
def Node.Obeys (checker : Checker) : Node → Prop
  | type t => t.Obeys
  | field f => (f.name = "" ∨ isIdentifier f.name = true) ∧ f.annotations.Sound
  | const c => isIdentifier c.name = true ∧ c.annotations.Sound ∧
      (∀ t, c.type = some (.named t) → t.pointer = false) ∧
      (c.value = "" ∨ checker.expression c.value = .ok ())
  | var v => isIdentifier v.name = true ∧ v.annotations.Sound ∧
      (v.type ≠ none ∨ v.value ≠ "") ∧ (v.value = "" ∨ checker.expression v.value = .ok ())
  | typeDecl t => isIdentifier t.name = true ∧ t.annotations.Sound
  | func f => isIdentifier f.name = true ∧ f.annotations.Sound ∧
      (∀ r, f.receiver = some r → ∃ t, r.type = .named t ∧ t.package = "") ∧
      (f.content = "" ∨ checker.body f.content = .ok ())
  | importDecl i => (i.localName = "" ∨ isIdentifier i.localName = true) ∧ i.path ≠ "" ∧
      i.annotations.Sound
  | constGroup _ | varGroup _ | typeGroup _ | importGroup _ => True
  | file f => f.name ≠ "" ∧ isIdentifier f.package = true ∧ f.annotations.Sound ∧
      (f.content = "" ∨ checker.file f.content = .ok ())

section Shapes

theorem Place.rule_structField_eq_ok {f : Field} :
    Place.structField.rule f = .ok () ↔ (f.name = "" → ∃ t, f.type = .named t) := by
  rw [Place.rule, Verdict.require_eq_ok, Field.isNamed]
  cases f.type <;> by_cases hname : f.name = "" <;> simp [TypeExpr.named?, hname]

theorem Place.rule_interfaceMember_eq_ok {f : Field} :
    Place.interfaceMember.rule f = .ok () ↔
      f.name = "" ∧ (∃ t, f.type = .named t ∧ t.pointer = false) ∨
        f.name ≠ "" ∧ ∃ s, f.type = .func s := by
  have hnamed : f.isNamed = true ↔ f.name ≠ "" := by simp [Field.isNamed]
  cases hn : f.isNamed <;> cases htype : f.type <;> simp_all [Place.rule]

theorem checkLength_eq_ok {length : Int} {ellipsis : Bool} :
    checkLength length ellipsis = .ok () ↔ 0 ≤ length ∧ ¬ (0 < length ∧ ellipsis = true) := by
  simp [checkLength, or_iff_not_imp_left]

theorem checkVariadic_eq_ok {params : List Field} :
    checkVariadic params = .ok () ↔
      ∃ last element, params.getLast? = some last ∧ last.type = .array element 0 false := by
  constructor
  · exact exists_slice_of_checkVariadic
  · rintro ⟨last, element, hlast, htype⟩
    simp [checkVariadic, hlast, htype, TypeExpr.isSlice]

theorem checkResults_eq_ok {results : List Field} :
    checkResults results = .ok () ↔
      (∀ f ∈ results, f.name ≠ "") ∨ ∀ f ∈ results, f.name = "" := by
  simp [checkResults, Field.isNamed]

theorem checkReceiver_eq_ok {r : Field} :
    checkReceiver r = .ok () ↔ ∃ t, r.type = .named t ∧ t.package = "" := by
  unfold checkReceiver
  cases r.type <;> simp [NamedType.isQualified]

theorem TypeExpr.isPointer_eq_false_iff {type : TypeExpr} :
    type.isPointer = false ↔ ∀ t, type = .named t → t.pointer = false := by
  cases type <;> simp [isPointer, named?]

end Shapes

section Types

variable {checker : Checker}

/-- The fields at one place, given what is known of their types. -/
theorem Field.validate_iff_parts {fs : List Field}
    (h : ∀ f ∈ fs, f.type.validate = .ok () ↔ ∀ p ∈ f.type.parts, p.Obeys checker) :
    (∀ f ∈ fs, f.validate = .ok ()) ↔ ∀ p ∈ fs.flatMap Field.parts, p.Obeys checker := by
  simp only [List.forall_mem_flatMap, Field.parts_eq, List.forall_mem_cons]
  refine forall₂_congr fun f hf => ?_
  rw [Field.validate_eq_ok, h f hf, Annotations.validate_eq_ok, String.isEmpty_iff]
  exact and_assoc.symm

theorem TypeExpr.validate_iff_parts (t : TypeExpr) :
    t.validate = .ok () ↔ ∀ p ∈ t.parts, p.Obeys checker := by
  induction t using TypeExpr.induction with
  | named t => simp [TypeExpr.validate, TypeExpr.parts, Node.Obeys, TypeExpr.Obeys]
  | array element length ellipsis ih =>
    simp only [TypeExpr.validate, TypeExpr.parts, Verdict.bind_eq_ok, Verdict.within_eq_ok,
      checkLength_eq_ok, List.forall_mem_cons, ih]
    rfl
  | map key value hk hv =>
    simp only [TypeExpr.validate, TypeExpr.parts, Verdict.bind_eq_ok, Verdict.within_eq_ok,
      List.forall_mem_cons, List.forall_mem_append, hk, hv]
    exact (iff_of_eq (true_and _)).symm
  | struct fs ih =>
    rw [TypeExpr.validate, Field.validateAll_eq_ok, TypeExpr.parts, List.forall_mem_cons,
      Field.partsAll_eq, ← Field.validate_iff_parts ih]
    simp only [Place.rule_structField_eq_ok, forall₂_and]
    rfl
  | interface fs ih =>
    rw [TypeExpr.validate, Field.validateAll_eq_ok, TypeExpr.parts, List.forall_mem_cons,
      Field.partsAll_eq, ← Field.validate_iff_parts ih]
    simp only [Place.rule_interfaceMember_eq_ok, forall₂_and]
    rfl
  | func s hp hr =>
    rw [TypeExpr.validate, Signature.validate_eq_ok, TypeExpr.parts, List.forall_mem_cons,
      Signature.parts_eq, List.forall_mem_append, ← Field.validate_iff_parts hp,
      ← Field.validate_iff_parts hr, checkVariadic_eq_ok, checkResults_eq_ok]
    constructor
    · rintro ⟨hparams, hresults, hvariadic, hmixed⟩
      exact ⟨⟨hvariadic, hmixed⟩, hparams, hresults⟩
    · rintro ⟨⟨hvariadic, hmixed⟩, hparams, hresults⟩
      exact ⟨hparams, hresults, hvariadic, hmixed⟩
  | foreign kind data => simp [TypeExpr.validate, TypeExpr.parts, Node.Obeys, TypeExpr.Obeys]

theorem optional_type_iff_parts {type : Option TypeExpr} :
    (∀ t, type = some t → t.validate = .ok ()) ↔
      ∀ p ∈ type.toList.flatMap TypeExpr.parts, p.Obeys checker := by
  cases type <;> simp [← TypeExpr.validate_iff_parts]

end Types

section Declarations

variable {checker : Checker}

theorem Const.validate_iff_parts (c : Const) :
    c.validate checker = .ok () ↔ ∀ p ∈ c.parts, p.Obeys checker := by
  rw [Const.validate_eq_ok, Const.parts, List.forall_mem_append, ← optional_type_iff_parts,
    List.forall_mem_singleton, Annotations.validate_eq_ok, String.isEmpty_iff]
  have hpointer : (∀ t, c.type = some t → t.isPointer = false) ↔
      ∀ t, c.type = some (.named t) → t.pointer = false := by
    cases c.type <;> simp [TypeExpr.isPointer_eq_false_iff]
  simp only [imp_and, forall_and, hpointer]
  constructor
  · rintro ⟨hname, hannotations, ⟨hvalue, htype⟩, htext⟩
    exact ⟨htype, hname, hannotations, hvalue, htext⟩
  · rintro ⟨htype, hname, hannotations, hvalue, htext⟩
    exact ⟨hname, hannotations, ⟨hvalue, htype⟩, htext⟩

theorem Var.validate_iff_parts (v : Var) :
    v.validate checker = .ok () ↔ ∀ p ∈ v.parts, p.Obeys checker := by
  rw [Var.validate_eq_ok, Var.parts, List.forall_mem_append, ← optional_type_iff_parts,
    List.forall_mem_singleton, Annotations.validate_eq_ok, String.isEmpty_iff]
  have hgiven : (v.type = none → v.value.isEmpty = false) ↔ v.type ≠ none ∨ v.value ≠ "" := by
    simp [imp_iff_not_or]
  rw [hgiven]
  constructor
  · rintro ⟨hname, hannotations, htype, hvalue, htext⟩
    exact ⟨htype, hname, hannotations, hvalue, htext⟩
  · rintro ⟨htype, hname, hannotations, hvalue, htext⟩
    exact ⟨hname, hannotations, htype, hvalue, htext⟩

theorem TypeDecl.validate_iff_parts (t : TypeDecl) :
    t.validate = .ok () ↔ ∀ p ∈ t.parts, p.Obeys checker := by
  rw [TypeDecl.validate_eq_ok, TypeDecl.parts, List.forall_mem_cons,
    ← TypeExpr.validate_iff_parts, Annotations.validate_eq_ok]
  exact and_assoc.symm

theorem FuncDecl.validate_iff_parts (f : FuncDecl) :
    f.validate checker = .ok () ↔ ∀ p ∈ f.parts, p.Obeys checker := by
  have hreceiver : (∀ r, f.receiver = some r → r.validate = .ok ()) ↔
      ∀ p ∈ f.receiver.toList.flatMap Field.parts, p.Obeys checker := by
    rw [← Field.validate_iff_parts fun r _ => r.type.validate_iff_parts]
    simp
  have hsignature : f.signature.validate = .ok () ↔
      ∀ p ∈ (TypeExpr.func f.signature).parts, p.Obeys checker := by
    rw [← TypeExpr.validate_iff_parts, TypeExpr.validate]
  rw [FuncDecl.validate_eq_ok, FuncDecl.parts, List.forall_mem_append, List.forall_mem_append,
    ← hreceiver, ← hsignature, List.forall_mem_singleton, Annotations.validate_eq_ok,
    String.isEmpty_iff]
  simp only [checkReceiver_eq_ok, imp_and, forall_and]
  constructor
  · rintro ⟨hname, hannotations, ⟨hlocal, hvalid⟩, hsig, htext⟩
    exact ⟨⟨hvalid, hsig⟩, hname, hannotations, hlocal, htext⟩
  · rintro ⟨⟨hvalid, hsig⟩, hname, hannotations, hlocal, htext⟩
    exact ⟨hname, hannotations, ⟨hlocal, hvalid⟩, hsig, htext⟩

theorem Import.validate_iff_parts (i : Import) :
    i.validate = .ok () ↔ ∀ p ∈ i.parts, p.Obeys checker := by
  simp [Import.validate_eq_ok, Import.parts, Node.Obeys]

/-- A group passes if its elements do; it keeps no rule of its own. -/
theorem Group.validate_iff_parts {α : Type} [Grouped α] {check : α → Verdict}
    (node : Group α → Node) {parts : α → List Node} (hnode : ∀ g, (node g).Obeys checker)
    (h : ∀ a, check a = .ok () ↔ ∀ p ∈ parts a, p.Obeys checker) (g : Group α) :
    g.validate check = .ok () ↔ ∀ p ∈ g.parts node parts, p.Obeys checker := by
  simp only [Group.validate_eq_ok, Group.parts, List.forall_mem_cons, List.forall_mem_flatMap,
    hnode, true_and, h]

/-- The declarations of one sort in a file. -/
theorem Group.each_validate_iff_parts {α : Type} [Grouped α] {check : α → Verdict}
    (node : Group α → Node) {parts : α → List Node} (hnode : ∀ g, (node g).Obeys checker)
    (h : ∀ a, check a = .ok () ↔ ∀ p ∈ parts a, p.Obeys checker) (gs : List (Group α)) :
    (∀ g ∈ gs, ∀ a ∈ g.items, check a = .ok ()) ↔
      ∀ p ∈ gs.flatMap (Group.parts node parts), p.Obeys checker := by
  rw [List.forall_mem_flatMap]
  exact forall₂_congr fun g _ => by
    rw [← Group.validate_iff_parts node hnode h, Group.validate_eq_ok]

theorem File.validate_iff_parts (f : File) :
    f.validate checker = .ok () ↔ ∀ p ∈ f.parts, p.Obeys checker := by
  have hfuncs : (∀ func ∈ f.funcs, func.validate checker = .ok ()) ↔
      ∀ p ∈ f.funcs.flatMap FuncDecl.parts, p.Obeys checker := by
    rw [List.forall_mem_flatMap]
    exact forall₂_congr fun func _ => func.validate_iff_parts
  rw [File.validate_eq_ok, File.parts, List.forall_mem_cons]
  simp only [List.forall_mem_append]
  rw [← Group.each_validate_iff_parts .importGroup (fun _ => trivial) Import.validate_iff_parts,
    ← Group.each_validate_iff_parts .constGroup (fun _ => trivial) Const.validate_iff_parts,
    ← Group.each_validate_iff_parts .varGroup (fun _ => trivial) Var.validate_iff_parts,
    ← Group.each_validate_iff_parts .typeGroup (fun _ => trivial) TypeDecl.validate_iff_parts,
    ← hfuncs]
  simp only [Node.Obeys, Annotations.validate_eq_ok, String.isEmpty_iff,
    String.isEmpty_eq_false_iff, and_assoc]

/-- A tree passes exactly if every part of it keeps its rule. -/
theorem Node.validate_iff_parts (n : Node) :
    n.validate checker = .ok () ↔ ∀ p ∈ n.parts, p.Obeys checker := by
  cases n with
  | type t => exact t.validate_iff_parts
  | field f =>
    have hfield : (∀ g ∈ [f], g.validate = .ok ()) ↔
        ∀ p ∈ [f].flatMap Field.parts, p.Obeys checker :=
      Field.validate_iff_parts fun g _ => g.type.validate_iff_parts
    simpa [Node.validate, Node.parts] using hfield
  | const c => exact c.validate_iff_parts
  | var v => exact v.validate_iff_parts
  | typeDecl t => exact t.validate_iff_parts
  | func f => exact f.validate_iff_parts
  | importDecl i => exact i.validate_iff_parts
  | constGroup g => exact g.validate_iff_parts .constGroup (fun _ => trivial) Const.validate_iff_parts
  | varGroup g => exact g.validate_iff_parts .varGroup (fun _ => trivial) Var.validate_iff_parts
  | typeGroup g => exact g.validate_iff_parts .typeGroup (fun _ => trivial) TypeDecl.validate_iff_parts
  | importGroup g => exact g.validate_iff_parts .importGroup (fun _ => trivial) Import.validate_iff_parts
  | file f => exact f.validate_iff_parts

end Declarations

/-- Types lie inside files and not the other way round. -/
theorem TypeExpr.file_notMem_parts (f : File) (t : TypeExpr) : .file f ∉ t.parts := by
  induction t using TypeExpr.induction with
  | _ => simp_all [TypeExpr.parts]

/-- A file is the only file among its parts. -/
theorem File.eq_of_mem_parts {f g : File} (h : .file g ∈ f.parts) : g = f := by
  simpa [File.parts, Group.parts, Import.parts, Const.parts, Var.parts, TypeDecl.parts,
    FuncDecl.parts, TypeExpr.file_notMem_parts] using h

/-- The rules of a file, one for each sort of part that it has at any depth. -/
structure File.Sound (checker : Checker) (f : File) : Prop where
  name : f.name ≠ ""
  package : isIdentifier f.package = true
  content : f.content = "" ∨ checker.file f.content = .ok ()
  annotations : ∀ p ∈ f.parts, ∀ a ∈ p.annotations, a.complaint = none
  imports : ∀ i, .importDecl i ∈ f.parts →
    (i.localName = "" ∨ isIdentifier i.localName = true) ∧ i.path ≠ ""
  consts : ∀ c, .const c ∈ f.parts → isIdentifier c.name = true ∧
    (∀ t, c.type = some (.named t) → t.pointer = false) ∧
    (c.value = "" ∨ checker.expression c.value = .ok ())
  vars : ∀ v, .var v ∈ f.parts → isIdentifier v.name = true ∧ (v.type ≠ none ∨ v.value ≠ "") ∧
    (v.value = "" ∨ checker.expression v.value = .ok ())
  typeDecls : ∀ t, .typeDecl t ∈ f.parts → isIdentifier t.name = true
  funcs : ∀ d, .func d ∈ f.parts → isIdentifier d.name = true ∧
    (∀ r, d.receiver = some r → ∃ t, r.type = .named t ∧ t.package = "") ∧
    (d.content = "" ∨ checker.body d.content = .ok ())
  fields : ∀ g, .field g ∈ f.parts → g.name = "" ∨ isIdentifier g.name = true
  types : ∀ t, .type t ∈ f.parts → t.Obeys

/-- A file passes its checks exactly if every part of it keeps its rule. -/
theorem File.validate_iff_sound (checker : Checker) (f : File) :
    f.validate checker = .ok () ↔ f.Sound checker := by
  rw [File.validate_iff_parts]
  constructor
  · intro h
    have hfile : (Node.file f).Obeys checker := h _ (by simp [File.parts])
    refine
      { name := hfile.1
        package := hfile.2.1
        content := hfile.2.2.2
        annotations := fun p hp => ?_
        imports := fun i hi => ⟨(h _ hi).1, (h _ hi).2.1⟩
        consts := fun c hc => ⟨(h _ hc).1, (h _ hc).2.2⟩
        vars := fun v hv => ⟨(h _ hv).1, (h _ hv).2.2⟩
        typeDecls := fun t ht => (h _ ht).1
        funcs := fun d hd => ⟨(h _ hd).1, (h _ hd).2.2⟩
        fields := fun g hg => (h _ hg).1
        types := fun t ht => h _ ht }
    have hobeys := h p hp
    cases p with
    | field g => exact hobeys.2
    | const c => exact hobeys.2.1
    | var v => exact hobeys.2.1
    | typeDecl t => exact hobeys.2
    | func d => exact hobeys.2.1
    | importDecl i => exact hobeys.2.2
    | file g => exact hobeys.2.2.1
    | type | constGroup | varGroup | typeGroup | importGroup => exact fun _ ha => nomatch ha
  · intro h p hp
    have hsound := h.annotations p hp
    cases p with
    | type t => exact h.types t hp
    | field g => exact ⟨h.fields g hp, hsound⟩
    | const c => exact ⟨(h.consts c hp).1, hsound, (h.consts c hp).2⟩
    | var v => exact ⟨(h.vars v hp).1, hsound, (h.vars v hp).2⟩
    | typeDecl t => exact ⟨h.typeDecls t hp, hsound⟩
    | func d => exact ⟨(h.funcs d hp).1, hsound, (h.funcs d hp).2⟩
    | importDecl i => exact ⟨(h.imports i hp).1, (h.imports i hp).2, hsound⟩
    | file g =>
      obtain rfl : g = f := File.eq_of_mem_parts hp
      exact ⟨h.name, h.package, hsound, h.content⟩
    | constGroup | varGroup | typeGroup | importGroup => trivial

end GoSource
