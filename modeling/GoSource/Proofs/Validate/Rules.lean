import GoSource.Proofs.Node.Parts
import GoSource.Proofs.Text.CharacterClass
import Mathlib.Tactic.Common

/-!
# What a passed check says

A verdict passes if each of its steps passes, whatever the order in which a reader
meets them. The rules of a type are those of its own shape and those of the types
below it, and free text passes if it is left out or the checker accepts it. Which
fault a failed check names is left out here.
-/

namespace GoSource

namespace Verdict

@[simp] theorem pure_eq_ok : (pure () : Verdict) = .ok () ↔ True := by simp [pure, Except.pure]

@[simp] theorem bind_eq_ok {v w : Verdict} :
    (v >>= fun _ => w) = .ok () ↔ v = .ok () ∧ w = .ok () := by
  cases v <;> simp [bind, Except.bind]

@[simp] theorem within_eq_ok {segment : Segment} {v : Verdict} :
    within segment v = .ok () ↔ v = .ok () := by
  cases v <;> simp [within, Except.mapError]

@[simp] theorem require_eq_ok {condition : Bool} {fault : Fault} :
    require condition fault = .ok () ↔ condition = true := by
  cases condition <;> simp [require]

@[simp] theorem ofText_eq_ok {judgement : Except Diagnostic Unit} :
    ofText judgement = .ok () ↔ judgement = .ok () := by
  cases judgement <;> simp [ofText, Except.mapError]

theorem eachFrom_eq_ok {α : Type} {list : String} {check : α → Verdict} {index : Nat}
    {as : List α} : eachFrom list check index as = .ok () ↔ ∀ a ∈ as, check a = .ok () := by
  induction as generalizing index with
  | nil => simp [eachFrom]
  | cons a as ih => simp [eachFrom, ih]

@[simp] theorem each_eq_ok {α : Type} {list : String} {check : α → Verdict} {as : List α} :
    each list check as = .ok () ↔ ∀ a ∈ as, check a = .ok () := eachFrom_eq_ok

end Verdict

section Names

variable {part value : String}

@[simp] theorem optionalName_eq_ok :
    optionalName part value = .ok () ↔ value.isEmpty = true ∨ isIdentifier value = true := by
  simp [optionalName]

@[simp] theorem requireName_eq_ok :
    requireName part value = .ok () ↔ isIdentifier value = true := by
  simp only [requireName, requireText, Verdict.bind_eq_ok, Verdict.require_eq_ok,
    optionalName_eq_ok, Bool.not_eq_true']
  constructor
  · rintro ⟨hne, he | h⟩
    · rw [hne] at he
      cases he
    · exact h
  · intro h
    exact ⟨isEmpty_eq_false_of_isIdentifier h, .inr h⟩

end Names

@[simp] theorem NamedType.validate_eq_ok {t : NamedType} :
    t.validate = .ok () ↔
      isIdentifier t.name = true ∧ (t.package.isEmpty = true ∨ isIdentifier t.package = true) := by
  simp [NamedType.validate]

theorem Field.validate_eq_ok {f : Field} :
    f.validate = .ok () ↔ (f.name.isEmpty = true ∨ isIdentifier f.name = true) ∧
      f.annotations.validate = .ok () ∧ f.type.validate = .ok () := by
  cases f
  simp [Field.validate]

theorem Field.validateAll_eq_ok {place : Place} {index : Nat} {fs : List Field} :
    Field.validateAll place index fs = .ok () ↔
      ∀ f ∈ fs, place.rule f = .ok () ∧ f.validate = .ok () := by
  induction fs generalizing index with
  | nil => simp [Field.validateAll]
  | cons f fs ih => simp [Field.validateAll, ih]

theorem Signature.validate_eq_ok {s : Signature} :
    s.validate = .ok () ↔ (∀ f ∈ s.params, f.validate = .ok ()) ∧
      (∀ f ∈ s.results, f.validate = .ok ()) ∧
      (s.variadic = true → checkVariadic s.params = .ok ()) ∧ checkResults s.results = .ok () := by
  obtain ⟨params, results, variadic⟩ := s
  cases variadic <;> simp [Signature.validate, Field.validateAll_eq_ok, Place.rule]

/-- The last parameter of a valid variadic signature is a slice. -/
theorem exists_slice_of_checkVariadic {params : List Field} (h : checkVariadic params = .ok ()) :
    ∃ last element, params.getLast? = some last ∧ last.type = .array element 0 false := by
  unfold checkVariadic at h
  split at h
  · cases h
  · rename_i last hlast
    simp only at h
    split at h
    · rename_i element length ellipsis htype
      refine ⟨last, element, hlast, ?_⟩
      simp_all [TypeExpr.isSlice]
    · cases h

/-- No type at any depth of a valid type is foreign. -/
theorem TypeExpr.not_hasForeign {t : TypeExpr} (h : t.validate = .ok ()) :
    ¬ (Node.type t).HasForeign := by
  have fields : ∀ fs : List Field, (∀ f ∈ fs, ¬ (Node.type f.type).HasForeign) →
      ∀ kind data, .type (.foreign kind data) ∉ fs.flatMap Field.parts := by
    intro fs ih kind data hmem
    obtain ⟨f, hf, hmem⟩ := List.mem_flatMap.mp hmem
    rw [Field.parts_eq] at hmem
    rcases List.mem_cons.mp hmem with heq | hmem
    · cases heq
    · exact ih f hf ⟨kind, data, hmem⟩
  induction t using TypeExpr.induction with
  | named type => simp [Node.HasForeign, Node.parts, TypeExpr.parts]
  | array element length ellipsis ih =>
    simp only [TypeExpr.validate, Verdict.bind_eq_ok, Verdict.within_eq_ok] at h
    have helement := ih h.2
    simp_all [Node.HasForeign, Node.parts, TypeExpr.parts]
  | map key value hk hv =>
    simp only [TypeExpr.validate, Verdict.bind_eq_ok, Verdict.within_eq_ok] at h
    have hkey := hk h.1
    have hvalue := hv h.2
    simp_all [Node.HasForeign, Node.parts, TypeExpr.parts]
  | struct fs ih =>
    simp only [TypeExpr.validate, Field.validateAll_eq_ok, Field.validate_eq_ok] at h
    have hfields := fields fs fun f hf => ih f hf (h f hf).2.2.2
    rintro ⟨kind, data, hmem⟩
    exact hfields kind data (by simpa [Node.parts, TypeExpr.parts] using hmem)
  | interface fs ih =>
    simp only [TypeExpr.validate, Field.validateAll_eq_ok, Field.validate_eq_ok] at h
    have hfields := fields fs fun f hf => ih f hf (h f hf).2.2.2
    rintro ⟨kind, data, hmem⟩
    exact hfields kind data (by simpa [Node.parts, TypeExpr.parts] using hmem)
  | func s hp hr =>
    obtain ⟨hparams, hresults, -⟩ := Signature.validate_eq_ok.mp h
    have hfp := fields s.params fun f hf => hp f hf (Field.validate_eq_ok.mp (hparams f hf)).2.2
    have hfr := fields s.results fun f hf => hr f hf (Field.validate_eq_ok.mp (hresults f hf)).2.2
    rintro ⟨kind, data, hmem⟩
    simp only [Node.parts, TypeExpr.parts, Signature.parts_eq, List.mem_cons, reduceCtorEq,
      Node.type.injEq, false_or, List.mem_append] at hmem
    rcases hmem with hmem | hmem
    · exact hfp kind data hmem
    · exact hfr kind data hmem
  | foreign kind data => cases h

section Declarations

variable {checker : Checker}

@[simp] theorem checkText_eq_ok {judge : String → Except Diagnostic Unit} {text : String} :
    checkText judge text = .ok () ↔ text.isEmpty = true ∨ judge text = .ok () := by
  unfold checkText
  split <;> simp_all

theorem Const.validate_eq_ok {c : Const} :
    c.validate checker = .ok () ↔ isIdentifier c.name = true ∧ c.annotations.validate = .ok () ∧
      (∀ t, c.type = some t → t.isPointer = false ∧ t.validate = .ok ()) ∧
      (c.value.isEmpty = true ∨ checker.expression c.value = .ok ()) := by
  unfold Const.validate
  cases c.type <;> simp [and_assoc]

theorem Var.validate_eq_ok {v : Var} :
    v.validate checker = .ok () ↔ isIdentifier v.name = true ∧ v.annotations.validate = .ok () ∧
      (∀ t, v.type = some t → t.validate = .ok ()) ∧
      (v.type = none → v.value.isEmpty = false) ∧
      (v.value.isEmpty = true ∨ checker.expression v.value = .ok ()) := by
  unfold Var.validate
  cases v.type <;> simp

theorem TypeDecl.validate_eq_ok {t : TypeDecl} :
    t.validate = .ok () ↔ isIdentifier t.name = true ∧ t.annotations.validate = .ok () ∧
      t.type.validate = .ok () := by
  simp [TypeDecl.validate]

theorem FuncDecl.validate_eq_ok {f : FuncDecl} :
    f.validate checker = .ok () ↔ isIdentifier f.name = true ∧ f.annotations.validate = .ok () ∧
      (∀ r, f.receiver = some r → checkReceiver r = .ok () ∧ r.validate = .ok ()) ∧
      f.signature.validate = .ok () ∧
      (f.content.isEmpty = true ∨ checker.body f.content = .ok ()) := by
  unfold FuncDecl.validate
  cases f.receiver <;> simp

theorem Import.validate_eq_ok {i : Import} :
    i.validate = .ok () ↔ (i.localName.isEmpty = true ∨ isIdentifier i.localName = true) ∧
      i.path.isEmpty = false ∧ i.annotations.validate = .ok () := by
  simp [Import.validate, requireText]

@[simp] theorem Group.validate_eq_ok {α : Type} [Grouped α] {check : α → Verdict} {g : Group α} :
    g.validate check = .ok () ↔ ∀ a ∈ g.items, check a = .ok () := Verdict.each_eq_ok

theorem File.validate_eq_ok {f : File} :
    f.validate checker = .ok () ↔ f.name.isEmpty = false ∧ isIdentifier f.package = true ∧
      f.annotations.validate = .ok () ∧
      (f.content.isEmpty = true ∨ checker.file f.content = .ok ()) ∧
      (∀ g ∈ f.imports, ∀ i ∈ g.items, i.validate = .ok ()) ∧
      (∀ g ∈ f.consts, ∀ c ∈ g.items, c.validate checker = .ok ()) ∧
      (∀ g ∈ f.vars, ∀ v ∈ g.items, v.validate checker = .ok ()) ∧
      (∀ g ∈ f.types, ∀ t ∈ g.items, t.validate = .ok ()) ∧
      ∀ func ∈ f.funcs, func.validate checker = .ok () := by
  simp [File.validate, requireText]

end Declarations

end GoSource
