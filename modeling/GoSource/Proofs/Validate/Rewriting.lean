import GoSource.Proofs.Node.Rewriting
import GoSource.Proofs.Validate.Rules

/-!
# Validity after a rewriting

Rewriting changes no shape and no name but package names. If it puts identifiers
for identifiers, a valid type stays valid. Declarations, whose free text is checked
as well, are not treated here.
-/

namespace GoSource

/-- What the rewriting puts for a package name is a package name. -/
def Rewriting.KeepsNames (w : Rewriting) : Prop :=
  ∀ name, name.isEmpty = true ∨ isIdentifier name = true →
    (w.package name).isEmpty = true ∨ isIdentifier (w.package name) = true

variable {w : Rewriting}

theorem Place.rule_rewrite {place : Place} {f : Field} (h : place.rule f = .ok ()) :
    place.rule (f.rewrite w) = .ok () := by
  obtain ⟨name, tag, comment, annotations, type⟩ := f
  cases place <;> cases type <;>
    simp_all [Place.rule, Field.isNamed, TypeExpr.rewrite, TypeExpr.named?]
  all_goals cases hn : name.isEmpty <;> simp_all

theorem checkVariadic_rewrite {params : List Field} (h : checkVariadic params = .ok ()) :
    checkVariadic (params.map (Field.rewrite w)) = .ok () := by
  obtain ⟨last, element, hlast, htype⟩ := exists_slice_of_checkVariadic h
  simp [checkVariadic, List.getLast?_map, hlast, htype, TypeExpr.rewrite, TypeExpr.isSlice]

theorem checkResults_rewrite (results : List Field) :
    checkResults (results.map (Field.rewrite w)) = checkResults results := by
  simp [checkResults, Field.isNamed, Function.comp_def]

theorem TypeExpr.validate_rewrite (hw : w.KeepsNames) {t : TypeExpr} (h : t.validate = .ok ()) :
    (t.rewrite w).validate = .ok () := by
  have field : ∀ f : Field, f.validate = .ok () →
      (f.type.validate = .ok () → (f.type.rewrite w).validate = .ok ()) →
      (f.rewrite w).validate = .ok () := by
    intro f hf ih
    rw [Field.validate_eq_ok] at hf ⊢
    rw [Field.rewrite_eq]
    exact ⟨hf.1, hf.2.1, ih hf.2.2⟩
  induction t using TypeExpr.induction with
  | named type =>
    rw [TypeExpr.validate, NamedType.validate_eq_ok] at h
    rw [TypeExpr.rewrite, TypeExpr.validate, NamedType.validate_eq_ok]
    exact ⟨h.1, hw _ h.2⟩
  | array element length ellipsis ih =>
    simp only [TypeExpr.validate, Verdict.bind_eq_ok, Verdict.within_eq_ok, TypeExpr.rewrite] at h ⊢
    exact ⟨h.1, ih h.2⟩
  | map key value hk hv =>
    simp only [TypeExpr.validate, Verdict.bind_eq_ok, Verdict.within_eq_ok, TypeExpr.rewrite] at h ⊢
    exact ⟨hk h.1, hv h.2⟩
  | struct fs ih =>
    simp only [TypeExpr.validate, TypeExpr.rewrite, Field.validateAll_eq_ok, Field.rewriteAll_eq,
      List.forall_mem_map] at h ⊢
    exact fun f hf => ⟨Place.rule_rewrite (h f hf).1, field f (h f hf).2 (ih f hf)⟩
  | interface fs ih =>
    simp only [TypeExpr.validate, TypeExpr.rewrite, Field.validateAll_eq_ok, Field.rewriteAll_eq,
      List.forall_mem_map] at h ⊢
    exact fun f hf => ⟨Place.rule_rewrite (h f hf).1, field f (h f hf).2 (ih f hf)⟩
  | func s hp hr =>
    rw [TypeExpr.validate, Signature.validate_eq_ok] at h
    obtain ⟨hparams, hresults, hvariadic, hmixed⟩ := h
    rw [TypeExpr.rewrite, TypeExpr.validate, Signature.validate_eq_ok, Signature.rewrite_eq]
    simp only [List.forall_mem_map]
    refine ⟨fun f hf => field f (hparams f hf) (hp f hf),
      fun f hf => field f (hresults f hf) (hr f hf), fun hv => checkVariadic_rewrite (hvariadic hv), ?_⟩
    rw [checkResults_rewrite]
    exact hmixed
  | foreign kind data => cases h

end GoSource
