import GoSource.Proofs.Imports.Mention
import GoSource.Proofs.Imports.QualifierUse

/-!
# Renaming an alias, all or nothing

The renaming of a node visits its places one after another and stops at the
first foreign type. Without such a type it is the rewriting of every place at
once, after which the old alias is nowhere in use. What a stopped visit has
changed before it stopped is not described here.
-/

namespace GoSource

namespace Mention

/-- The fault of a place that cannot be looked into. -/
def fault? : Mention → Option Fault
  | foreign kind => some (.onPart "Spec" (.foreignType kind))
  | _ => none

/-- The fault of the first place that has one. -/
def firstFault? (ms : List Mention) : Option Fault := ms.findSome? fault?

@[simp] theorem firstFault?_nil : firstFault? [] = none := rfl

@[simp] theorem firstFault?_append (ms ns : List Mention) :
    firstFault? (ms ++ ns) = (firstFault? ms).or (firstFault? ns) := List.findSome?_append

theorem firstFault?_eq_none_iff {ms : List Mention} :
    firstFault? ms = none ↔ ∀ kind, .foreign kind ∉ ms := by
  rw [firstFault?, List.findSome?_eq_none_iff]
  constructor
  · intro h kind hmem
    cases h _ hmem
  · intro h m hm
    cases m with
    | foreign kind => exact absurd hm (h kind)
    | _ => rfl

theorem exists_kind_of_firstFault? {ms : List Mention} {fault : Fault}
    (h : firstFault? ms = some fault) : ∃ kind, fault = .onPart "Spec" (.foreignType kind) := by
  obtain ⟨m, -, hm⟩ := List.exists_of_findSome?_eq_some h
  cases m with
  | foreign kind => exact ⟨kind, (Option.some.inj hm).symm⟩
  | _ => cases hm

end Mention

namespace Stoppable

open Mention

/-- Work on `a` that changes nothing once it has stopped. From a fresh start it
turns `a` into `b`, or it stops with the fault `stop?`. -/
structure Changes {α : Type} (m : Stoppable α) (a b : α) (stop? : Option Fault) : Prop where
  stopped : ∀ fault, m.run (some fault) = (a, some fault)
  completed : stop? = none → m.run none = (b, none)
  faulted : ∀ fault, stop? = some fault → (m.run none).2 = some fault

namespace Changes

variable {α β : Type} {m : Stoppable α} {k : α → Stoppable β} {a b : α} {s t : Option Fault}

theorem pure (a : α) : Changes (Pure.pure a) a a none where
  stopped _ := rfl
  completed _ := rfl
  faulted _ h := by cases h

theorem change (f : α → α) (a : α) : Changes (Stoppable.change f a) a (f a) none where
  stopped _ := rfl
  completed _ := rfl
  faulted _ h := by cases h

theorem run_bind (m : Stoppable α) (k : α → Stoppable β) (s : Option Fault) :
    (m >>= k).run s = (k (m.run s).1).run (m.run s).2 := rfl

/-- One piece of work after another: the first fault stops both. -/
theorem bind {c d : α → β} (hm : m.Changes a b s) (hk : ∀ x, (k x).Changes (c x) (d x) t) :
    (m >>= k).Changes (c a) (d b) (s.or t) where
  stopped fault := by rw [run_bind, hm.stopped, (hk a).stopped]
  completed h := by
    obtain ⟨hs, ht⟩ := Option.or_eq_none_iff.mp h
    rw [run_bind, hm.completed hs, (hk b).completed ht]
  faulted fault h := by
    rw [run_bind]
    cases s with
    | none =>
      rw [hm.completed rfl]
      exact (hk b).faulted fault (by simpa using h)
    | some first =>
      have hfirst : first = fault := by simpa using h
      rw [hm.faulted first rfl, (hk _).stopped, hfirst]

theorem map {f : α → β} (hm : m.Changes a b s) :
    (m >>= fun x => Pure.pure (f x)).Changes (f a) (f b) s := by
  have h := hm.bind (fun x => Changes.pure (f x))
  rwa [Option.or_none] at h

/-- Work on the elements of a list in turn. -/
theorem mapM {l : List α} {work : α → Stoppable α} {g : α → α} {mentions : α → List Mention}
    (h : ∀ a ∈ l, (work a).Changes a (g a) (firstFault? (mentions a))) :
    (l.mapM work).Changes l (l.map g) (firstFault? (l.flatMap mentions)) := by
  induction l with
  | nil => exact Changes.pure []
  | cons a l ih =>
    have hl := ih (fun b hb => h b (List.mem_cons_of_mem a hb))
    rw [List.mapM_cons, List.flatMap_cons, firstFault?_append]
    exact (h a (by simp)).bind fun b => hl.map

end Changes

end Stoppable

open Stoppable Mention

/-- One alias put for another: in package names, in the qualifiers of free text, and
as the written name of every import that goes by the old alias. -/
def Rewriting.ofAlias (old new : String) : Rewriting where
  package name := if name = old then new else name
  code text := Qualifier.substitute text old new
  entry i := if i.realAlias = old then { i with localName := new } else i

/-- The rewriting that a renaming stands for. -/
def Renaming.rewriting (r : Renaming) : Rewriting := .ofAlias r.old r.new

section Rename

variable (r : Renaming)

theorem TypeExpr.rename_changes (t : TypeExpr) :
    (t.rename r).Changes t (t.rewrite r.rewriting) (firstFault? t.mentions) := by
  have fields : ∀ fs : List Field,
      (∀ f ∈ fs, (f.type.rename r).Changes f.type (f.type.rewrite r.rewriting)
        (firstFault? f.type.mentions)) →
      (fs.mapM (Field.rename r)).Changes fs (fs.map (Field.rewrite r.rewriting))
        (firstFault? (fs.flatMap Field.mentions)) := by
    intro fs h
    apply Changes.mapM
    rintro ⟨name, tag, comment, annotations, type⟩ hf
    exact (h _ hf).map
  induction t using TypeExpr.induction with
  | named type =>
    have hnone : firstFault? (TypeExpr.named type).mentions = none := by
      rw [firstFault?_eq_none_iff]
      intro kind
      unfold TypeExpr.mentions
      split <;> simp
    rw [hnone]
    exact (Changes.change r.name type.package).map
  | array element length ellipsis ih => exact ih.map
  | map key value hk hv =>
    rw [TypeExpr.mentions, firstFault?_append]
    exact hk.bind fun _ => hv.map
  | struct fs ih =>
    simp only [TypeExpr.rename, TypeExpr.rewrite, TypeExpr.mentions, Field.renameAll_eq,
      Field.rewriteAll_eq, Field.mentionsAll_eq]
    exact (fields fs ih).map
  | interface fs ih =>
    simp only [TypeExpr.rename, TypeExpr.rewrite, TypeExpr.mentions, Field.renameAll_eq,
      Field.rewriteAll_eq, Field.mentionsAll_eq]
    exact (fields fs ih).map
  | func s hp hr =>
    obtain ⟨params, results, variadic⟩ := s
    simp only [TypeExpr.rename, TypeExpr.rewrite, TypeExpr.mentions, Signature.rename_eq,
      Signature.rewrite_eq, Signature.mentions_eq, firstFault?_append]
    exact ((fields _ hp).bind fun _ => (fields _ hr).map).map
  | foreign kind data =>
    constructor
    · exact fun _ => rfl
    · intro h
      cases h
    · exact fun _ h => h

theorem Field.rename_changes (f : Field) :
    (f.rename r).Changes f (f.rewrite r.rewriting) (firstFault? f.mentions) := by
  obtain ⟨name, tag, comment, annotations, type⟩ := f
  exact (type.rename_changes r).map

theorem Signature.rename_changes (s : Signature) :
    (s.rename r).Changes s (s.rewrite r.rewriting) (firstFault? s.mentions) := by
  obtain ⟨params, results, variadic⟩ := s
  rw [Signature.rename_eq, Signature.rewrite_eq, Signature.mentions_eq, firstFault?_append]
  exact (Changes.mapM fun f _ => f.rename_changes r).bind fun _ =>
    (Changes.mapM fun f _ => f.rename_changes r).map

theorem renameOption_changes {α : Type} {rename : α → Stoppable α} {rewrite : α → α}
    {mentions : α → List Mention}
    (h : ∀ a, (rename a).Changes a (rewrite a) (firstFault? (mentions a))) (o : Option α) :
    (renameOption rename o).Changes o (o.map rewrite)
      (firstFault? ((o.map mentions).getD [])) := by
  cases o with
  | none => exact Changes.pure none
  | some a => exact (h a).map

theorem firstFault?_code (text : String) : firstFault? [.code text] = none := rfl

theorem Const.rename_changes (c : Const) :
    (c.rename r).Changes c (c.rewrite r.rewriting) (firstFault? c.mentions) := by
  rw [Const.mentions, firstFault?_append, firstFault?_code]
  exact (renameOption_changes (TypeExpr.rename_changes r) c.type).bind fun _ =>
    (Changes.change r.code c.value).map

theorem Var.rename_changes (v : Var) :
    (v.rename r).Changes v (v.rewrite r.rewriting) (firstFault? v.mentions) := by
  rw [Var.mentions, firstFault?_append, firstFault?_code]
  exact (renameOption_changes (TypeExpr.rename_changes r) v.type).bind fun _ =>
    (Changes.change r.code v.value).map

theorem TypeDecl.rename_changes (t : TypeDecl) :
    (t.rename r).Changes t (t.rewrite r.rewriting) (firstFault? t.mentions) :=
  (t.type.rename_changes r).map

theorem FuncDecl.rename_changes (f : FuncDecl) :
    (f.rename r).Changes f (f.rewrite r.rewriting) (firstFault? f.mentions) := by
  rw [FuncDecl.mentions, firstFault?_append, firstFault?_append, firstFault?_code, Option.or_assoc]
  exact (renameOption_changes (Field.rename_changes r) f.receiver).bind fun _ =>
    (f.signature.rename_changes r).bind fun _ => (Changes.change r.code f.content).map

theorem Import.rename_changes (i : Import) :
    (i.rename r).Changes i (r.entry i) (firstFault? i.mentions) :=
  Changes.change r.entry i

theorem Group.rename_changes {α : Type} {rename : α → Stoppable α} {rewrite : α → α}
    {mentions : α → List Mention}
    (h : ∀ a, (rename a).Changes a (rewrite a) (firstFault? (mentions a))) (g : Group α) :
    (g.rename rename).Changes g (g.mapItems rewrite) (firstFault? (g.mentions mentions)) :=
  (Changes.mapM fun a _ => h a).map

theorem firstFault?_imports (gs : List (Group Import)) :
    firstFault? (gs.flatMap (Group.mentions Import.mentions)) = none := by
  rw [firstFault?_eq_none_iff]
  simp [Group.mentions, Import.mentions]

theorem firstFault?_file (f : File) :
    firstFault? f.mentions =
      (firstFault? (f.consts.flatMap (Group.mentions Const.mentions))).or
        ((firstFault? (f.vars.flatMap (Group.mentions Var.mentions))).or
          ((firstFault? (f.types.flatMap (Group.mentions TypeDecl.mentions))).or
            (firstFault? (f.funcs.flatMap FuncDecl.mentions)))) := by
  rw [File.mentions, ← List.singleton_append]
  simp only [firstFault?_append, firstFault?_code, Option.none_or, Option.or_assoc]

theorem File.rename_changes (f : File) :
    (f.rename r).Changes f (f.rewrite r.rewriting) (firstFault? f.mentions) := by
  have hi := Changes.mapM (l := f.imports) fun g _ =>
    Group.rename_changes (Import.rename_changes r) g
  have hc := Changes.mapM (l := f.consts) fun g _ =>
    Group.rename_changes (Const.rename_changes r) g
  have hv := Changes.mapM (l := f.vars) fun g _ => Group.rename_changes (Var.rename_changes r) g
  have ht := Changes.mapM (l := f.types) fun g _ =>
    Group.rename_changes (TypeDecl.rename_changes r) g
  have hf := Changes.mapM (l := f.funcs) fun g _ => g.rename_changes r
  rw [firstFault?_imports] at hi
  rw [firstFault?_file]
  exact (Changes.change r.code f.content).bind fun _ => hi.bind fun _ => hc.bind fun _ =>
    hv.bind fun _ => ht.bind fun _ => hf.map

/-- A renaming rewrites every place of the node, or stops at its first foreign type. -/
theorem Node.rename_changes (n : Node) :
    (n.rename r).Changes n (n.rewrite r.rewriting) (firstFault? n.mentions) := by
  cases n with
  | type t => exact (t.rename_changes r).map
  | field f => exact (f.rename_changes r).map
  | const c => exact (c.rename_changes r).map
  | var v => exact (v.rename_changes r).map
  | typeDecl t => exact (t.rename_changes r).map
  | func f => exact (f.rename_changes r).map
  | importDecl i => exact (i.rename_changes r).map
  | constGroup g => exact (Group.rename_changes (Const.rename_changes r) g).map
  | varGroup g => exact (Group.rename_changes (Var.rename_changes r) g).map
  | typeGroup g => exact (Group.rename_changes (TypeDecl.rename_changes r) g).map
  | importGroup g => exact (Group.rename_changes (Import.rename_changes r) g).map
  | file f => exact (f.rename_changes r).map

end Rename

/-- Nothing in the node goes by the name: no named type is qualified with it, no import
is referred to by it, and no free text uses it as a qualifier. -/
structure Node.Fresh (n : Node) (name : String) : Prop where
  package : ∀ t, .type (.named t) ∈ n.parts → t.package ≠ name
  entry : ∀ i, .importDecl i ∈ n.parts → i.realAlias ≠ name
  text : ∀ text ∈ n.texts, Qualifier.references text name = false

theorem Rewriting.isEmpty_package_ofAlias {old new : String} (hold : isIdentifier old = true)
    (hnew : isIdentifier new = true) (name : String) :
    ((Rewriting.ofAlias old new).package name).isEmpty = name.isEmpty := by
  simp only [Rewriting.ofAlias]
  split
  · rename_i heq
    rw [heq, isEmpty_eq_false_of_isIdentifier hold, isEmpty_eq_false_of_isIdentifier hnew]
  · rfl

/-- An import that is given an identifier as its alias goes by it. -/
theorem Import.realAlias_withName {name : String} (h : isIdentifier name = true) (i : Import) :
    { i with localName := name }.realAlias = name := by
  simp [Import.realAlias, isEmpty_eq_false_of_isIdentifier h]

/-- After a rewriting nothing goes by the old alias any more. -/
theorem Node.fresh_rewrite_ofAlias {old new : String} (hold : isIdentifier old = true)
    (hnew : isIdentifier new = true) (hne : old ≠ new) (n : Node) :
    (n.rewrite (.ofAlias old new)).Fresh old where
  package t ht := by
    obtain ⟨u, -, rfl⟩ := exists_named_of_mem_rewrite _ ht
    simp only [Rewriting.ofAlias]
    split
    · exact hne.symm
    · assumption
  entry i hi := by
    obtain ⟨j, -, rfl⟩ := exists_import_of_mem_rewrite _ hi
    simp only [Rewriting.ofAlias]
    split
    · rw [Import.realAlias_withName hnew]
      exact hne.symm
    · assumption
  text text htext := by
    rw [texts_rewrite] at htext
    obtain ⟨before, -, rfl⟩ := List.mem_map.mp htext
    by_contra h
    have huse := (Qualifier.references_substitute_iff hold hnew hold before).mp
      (Bool.of_not_eq_false h)
    rcases huse with ⟨heq, -⟩ | ⟨h, -⟩
    · exact hne heq
    · exact h rfl

/-- A renaming of identifiers applied to a node without a foreign type. -/
theorem Node.renameImports_eq_ok {old new : String} {n : Node} (hold : isIdentifier old = true)
    (hnew : isIdentifier new = true) (h : ¬ n.HasForeign) :
    n.renameImports old new = .ok (n.rewrite (.ofAlias old new)) := by
  have hnone : firstFault? n.mentions = none := by
    rw [firstFault?_eq_none_iff]
    exact fun kind hk => h (n.hasForeign_iff.mpr ⟨kind, hk⟩)
  have hrun : n.applyRenaming ⟨old, new, hold, hnew⟩ = (n.rewrite (.ofAlias old new), none) :=
    (n.rename_changes ⟨old, new, hold, hnew⟩).completed hnone
  simp [renameImports, Renaming.make, hold, hnew, hrun, bind, Except.bind]

/-- A renaming of identifiers stops with the first fault, whatever the identifiers are. -/
theorem Node.renameImports_eq_fault {old new : String} {n : Node} {fault : Fault}
    (hold : isIdentifier old = true) (hnew : isIdentifier new = true)
    (h : firstFault? n.mentions = some fault) : n.renameImports old new = .error fault := by
  have hrun : n.applyRenaming ⟨old, new, hold, hnew⟩ =
      ((n.applyRenaming ⟨old, new, hold, hnew⟩).1, some fault) :=
    Prod.ext rfl ((n.rename_changes ⟨old, new, hold, hnew⟩).faulted _ h)
  simp only [renameImports, Renaming.make, hold, hnew, dite_true, bind, Except.bind]
  rw [hrun]

/-- A node with a foreign type has a first fault, which names such a type. -/
theorem Node.exists_fault_of_hasForeign {n : Node} (h : n.HasForeign) :
    ∃ kind, firstFault? n.mentions = some (.invariant [.part "Spec"] (.foreignType kind)) := by
  have hsome : firstFault? n.mentions ≠ none := by
    rw [Ne, firstFault?_eq_none_iff]
    obtain ⟨kind, hk⟩ := n.hasForeign_iff.mp h
    exact fun hn => hn kind hk
  obtain ⟨fault, hfault⟩ := Option.ne_none_iff_exists'.mp hsome
  obtain ⟨kind, rfl⟩ := exists_kind_of_firstFault? hfault
  exact ⟨kind, hfault⟩

/-- A renaming of identifiers stops at a foreign type. -/
theorem Node.renameImports_eq_error {old new : String} {n : Node} (hold : isIdentifier old = true)
    (hnew : isIdentifier new = true) (h : n.HasForeign) :
    ∃ kind, n.renameImports old new = .error (.invariant [.part "Spec"] (.foreignType kind)) := by
  obtain ⟨kind, hfault⟩ := exists_fault_of_hasForeign h
  exact ⟨kind, renameImports_eq_fault hold hnew hfault⟩

/-- A renaming leaves the node as it was unless both aliases are identifiers and no
type of the node is foreign, and says which of these it was that failed. Otherwise it
rewrites every place of the node at once, and afterwards nothing goes by the old
alias. -/
theorem Node.renameInPlace_all_or_nothing (n : Node) (old new : String) :
    (isIdentifier old = false →
      n.renameInPlace old new = (n, some (.argument "old" (.notIdentifier old)))) ∧
    (isIdentifier old = true → isIdentifier new = false →
      n.renameInPlace old new = (n, some (.argument "new" (.notIdentifier new)))) ∧
    (isIdentifier old = true → isIdentifier new = true → n.HasForeign →
      ∃ kind, n.renameInPlace old new =
        (n, some (.invariant [.part "Spec"] (.foreignType kind)))) ∧
    (isIdentifier old = true → isIdentifier new = true → ¬ n.HasForeign →
      n.renameInPlace old new = (n.rewrite (.ofAlias old new), none) ∧
      (old ≠ new → (n.rewrite (.ofAlias old new)).Fresh old)) := by
  refine ⟨?_, ?_, ?_, ?_⟩
  · intro hold
    simp [renameInPlace, renameImports, Renaming.make, hold, bind, Except.bind]
  · intro hold hnew
    simp [renameInPlace, renameImports, Renaming.make, hold, hnew, bind, Except.bind]
  · intro hold hnew h
    obtain ⟨kind, herror⟩ := renameImports_eq_error hold hnew h
    exact ⟨kind, by simp [renameInPlace, herror]⟩
  · intro hold hnew h
    exact ⟨by simp [renameInPlace, renameImports_eq_ok hold hnew h],
      fun hne => fresh_rewrite_ofAlias hold hnew hne n⟩

end GoSource
