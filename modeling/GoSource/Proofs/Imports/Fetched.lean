import GoSource.Proofs.Imports.Fetching
import GoSource.Proofs.Imports.RenamingLaws

/-!
# What is fetched

An import of a file is fetched for a node exactly if some type of the node is qualified
with its name or some free text of the node uses the name as a qualifier, at any depth. What
was fetched is enough for the node: a file that imports just that gives the same list
again. The order is that of the places which refer to the imports, not that of the file.
-/

namespace GoSource

namespace Mention

/-- The same imports are referred to alike. -/
theorem refersTo_congr {i j : Import} (h : i.same j = true) (m : Mention) :
    m.refersTo i = m.refersTo j := by
  cases m with
  | package name => simp only [refersTo, Import.realAlias_eq_of_same h]
  | code text => simp only [refersTo, Import.realAlias_eq_of_same h]
  | whole entry =>
    rw [refersTo, refersTo, Bool.eq_iff_iff]
    exact ⟨Import.same_trans (i.same_comm j ▸ h), Import.same_trans h⟩
  | foreign kind => rfl

end Mention

/-- A visit stops with the fault of the first foreign type, whatever was found before it. -/
theorem collect_snd (imports : List Import) (ms : List Mention) (s : ImportSet) :
    (collect imports ms s).2 = Mention.firstFault? ms := by
  fun_induction collect imports ms s with
  | case1 s => rfl
  | case2 kind ms s => rfl
  | case3 m ms s hm ih =>
    rw [ih, Mention.firstFault?, Mention.firstFault?, List.findSome?_cons]
    cases m with
    | foreign kind => exact absurd rfl (hm kind)
    | _ => rfl

namespace Node

/-- The name is in use: a type at some depth is qualified with it, or it is a qualifier in
some free text. -/
def Uses (n : Node) (name : String) : Prop :=
  name ∈ n.packages ∨ ∃ text ∈ n.texts, Qualifier.references text name = true

/-- Fetching stops with the first fault, whatever the file imports. -/
theorem fetchImports_eq_fault {n : Node} {fault : Fault}
    (h : Mention.firstFault? n.mentions = some fault) (f : File) :
    n.fetchImports f = .error fault := by
  have hfault : (n.collectImports f {}).2 = some fault := by rw [collectImports, collect_snd, h]
  rw [fetchImports]
  split
  · rename_i hrun
    rw [hrun] at hfault
    cases hfault
  · rename_i hrun
    rw [hrun] at hfault
    rw [Option.some.inj hfault]

/-- Fetching fails exactly at a foreign type. -/
theorem fetchImports_eq_error_iff (n : Node) (f : File) :
    (∃ fault, n.fetchImports f = .error fault) ↔ n.HasForeign := by
  constructor
  · rintro ⟨fault, h⟩
    by_contra hforeign
    rw [fetchImports_eq hforeign] at h
    cases h
  · intro hforeign
    obtain ⟨kind, hfault⟩ := exists_fault_of_hasForeign hforeign
    exact ⟨_, fetchImports_eq_fault hfault f⟩

/-- What a fetch that succeeds returns. -/
theorem eq_of_fetchImports {n : Node} {f : File} {found : ImportSet}
    (h : n.fetchImports f = .ok found) :
    ¬ n.HasForeign ∧
      found = ({} : ImportSet).insertAll
        (n.mentions.flatMap fun m => f.allImports.filter m.refersTo) := by
  have hforeign : ¬ n.HasForeign := by
    rw [← n.fetchImports_eq_error_iff f, h]
    rintro ⟨fault, herror⟩
    cases herror
  rw [fetchImports_eq hforeign] at h
  exact ⟨hforeign, (Except.ok.inj h).symm⟩

section Fetched

variable {n : Node} {f : File} {found : ImportSet}

theorem mem_allImports_of_fetchImports (h : n.fetchImports f = .ok found) {i : Import}
    (hi : i ∈ found.entries) : i ∈ f.allImports := by
  obtain ⟨-, rfl⟩ := eq_of_fetchImports h
  obtain ⟨new, hnew, hsub⟩ := ImportSet.exists_entries_insertAll {}
    (n.mentions.flatMap fun m => f.allImports.filter m.refersTo)
  rw [hnew] at hi
  obtain ⟨m, -, hi⟩ := List.mem_flatMap.mp (hsub.subset hi)
  exact (List.mem_filter.mp hi).1

/-- An import of the file is found, itself or the same one, if some place refers to it. -/
theorem contains_iff_of_fetchImports (h : n.fetchImports f = .ok found) {i : Import}
    (hi : i ∈ f.allImports) :
    found.contains i = true ↔ ∃ m ∈ n.mentions, m.refersTo i = true := by
  obtain ⟨-, rfl⟩ := eq_of_fetchImports h
  rw [ImportSet.contains_insertAll]
  constructor
  · rintro (hempty | ⟨j, hj, hsame⟩)
    · cases hempty
    · obtain ⟨m, hm, hj⟩ := List.mem_flatMap.mp hj
      rw [List.mem_filter, m.refersTo_congr hsame] at hj
      exact ⟨m, hm, hj.2⟩
  · rintro ⟨m, hm, hrefers⟩
    refine .inr ⟨i, ?_, i.same_refl⟩
    exact List.mem_flatMap.mpr ⟨m, hm, List.mem_filter.mpr ⟨hi, hrefers⟩⟩

end Fetched

section Places

/-- Nothing uses the empty name as a qualifier. -/
theorem ne_empty_of_references {text name : String}
    (h : Qualifier.references text name = true) : name ≠ "" := by
  rintro rfl
  simp [Qualifier.references] at h

/-- The place that a part has of its own is its package, if it is qualified, or its text. -/
theorem exists_ownMentions_iff (p : Node) (i : Import) :
    (∃ m ∈ p.ownMentions, m.refersTo i = true) ↔
      i.realAlias ≠ "" ∧ (p.package? = some i.realAlias ∨
        ∃ text, p.text? = some text ∧ Qualifier.references text i.realAlias = true) := by
  have hcode (text : String) :
      (∃ m ∈ [Mention.code text], m.refersTo i = true) ↔
        i.realAlias ≠ "" ∧ Qualifier.references text i.realAlias = true := by
    simp only [List.mem_singleton, exists_eq_left, Mention.refersTo]
    exact ⟨fun h => ⟨ne_empty_of_references h, h⟩, fun h => h.2⟩
  cases p with
  | type t =>
    cases t with
    | named t =>
      simp only [ownMentions, package?, text?]
      cases hq : t.isQualified with
      | false =>
        have hempty : t.package = "" := by simpa [NamedType.isQualified] using hq
        simp [hempty, Ne.symm]
      | true =>
        have hne : t.package ≠ "" := by simpa [NamedType.isQualified] using hq
        simp only [if_true, List.mem_singleton, exists_eq_left, Mention.refersTo, beq_iff_eq]
        grind
    | foreign kind data => simp [ownMentions, package?, text?, Mention.refersTo]
    | _ => simp [ownMentions, package?, text?]
  | const c => simpa [ownMentions, package?, text?] using hcode c.value
  | var v => simpa [ownMentions, package?, text?] using hcode v.value
  | func f => simpa [ownMentions, package?, text?] using hcode f.content
  | file f => simpa [ownMentions, package?, text?] using hcode f.content
  | _ => simp [ownMentions, package?, text?]

/-- Imports apart, the places of a node that refer to an import are its uses of the name that
the import goes by. -/
theorem exists_mentions_iff {n : Node} (hn : n.isImport = false) (i : Import) :
    (∃ m ∈ n.mentions, m.refersTo i = true) ↔ i.realAlias ≠ "" ∧ n.Uses i.realAlias := by
  simp only [mentions_eq_parts hn, mentionsOf, List.mem_flatMap, Uses, packages, texts,
    List.mem_filterMap]
  constructor
  · rintro ⟨m, ⟨p, hp, hm⟩, hrefers⟩
    obtain ⟨hne, hpackage | ⟨text, htext, huse⟩⟩ := (p.exists_ownMentions_iff i).mp ⟨m, hm, hrefers⟩
    · exact ⟨hne, .inl ⟨p, hp, hpackage⟩⟩
    · exact ⟨hne, .inr ⟨text, ⟨p, hp, htext⟩, huse⟩⟩
  · rintro ⟨hne, ⟨p, hp, hpackage⟩ | ⟨text, ⟨p, hp, htext⟩, huse⟩⟩
    · obtain ⟨m, hm, hrefers⟩ := (p.exists_ownMentions_iff i).mpr ⟨hne, .inl hpackage⟩
      exact ⟨m, ⟨p, hp, hm⟩, hrefers⟩
    · obtain ⟨m, hm, hrefers⟩ :=
        (p.exists_ownMentions_iff i).mpr ⟨hne, .inr ⟨text, htext, huse⟩⟩
      exact ⟨m, ⟨p, hp, hm⟩, hrefers⟩

end Places

/-- Fetching fails exactly at a foreign type. Otherwise it returns imports of the file, no two
of them the same, and an import of the file is among them, annotations aside, exactly if it
goes by a name and the node uses that name. The imports that a file node itself declares
make no difference. -/
theorem fetchImports_iff_uses {n : Node} (hn : n.isImport = false) (f : File) :
    ((∃ fault, n.fetchImports f = .error fault) ↔ n.HasForeign) ∧
    (∀ found, n.fetchImports f = .ok found →
      (∀ i ∈ found.entries, i ∈ f.allImports) ∧
      (found.entries.Pairwise fun i j =>
        ¬ (i.localName = j.localName ∧ i.path = j.path ∧ i.comment = j.comment)) ∧
      ∀ i ∈ f.allImports, (∃ j ∈ found.entries, i.same j = true) ↔
        i.realAlias ≠ "" ∧ n.Uses i.realAlias) ∧
    ∀ g imports, n = .file g →
      (Node.file { g with imports }).fetchImports f = n.fetchImports f := by
  refine ⟨n.fetchImports_eq_error_iff f, ?_, ?_⟩
  · intro found h
    refine ⟨fun i hi => mem_allImports_of_fetchImports h hi, ?_, ?_⟩
    · apply found.distinct.imp
      intro i j hdiffer hagree
      rw [Import.same_iff.mpr hagree] at hdiffer
      cases hdiffer
    · intro i hi
      rw [← exists_mentions_iff hn, ← contains_iff_of_fetchImports h hi, ImportSet.contains_iff]
      simp only [Import.same_comm i]
  · rintro g imports rfl
    rfl

/-- What was fetched for a node is all that the node needs. From a file whose imports are the
fetched ones, over all its groups and in their order, the same list is fetched again. -/
theorem fetchImports_fetched {n : Node} {f g : File} {found : ImportSet}
    (h : n.fetchImports f = .ok found) (hg : g.allImports = found.entries) :
    n.fetchImports g = .ok found := by
  obtain ⟨hforeign, hfound⟩ := eq_of_fetchImports h
  have hsub : found.entries ⊆ f.allImports := fun i hi => mem_allImports_of_fetchImports h hi
  have hkept : (({} : ImportSet).insertAll
      (n.mentions.flatMap fun m => f.allImports.filter m.refersTo)).entries <+: found.entries :=
    ⟨[], by rw [List.append_nil, ← hfound]⟩
  rw [fetchImports_eq hforeign, hg, ImportSet.insertAll_flatMap_filter_again hsub hkept, ← hfound]

end Node

/-- A method that names a package in the key of a parameter's type and another one in its
body, in a file that imports more than these. -/
def File.importingMore : File where
  name := "f.go"
  package := "p"
  imports := [
    { items := [{ path := "a/x" }, { localName := "z", path := "b/y" }] },
    { items := [{ path := "c/w" }, { path := "a/x", annotations := [⟨"tag", .number 7, none⟩] }] }]
  funcs := [{
    name := "F"
    signature := ⟨[⟨"m", "", "", [], .map (.named ⟨"z", "K", false⟩) (.named ⟨"", "int", true⟩)⟩],
      [], false⟩
    receiver := some ⟨"r", "", "", [], .named ⟨"", "T", true⟩⟩
    content := "return x.G(m)" }]

theorem File.not_hasForeign_importingMore : ¬ (Node.file File.importingMore).HasForeign := by
  rintro ⟨kind, data, h⟩
  simp [File.importingMore, Node.parts, File.parts, Group.parts, Import.parts, FuncDecl.parts,
    TypeExpr.parts] at h

/-- Of the imports of the file, the renamed one is fetched and the unused one is not. -/
theorem Node.fetchImports_iff_uses_importingMore :
    ∃ found, (Node.file File.importingMore).fetchImports File.importingMore = .ok found ∧
      (∃ j ∈ found.entries, Import.same { localName := "z", path := "b/y" } j = true) ∧
      ¬ ∃ j ∈ found.entries, Import.same { path := "c/w" } j = true := by
  obtain ⟨hfails, hfetched, -⟩ :=
    Node.fetchImports_iff_uses (n := .file File.importingMore) rfl File.importingMore
  cases h : (Node.file File.importingMore).fetchImports File.importingMore with
  | error fault => exact absurd (hfails.mp ⟨fault, h⟩) File.not_hasForeign_importingMore
  | ok found =>
    obtain ⟨-, -, hiff⟩ := hfetched found h
    refine ⟨found, rfl, (hiff _ (by decide)).mpr ⟨by decide, .inl (by decide)⟩, ?_⟩
    rw [hiff _ (by decide)]
    rintro ⟨-, hpackage | ⟨text, htext, huse⟩⟩
    · revert hpackage
      decide
    · revert text
      decide

/-- What the body uses is imported first, and once more under an annotation. Fetched, the
imports stand in the order of their uses, and so does what a file with a group for each of
them gives. -/
theorem Node.fetchImports_fetched_importingMore :
    ∃ found, found.entries = [{ localName := "z", path := "b/y" }, { path := "a/x" }] ∧
      (Node.file File.importingMore).fetchImports File.importingMore = .ok found ∧
      (Node.file File.importingMore).fetchImports {
        name := "g.go"
        package := "q"
        imports := [{ items := [{ localName := "z", path := "b/y" }] },
          { items := [{ path := "a/x" }] }] } = .ok found := by
  have hfetch := Node.fetchImports_eq File.not_hasForeign_importingMore File.importingMore
  exact ⟨_, by decide +kernel, hfetch, Node.fetchImports_fetched hfetch (by decide +kernel)⟩

end GoSource
