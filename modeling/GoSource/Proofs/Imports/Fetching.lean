import GoSource.Proofs.Imports.ImportSet
import GoSource.Proofs.Imports.Renaming

/-!
# Fetching after a renaming

The imports that a file uses, after an alias has been given a fresh name, are
those that it used before, with the new alias. Two of them that differed only in
whether the old alias was written out become the same import. Nothing is said
about a new alias that is already in use: it can make places refer to more imports.
-/

namespace GoSource

/-- The place after a rewriting. -/
def Mention.rewrite (w : Rewriting) : Mention → Mention
  | package name => package (w.package name)
  | code text => code (w.code text)
  | whole entry => whole (w.entry entry)
  | foreign kind => foreign kind

section Rewrite

variable {w : Rewriting}

theorem Node.ownMentions_rewrite (hw : ∀ name, (w.package name).isEmpty = name.isEmpty)
    (n : Node) : (n.rewrite w).ownMentions = n.ownMentions.map (Mention.rewrite w) := by
  cases n with
  | type t =>
    cases t with
    | named t =>
      have hq : { t with package := w.package t.package }.isQualified = t.isQualified := by
        rw [NamedType.isQualified, NamedType.isQualified, hw]
      simp only [Node.rewrite, TypeExpr.rewrite, ownMentions, hq]
      split <;> rfl
    | _ => rfl
  | _ => rfl

theorem File.mentions_rewrite (hw : ∀ name, (w.package name).isEmpty = name.isEmpty) (f : File) :
    (f.rewrite w).mentions = f.mentions.map (Mention.rewrite w) := by
  rw [File.mentions_eq_parts, File.mentions_eq_parts, File.parts_rewrite, mentionsOf, mentionsOf,
    List.flatMap_map, List.map_flatMap]
  exact List.flatMap_congr fun n _ => n.ownMentions_rewrite hw

theorem File.allImports_rewrite (f : File) :
    (f.rewrite w).allImports = f.allImports.map w.entry :=
  flatMap_map_eq_map_flatMap fun _ _ => rfl

end Rewrite

theorem File.importDecl_mem_parts {f : File} {i : Import} (h : i ∈ f.allImports) :
    .importDecl i ∈ f.parts := by
  obtain ⟨g, hg, hi⟩ := List.mem_flatMap.mp h
  have hpart : .importDecl i ∈ g.parts .importGroup Import.parts :=
    List.mem_cons_of_mem _ (List.mem_flatMap.mpr ⟨i, hi, by simp [Import.parts]⟩)
  have hgroup := List.mem_flatMap.mpr ⟨g, hg, hpart⟩
  simp [File.parts, hgroup]

/-- Without a foreign type, a visit adds what each place refers to. -/
theorem collect_eq {imports : List Import} {ms : List Mention} (h : ∀ kind, .foreign kind ∉ ms)
    (s : ImportSet) :
    collect imports ms s =
      (s.insertAll (ms.flatMap fun m => imports.filter m.refersTo), none) := by
  fun_induction collect imports ms s with
  | case1 s => rfl
  | case2 kind ms s => exact absurd List.mem_cons_self (h kind)
  | case3 m ms s hm ih =>
    rw [ih fun kind hk => h kind (List.mem_cons_of_mem _ hk), List.flatMap_cons,
      ImportSet.insertAll_append]

theorem Node.fetchImports_eq {n : Node} (h : ¬ n.HasForeign) (f : File) :
    n.fetchImports f =
      .ok (({} : ImportSet).insertAll
        (n.mentions.flatMap fun m => f.allImports.filter m.refersTo)) := by
  have hforeign : ∀ kind, .foreign kind ∉ n.mentions := fun kind hk =>
    h (n.hasForeign_iff.mpr ⟨kind, hk⟩)
  rw [fetchImports, collectImports, collect_eq hforeign]

section Alias

variable {old new : String}

/-- The name that code refers to an import by changes as package names do. -/
theorem Import.realAlias_entry_ofAlias (hnew : isIdentifier new = true) (i : Import) :
    ((Rewriting.ofAlias old new).entry i).realAlias =
      (Rewriting.ofAlias old new).package i.realAlias := by
  simp only [Rewriting.ofAlias]
  split
  · exact Import.realAlias_withName hnew i
  · rfl

/-- Sameness survives, since the same imports go by the same name. -/
theorem Import.same_entry_ofAlias (i j : Import) (h : i.same j = true) :
    ((Rewriting.ofAlias old new).entry i).same ((Rewriting.ofAlias old new).entry j) = true := by
  have hsame := Import.same_iff.mp h
  simp only [Rewriting.ofAlias, Import.realAlias_eq_of_same h]
  split
  · exact Import.same_iff.mpr ⟨rfl, hsame.2⟩
  · exact h

theorem Rewriting.package_ofAlias_inj {a b : String} (ha : a ≠ new) (hb : b ≠ new) :
    (Rewriting.ofAlias old new).package a = (Rewriting.ofAlias old new).package b ↔ a = b := by
  simp only [Rewriting.ofAlias]
  split <;> split <;> simp_all [eq_comm]

theorem references_rewrite_ofAlias (hold : isIdentifier old = true)
    (hnew : isIdentifier new = true) {text name : String} (hname : isIdentifier name = true)
    (hne : name ≠ new) (hfresh : Qualifier.references text new = false) :
    Qualifier.references (Qualifier.substitute text old new)
        ((Rewriting.ofAlias old new).package name) =
      Qualifier.references text name := by
  rw [Bool.eq_iff_iff]
  simp only [Rewriting.ofAlias]
  split
  · rename_i heq
    rw [Qualifier.references_substitute_iff hold hnew hnew, heq]
    simp [hfresh]
  · rename_i hother
    rw [Qualifier.references_substitute_iff hold hnew hname]
    simp [hne, hother]

/-- Under a fresh name, a place of the node refers to the same imports as before. -/
theorem Node.Fresh.refersTo_rewrite {n p : Node} (h : n.Fresh new)
    (hold : isIdentifier old = true) (hnew : isIdentifier new = true) (hp : p ∈ n.parts)
    {m : Mention} (hm : m ∈ p.ownMentions) {i : Import} (hi : isIdentifier i.realAlias = true)
    (hne : i.realAlias ≠ new) :
    (m.rewrite (.ofAlias old new)).refersTo ((Rewriting.ofAlias old new).entry i) =
      m.refersTo i := by
  have hcode : ∀ text, p.text? = some text → m = .code text →
      (m.rewrite (.ofAlias old new)).refersTo ((Rewriting.ofAlias old new).entry i) =
        m.refersTo i := by
    rintro text htext rfl
    have htexts : text ∈ n.texts := List.mem_filterMap.mpr ⟨p, hp, htext⟩
    simp only [Mention.rewrite, Mention.refersTo, Import.realAlias_entry_ofAlias hnew]
    exact references_rewrite_ofAlias hold hnew hi hne (h.text text htexts)
  unfold ownMentions at hm
  split at hm
  · rename_i t
    split at hm
    · obtain rfl := List.mem_singleton.mp hm
      simp only [Mention.rewrite, Mention.refersTo, Import.realAlias_entry_ofAlias hnew]
      rw [Bool.eq_iff_iff, beq_iff_eq, beq_iff_eq]
      exact Rewriting.package_ofAlias_inj hne (h.package t hp)
    · cases hm
  · obtain rfl := List.mem_singleton.mp hm
    rfl
  all_goals first
    | cases hm; done
    | exact hcode _ rfl (List.mem_singleton.mp hm)

/-- What a file refers to, place by place, after its alias has been given a fresh name. -/
theorem File.referred_rewrite_ofAlias {f : File} (hold : isIdentifier old = true)
    (hnew : isIdentifier new = true)
    (halias : ∀ i ∈ f.allImports, isIdentifier i.realAlias = true)
    (hfresh : (Node.file f).Fresh new) :
    ((f.rewrite (.ofAlias old new)).mentions.flatMap fun m =>
        (f.rewrite (.ofAlias old new)).allImports.filter m.refersTo) =
      (f.mentions.flatMap fun m => f.allImports.filter m.refersTo).map
        (Rewriting.ofAlias old new).entry := by
  rw [File.mentions_rewrite (Rewriting.isEmpty_package_ofAlias hold hnew), File.allImports_rewrite,
    List.flatMap_map, List.map_flatMap]
  apply List.flatMap_congr
  intro m hm
  rw [File.mentions_eq_parts] at hm
  obtain ⟨p, hp, hm⟩ := List.mem_flatMap.mp hm
  rw [List.filter_map]
  congr 1
  apply List.filter_congr
  intro i hi
  exact hfresh.refersTo_rewrite hold hnew hp hm (halias i hi)
    (hfresh.entry i (File.importDecl_mem_parts hi))

end Alias

/-- Renaming and fetching commute. After a renaming to a fresh alias, the file uses the
imports that it used before, in the same order, with the new alias on those that went by
the old one; an import that agrees with an earlier one in alias, path and comment is
dropped. -/
theorem Node.fetchImports_renameImports {f : File} {old new : String} {n : Node}
    (halias : ∀ i ∈ f.allImports, isIdentifier i.realAlias = true)
    (hold : isIdentifier old = true) (hnew : isIdentifier new = true)
    (hfresh : (Node.file f).Fresh new) (h : (Node.file f).renameImports old new = .ok n) :
    ∃ renamed found found', n = .file renamed ∧
      (Node.file f).fetchImports f = .ok found ∧
      (Node.file renamed).fetchImports renamed = .ok found' ∧
      found'.entries = (found.entries.map fun i =>
        if i.realAlias = old then { i with localName := new } else i).eraseDupsBy Import.same := by
  have hforeign : ¬ (Node.file f).HasForeign := by
    intro hf
    obtain ⟨kind, herror⟩ := renameImports_eq_error hold hnew hf
    rw [h] at herror
    cases herror
  have hforeign' : ¬ (Node.file (f.rewrite (.ofAlias old new))).HasForeign := by
    rintro ⟨kind, data, hmem⟩
    exact hforeign ⟨kind, data, foreign_mem_of_mem_rewrite _ hmem⟩
  have hn : n = .file (f.rewrite (.ofAlias old new)) := by
    rw [renameImports_eq_ok hold hnew hforeign] at h
    exact (Except.ok.inj h).symm
  refine ⟨_, _, _, hn, fetchImports_eq hforeign f, fetchImports_eq hforeign' _, ?_⟩
  simp only [Node.mentions]
  rw [File.referred_rewrite_ofAlias hold hnew halias hfresh,
    ImportSet.insertAll_map_entries Import.same_entry_ofAlias, ImportSet.entries_insertAll_empty]
  rfl

/-- A file that imports one path twice, with its alias written out and without. -/
def File.importingTwice : File where
  name := "f.go"
  package := "p"
  imports := [{ items := [{ path := "a/x" }, { localName := "x", path := "a/x" }] }]
  vars := [{ items := [{ name := "v", value := "x.A" }] }]

/-- Both imports are in use, and under a new alias they are the same. -/
theorem Node.fetchImports_renameImports_importingTwice :
    ∃ renamed found, (Node.file File.importingTwice).renameImports "x" "y" = .ok (.file renamed) ∧
      (Node.file renamed).fetchImports renamed = .ok found ∧
      found.entries = [{ localName := "y", path := "a/x" }] := by
  have hforeign : ¬ (Node.file File.importingTwice).HasForeign := by
    rintro ⟨kind, data, h⟩
    simp [File.importingTwice, Node.parts, File.parts, Group.parts, Import.parts, Var.parts] at h
  have hnew : isIdentifier "y" = true := by decide
  have hrename := renameImports_eq_ok (by decide : isIdentifier "x" = true) hnew hforeign
  have hfresh : (Node.file File.importingTwice).Fresh "y" := by
    constructor
    · intro t h
      simp [File.importingTwice, Node.parts, File.parts, Group.parts, Import.parts, Var.parts] at h
    · intro i h
      simp [File.importingTwice, Node.parts, File.parts, Group.parts, Import.parts, Var.parts] at h
      rcases h with rfl | rfl <;> decide
    · decide
  obtain ⟨renamed, found, found', hn, hfound, hfound', hentries⟩ :=
    fetchImports_renameImports (f := File.importingTwice) (by decide) (by decide) (by decide)
      hfresh hrename
  have hbefore : found.entries = [{ path := "a/x" }, { localName := "x", path := "a/x" }] := by
    obtain rfl := Except.ok.inj hfound
    decide
  refine ⟨renamed, found', hn ▸ hrename, hfound', ?_⟩
  rw [hentries, hbefore]
  decide

end GoSource
