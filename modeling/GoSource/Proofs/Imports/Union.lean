import GoSource.Proofs.Imports.Fetched

/-!
# Collecting into a set that holds something

Collecting adds to a set what a separate fetch would return, as far as the set does not have it
under other annotations already. The set is one of insertions, so collecting for several nodes
one after another gives what they fetch separately, joined, without repetitions. What a
collection leaves behind that a foreign type has stopped is described elsewhere.
-/

namespace GoSource

namespace ImportSet

/-- An insertion into a set that was built by insertions adds the import at the end, unless it
is the same as one that was given before, whether that one was added or not. -/
theorem insert?_insertAll (before : List Import) (i : Import) :
    ((({} : ImportSet).insertAll before).insert? i).map entries =
      if before.any (·.same i) then none
      else some ((({} : ImportSet).insertAll before).entries ++ [i]) := by
  have hcontains : (({} : ImportSet).insertAll before).contains i = before.any (·.same i) := by
    rw [Bool.eq_iff_iff, contains_insertAll, List.any_eq_true]
    exact or_iff_right (by simp [contains])
  rw [← hcontains, insert?]
  split <;> simp_all

/-- The entries of a set hold no repetition. -/
theorem eraseDupsBy_entries (s : ImportSet) : s.entries.eraseDupsBy Import.same = s.entries := by
  rw [← entries_insertAll_empty, insertAll_beyond (t := s) rfl]

/-- Repetitions may be dropped before an insertion. -/
theorem insertAll_entries (s : ImportSet) (is : List Import) :
    s.insertAll (({} : ImportSet).insertAll is).entries = s.insertAll is := by
  apply eq_of_entries
  rw [entries_insertAll s, entries_insertAll s is, eraseDupsBy_entries, entries_insertAll_empty]

end ImportSet

namespace Node

/-- Collects the imports for several nodes, one after another, up to the first fault. -/
def collectEach (f : File) : List Node → ImportSet → ImportSet × Option Fault
  | [], found => (found, none)
  | n :: ns, found =>
    match n.collectImports f found with
    | (found, none) => collectEach f ns found
    | (found, some fault) => (found, some fault)

section Collected

variable {f : File} {s t : ImportSet}

/-- A collection that succeeds inserts what a fetch returns. -/
theorem eq_of_collectImports {n : Node} (h : n.collectImports f s = (t, none)) :
    ∃ fetched, n.fetchImports f = .ok fetched ∧ t = s.insertAll fetched.entries := by
  have hfree : ∀ kind, .foreign kind ∉ n.mentions := by
    rw [← Mention.firstFault?_eq_none_iff, ← collect_snd f.allImports n.mentions s]
    exact congrArg Prod.snd h
  have hforeign : ¬ n.HasForeign := by
    intro hforeign
    obtain ⟨kind, hk⟩ := n.hasForeign_iff.mp hforeign
    exact hfree kind hk
  refine ⟨_, fetchImports_eq hforeign f, ?_⟩
  rw [collectImports, collect_eq hfree] at h
  rw [ImportSet.insertAll_entries, ← (Prod.mk.inj h).1]

/-- The same for several nodes: each finds in the set what those before it have added. -/
theorem eq_of_collectEach {ns : List Node} (h : collectEach f ns s = (t, none)) :
    ∃ fetched, ns.mapM (fun n => n.fetchImports f) = .ok fetched ∧
      t = s.insertAll (fetched.flatMap ImportSet.entries) := by
  induction ns generalizing s with
  | nil =>
    obtain ⟨rfl, -⟩ := Prod.mk.inj h
    exact ⟨[], rfl, rfl⟩
  | cons n ns ih =>
    rw [collectEach] at h
    split at h
    · rename_i found hfound
      obtain ⟨first, hfirst, rfl⟩ := eq_of_collectImports hfound
      obtain ⟨rest, hrest, rfl⟩ := ih h
      refine ⟨first :: rest, ?_, ?_⟩
      · rw [List.mapM_cons, hfirst, hrest]
        rfl
      · rw [List.flatMap_cons, ImportSet.insertAll_append]
    · cases h

end Collected

/-- Collecting is a union. A set is built by insertions, each of which adds its import exactly if
none given before is the same. Collecting for a node keeps the entries of the set and adds,
in their order, those that a fetch for the node returns and the set has not. Collecting for
several nodes drops the repetitions from what was inserted and what they fetch separately. -/
theorem collectImports_union (inserted : List Import) (f : File) :
    let s := ({} : ImportSet).insertAll inserted
    (∀ before i after, inserted = before ++ i :: after →
      ((({} : ImportSet).insertAll before).insert? i).map ImportSet.entries =
        if before.any (·.same i) then none
        else some ((({} : ImportSet).insertAll before).entries ++ [i])) ∧
    s.entries = inserted.eraseDupsBy Import.same ∧
    (s.entries.Pairwise fun i j =>
      ¬ (i.localName = j.localName ∧ i.path = j.path ∧ i.comment = j.comment)) ∧
    (∀ n : Node, ∀ t, n.collectImports f s = (t, none) →
      ∃ fetched, n.fetchImports f = .ok fetched ∧
        t.entries = s.entries ++ fetched.entries.filter fun i => !s.contains i) ∧
    ∀ ns t, collectEach f ns s = (t, none) →
      ∃ fetched, ns.mapM (fun n => n.fetchImports f) = .ok fetched ∧
        t.entries = (inserted ++ fetched.flatMap ImportSet.entries).eraseDupsBy Import.same := by
  intro s
  refine ⟨fun before i _ _ => ImportSet.insert?_insertAll before i,
    ImportSet.entries_insertAll_empty inserted, ?_, ?_, ?_⟩
  · apply s.distinct.imp
    intro i j hdiffer hagree
    rw [Import.same_iff.mpr hagree] at hdiffer
    cases hdiffer
  · intro n t h
    obtain ⟨fetched, hfetched, rfl⟩ := eq_of_collectImports h
    refine ⟨fetched, hfetched, ?_⟩
    rw [ImportSet.entries_insertAll, ImportSet.eraseDupsBy_entries]
  · intro ns t h
    obtain ⟨fetched, hfetched, rfl⟩ := eq_of_collectEach h
    refine ⟨fetched, hfetched, ?_⟩
    rw [← ImportSet.insertAll_append, ImportSet.entries_insertAll_empty]

/-- One of the two imports that the method uses is in the set already, with an annotation. -/
theorem collectImports_union_importingMore :
    let inserted : List Import :=
      [{ path := "a/x", annotations := [⟨"tag", .number 7, none⟩] }, { path := "d" },
        { path := "a/x" }]
    let s := ({} : ImportSet).insertAll inserted
    let ns : List Node := [.file File.importingMore, .var { name := "v", value := "w.A + x.B" }]
    ((Node.file File.importingMore).collectImports File.importingMore s).1.entries =
      [{ path := "a/x", annotations := [⟨"tag", .number 7, none⟩] }, { path := "d" },
        { localName := "z", path := "b/y" }] ∧
    (collectEach File.importingMore ns s).1.entries =
      [{ path := "a/x", annotations := [⟨"tag", .number 7, none⟩] }, { path := "d" },
        { localName := "z", path := "b/y" }, { path := "c/w" }] := by
  intro inserted s ns
  have hok : ((Node.file File.importingMore).collectImports File.importingMore s).2 = none := by
    decide +kernel
  have hoks : (collectEach File.importingMore ns s).2 = none := by decide +kernel
  have hvalue : ((Node.file File.importingMore).fetchImports File.importingMore).map
      ImportSet.entries = Except.ok [{ localName := "z", path := "b/y" }, { path := "a/x" }] := by
    decide +kernel
  have hvalues : (ns.mapM fun n : Node => n.fetchImports File.importingMore).map
      (List.flatMap ImportSet.entries) = Except.ok [{ localName := "z", path := "b/y" },
        { path := "a/x" }, { path := "a/x" }, { path := "c/w" }] := by
    decide +kernel
  obtain ⟨-, -, -, hone, hseveral⟩ := collectImports_union inserted File.importingMore
  obtain ⟨fetched, hfetched, hentries⟩ := hone (.file File.importingMore)
    ((Node.file File.importingMore).collectImports File.importingMore s).1 (Prod.ext rfl hok)
  obtain ⟨fetches, hfetches, hall⟩ :=
    hseveral ns (collectEach File.importingMore ns s).1 (Prod.ext rfl hoks)
  rw [hfetched] at hvalue
  rw [hfetches] at hvalues
  rw [hentries, hall, Except.ok.inj hvalue, Except.ok.inj hvalues]
  decide +kernel

end Node

end GoSource
