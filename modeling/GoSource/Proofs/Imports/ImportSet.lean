import GoSource.Imports.ImportSet
import Mathlib.Data.List.Induction

/-!
# Sets of imports as lists without repetitions

Inserting imports one after another keeps the first of those that are the same.
Sameness is an equivalence, so it does not matter for a map that respects it
whether repetitions are dropped before the map as well as after it. What was
picked from a list can be picked again from the result, in the same order.
-/

namespace GoSource

namespace Import

theorem same_iff {i j : Import} :
    i.same j = true ↔ i.localName = j.localName ∧ i.path = j.path ∧ i.comment = j.comment := by
  simp [same, and_assoc]

theorem same_refl (i : Import) : i.same i = true := same_iff.mpr ⟨rfl, rfl, rfl⟩

theorem same_comm (i j : Import) : i.same j = j.same i := by
  rw [Bool.eq_iff_iff, same_iff, same_iff]
  simp only [eq_comm]

theorem same_trans {i j k : Import} (hij : i.same j = true) (hjk : j.same k = true) :
    i.same k = true := by
  rw [same_iff] at *
  exact ⟨hij.1.trans hjk.1, hij.2.1.trans hjk.2.1, hij.2.2.trans hjk.2.2⟩

/-- The same imports go by the same name. -/
theorem realAlias_eq_of_same {i j : Import} (h : i.same j = true) : i.realAlias = j.realAlias := by
  obtain ⟨hname, hpath, -⟩ := same_iff.mp h
  simp only [realAlias, hname, hpath]

end Import

namespace ImportSet

/-- A set is the list of its entries. -/
theorem eq_of_entries {s t : ImportSet} (h : s.entries = t.entries) : s = t := by
  cases s
  cases t
  cases h
  rfl

theorem contains_iff {s : ImportSet} {j : Import} :
    s.contains j = true ↔ ∃ i ∈ s.entries, i.same j = true := by
  simp [contains]

theorem insert_of_contains {s : ImportSet} {i : Import} (h : s.contains i = true) :
    s.insert i = s := by
  simp [insert, insert?, h]

theorem entries_insert_of_not_contains {s : ImportSet} {i : Import} (h : s.contains i = false) :
    (s.insert i).entries = s.entries ++ [i] := by
  simp [insert, insert?, h]

theorem contains_insert {s : ImportSet} {i j : Import} :
    (s.insert i).contains j = true ↔ s.contains j = true ∨ i.same j = true := by
  cases h : s.contains i with
  | false => simp only [contains_iff, entries_insert_of_not_contains h, List.mem_append,
      List.mem_singleton, or_and_right, exists_or, exists_eq_left]
  | true =>
    rw [insert_of_contains h]
    refine ⟨.inl, ?_⟩
    rintro (hj | hj)
    · exact hj
    · obtain ⟨k, hk, hki⟩ := contains_iff.mp h
      exact contains_iff.mpr ⟨k, hk, Import.same_trans hki hj⟩

theorem insertAll_cons (s : ImportSet) (i : Import) (is : List Import) :
    s.insertAll (i :: is) = (s.insert i).insertAll is := rfl

theorem insertAll_append (s : ImportSet) (is js : List Import) :
    s.insertAll (is ++ js) = (s.insertAll is).insertAll js := List.foldl_append

theorem contains_insertAll {s : ImportSet} {is : List Import} {j : Import} :
    (s.insertAll is).contains j = true ↔
      s.contains j = true ∨ ∃ i ∈ is, i.same j = true := by
  induction is generalizing s with
  | nil => simp [insertAll]
  | cons i is ih =>
    rw [insertAll_cons, ih, contains_insert]
    simp [or_assoc]

/-- Inserting adds some of the imports at the end, in their order. -/
theorem exists_entries_insertAll (s : ImportSet) (is : List Import) :
    ∃ new, (s.insertAll is).entries = s.entries ++ new ∧ new.Sublist is := by
  induction is generalizing s with
  | nil => exact ⟨[], by simp [insertAll], .slnil⟩
  | cons i is ih =>
    obtain ⟨new, hentries, hsub⟩ := ih (s.insert i)
    rw [insertAll_cons]
    cases h : s.contains i with
    | false =>
      rw [entries_insert_of_not_contains h, List.append_assoc] at hentries
      exact ⟨i :: new, hentries, hsub.cons_cons i⟩
    | true =>
      rw [insert_of_contains h] at hentries ⊢
      exact ⟨new, hentries, hsub.cons i⟩

theorem insertAll_of_contains {s : ImportSet} {is : List Import}
    (h : ∀ i ∈ is, s.contains i = true) : s.insertAll is = s := by
  induction is with
  | nil => rfl
  | cons i is ih =>
    rw [insertAll_cons, insert_of_contains (h i List.mem_cons_self)]
    exact ih fun j hj => h j (List.mem_cons_of_mem i hj)

/-- A set has nothing of what a larger set has beyond it. -/
theorem contains_eq_false_of_beyond {s t : ImportSet} {new : List Import}
    (h : t.entries = s.entries ++ new) {i : Import} (hi : i ∈ new) : s.contains i = false := by
  have hdistinct := t.distinct
  rw [h] at hdistinct
  by_contra hcontains
  obtain ⟨k, hk, hsame⟩ := contains_iff.mp (Bool.of_not_eq_false hcontains)
  rw [(List.pairwise_append.mp hdistinct).2.2 k hk i hi] at hsame
  cases hsame

/-- Inserting what a larger set has beyond this one gives the larger set. -/
theorem insertAll_beyond {s t : ImportSet} {new : List Import} (h : t.entries = s.entries ++ new) :
    s.insertAll new = t := by
  induction new generalizing s with
  | nil =>
    rw [List.append_nil] at h
    exact (eq_of_entries h).symm
  | cons i new ih =>
    have hnot := contains_eq_false_of_beyond h List.mem_cons_self
    apply ih (s := s.insert i)
    rw [entries_insert_of_not_contains hnot, List.append_assoc]
    exact h

/-- Inserting imports one after another drops those that repeat an earlier one. -/
theorem entries_insertAll_eq_loop (s : ImportSet) (is : List Import) :
    (s.insertAll is).entries = List.eraseDupsBy.loop Import.same is s.entries.reverse := by
  induction is generalizing s with
  | nil => simp [insertAll, List.eraseDupsBy.loop]
  | cons i is ih =>
    have hany : s.entries.reverse.any (Import.same i) = s.contains i := by
      rw [List.any_reverse, contains, funext (Import.same_comm i)]
    rw [insertAll_cons, ih, List.eraseDupsBy.loop, hany]
    cases h : s.contains i with
    | false => rw [entries_insert_of_not_contains h, List.reverse_append]; rfl
    | true => rw [insert_of_contains h]

theorem entries_insertAll_empty (is : List Import) :
    (({} : ImportSet).insertAll is).entries = is.eraseDupsBy Import.same :=
  entries_insertAll_eq_loop {} is

/-- For a map that respects sameness, repetitions may be dropped before it as well. -/
theorem insertAll_map_entries {f : Import → Import}
    (hf : ∀ i j, i.same j = true → (f i).same (f j) = true) (is : List Import) :
    ({} : ImportSet).insertAll (is.map f) =
      ({} : ImportSet).insertAll ((({} : ImportSet).insertAll is).entries.map f) := by
  induction is using List.reverseRecOn with
  | nil => rfl
  | append_singleton is i ih =>
    -- Either the last import repeats an earlier one, and so does its image, or it is new.
    rw [List.map_append, insertAll_append, insertAll_append, ih]
    change (ImportSet.insertAll _ _).insert (f i) =
      ({} : ImportSet).insertAll (((({} : ImportSet).insertAll is).insert i).entries.map f)
    cases h : (({} : ImportSet).insertAll is).contains i with
    | false =>
      rw [entries_insert_of_not_contains h, List.map_append, insertAll_append]
      rfl
    | true =>
      rw [insert_of_contains h]
      apply insert_of_contains
      obtain ⟨j, hj, hji⟩ := contains_iff.mp h
      exact contains_insertAll.mpr (.inr ⟨f j, List.mem_map_of_mem hj, hf j i hji⟩)

/-- Inserting imports one after another adds, of those that repeat no earlier one, the ones
that the set does not have. -/
theorem entries_insertAll (s : ImportSet) (is : List Import) :
    (s.insertAll is).entries =
      s.entries ++ (is.eraseDupsBy Import.same).filter fun i => !s.contains i := by
  rw [← entries_insertAll_empty]
  induction is using List.reverseRecOn with
  | nil => simp [insertAll]
  | append_singleton is i ih =>
    rw [insertAll_append, insertAll_append]
    change ((s.insertAll is).insert i).entries =
      s.entries ++ ((({} : ImportSet).insertAll is).insert i).entries.filter _
    cases hempty : (({} : ImportSet).insertAll is).contains i with
    | true =>
      have hcontains : (s.insertAll is).contains i = true := by
        rcases contains_insertAll.mp hempty with h | h
        · cases h
        · exact contains_insertAll.mpr (.inr h)
      rw [insert_of_contains hempty, insert_of_contains hcontains, ih]
    | false =>
      have hcontains : (s.insertAll is).contains i = s.contains i := by
        rw [Bool.eq_iff_iff, contains_insertAll]
        refine ⟨fun h => h.resolve_right fun hrepeats => ?_, .inl⟩
        rw [contains_insertAll.mpr (.inr hrepeats)] at hempty
        cases hempty
      rw [entries_insert_of_not_contains hempty, List.filter_append]
      cases hs : s.contains i with
      | true => simp [insert_of_contains (hcontains.trans hs), ih, hs]
      | false => simp [entries_insert_of_not_contains (hcontains.trans hs), ih, hs]

section Again

variable {t : ImportSet} {is : List Import}

/-- Picking from a set that keeps all that was picked from a list adds what was added then. -/
theorem insertAll_filter_again {s : ImportSet} {p : Import → Bool} (hsub : t.entries ⊆ is)
    (hkept : (s.insertAll (is.filter p)).entries <+: t.entries) :
    s.insertAll (t.entries.filter p) = s.insertAll (is.filter p) := by
  obtain ⟨new, hnew, hpicked⟩ := exists_entries_insertAll s (is.filter p)
  obtain ⟨rest, hrest⟩ := hkept
  have hlater : rest.filter p = [] := by
    -- Whatever is picked from the rest was picked before, and would then be in the set twice.
    rw [List.filter_eq_nil_iff]
    intro i hi hp
    have hmem : i ∈ is := hsub (by rw [← hrest]; exact List.mem_append_right _ hi)
    have hcontains : (s.insertAll (is.filter p)).contains i = true :=
      contains_insertAll.mpr (.inr ⟨i, List.mem_filter.mpr ⟨hmem, hp⟩, i.same_refl⟩)
    rw [contains_eq_false_of_beyond hrest.symm hi] at hcontains
    cases hcontains
  have hall : new.filter p = new :=
    List.filter_eq_self.mpr fun i hi => (List.mem_filter.mp (hpicked.subset hi)).2
  have hold : s.insertAll (s.entries.filter p) = s := by
    apply insertAll_of_contains
    intro i hi
    exact contains_iff.mpr ⟨i, (List.mem_filter.mp hi).1, i.same_refl⟩
  calc s.insertAll (t.entries.filter p)
      = s.insertAll (s.entries.filter p ++ new) := by
        rw [← hrest, hnew, List.filter_append, List.filter_append, hlater, hall, List.append_nil]
    _ = s.insertAll new := by rw [insertAll_append, hold]
    _ = s.insertAll (is.filter p) := insertAll_beyond hnew

/-- The same for picking time after time: the order of what is picked stays as it was. -/
theorem insertAll_flatMap_filter_again {α : Type} {p : α → Import → Bool} {ms : List α}
    {s : ImportSet} (hsub : t.entries ⊆ is)
    (hkept : (s.insertAll (ms.flatMap fun m => is.filter (p m))).entries <+: t.entries) :
    s.insertAll (ms.flatMap fun m => t.entries.filter (p m)) =
      s.insertAll (ms.flatMap fun m => is.filter (p m)) := by
  induction ms generalizing s with
  | nil => rfl
  | cons m ms ih =>
    simp only [List.flatMap_cons, insertAll_append] at hkept ⊢
    have hfirst : (s.insertAll (is.filter (p m))).entries <+: t.entries := by
      obtain ⟨new, hnew, -⟩ := exists_entries_insertAll (s.insertAll (is.filter (p m)))
        (ms.flatMap fun m => is.filter (p m))
      rw [hnew] at hkept
      exact (List.prefix_append _ _).trans hkept
    rw [insertAll_filter_again hsub hfirst]
    exact ih hkept

end Again

end ImportSet

end GoSource
