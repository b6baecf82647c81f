import GoSource.Proofs.Imports.QualifierUse
import Mathlib.Data.List.Basic

/-!
# Places where a name is used

A use of a name as a qualifier is a place of the text, told by the characters around it and
without any search. Searching finds a use exactly if there is one, for every name and not
only for identifiers, and rewriting then changes the text. For identifiers uses never
overlap, so rewriting from left to right edits every use at once and leaves the rest, and the
identifiers that a text refers to follow the rewriting. Which of the overlapping uses of
another name are rewritten is not described.
-/

namespace GoSource.Qualifier

/-- `name` stands as a qualifier at place `i`: at the start of the text or after a boundary
character, with nothing but blanks between it and a point. -/
def UsedAt (name cs : List Char) (i : Nat) : Prop :=
  ∃ before blanks after, cs = before ++ (name ++ (blanks ++ '.' :: after)) ∧ before.length = i ∧
    (∀ c ∈ before.getLast?, isBoundary c = true) ∧ ∀ c ∈ blanks, Text.isBlank c = true

section Places

theorem isSome_pointAfterBlanks?_iff {cs : List Char} :
    (pointAfterBlanks? cs).isSome = true ↔
      ∃ blanks after, cs = blanks ++ '.' :: after ∧ ∀ c ∈ blanks, Text.isBlank c = true := by
  constructor
  · intro h
    induction cs with
    | nil => cases h
    | cons c cs ih =>
      rw [pointAfterBlanks?] at h
      split at h
      · rename_i hc
        exact ⟨[], cs, by simp [hc], by simp⟩
      · split at h
        · rename_i hblank
          obtain ⟨blanks, after, rfl, hblanks⟩ := ih (by simpa using h)
          exact ⟨c :: blanks, after, rfl, by simpa using ⟨hblank, hblanks⟩⟩
        · cases h
  · rintro ⟨blanks, after, rfl, hblanks⟩
    induction blanks with
    | nil => simp [pointAfterBlanks?]
    | cons c blanks ih =>
      simp only [List.forall_mem_cons] at hblanks
      have hrest := ih hblanks.2
      rw [List.cons_append, pointAfterBlanks?]
      split
      · rfl
      · simpa [hblanks.1] using hrest

theorem isSome_useAt?_iff {name cs : List Char} :
    (useAt? name cs).isSome = true ↔
      ∃ rest, cs = name ++ rest ∧ (pointAfterBlanks? rest).isSome = true := by
  simp only [Option.isSome_iff_exists, useAt?_eq_some_iff]
  constructor
  · rintro ⟨n, rest, h, hn⟩
    exact ⟨rest, h, n, hn⟩
  · rintro ⟨rest, h, n, hn⟩
    exact ⟨n, rest, h, hn⟩

theorem usedAt_iff_exists_append {name cs : List Char} {i : Nat} :
    UsedAt name cs i ↔ ∃ before rest, cs = before ++ rest ∧ before.length = i ∧
      (∀ c ∈ before.getLast?, isBoundary c = true) ∧ (useAt? name rest).isSome = true := by
  simp only [isSome_useAt?_iff, isSome_pointAfterBlanks?_iff]
  constructor
  · rintro ⟨before, blanks, after, heq, hlength, hboundary, hblanks⟩
    exact ⟨before, _, heq, hlength, hboundary, _, rfl, blanks, after, rfl, hblanks⟩
  · rintro ⟨before, _, heq, hlength, hboundary, _, rfl, blanks, after, rfl, hblanks⟩
    exact ⟨before, blanks, after, heq, hlength, hboundary, hblanks⟩

theorem usedAt_append_iff {name before rest : List Char} :
    UsedAt name (before ++ rest) before.length ↔
      (∀ c ∈ before.getLast?, isBoundary c = true) ∧ (useAt? name rest).isSome = true := by
  rw [usedAt_iff_exists_append]
  constructor
  · rintro ⟨left, right, heq, hlength, huse⟩
    obtain ⟨rfl, rfl⟩ := List.append_inj heq hlength.symm
    exact huse
  · intro huse
    exact ⟨before, rest, rfl, rfl, huse⟩

theorem usedAt_iff {name cs : List Char} {i : Nat} :
    UsedAt name cs i ↔
      ((cs.take i).getLast?.all isBoundary && (useAt? name (cs.drop i)).isSome) = true := by
  rcases Nat.lt_or_ge cs.length i with hi | hi
  · have hdrop : (useAt? name (cs.drop i)).isSome = false := by
      simp [List.drop_eq_nil_of_le (Nat.le_of_lt hi), useAt?, pointAfterBlanks?]
    simp only [hdrop, Bool.and_false, Bool.false_eq_true, iff_false]
    rintro ⟨before, blanks, after, rfl, rfl, -⟩
    simp only [List.length_append] at hi
    omega
  · have happend := @usedAt_append_iff name (cs.take i) (cs.drop i)
    rw [List.take_append_drop, List.length_take_of_le hi] at happend
    simpa [Option.all_eq_true] using happend

instance (name cs : List Char) (i : Nat) : Decidable (UsedAt name cs i) :=
  decidable_of_iff _ usedAt_iff.symm

/-- No use starts right after a part of a name. -/
theorem not_usedAt_of_isNamePart {name cs : List Char} {i : Nat} {c : Char}
    (hc : cs[i]? = some c) (hpart : isNamePart c = true) : ¬ UsedAt name cs (i + 1) := by
  rintro ⟨before, blanks, after, rfl, hlength, hboundary, -⟩
  rw [List.getElem?_append_left (by omega)] at hc
  rw [List.getLast?_eq_getElem?, hlength] at hboundary
  have hb := hboundary c hc
  rw [isBoundary_eq_false_of_isNamePart hpart] at hb
  cases hb

/-- What follows a name is not at a boundary. -/
theorem not_isBoundary_getLast?_append {name : List Char} (hname : IsName name)
    (before : List Char) : ¬ ∀ c ∈ (before ++ name).getLast?, isBoundary c = true := by
  have hne : name ≠ [] := by
    rintro rfl
    exact hname
  have hlast : (before ++ name).getLast? = some (name.getLast hne) := by
    rw [List.getLast?_append, List.getLast?_eq_some_getLast hne, Option.some_or]
  have hpart := hname.isNamePart (List.getLast_mem hne)
  intro h
  have hboundary := h _ hlast
  rw [isBoundary_eq_false_of_isNamePart hpart] at hboundary
  cases hboundary

/-- No use starts inside a word or right after it. -/
theorem not_usedAt_word {name before w tail : List Char} (hw : ∀ c ∈ w, isNamePart c = true)
    {i : Nat} (hlo : before.length < i) (hhi : i ≤ before.length + w.length) :
    ¬ UsedAt name (before ++ (w ++ tail)) i := by
  obtain ⟨k, rfl⟩ := Nat.exists_eq_add_of_lt hlo
  have hk : k < w.length := by omega
  refine not_usedAt_of_isNamePart (c := w[k]) ?_ (hw _ (List.getElem_mem hk))
  rw [List.getElem?_append_right (by omega), Nat.add_sub_cancel_left,
    List.getElem?_append_left hk, List.getElem?_eq_getElem hk]

/-- Two uses of an identifier do not overlap, and do not even touch. -/
theorem UsedAt.apart {name cs : List Char} (hname : IsName name) {i j : Nat}
    (hi : UsedAt name cs i) (hj : UsedAt name cs j) (hlt : i < j) : i + name.length < j := by
  obtain ⟨before, blanks, after, rfl, rfl, -⟩ := hi
  by_contra hle
  exact not_usedAt_word (fun _ hc => hname.isNamePart hc) hlt (by omega) hj

end Places

section Edits

/-- The character at place `j` belongs to a use of `name`. -/
def Covered (name cs : List Char) (j : Nat) : Prop :=
  ∃ i ≤ j, j < i + name.length ∧ UsedAt name cs i

instance (name cs : List Char) (j : Nat) : Decidable (Covered name cs j) :=
  inferInstanceAs (Decidable (∃ i ≤ j, j < i + name.length ∧ UsedAt name cs i))

/-- What a character at its place becomes: `new` takes the place of every use of `old`, and
characters outside the uses are kept. -/
def edit (old new cs : List Char) (place : Char × Nat) : List Char :=
  (if UsedAt old cs place.2 then new else []) ++
    if Covered old cs place.2 then [] else [place.1]

/-- The text with `new` for every use of `old`, all at once. -/
def replaceUses (old new cs : List Char) : List Char := cs.zipIdx.flatMap (edit old new cs)

/-- No use of `name` reaches over the place `k`. -/
def ClearAt (name cs : List Char) (k : Nat) : Prop :=
  ∀ i < k, UsedAt name cs i → i + name.length ≤ k

variable {old cs : List Char} {k : Nat} (new : List Char)

/-- A stretch in which no use starts is kept. -/
theorem flatMap_edit_unused {w : List Char} (hclear : ClearAt old cs k)
    (hw : ∀ i, k ≤ i → i < k + w.length → ¬ UsedAt old cs i) :
    (w.zipIdx k).flatMap (edit old new cs) = w ∧ ClearAt old cs (k + w.length) := by
  constructor
  · have hkept : ∀ place ∈ w.zipIdx k, edit old new cs place = [place.1] := by
      rintro ⟨c, j⟩ hj
      obtain ⟨hle, hlt, -⟩ := List.mem_zipIdx hj
      have hcovered : ¬ Covered old cs j := by
        rintro ⟨i, hi, hcover, hused⟩
        rcases Nat.lt_or_ge i k with hik | hik
        · have := hclear i hik hused
          omega
        · exact hw i hik (by omega) hused
      simp [edit, hw j hle hlt, hcovered]
    rw [List.flatMap_congr hkept, ← List.map_eq_flatMap, List.zipIdx_map_fst]
  · intro i hi hused
    rcases Nat.lt_or_ge i k with hik | hik
    · have := hclear i hik hused
      omega
    · exact absurd hused (hw i hik hi)

/-- A use is replaced as a whole. -/
theorem flatMap_edit_use (hold : IsName old) (hclear : ClearAt old cs k)
    (hused : UsedAt old cs k) :
    (old.zipIdx k).flatMap (edit old new cs) = new ∧ ClearAt old cs (k + old.length) := by
  have hfree : ∀ j, k < j → j < k + old.length → ¬ UsedAt old cs j := by
    intro j hlo hhi h
    have hapart := hused.apart hold h hlo
    omega
  have hcovered : ∀ j, k ≤ j → j < k + old.length → Covered old cs j :=
    fun j hle hlt => ⟨k, hle, hlt, hused⟩
  constructor
  · cases old with
    | nil => cases hold
    | cons c w =>
      simp only [List.length_cons] at hfree hcovered
      have hrest : (w.zipIdx (k + 1)).flatMap (edit (c :: w) new cs) = [] := by
        rw [List.flatMap_eq_nil_iff]
        rintro ⟨d, j⟩ hj
        obtain ⟨hle, hlt, -⟩ := List.mem_zipIdx hj
        simp [edit, hfree j (by omega) (by omega), hcovered j (by omega) (by omega)]
      rw [List.zipIdx_cons, List.flatMap_cons, hrest]
      simp [edit, hused, hcovered k (by omega) (by omega)]
  · intro i hi h
    rcases Nat.lt_trichotomy i k with hik | rfl | hik
    · have := hclear i hik h
      omega
    · omega
    · exact absurd h (hfree i hik hi)

/-- A name that stands as a qualifier is replaced if it is `old`, and kept otherwise: no use
of another name starts inside it. -/
theorem flatMap_edit_name {name before tail : List Char} (hold : IsName old) (hname : IsName name)
    (hpoint : (pointAfterBlanks? tail).isSome = true)
    (hboundary : ∀ c ∈ before.getLast?, isBoundary c = true)
    (hclear : ClearAt old (before ++ (name ++ tail)) before.length) :
    (name.zipIdx before.length).flatMap (edit old new (before ++ (name ++ tail))) =
        replaceName old new name ∧
      ClearAt old (before ++ (name ++ tail)) (before.length + name.length) := by
  have hstart : UsedAt old (before ++ (name ++ tail)) before.length ↔ old = name := by
    rw [usedAt_append_iff, isSome_useAt?_append_iff hold hname hpoint]
    exact and_iff_right hboundary
  by_cases heq : old = name
  · subst heq
    rw [replaceName, if_pos rfl]
    exact flatMap_edit_use new hold hclear (hstart.mpr rfl)
  · rw [replaceName, if_neg (Ne.symm heq)]
    refine flatMap_edit_unused new hclear fun i hle hlt => ?_
    rcases Nat.eq_or_lt_of_le hle with rfl | hlo
    · exact mt hstart.mp heq
    · exact not_usedAt_word (fun _ hc => hname.isNamePart hc) hlo (Nat.le_of_lt hlt)

/-- A character at which no qualifier starts is kept. -/
theorem flatMap_edit_char {b : Bool} {c : Char} {before tail : List Char} (hold : IsName old)
    (hb : b = true ↔ ∀ c ∈ before.getLast?, isBoundary c = true)
    (hstarts : b = true → startsUse (c :: tail) = false)
    (hclear : ClearAt old (before ++ c :: tail) before.length) :
    edit old new (before ++ c :: tail) (c, before.length) = [c] ∧
      ClearAt old (before ++ c :: tail) (before.length + 1) := by
  have hfree : ¬ UsedAt old (before ++ c :: tail) before.length := by
    rw [usedAt_append_iff, ← hb]
    rintro ⟨hbounded, huse⟩
    rw [startsUse_of_useAt? hold huse] at hstarts
    cases hstarts hbounded
  have hedit : ([c].zipIdx before.length).flatMap (edit old new (before ++ c :: tail)) = [c] ∧
      ClearAt old (before ++ c :: tail) (before.length + 1) := by
    refine flatMap_edit_unused new hclear fun i hle hlt => ?_
    obtain rfl : before.length = i := Nat.le_antisymm hle (Nat.le_of_lt_succ hlt)
    exact hfree
  simpa using hedit

/-- Cutting a text into pieces and changing the names among them edits every use. -/
theorem respell_eq_flatMap_edit (hold : IsName old) (before rest : List Char) {b : Bool}
    (hb : b = true ↔ ∀ c ∈ before.getLast?, isBoundary c = true)
    (hclear : ClearAt old (before ++ rest) before.length) :
    respell (replaceName old new) b rest =
      (rest.zipIdx before.length).flatMap (edit old new (before ++ rest)) := by
  -- The pieces of `rest` are passed one by one, and no use reaches over the place so reached.
  fun_induction pieces b rest generalizing before with
  | case1 b => simp [respell]
  | case2 b c cs h ih =>
    obtain ⟨rfl, hstarts⟩ := Bool.and_eq_true_iff.mp h
    obtain ⟨hname, hpoint⟩ := isName_of_startsUse hstarts
    have hsplit : c :: cs = (c :: cs.takeWhile isNamePart) ++ cs.dropWhile isNamePart := by
      rw [List.cons_append, List.takeWhile_append_dropWhile]
    rw [hsplit] at hclear ⊢
    generalize c :: cs.takeWhile isNamePart = name at hname hclear ⊢
    generalize cs.dropWhile isNamePart = tail at hpoint ih hclear ⊢
    obtain ⟨hedit, hnext⟩ := flatMap_edit_name new hold hname hpoint (hb.mp rfl) hclear
    have htail := ih (before ++ name)
      (iff_of_false Bool.false_ne_true (not_isBoundary_getLast?_append hname before))
      (by simpa using hnext)
    rw [List.append_assoc, List.length_append] at htail
    rw [respell_name_append _ hname hpoint, List.zipIdx_append, List.flatMap_append, hedit, htail]
  | case3 b c cs h ih =>
    have hstarts : b = true → startsUse (c :: cs) = false := by simpa using h
    obtain ⟨hedit, hnext⟩ := flatMap_edit_char new hold hb hstarts hclear
    have hrest := ih (before ++ [c]) (by simp) (by simpa using hnext)
    rw [List.append_assoc, List.length_append] at hrest
    rw [respell_char _ hstarts, hrest, List.zipIdx_cons, List.flatMap_cons, hedit]
    rfl

theorem substituteChars_eq_replaceUses (hold : IsName old) (cs : List Char) :
    substituteChars old new cs = replaceUses old new cs := by
  rw [substituteChars_eq_respell hold]
  exact respell_eq_flatMap_edit new hold [] cs (by simp) fun _ hi => nomatch hi

/-- Rewriting an identifier puts `new`, as it is, for every use at once and keeps every other
character; the uses are pairwise apart, so that none stands in another's way. -/
theorem substitute_eq_replaceUses {old : String} (hold : isIdentifier old = true)
    (new text : String) :
    (substitute text old new).toList = replaceUses old.toList new.toList text.toList ∧
      ∀ i j, UsedAt old.toList text.toList i → UsedAt old.toList text.toList j → i < j →
        i + old.length < j := by
  have hname := isName_iff.mp hold
  constructor
  · rw [substitute, String.toList_ofList, substituteChars_eq_replaceUses _ hname]
  · intro i j hi hj hlt
    exact hi.apart hname hj hlt

theorem substitute_eq_replaceUses_among_lookalikes :
    isIdentifier "a" = true ∧
      (substitute "a.a+a \n.b/a.a.c,ba.c" "a" "$1").toList =
        replaceUses "a".toList "$1".toList "a.a+a \n.b/a.a.c,ba.c".toList ∧
      replaceUses "a".toList "$1".toList "a.a+a \n.b/a.a.c,ba.c".toList =
        "$1.a+$1 \n.b/$1.a.c,ba.c".toList :=
  ⟨by decide, (substitute_eq_replaceUses (by decide) "$1" _).1, by decide +kernel⟩

end Edits

section Search

theorem usedInside_iff_exists_append {name cs : List Char} :
    usedInside name cs = true ↔ ∃ before rest, cs = before ++ rest ∧ before ≠ [] ∧
      (∀ c ∈ before.getLast?, isBoundary c = true) ∧ (useAt? name rest).isSome = true := by
  induction cs with
  | nil => simp [usedInside]
  | cons c cs ih =>
    rw [usedInside, Bool.or_eq_true, Bool.and_eq_true, ih]
    constructor
    · rintro (⟨hc, huse⟩ | ⟨before, rest, rfl, hne, hboundary, huse⟩)
      · exact ⟨[c], cs, rfl, by simp, by simpa using hc, huse⟩
      · refine ⟨c :: before, rest, rfl, by simp, ?_, huse⟩
        rwa [List.getLast?_cons_of_ne_nil hne]
    · rintro ⟨before, rest, heq, hne, hboundary, huse⟩
      cases before with
      | nil => exact absurd rfl hne
      | cons d before =>
        obtain ⟨rfl, rfl⟩ := List.cons.inj heq
        cases before with
        | nil => exact .inl ⟨hboundary c rfl, huse⟩
        | cons e before => exact .inr ⟨e :: before, rest, rfl, by simp, hboundary, huse⟩

/-- Searching for a name finds a use exactly if there is one. -/
theorem exists_usedAt_iff {name cs : List Char} :
    (∃ i, UsedAt name cs i) ↔ (useAt? name cs).isSome = true ∨ usedInside name cs = true := by
  constructor
  · rintro ⟨i, h⟩
    obtain ⟨before, rest, rfl, -, huse⟩ := usedAt_iff_exists_append.mp h
    cases before with
    | nil => exact .inl huse.2
    | cons c before => exact .inr (usedInside_iff_exists_append.mpr ⟨_, _, rfl, by simp, huse⟩)
  · rintro (huse | hinside)
    · exact ⟨0, (@usedAt_append_iff name [] cs).mpr ⟨by simp, huse⟩⟩
    · obtain ⟨before, rest, rfl, -, huse⟩ := usedInside_iff_exists_append.mp hinside
      exact ⟨before.length, usedAt_append_iff.mpr huse⟩

end Search

section Swaps

/-- `ds` is `cs` with `new` in `n` places where `old` stood. -/
inductive Swaps (old new : List Char) : Nat → List Char → List Char → Prop
  | nil : Swaps old new 0 [] []
  | keep {n : Nat} {cs ds : List Char} (c : Char) :
      Swaps old new n cs ds → Swaps old new n (c :: cs) (c :: ds)
  | swap {n : Nat} {cs ds : List Char} :
      Swaps old new n cs ds → Swaps old new (n + 1) (old ++ cs) (new ++ ds)

variable {old new cs ds : List Char} {n : Nat}

theorem Swaps.append_left (h : Swaps old new n cs ds) (w : List Char) :
    Swaps old new n (w ++ cs) (w ++ ds) := by
  induction w with
  | nil => exact h
  | cons c w ih => exact ih.keep c

/-- A swap and the characters up to the point after it. -/
theorem Swaps.use {tail : List Char} {k : Nat} (h : Swaps old new n (tail.drop k) ds) :
    Swaps old new (n + 1) (old ++ tail) (new ++ (tail.take k ++ ds)) := by
  have htail := h.append_left (tail.take k)
  rw [List.take_append_drop] at htail
  exact htail.swap

theorem Swaps.length_eq (h : Swaps old new n cs ds) :
    ds.length + n * old.length = cs.length + n * new.length := by
  induction h with
  | nil => simp
  | keep c h ih =>
    simp only [List.length_cons]
    omega
  | swap h ih =>
    simp only [List.length_append, Nat.succ_mul]
    omega

/-- Swapping different texts is seen: in the length of the whole, or else at the first place
where it is done. -/
theorem Swaps.eq_iff (h : Swaps old new n cs ds) (hne : old ≠ new) : cs = ds ↔ n = 0 := by
  constructor
  · intro heq
    induction h with
    | nil => rfl
    | keep c h ih => exact ih (List.cons.inj heq).2
    | @swap n cs ds h ih =>
      -- The texts have one length as a whole, so `old` and `new` have one, and start them.
      have hlength := h.swap.length_eq
      rw [heq, Nat.add_left_cancel_iff] at hlength
      exact absurd (List.append_inj heq (Nat.eq_of_mul_eq_mul_left n.succ_pos hlength)).1 hne
  · intro hzero
    induction h with
    | nil => rfl
    | keep c h ih => rw [ih hzero]
    | swap h ih => cases hzero

theorem swaps_substituteInside (old new cs : List Char) :
    ∃ n, Swaps old new n cs (substituteInside old new cs) ∧
      (n ≠ 0 ↔ usedInside old cs = true) := by
  fun_induction substituteInside old new cs with
  | case1 => exact ⟨0, .nil, by simp [usedInside]⟩
  | case2 c cs k h rest ih =>
    obtain ⟨n, hswaps, -⟩ := ih
    cases hb : isBoundary c with
    | false => simp [hb] at h
    | true =>
      have huse : useAt? old cs = some k := by simpa [hb] using h
      refine ⟨n + 1, ?_, by simp [usedInside, hb, huse]⟩
      obtain ⟨tail, rfl, -⟩ := useAt?_eq_some_iff.mp huse
      simpa [rest] using hswaps.use.keep c
  | case3 c cs h ih =>
    obtain ⟨n, hswaps, hn⟩ := ih
    refine ⟨n, hswaps.keep c, ?_⟩
    have hhead : (isBoundary c && (useAt? old cs).isSome) = false := by
      cases hb : isBoundary c <;> simp_all
    rw [hn, usedInside, hhead, Bool.false_or]

theorem swaps_substituteChars (old new cs : List Char) :
    ∃ n, Swaps old new n cs (substituteChars old new cs) ∧ (n ≠ 0 ↔ ∃ i, UsedAt old cs i) := by
  rw [exists_usedAt_iff]
  unfold substituteChars
  split
  · rename_i k h
    obtain ⟨tail, rfl, -⟩ := useAt?_eq_some_iff.mp h
    obtain ⟨n, hswaps, -⟩ := swaps_substituteInside old new (tail.drop k)
    refine ⟨n + 1, ?_, by simp [h]⟩
    simpa using hswaps.use
  · rename_i h
    simpa [h] using swaps_substituteInside old new cs

/-- Searching and rewriting agree on whether a name is used, for every name that is not empty:
the text refers to the name exactly if there is a place where the name is used, and exactly if
rewriting it changes the text. -/
theorem references_iff_usedAt_iff_substitute_ne {name other : String} (hname : name ≠ "")
    (hother : other ≠ name) (text : String) :
    (references text name = true ↔ ∃ i, UsedAt name.toList text.toList i) ∧
      (references text name = true ↔ substitute text name other ≠ text) := by
  have hplaces : references text name = true ↔ ∃ i, UsedAt name.toList text.toList i := by
    rw [exists_usedAt_iff]
    simp [references, hname]
  refine ⟨hplaces, hplaces.trans ?_⟩
  obtain ⟨n, hswaps, hn⟩ := swaps_substituteChars name.toList other.toList text.toList
  have hlists : name.toList ≠ other.toList := fun h => hother (String.toList_injective h.symm)
  have hsame : substitute text name other = text ↔
      text.toList = substituteChars name.toList other.toList text.toList := by
    rw [← String.toList_inj, substitute, String.toList_ofList]
    exact eq_comm
  exact hn.symm.trans (not_congr (hsame.trans (hswaps.eq_iff hlists))).symm

theorem references_versioned_iff :
    "yaml.v2" ≠ "" ∧ "yaml" ≠ "yaml.v2" ∧
      references "f(yaml.v2 .Marshal, go-yaml.v2.X)" "yaml.v2" = true ∧
      (∃ i, UsedAt "yaml.v2".toList "f(yaml.v2 .Marshal, go-yaml.v2.X)".toList i) ∧
      substitute "f(yaml.v2 .Marshal, go-yaml.v2.X)" "yaml.v2" "yaml" ≠
        "f(yaml.v2 .Marshal, go-yaml.v2.X)" := by
  have hne : "yaml.v2" ≠ "" ∧ "yaml" ≠ "yaml.v2" := by decide
  have href : references "f(yaml.v2 .Marshal, go-yaml.v2.X)" "yaml.v2" = true := by
    decide +kernel
  obtain ⟨hplaces, hchanged⟩ := references_iff_usedAt_iff_substitute_ne hne.1 hne.2
    "f(yaml.v2 .Marshal, go-yaml.v2.X)"
  exact ⟨hne.1, hne.2, href, hplaces.mp href, hchanged.mp href⟩

end Swaps

section Names

/-- Rewriting acts on the identifiers that a text refers to as the substitution does on names;
so the old one is gone, the new one is there if either was, and no other is gained or lost. -/
theorem references_substitute_image {old new : String} (hold : isIdentifier old = true)
    (hnew : isIdentifier new = true) (text : String) :
    (∀ name, isIdentifier name = true →
      (references (substitute text old new) name = true ↔
        ∃ a, isIdentifier a = true ∧ references text a = true ∧
          name = if a = old then new else a)) ∧
      (old ≠ new →
        references (substitute text old new) old = false ∧
        (references (substitute text old new) new = true ↔
          references text old = true ∨ references text new = true) ∧
        ∀ name, isIdentifier name = true → name ≠ old → name ≠ new →
          references (substitute text old new) name = references text name) := by
  have hiff {name : String} (hname : isIdentifier name = true) :=
    references_substitute_iff hold hnew hname text
  refine ⟨fun name hname => ?_, fun hne => ⟨?_, ?_, fun name hname hold' hnew' => ?_⟩⟩
  · rw [hiff hname]
    constructor
    · rintro (⟨rfl, href⟩ | ⟨hother, href⟩)
      · exact ⟨old, hold, href, by simp⟩
      · exact ⟨name, hname, href, by simp [hother]⟩
    · rintro ⟨a, ha, href, rfl⟩
      split
      · rename_i heq
        exact .inl ⟨rfl, heq ▸ href⟩
      · rename_i hother
        exact .inr ⟨hother, href⟩
  · rw [Bool.eq_false_iff, ne_eq, hiff hold]
    simp [hne]
  · rw [hiff hnew]
    simp [Ne.symm hne]
  · rw [Bool.eq_iff_iff, hiff hname]
    simp [hold', hnew']

theorem references_substitute_image_merged :
    isIdentifier "a" = true ∧ isIdentifier "b" = true ∧
      references (substitute "a.x+b.y(c.z)" "a" "b") "a" = false ∧
      references (substitute "a.x+b.y(c.z)" "a" "b") "b" = true ∧
      references (substitute "a.x+b.y(c.z)" "a" "b") "c" = true := by
  have ha : isIdentifier "a" = true := by decide
  have hb : isIdentifier "b" = true := by decide
  obtain ⟨himage, hrest⟩ := references_substitute_image ha hb "a.x+b.y(c.z)"
  obtain ⟨hgone, -, -⟩ := hrest (by decide)
  refine ⟨ha, hb, hgone, (himage "b" hb).mpr ⟨"a", ha, by decide +kernel, by simp⟩, ?_⟩
  exact (himage "c" (by decide)).mpr ⟨"c", by decide, by decide +kernel, by simp⟩

end Names

end GoSource.Qualifier
