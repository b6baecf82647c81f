import GoSource.Proofs.Validate.Rules
import GoSource.Validate.Package
import Mathlib.Data.List.Basic
import Mathlib.Data.List.Nodup

/-!
# Validity of packages and workspaces

Each container passes exactly if it keeps the rules of its own and all that it holds
passes. A workspace is gone through in order and stops at the first package that is not
valid or that repeats an earlier one, so a repetition is reported at the first place where
there is one, with only valid packages up to there. Which of the other faults is named is
left out here.
-/

namespace GoSource

/-- The rules of a package. -/
structure Package.Sound (checker : Checker) (p : Package) : Prop where
  name : p.name ≠ ""
  path : p.path ≠ ""
  absolute : p.path.toList.head? = some '/'
  ignored : p.ignored = true → p.files = []
  fileNames : (p.files.map File.name).Nodup
  package : ∀ f ∈ p.files, ∀ g ∈ p.files, f.package = g.package
  files : ∀ f ∈ p.files, f.validate checker = .ok ()

/-- The rules of a workspace. -/
structure Workspace.Sound (checker : Checker) (w : Workspace) : Prop where
  names : (w.packages.map Package.name).Nodup
  paths : (w.packages.map Package.path).Nodup
  packages : ∀ p ∈ w.packages, p.Sound checker

section Package

variable {checker : Checker}

theorem Package.validateFiles_eq_ok {expected : String} {earlier fs : List File} :
    Package.validateFiles checker expected earlier fs = .ok () ↔
      (∀ e ∈ earlier, ∀ f ∈ fs, e.name ≠ f.name) ∧ (fs.map File.name).Nodup ∧
        ∀ f ∈ fs, f.package = expected ∧ f.validate checker = .ok () := by
  induction fs generalizing earlier with
  | nil => simp [validateFiles]
  | cons f fs ih =>
    have hfresh : earlier.all (·.name != f.name) = true ↔ ∀ e ∈ earlier, e.name ≠ f.name := by
      simp
    simp only [validateFiles, Verdict.bind_eq_ok, Verdict.require_eq_ok, hfresh, beq_iff_eq, ih,
      List.forall_mem_append, List.forall_mem_singleton, List.forall_mem_cons, List.map_cons,
      List.nodup_cons, List.mem_map, not_exists, not_and, forall₂_and]
    constructor
    · rintro ⟨hf, hpackage, hvalid, ⟨hearlier, hlater⟩, hnodup, hrest⟩
      exact ⟨⟨hf, hearlier⟩, ⟨fun g hg heq => hlater g hg heq.symm, hnodup⟩,
        ⟨hpackage, hvalid⟩, hrest⟩
    · rintro ⟨⟨hf, hearlier⟩, ⟨hlater, hnodup⟩, ⟨hpackage, hvalid⟩, hrest⟩
      exact ⟨hf, hpackage, hvalid, ⟨hearlier, fun g hg heq => hlater g hg heq.symm⟩, hnodup, hrest⟩

/-- All files declare the package of the first one if all declare the same. -/
theorem Package.declaredName_iff {p : Package} :
    (∀ f ∈ p.files, f.package = p.declaredName) ↔
      ∀ f ∈ p.files, ∀ g ∈ p.files, f.package = g.package := by
  unfold declaredName
  cases p.files with
  | nil => simp
  | cons first rest =>
    constructor
    · intro h f hf g hg
      rw [h f hf, h g hg]
    · exact fun h f hf => h f hf first (by simp)

theorem Package.validate_eq_ok {p : Package} : p.validate checker = .ok () ↔ p.Sound checker := by
  simp only [validate, requireText, isAbsolute, Verdict.within_eq_ok, Verdict.bind_eq_ok,
    Verdict.require_eq_ok, validateFiles_eq_ok, forall₂_and, declaredName_iff]
  constructor
  · rintro ⟨hname, hpath, habsolute, hignored, -, hnames, hpackage, hfiles⟩
    exact ⟨by simpa using hname, by simpa using hpath, by simpa using habsolute,
      fun h => by simpa [h] using hignored, hnames, hpackage, hfiles⟩
  · rintro ⟨hname, hpath, habsolute, hignored, hnames, hpackage, hfiles⟩
    refine ⟨by simpa using hname, by simpa using hpath, by simpa using habsolute, ?_, by simp,
      hnames, hpackage, hfiles⟩
    cases h : p.ignored with
    | false => rfl
    | true => simp [hignored h]

/-- The faults of a package lie under its name, not under a place in a workspace. -/
theorem Package.validate_ne_item {p : Package} {list : String} {i : Nat} {path : List Segment}
    {v : Violation} : p.validate checker ≠ .error (.invariant (.item list i :: path) v) := by
  unfold validate Verdict.within
  cases (do
    requireText "Name" p.name
    requireText "Path" p.path
    Verdict.require (isAbsolute p.path) (.onPart "Path" (.relativePath p.path))
    Verdict.require (!p.ignored || p.files.isEmpty)
      (.onPart "IsIgnored" (.ignoredFiles p.files.length))
    Package.validateFiles checker p.declaredName [] p.files : Verdict) with
  | ok => exact nofun
  | error fault => cases fault <;> simp [Except.mapError, Fault.within]

end Package

section Workspace

variable {checker : Checker} {w : Workspace}

/-- The verdict on one package of a workspace, after the `earlier` ones. -/
def Package.verdict (checker : Checker) (earlier : List Package) (p : Package) : Verdict := do
  p.validate checker
  Verdict.require (earlier.all (·.name != p.name))
    (.invariant [.item "Namespaces" earlier.length, .part "Name"] (.duplicateName p.name))
  Verdict.require (earlier.all (·.path != p.path))
    (.invariant [.item "Namespaces" earlier.length, .part "Path"] (.duplicatePath p.path))

theorem Package.verdict_eq_ok {earlier : List Package} {p : Package} :
    p.verdict checker earlier = .ok () ↔
      p.Sound checker ∧ (∀ q ∈ earlier, q.name ≠ p.name) ∧ ∀ q ∈ earlier, q.path ≠ p.path := by
  simp [verdict, validate_eq_ok]

/-- A verdict that names the place of the package is about a valid package, and either about
its name, or about its directory if no earlier package has its name. -/
theorem Package.verdict_eq_item {earlier : List Package} {p : Package} {i : Nat} {part : Segment}
    {v : Violation} :
    p.verdict checker earlier = .error (.invariant [.item "Namespaces" i, part] v) ↔
      p.Sound checker ∧ i = earlier.length ∧
        ((∃ q ∈ earlier, q.name = p.name) ∧ part = .part "Name" ∧ v = .duplicateName p.name ∨
          (∀ q ∈ earlier, q.name ≠ p.name) ∧ (∃ q ∈ earlier, q.path = p.path) ∧
            part = .part "Path" ∧ v = .duplicatePath p.path) := by
  have hname : (∃ q ∈ earlier, q.name = p.name) ↔ earlier.all (·.name != p.name) = false := by simp
  have hother : (∀ q ∈ earlier, q.name ≠ p.name) ↔ earlier.all (·.name != p.name) = true := by simp
  have hpath : (∃ q ∈ earlier, q.path = p.path) ↔ earlier.all (·.path != p.path) = false := by simp
  rw [verdict, ← validate_eq_ok, hname, hother, hpath]
  cases hvalid : p.validate checker with
  | error fault =>
    have hne : fault ≠ .invariant [.item "Namespaces" i, part] v :=
      fun heq => validate_ne_item (heq ▸ hvalid)
    simp [bind, Except.bind, hne]
  | ok =>
    simp only [bind, Except.bind, true_and]
    cases earlier.all (·.name != p.name) <;> cases earlier.all (·.path != p.path) <;>
      simp [Verdict.require, and_assoc, eq_comm]

/-- The packages of a workspace are judged one after another. -/
theorem Workspace.validatePackages_cons (earlier : List Package) (p : Package)
    (ps : List Package) :
    validatePackages checker earlier (p :: ps) =
      (p.verdict checker earlier >>= fun _ => validatePackages checker (earlier ++ [p]) ps) := by
  simp only [validatePackages, Package.verdict, bind_assoc]

/-- The verdict from the package at `i` on. -/
def Workspace.validateFrom (checker : Checker) (w : Workspace) (i : Nat) : Verdict :=
  validatePackages checker (w.packages.take i) (w.packages.drop i)

/-- The verdict on the package at `i`, if there is one there. -/
def Workspace.verdictAt? (checker : Checker) (w : Workspace) (i : Nat) : Option Verdict :=
  w.packages[i]?.map (Package.verdict checker (w.packages.take i))

/-- One step along a workspace. -/
theorem Workspace.validateFrom_step (checker : Checker) (w : Workspace) (i : Nat) :
    w.validateFrom checker i =
      match w.verdictAt? checker i with
      | some v => v >>= fun _ => w.validateFrom checker (i + 1)
      | none => .ok () := by
  unfold verdictAt? validateFrom
  cases hp : w.packages[i]? with
  | none =>
    rw [List.drop_eq_nil_iff.mpr (List.getElem?_eq_none_iff.mp hp)]
    rfl
  | some p =>
    obtain ⟨hi, hget⟩ := List.getElem?_eq_some_iff.mp hp
    rw [List.drop_eq_getElem_cons hi, hget, validatePackages_cons, List.take_add_one, hp]
    rfl

theorem Workspace.verdictAt?_eq_none_iff {i : Nat} :
    w.verdictAt? checker i = none ↔ w.packages.length ≤ i := by
  simp [verdictAt?]

/-- What holds from a place on holds at the place and from the next one on. -/
theorem forall_ge_iff {P : Nat → Prop} {i : Nat} :
    (∀ j ≥ i, P j) ↔ P i ∧ ∀ j ≥ i + 1, P j := by
  constructor
  · exact fun h => ⟨h i (Nat.le_refl i), fun j hj => h j (by omega)⟩
  · rintro ⟨hi, h⟩ j hj
    rcases Nat.eq_or_lt_of_le hj with rfl | hlt
    · exact hi
    · exact h j hlt

theorem Workspace.validateFrom_eq_ok {i : Nat} :
    w.validateFrom checker i = .ok () ↔
      ∀ j ≥ i, ∀ v, w.verdictAt? checker j = some v → v = .ok () := by
  induction hn : w.packages.length - i generalizing i with
  | zero =>
    have hnone : ∀ j ≥ i, w.verdictAt? checker j = none :=
      fun j hj => verdictAt?_eq_none_iff.mpr (by omega)
    rw [validateFrom_step, hnone i (Nat.le_refl i)]
    exact iff_of_true rfl fun j hj v hv => by simp [hnone j hj] at hv
  | succ n ih =>
    have hsome : w.verdictAt? checker i ≠ none := by
      rw [Ne, verdictAt?_eq_none_iff]
      omega
    obtain ⟨v, hv⟩ := Option.ne_none_iff_exists'.mp hsome
    rw [validateFrom_step, hv, forall_ge_iff, ← ih (by omega)]
    simp [hv]

/-- A workspace fails with the fault of the first package that fails. -/
theorem Workspace.validateFrom_eq_error {fault : Fault} {i : Nat} :
    w.validateFrom checker i = .error fault ↔
      ∃ k ≥ i, w.verdictAt? checker k = some (.error fault) ∧
        ∀ j ≥ i, j < k → w.verdictAt? checker j = some (.ok ()) := by
  induction hn : w.packages.length - i generalizing i with
  | zero =>
    have hnone : ∀ j ≥ i, w.verdictAt? checker j = none :=
      fun j hj => verdictAt?_eq_none_iff.mpr (by omega)
    rw [validateFrom_step, hnone i (Nat.le_refl i)]
    refine iff_of_false nofun ?_
    rintro ⟨k, hk, hfault, -⟩
    simp [hnone k hk] at hfault
  | succ n ih =>
    have hsome : w.verdictAt? checker i ≠ none := by
      rw [Ne, verdictAt?_eq_none_iff]
      omega
    obtain ⟨v, hv⟩ := Option.ne_none_iff_exists'.mp hsome
    have ih' := ih (i := i + 1) (by omega)
    rw [validateFrom_step, hv]
    cases v with
    | error found =>
      -- The package at `i` fails, so nothing after it is looked at.
      simp only [bind, Except.bind, Except.error.injEq]
      constructor
      · rintro rfl
        exact ⟨i, Nat.le_refl i, hv, fun j hj hlt => by omega⟩
      · rintro ⟨k, hk, hfault, hbefore⟩
        rcases Nat.eq_or_lt_of_le hk with rfl | hlt
        · simpa [hv] using hfault
        · simpa [hv] using hbefore i (Nat.le_refl i) hlt
    | ok =>
      simp only [bind, Except.bind, ih']
      constructor
      · rintro ⟨k, hk, hfault, hbefore⟩
        refine ⟨k, by omega, hfault, fun j hj hlt => ?_⟩
        rcases Nat.eq_or_lt_of_le hj with rfl | hj
        · exact hv
        · exact hbefore j hj hlt
      · rintro ⟨k, hk, hfault, hbefore⟩
        rcases Nat.eq_or_lt_of_le hk with rfl | hlt
        · simp [hv] at hfault
        · exact ⟨k, hlt, hfault, fun j hj => hbefore j (by omega)⟩

theorem Workspace.validate_eq_validateFrom (checker : Checker) (w : Workspace) :
    w.validate checker = w.validateFrom checker 0 := by
  rw [validate, validateFrom, List.take_zero, List.drop_zero]

/-- Keys are distinct if no element has the key of an earlier one. -/
theorem nodup_map_iff_take {α β : Type} {key : α → β} {l : List α} :
    (l.map key).Nodup ↔ ∀ i a, l[i]? = some a → ∀ b ∈ l.take i, key b ≠ key a := by
  rw [List.Nodup, List.pairwise_map, List.pairwise_iff_getElem]
  constructor
  · intro h i a ha b hb
    obtain ⟨hi, rfl⟩ := List.getElem?_eq_some_iff.mp ha
    obtain ⟨j, hj, rfl⟩ := List.mem_take_iff_getElem.mp hb
    exact h j i (by omega) hi (by omega)
  · intro h i j hi hj hij
    exact h j l[j] (List.getElem?_eq_getElem hj) l[i]
      (List.mem_take_iff_getElem.mpr ⟨i, by omega, rfl⟩)

theorem Workspace.validate_eq_ok : w.validate checker = .ok () ↔ w.Sound checker := by
  have hverdicts : w.validate checker = .ok () ↔ ∀ i p, w.packages[i]? = some p →
      p.Sound checker ∧ (∀ q ∈ w.packages.take i, q.name ≠ p.name) ∧
        ∀ q ∈ w.packages.take i, q.path ≠ p.path := by
    rw [validate_eq_validateFrom, validateFrom_eq_ok]
    simp [verdictAt?, Package.verdict_eq_ok]
  rw [hverdicts]
  constructor
  · intro h
    refine ⟨nodup_map_iff_take.mpr fun i p hp => (h i p hp).2.1,
      nodup_map_iff_take.mpr fun i p hp => (h i p hp).2.2, fun p hp => ?_⟩
    obtain ⟨i, hi⟩ := List.mem_iff_getElem?.mp hp
    exact (h i p hi).1
  · rintro ⟨hnames, hpaths, hpackages⟩ i p hp
    exact ⟨hpackages p (List.mem_of_getElem? hp), nodup_map_iff_take.mp hnames i p hp,
      nodup_map_iff_take.mp hpaths i p hp⟩

/-- The package at `i` has the name or the directory of an earlier one. -/
def Workspace.RepeatsAt (w : Workspace) (i : Nat) : Prop :=
  ∃ p q, ∃ j < i, w.packages[i]? = some p ∧ w.packages[j]? = some q ∧
    (q.name = p.name ∨ q.path = p.path)

/-- The first repetition of a workspace is at `i`, and all packages up to there are valid. -/
structure Workspace.FirstRepetition (checker : Checker) (w : Workspace) (i : Nat) : Prop where
  repeats : w.RepeatsAt i
  first : ∀ j < i, ¬ w.RepeatsAt j
  valid : ∀ j ≤ i, ∀ p, w.packages[j]? = some p → p.Sound checker

theorem Workspace.repeatsAt_iff {i : Nat} {p : Package} (hp : w.packages[i]? = some p) :
    w.RepeatsAt i ↔
      (∃ q ∈ w.packages.take i, q.name = p.name) ∨ ∃ q ∈ w.packages.take i, q.path = p.path := by
  have htake (q : Package) : q ∈ w.packages.take i ↔ ∃ j < i, w.packages[j]? = some q := by
    simp only [List.mem_iff_getElem?, List.getElem?_take, Option.ite_none_right_eq_some]
  constructor
  · rintro ⟨p', q, j, hj, hp', hq, hname | hpath⟩
    · obtain rfl := Option.some.inj (hp.symm.trans hp')
      exact .inl ⟨q, (htake q).mpr ⟨j, hj, hq⟩, hname⟩
    · obtain rfl := Option.some.inj (hp.symm.trans hp')
      exact .inr ⟨q, (htake q).mpr ⟨j, hj, hq⟩, hpath⟩
  · rintro (⟨q, hq, hname⟩ | ⟨q, hq, hpath⟩)
    · obtain ⟨j, hj, hq⟩ := (htake q).mp hq
      exact ⟨p, q, j, hj, hp, hq, .inl hname⟩
    · obtain ⟨j, hj, hq⟩ := (htake q).mp hq
      exact ⟨p, q, j, hj, hp, hq, .inr hpath⟩

theorem Workspace.verdictAt?_eq_ok_iff {i : Nat} {p : Package} (hp : w.packages[i]? = some p) :
    w.verdictAt? checker i = some (.ok ()) ↔ p.Sound checker ∧ ¬ w.RepeatsAt i := by
  rw [verdictAt?, hp, Option.map_some, Option.some.injEq, Package.verdict_eq_ok,
    repeatsAt_iff hp]
  simp

/-- Every package before the first repetition passes. -/
theorem Workspace.firstRepetition_iff {i : Nat} {p : Package} (hp : w.packages[i]? = some p) :
    w.FirstRepetition checker i ↔ p.Sound checker ∧ w.RepeatsAt i ∧
      ∀ j < i, w.verdictAt? checker j = some (.ok ()) := by
  have hbefore (j : Nat) (hj : j < i) : ∃ q, w.packages[j]? = some q :=
    ⟨_, List.getElem?_eq_getElem (Nat.lt_trans hj (List.getElem?_eq_some_iff.mp hp).1)⟩
  constructor
  · rintro ⟨hrepeats, hfirst, hvalid⟩
    refine ⟨hvalid i (Nat.le_refl i) p hp, hrepeats, fun j hj => ?_⟩
    obtain ⟨q, hq⟩ := hbefore j hj
    exact (verdictAt?_eq_ok_iff hq).mpr ⟨hvalid j (Nat.le_of_lt hj) q hq, hfirst j hj⟩
  · rintro ⟨hsound, hrepeats, hpasses⟩
    refine ⟨hrepeats, fun j hj => ?_, fun j hj q hq => ?_⟩
    · obtain ⟨q, hq⟩ := hbefore j hj
      exact ((verdictAt?_eq_ok_iff hq).mp (hpasses j hj)).2
    · rcases Nat.eq_or_lt_of_le hj with rfl | hlt
      · obtain rfl := Option.some.inj (hp.symm.trans hq)
        exact hsound
      · exact ((verdictAt?_eq_ok_iff hq).mp (hpasses j hlt)).1

/-- A fault at the place of a package is that of the first repetition. -/
theorem Workspace.validate_eq_item {i : Nat} {part : Segment} {v : Violation} :
    w.validate checker = .error (.invariant [.item "Namespaces" i, part] v) ↔
      w.FirstRepetition checker i ∧ ∃ p, w.packages[i]? = some p ∧
        ((∃ q ∈ w.packages.take i, q.name = p.name) ∧ part = .part "Name" ∧
            v = .duplicateName p.name ∨
          (∀ q ∈ w.packages.take i, q.name ≠ p.name) ∧
            (∃ q ∈ w.packages.take i, q.path = p.path) ∧ part = .part "Path" ∧
            v = .duplicatePath p.path) := by
  have hplace {k : Nat} {p : Package} (hp : w.packages[k]? = some p) :
      (w.packages.take k).length = k := by
    rw [List.length_take]
    exact Nat.min_eq_left (Nat.le_of_lt (List.getElem?_eq_some_iff.mp hp).1)
  rw [validate_eq_validateFrom, validateFrom_eq_error]
  constructor
  · rintro ⟨k, -, hfault, hbefore⟩
    obtain ⟨p, hp, hverdict⟩ := Option.map_eq_some_iff.mp hfault
    obtain ⟨hsound, hik, hcases⟩ := Package.verdict_eq_item.mp hverdict
    obtain rfl : i = k := hik.trans (hplace hp)
    have hrepeats : w.RepeatsAt i :=
      (repeatsAt_iff hp).mpr (hcases.imp (fun h => h.1) (fun h => h.2.1))
    exact ⟨(firstRepetition_iff hp).mpr ⟨hsound, hrepeats, fun j => hbefore j (Nat.zero_le j)⟩,
      p, hp, hcases⟩
  · rintro ⟨hfirst, p, hp, hcases⟩
    obtain ⟨hsound, -, hbefore⟩ := (firstRepetition_iff hp).mp hfirst
    refine ⟨i, Nat.zero_le i, ?_, fun j _ => hbefore j⟩
    rw [verdictAt?, hp, Option.map_some, Option.some.injEq]
    exact Package.verdict_eq_item.mpr ⟨hsound, (hplace hp).symm, hcases⟩

/-- A workspace passes exactly if names and directories are distinct and every package keeps
its rules. A repeated name is reported at the first repetition, with only valid packages up
to there; so is a repeated directory, of a package whose name is new. -/
theorem Workspace.validate_iff_distinct (checker : Checker) (w : Workspace) :
    (w.validate checker = .ok () ↔ w.Sound checker) ∧
    (∀ i name, w.validate checker = .error
        (.invariant [.item "Namespaces" i, .part "Name"] (.duplicateName name)) ↔
      w.FirstRepetition checker i ∧ ∃ p, w.packages[i]? = some p ∧ p.name = name ∧
        ∃ q ∈ w.packages.take i, q.name = name) ∧
    (∀ i path, w.validate checker = .error
        (.invariant [.item "Namespaces" i, .part "Path"] (.duplicatePath path)) ↔
      w.FirstRepetition checker i ∧ ∃ p, w.packages[i]? = some p ∧ p.path = path ∧
        (∃ q ∈ w.packages.take i, q.path = path) ∧ ∀ q ∈ w.packages.take i, q.name ≠ p.name) := by
  refine ⟨validate_eq_ok, fun i name => ?_, fun i path => ?_⟩
  · rw [validate_eq_item]
    refine and_congr_right fun _ => exists_congr fun p => and_congr_right fun _ => ?_
    constructor
    · rintro (⟨hq, -, hv⟩ | ⟨-, -, hpart, -⟩)
      · obtain rfl := Violation.duplicateName.inj hv
        exact ⟨rfl, hq⟩
      · simp at hpart
    · rintro ⟨rfl, hq⟩
      exact .inl ⟨hq, rfl, rfl⟩
  · rw [validate_eq_item]
    refine and_congr_right fun _ => exists_congr fun p => and_congr_right fun _ => ?_
    constructor
    · rintro (⟨-, hpart, -⟩ | ⟨hnames, hq, -, hv⟩)
      · simp at hpart
      · obtain rfl := Violation.duplicatePath.inj hv
        exact ⟨rfl, hq, hnames⟩
    · rintro ⟨rfl, hq, hnames⟩
      exact .inr ⟨hnames, hq, rfl, rfl⟩

end Workspace

end GoSource
