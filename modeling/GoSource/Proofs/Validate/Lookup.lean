import GoSource.Proofs.Validate.Workspace

/-!
# Lookups in valid workspaces

A lookup takes the first match. In a valid workspace the keys of packages and files are
distinct and none of them is empty, so a lookup by the key of an entry finds that entry, and
a change that goes through it changes that entry and nothing else. Whether the workspace is
still valid after the change is left out here.
-/

namespace GoSource

section Keys

variable {α : Type} {key : α → String} {l : List α} {i : Nat} {a : α}

/-- A list is what stands before an index, the element there, and what comes after it. -/
theorem eq_take_cons_drop (ha : l[i]? = some a) : l = l.take i ++ a :: l.drop (i + 1) := by
  obtain ⟨hi, rfl⟩ := List.getElem?_eq_some_iff.mp ha
  rw [← List.drop_eq_getElem_cons hi, List.take_append_drop]

/-- No earlier element is taken for the one at an index. -/
theorem beq_eq_false_of_mem_take (hkeys : (l.map key).Nodup) (ha : l[i]? = some a) {b : α}
    (hb : b ∈ l.take i) : (key b == key a) = false :=
  beq_false_of_ne (nodup_map_iff_take.mp hkeys i a ha b hb)

theorem find?_key (hkeys : (l.map key).Nodup) (ha : l[i]? = some a) :
    l.find? (key · == key a) = some a := by
  rw [List.find?_eq_some_iff_append]
  refine ⟨beq_self_eq_true _, l.take i, l.drop (i + 1), eq_take_cons_drop ha, fun b hb => ?_⟩
  rw [beq_eq_false_of_mem_take hkeys ha hb, Bool.not_false]

theorem modifyFirst_append {p : α → Bool} {before : List α} (hbefore : ∀ b ∈ before, p b = false)
    (ha : p a = true) (f : α → α) (after : List α) :
    modifyFirst p f (before ++ a :: after) = before ++ f a :: after := by
  induction before with
  | nil => rw [List.nil_append, modifyFirst, if_pos ha, List.nil_append]
  | cons b before ih =>
    obtain ⟨hb, hbefore⟩ := List.forall_mem_cons.mp hbefore
    rw [List.cons_append, modifyFirst, if_neg (by simp [hb]), ih hbefore, List.cons_append]

/-- Changing the first element with some key changes the list at the index of the element that
has it. -/
theorem modifyFirst_key (hkeys : (l.map key).Nodup) (ha : l[i]? = some a) (f : α → α) :
    modifyFirst (key · == key a) f l = l.set i (f a) := by
  have hi := (List.getElem?_eq_some_iff.mp ha).1
  have hfirst := modifyFirst_append (p := fun b => key b == key a)
    (fun b hb => beq_eq_false_of_mem_take hkeys ha hb) (beq_self_eq_true _) f (l.drop (i + 1))
  rw [← eq_take_cons_drop ha] at hfirst
  rw [hfirst, List.set_eq_take_append_cons_drop, if_pos hi]

/-- An element stands at one index only. -/
theorem index_unique (hkeys : (l.map key).Nodup) (ha : l[i]? = some a) {k : Nat}
    (hk : l[k]? = some a) : k = i := by
  have hi := (List.getElem?_eq_some_iff.mp ha).1
  exact ((List.getElem?_inj hi hkeys.of_map).mp (ha.trans hk.symm)).symm

theorem requireKey_eq_ok {argument key : String} (h : key ≠ "") :
    requireKey argument key = .ok () := by
  simp [requireKey, h]

end Keys

section Entries

variable {checker : Checker} {w : Workspace} {p : Package} {f : File} {i j : Nat}

theorem Workspace.Sound.package (h : w.Sound checker) (hp : w.packages[i]? = some p) :
    p.Sound checker :=
  h.packages p (List.mem_of_getElem? hp)

theorem Package.Sound.fileName (h : p.Sound checker) (hf : p.files[j]? = some f) :
    f.name ≠ "" := by
  have hvalid := h.files f (List.mem_of_getElem? hf)
  simpa using (File.validate_eq_ok.mp hvalid).1

theorem Package.Sound.file? (h : p.Sound checker) (hf : p.files[j]? = some f) :
    p.file? f.name = .ok (some f) := by
  rw [Package.file?, requireKey_eq_ok (h.fileName hf), find?_key h.fileNames hf]
  rfl

theorem Package.Sound.modifyFile (h : p.Sound checker) (hf : p.files[j]? = some f)
    (edit : File → File) :
    p.modifyFile f.name edit = .ok { p with files := p.files.set j (edit f) } := by
  rw [Package.modifyFile, requireKey_eq_ok (h.fileName hf), modifyFirst_key h.fileNames hf]
  rfl

theorem Workspace.Sound.package? (h : w.Sound checker) (hp : w.packages[i]? = some p) :
    w.package? p.name = .ok (some p) := by
  rw [Workspace.package?, requireKey_eq_ok (h.package hp).name, find?_key h.names hp]
  rfl

theorem Workspace.Sound.packageAt? (h : w.Sound checker) (hp : w.packages[i]? = some p) :
    w.packageAt? p.path = .ok (some p) := by
  rw [Workspace.packageAt?, requireKey_eq_ok (h.package hp).path, find?_key h.paths hp]
  rfl

theorem Workspace.Sound.modifyPackage (h : w.Sound checker) (hp : w.packages[i]? = some p)
    (edit : Package → Package) :
    w.modifyPackage p.name edit = .ok { w with packages := w.packages.set i (edit p) } := by
  rw [Workspace.modifyPackage, requireKey_eq_ok (h.package hp).name, modifyFirst_key h.names hp]
  rfl

end Entries

/-- Changes the first file of a name in the first package of a name: the package is found, its
file is changed, and the package takes its old place. Nothing is changed if there is no such
package or file. -/
def Workspace.modifyFile (w : Workspace) (package file : String) (edit : File → File) :
    Except Fault Workspace := do
  match ← w.package? package with
  | none => pure w
  | some p => do
    let changed ← p.modifyFile file edit
    w.modifyPackage package fun _ => changed

/-- In a valid workspace a package is found by its name and by its directory, a file of it is
found by its name, and what is found is the entry at the index asked about and at no other. A
change to the file that is reached by the two names is a change of the workspace at these two
indices. -/
theorem Workspace.lookups_exact {checker : Checker} {w : Workspace}
    (hvalid : w.validate checker = .ok ()) {i : Nat} {p : Package}
    (hp : w.packages[i]? = some p) :
    w.package? p.name = .ok (some p) ∧ w.packageAt? p.path = .ok (some p) ∧
    (∀ k, w.packages[k]? = some p → k = i) ∧
    ∀ j f, p.files[j]? = some f →
      p.file? f.name = .ok (some f) ∧ (∀ k, p.files[k]? = some f → k = j) ∧
      ∀ edit : File → File, w.modifyFile p.name f.name edit =
        .ok { w with packages := w.packages.set i { p with files := p.files.set j (edit f) } } := by
  have hsound := validate_eq_ok.mp hvalid
  have hpackage := hsound.package hp
  refine ⟨hsound.package? hp, hsound.packageAt? hp, fun k => index_unique hsound.names hp, ?_⟩
  intro j f hf
  refine ⟨hpackage.file? hf, fun k => index_unique hpackage.fileNames hf, fun edit => ?_⟩
  rw [Workspace.modifyFile, hsound.package? hp]
  show (do
    let changed ← p.modifyFile f.name edit
    w.modifyPackage p.name fun _ => changed) = _
  rw [hpackage.modifyFile hf]
  exact hsound.modifyPackage hp _

/-- Two packages, the second with a file that has the name of one in the first. -/
def Workspace.tools : Workspace where
  packages := [
    { name := "m/scan", path := "/m/scan", files := [{ name := "doc.go", package := "scan" }] },
    { name := "m/emit", path := "/m/emit", files :=
      [{ name := "emit.go", package := "emit" }, { name := "doc.go", package := "emit" }] }]

/-- The change gives the file the name of the one before it, and still only that file. -/
theorem Workspace.lookups_exact_tools :
    Workspace.tools.validate .standard = .ok () ∧
    Workspace.tools.modifyFile "m/emit" "doc.go" (fun f => { f with name := "emit.go" }) =
      .ok { packages := [
        { name := "m/scan", path := "/m/scan", files := [{ name := "doc.go", package := "scan" }] },
        { name := "m/emit", path := "/m/emit", files := [
          { name := "emit.go", package := "emit" },
          { name := "emit.go", package := "emit" }] }] } := by
  have hvalid : Workspace.tools.validate .standard = .ok () := by decide +kernel
  exact ⟨hvalid, ((Workspace.lookups_exact hvalid (i := 1) rfl).2.2.2 1 _ rfl).2.2 _⟩

end GoSource
