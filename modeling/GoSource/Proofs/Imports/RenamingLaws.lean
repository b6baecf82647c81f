import GoSource.Proofs.Imports.Renaming
import GoSource.Proofs.Node.RewritingLaws

/-!
# Renaming one alias after another

A renaming to an alias that nothing goes by can be carried on from there: the two
renamings leave the tree that one renaming leaves. Renamings of which neither touches
what the other one reads or writes can change places. In free text both laws rest on the
cut into pieces, since the second renaming reads what the first one wrote.
-/

namespace GoSource

namespace Qualifier

/-- Two changes of names, one after the other, in one text. -/
theorem respell_respell {f : List Char → List Char} (hf : ∀ name, IsName name → IsName (f name))
    (g : List Char → List Char) (b : Bool) (cs : List Char) :
    respell g b (respell f b cs) = respell (g ∘ f) b cs := by
  have hspell : ∀ p : Piece, (p.rename f).spell g = p.spell (g ∘ f) := by
    intro p
    cases p <;> rfl
  rw [respell, pieces_respell hf, List.flatMap_map, respell]
  exact List.flatMap_congr fun p _ => hspell p

/-- A change of names is decided by the names that the text uses. -/
theorem respell_congr {f g : List Char → List Char} {b : Bool} {cs : List Char}
    (h : ∀ name, .use name ∈ pieces b cs → f name = g name) : respell f b cs = respell g b cs := by
  apply List.flatMap_congr
  intro p hp
  cases p with
  | char c => rfl
  | use name => exact h name hp

/-- The pieces make up the text. -/
theorem respell_id (b : Bool) (cs : List Char) : respell id b cs = cs := by
  fun_induction pieces b cs with
  | case1 b => simp [respell]
  | case2 b c cs h ih =>
    obtain ⟨rfl, hstarts⟩ := Bool.and_eq_true_iff.mp h
    obtain ⟨hname, hpoint⟩ := isName_of_startsUse hstarts
    have hsplit := respell_name_append id hname hpoint
    rw [ih, List.cons_append, List.takeWhile_append_dropWhile] at hsplit
    exact hsplit.trans (congrArg _ List.takeWhile_append_dropWhile)
  | case3 b c cs h ih => rw [respell_char id (by simpa using h), ih]

theorem toList_substitute {old : String} (hold : isIdentifier old = true) (text new : String) :
    (substitute text old new).toList =
      respell (replaceName old.toList new.toList) true text.toList := by
  rw [substitute, String.toList_ofList, substituteChars_eq_respell (isName_iff.mp hold)]

/-- Putting a name for itself changes nothing. -/
theorem substitute_self {name : String} (h : isIdentifier name = true) (text : String) :
    substitute text name name = text := by
  apply String.toList_injective
  have hid : replaceName name.toList name.toList = id := by
    funext other
    simp only [replaceName, id]
    split <;> simp_all
  rw [toList_substitute h, hid, respell_id]

/-- A name that the text does not use can stand in between. -/
theorem substitute_substitute {a b c text : String} (ha : isIdentifier a = true)
    (hb : isIdentifier b = true) (h : references text b = false) :
    substitute (substitute text a b) b c = substitute text a c := by
  apply String.toList_injective
  have hname : ∀ name, IsName name → IsName (replaceName a.toList b.toList name) :=
    fun _ hn => isName_replaceName (isName_iff.mp hb) hn
  rw [toList_substitute hb, toList_substitute ha, toList_substitute ha, respell_respell hname]
  apply respell_congr
  intro name hmem
  have hne : name ≠ b.toList := by
    rintro rfl
    rw [(references_iff hb).mpr hmem] at h
    cases h
  simp only [replaceName, Function.comp_apply]
  split <;> simp_all

end Qualifier

section Independent

/-- Two replacements, neither of which takes what the other one takes or gives; what they give
may be the same. -/
theorem replace_comm {α : Type} [DecidableEq α] {a b c d : α} (hac : a ≠ c) (had : a ≠ d)
    (hbc : b ≠ c) (x : α) :
    (if (if x = a then b else x) = c then d else if x = a then b else x) =
      if (if x = c then d else x) = a then b else if x = c then d else x := by
  by_cases ha : x = a
  · subst ha
    rw [if_pos rfl, if_neg hbc, if_neg hac, if_pos rfl]
  · by_cases hc : x = c
    · subst hc
      rw [if_neg ha, if_pos rfl, if_neg had.symm]
    · rw [if_neg ha, if_neg hc, if_neg ha]

variable {a b c d : String}

theorem Qualifier.substitute_comm (ha : isIdentifier a = true) (hb : isIdentifier b = true)
    (hc : isIdentifier c = true) (hd : isIdentifier d = true) (hac : a ≠ c) (had : a ≠ d)
    (hbc : b ≠ c) (text : String) :
    substitute (substitute text a b) c d = substitute (substitute text c d) a b := by
  apply String.toList_injective
  have hnames {old new : String} (hnew : isIdentifier new = true) (name : List Char)
      (hname : IsName name) : IsName (replaceName old.toList new.toList name) :=
    isName_replaceName (isName_iff.mp hnew) hname
  have hlist {x y : String} (h : x ≠ y) : x.toList ≠ y.toList :=
    fun heq => h (String.toList_injective heq)
  have hcomp : replaceName c.toList d.toList ∘ replaceName a.toList b.toList =
      replaceName a.toList b.toList ∘ replaceName c.toList d.toList :=
    funext (replace_comm (hlist hac) (hlist had) (hlist hbc))
  rw [toList_substitute hc, toList_substitute ha, toList_substitute ha, toList_substitute hc,
    respell_respell (hnames hb), respell_respell (hnames hd), hcomp]

/-- An import that one renaming gives an alias to is left alone by the other one. -/
theorem Rewriting.entry_ofAlias_comm (hb : isIdentifier b = true) (hd : isIdentifier d = true)
    (hac : a ≠ c) (had : a ≠ d) (hbc : b ≠ c) (i : Import) :
    (Rewriting.ofAlias c d).entry ((Rewriting.ofAlias a b).entry i) =
      (Rewriting.ofAlias a b).entry ((Rewriting.ofAlias c d).entry i) := by
  simp only [Rewriting.ofAlias]
  by_cases ha : i.realAlias = a
  · rw [if_pos ha, Import.realAlias_withName hb, if_neg hbc, ha, if_neg hac, if_pos ha]
  · by_cases hc : i.realAlias = c
    · rw [if_neg ha, if_pos hc, Import.realAlias_withName hd, if_neg had.symm]
    · rw [if_neg ha, if_neg hc, if_neg ha]

/-- At every place, renamings that are independent can change places. -/
theorem Rewriting.ofAlias_andThen_comm (ha : isIdentifier a = true) (hb : isIdentifier b = true)
    (hc : isIdentifier c = true) (hd : isIdentifier d = true) (hac : a ≠ c) (had : a ≠ d)
    (hbc : b ≠ c) :
    (Rewriting.ofAlias a b).andThen (.ofAlias c d) =
      (Rewriting.ofAlias c d).andThen (.ofAlias a b) := by
  rw [andThen, andThen, mk.injEq]
  refine ⟨?_, ?_, ?_⟩
  · exact funext (replace_comm hac had hbc)
  · exact funext (Qualifier.substitute_comm ha hb hc hd hac had hbc)
  · exact funext (entry_ofAlias_comm hb hd hac had hbc)

end Independent

section Fresh

variable {a b c : String}

/-- An import whose alias was written out on the way is given the last alias as if it had
never had another one. -/
theorem Rewriting.entry_ofAlias_ofAlias (hb : isIdentifier b = true) {i : Import}
    (h : i.realAlias ≠ b) :
    (Rewriting.ofAlias b c).entry ((Rewriting.ofAlias a b).entry i) =
      (Rewriting.ofAlias a c).entry i := by
  by_cases ha : i.realAlias = a
  · simp only [Rewriting.ofAlias, if_pos ha, Import.realAlias_withName hb, if_true]
  · simp only [Rewriting.ofAlias, if_neg ha, if_neg h]

/-- At every place of a node, a fresh alias can stand in between. -/
theorem Node.Fresh.agree {n : Node} (hfresh : n.Fresh b) (ha : isIdentifier a = true)
    (hb : isIdentifier b = true) (c : String) :
    ((Rewriting.ofAlias a b).andThen (.ofAlias b c)).Agree (.ofAlias a c) n.parts where
  package t ht := by
    have hne := hfresh.package t ht
    by_cases hp : t.package = a
    · simp [Rewriting.andThen, Rewriting.ofAlias, hp]
    · simp [Rewriting.andThen, Rewriting.ofAlias, hp, hne]
  entry i hi := Rewriting.entry_ofAlias_ofAlias hb (hfresh.entry i hi)
  code p hp text htext :=
    Qualifier.substitute_substitute ha hb
      (hfresh.text text (List.mem_filterMap.mpr ⟨p, hp, htext⟩))

theorem Node.Fresh.rewrite_rewrite {n : Node} (hfresh : n.Fresh b) (ha : isIdentifier a = true)
    (hb : isIdentifier b = true) (c : String) :
    (n.rewrite (.ofAlias a b)).rewrite (.ofAlias b c) = n.rewrite (.ofAlias a c) :=
  (Node.rewrite_rewrite _ _ n).trans (Node.rewrite_congr (hfresh.agree ha hb c))

end Fresh

namespace Node

/-- The package that a named type is qualified with, empty if it is not. -/
def package? : Node → Option String
  | type (.named t) => some t.package
  | _ => none

/-- The packages of the named types at any depth of the node. -/
def packages (n : Node) : List String := n.parts.filterMap package?

theorem package?_rewrite (w : Rewriting) (n : Node) :
    (n.rewrite w).package? = n.package?.map w.package := by
  cases n with
  | type t => cases t <;> rfl
  | _ => rfl

theorem packages_rewrite (w : Rewriting) (n : Node) :
    (n.rewrite w).packages = n.packages.map w.package := by
  rw [packages, packages, parts_rewrite, List.filterMap_map, List.map_filterMap]
  exact congrFun (congrArg _ (funext fun p => p.package?_rewrite w)) _

/-- Rewriting an alias to itself keeps package names and free texts; only imports may get
their alias written out. -/
theorem rewrite_ofAlias_self {a : String} (ha : isIdentifier a = true) (n : Node) :
    (n.rewrite (.ofAlias a a)).packages = n.packages ∧
      (n.rewrite (.ofAlias a a)).texts = n.texts := by
  have hpackage : (Rewriting.ofAlias a a).package = id := by
    funext name
    simp only [Rewriting.ofAlias, id]
    split <;> simp_all
  have hcode : (Rewriting.ofAlias a a).code = id :=
    funext fun text => Qualifier.substitute_self ha text
  rw [packages_rewrite, texts_rewrite, hpackage, hcode, List.map_id, List.map_id]
  exact ⟨rfl, rfl⟩

theorem not_hasForeign_rewrite {n : Node} (h : ¬ n.HasForeign) (w : Rewriting) :
    ¬ (n.rewrite w).HasForeign := by
  rintro ⟨kind, data, hmem⟩
  exact h ⟨kind, data, foreign_mem_of_mem_rewrite w hmem⟩

theorem renameInPlace_eq_rewrite {n : Node} (hforeign : ¬ n.HasForeign) {old new : String}
    (hold : isIdentifier old = true) (hnew : isIdentifier new = true) :
    n.renameInPlace old new = (n.rewrite (.ofAlias old new), none) := by
  rw [renameInPlace, renameImports_eq_ok hold hnew hforeign]

/-- Renamings compose through an alias that nothing in the node goes by: the two steps
succeed and leave the tree that the direct renaming leaves. Going back to the first alias
restores every package name and every free text. -/
theorem renameImports_via_fresh {n : Node} {a b c : String} (hforeign : ¬ n.HasForeign)
    (ha : isIdentifier a = true) (hb : isIdentifier b = true) (hc : isIdentifier c = true)
    (hfresh : n.Fresh b) :
    (∃ m k, n.renameImports a b = .ok m ∧ m.renameImports b c = .ok k ∧
      n.renameImports a c = .ok k) ∧
    ∃ m k, n.renameImports a b = .ok m ∧ m.renameImports b a = .ok k ∧
      k.packages = n.packages ∧ k.texts = n.texts := by
  have hfirst := renameImports_eq_ok ha hb hforeign
  have hforeign' := not_hasForeign_rewrite hforeign (.ofAlias a b)
  have hsecond {d : String} (hd : isIdentifier d = true) :
      (n.rewrite (.ofAlias a b)).renameImports b d = .ok (n.rewrite (.ofAlias a d)) := by
    rw [renameImports_eq_ok hb hd hforeign', hfresh.rewrite_rewrite ha hb]
  constructor
  · exact ⟨_, _, hfirst, hsecond hc, renameImports_eq_ok ha hc hforeign⟩
  · exact ⟨_, _, hfirst, hsecond ha, rewrite_ofAlias_self ha n⟩

/-- Independent renamings commute: neither alias that is replaced is one that the other
renaming replaces or puts in. Without a foreign type both orders succeed and leave the same
tree, even if both renamings put in the same alias. With one, each renaming is refused with
the same fault and leaves the node as it was. -/
theorem renameInPlace_comm {n : Node} {a b c d : String} (ha : isIdentifier a = true)
    (hb : isIdentifier b = true) (hc : isIdentifier c = true) (hd : isIdentifier d = true)
    (hac : a ≠ c) (had : a ≠ d) (hbc : b ≠ c) :
    (¬ n.HasForeign → ∃ m m' k,
      n.renameInPlace a b = (m, none) ∧ m.renameInPlace c d = (k, none) ∧
      n.renameInPlace c d = (m', none) ∧ m'.renameInPlace a b = (k, none)) ∧
    (n.HasForeign → ∃ kind,
      n.renameInPlace a b = (n, some (.invariant [.part "Spec"] (.foreignType kind))) ∧
      n.renameInPlace c d = (n, some (.invariant [.part "Spec"] (.foreignType kind)))) := by
  constructor
  · intro hforeign
    have hforeign' (w : Rewriting) : ¬ (n.rewrite w).HasForeign := not_hasForeign_rewrite hforeign w
    refine ⟨_, _, _, renameInPlace_eq_rewrite hforeign ha hb,
      renameInPlace_eq_rewrite (hforeign' _) hc hd, renameInPlace_eq_rewrite hforeign hc hd, ?_⟩
    rw [renameInPlace_eq_rewrite (hforeign' _) ha hb, rewrite_rewrite, rewrite_rewrite,
      Rewriting.ofAlias_andThen_comm ha hb hc hd hac had hbc]
  · intro hforeign
    obtain ⟨kind, hfault⟩ := exists_fault_of_hasForeign hforeign
    refine ⟨kind, ?_, ?_⟩
    · rw [renameInPlace, renameImports_eq_fault ha hb hfault]
    · rw [renameInPlace, renameImports_eq_fault hc hd hfault]

end Node

/-- A file that refers to an unnamed import in a type and, twice, in a value. -/
def File.usingUnnamed : File where
  name := "f.go"
  package := "p"
  imports := [{ items := [{ path := "a/x" }] }]
  vars := [{ items := [{ name := "v", type := some (.named ⟨"x", "T", false⟩),
                         value := "x .A(x.B)" }] }]

/-- By way of a fresh alias the import gets its last alias, as do the type and the value. -/
theorem Node.renameImports_via_fresh_usingUnnamed :
    ∃ m k, (Node.file File.usingUnnamed).renameImports "x" "y" = .ok m ∧
      m.renameImports "y" "z" = .ok k ∧ k.packages = ["z"] ∧ k.texts = ["", "z .A(z.B)"] := by
  have hforeign : ¬ (Node.file File.usingUnnamed).HasForeign := by
    rintro ⟨kind, data, h⟩
    simp [File.usingUnnamed, Node.parts, File.parts, Group.parts, Import.parts, Var.parts,
      TypeExpr.parts] at h
  have hfresh : (Node.file File.usingUnnamed).Fresh "y" := by
    constructor
    · intro t h
      obtain rfl : t = ⟨"x", "T", false⟩ := by
        simpa [File.usingUnnamed, Node.parts, File.parts, Group.parts, Import.parts, Var.parts,
          TypeExpr.parts] using h
      decide
    · intro i h
      obtain rfl : i = { path := "a/x" } := by
        simpa [File.usingUnnamed, Node.parts, File.parts, Group.parts, Import.parts, Var.parts,
          TypeExpr.parts] using h
      decide
    · decide
  obtain ⟨⟨m, k, hm, hk, hdirect⟩, -⟩ := renameImports_via_fresh hforeign
    (by decide : isIdentifier "x" = true) (by decide : isIdentifier "y" = true)
    (by decide : isIdentifier "z" = true) hfresh
  have htree := renameImports_eq_ok (by decide : isIdentifier "x" = true)
    (by decide : isIdentifier "z" = true) hforeign
  obtain rfl := Except.ok.inj (hdirect.symm.trans htree)
  exact ⟨m, _, hm, hk, by decide, by decide +kernel⟩

/-- A variable that refers to two imports, one of them twice. -/
def Var.usingTwo : Var where
  name := "v"
  type := some (.map (.named ⟨"x", "K", false⟩) (.named ⟨"y", "T", true⟩))
  value := "x.F(y .A)+x.B"

/-- Both aliases can become one, in either order. -/
theorem Node.renameInPlace_comm_usingTwo :
    ∃ m m' k, (Node.var Var.usingTwo).renameInPlace "x" "z" = (m, none) ∧
      m.renameInPlace "y" "z" = (k, none) ∧
      (Node.var Var.usingTwo).renameInPlace "y" "z" = (m', none) ∧
      m'.renameInPlace "x" "z" = (k, none) ∧
      m.texts = ["z.F(y .A)+z.B"] ∧ m'.texts = ["x.F(z .A)+x.B"] := by
  have hforeign : ¬ (Node.var Var.usingTwo).HasForeign := by
    rintro ⟨kind, data, h⟩
    simp [Var.usingTwo, Node.parts, Var.parts, TypeExpr.parts] at h
  have hx : isIdentifier "x" = true := by decide
  have hy : isIdentifier "y" = true := by decide
  have hz : isIdentifier "z" = true := by decide
  obtain ⟨m, m', k, hm, hk, hm', hk'⟩ :=
    (renameInPlace_comm hx hz hy hz (by decide) (by decide) (by decide)).1 hforeign
  have hfirst := (renameInPlace_eq_rewrite hforeign hx hz).symm.trans hm
  have hother := (renameInPlace_eq_rewrite hforeign hy hz).symm.trans hm'
  refine ⟨m, m', k, hm, hk, hm', hk', ?_, ?_⟩
  · rw [← (Prod.mk.inj hfirst).1]
    decide +kernel
  · rw [← (Prod.mk.inj hother).1]
    decide +kernel

end GoSource
