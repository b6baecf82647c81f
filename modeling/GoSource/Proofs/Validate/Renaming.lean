import GoSource.Proofs.Check.ExpressionGrammar
import GoSource.Proofs.Imports.RenamingLaws
import GoSource.Proofs.Imports.RenderedType
import GoSource.Proofs.Token.Respelling
import GoSource.Proofs.Validate.LocalRules

/-!
# Validity after a renaming

A valid tree is valid again after an alias was renamed, free text included, if the two
aliases are read as names in every text that uses the old one. Two sorts of identifier are
not: keywords, and those with an underscore in front that stand right after the sign of an
exponent, where a number draws them in. Trees at the end do not survive renamings of these.
-/

namespace GoSource

section Checks

variable {src src' : String} {ts ts' : List Token}

theorem Expression.dropInserted_eq (ts : List Token) :
    dropInserted ts = if ts.getLast?.any Token.isInserted then ts.dropLast else ts := by
  unfold dropInserted
  cases hlast : ts.getLast? with
  | none => rfl
  | some t => cases t <;> rfl

theorem Expression.dropInserted_kinds (h : ts'.map Token.mark = ts.map Token.mark) :
    (dropInserted ts').map Token.kind = (dropInserted ts).map Token.kind := by
  have hlast : ts'.getLast?.any Token.isInserted = ts.getLast?.any Token.isInserted := by
    have hmarks : (ts'.map Token.mark).getLast?.any Prod.snd =
        (ts.map Token.mark).getLast?.any Prod.snd := by rw [h]
    simpa [List.getLast?_map, Option.any_map, Function.comp_def, Token.mark] using hmarks
  rw [dropInserted_eq, dropInserted_eq, hlast]
  split
  · rw [List.map_dropLast, List.map_dropLast, Token.kinds_of_marks h]
  · exact Token.kinds_of_marks h

/-- The judgement on an expression looks at the marks of its tokens only. -/
theorem Expression.check_of_marks (hts : tokenize src = .ok ts) (hts' : tokenize src' = .ok ts')
    (hmarks : ts'.map Token.mark = ts.map Token.mark) (h : check src = .ok ()) :
    check src' = .ok () := by
  have hkinds := dropInserted_kinds hmarks
  simp only [check, hts, hts', bind, Except.bind] at h ⊢
  rw [checkTokens_eq_ok_iff, exists_getLast?_iff] at h ⊢
  rw [hkinds]
  exact h

/-- The judgements on a body and on a file look at the kinds of the tokens only. -/
theorem SourceFile.checks_of_kinds
    (h : kindsFrom false src'.toList = kindsFrom false src.toList) :
    (checkBody src' = .ok () ↔ checkBody src = .ok ()) ∧
      (check src' = .ok () ↔ check src = .ok ()) := by
  rw [checkBody_eq_ok_iff_run, checkBody_eq_ok_iff_run, check_eq_ok_iff, check_eq_ok_iff,
    Phase.scan, Phase.scan, h]
  exact ⟨Iff.rfl, Iff.rfl⟩

/-- A text that passes some judgement can be read to its end. -/
theorem Checker.exists_tokens
    (h : Checker.standard.expression src = .ok () ∨ Checker.standard.body src = .ok () ∨
      Checker.standard.file src = .ok ()) : ∃ ts, tokenize src = .ok ts := by
  have hkinds : ∀ {ks}, kindsFrom false src.toList = some ks → ∃ ts, tokenize src = .ok ts := by
    intro ks hks
    rw [kindsFrom_toList] at hks
    cases htokens : tokenize src with
    | error d => simp [htokens, Except.toOption] at hks
    | ok ts => exact ⟨ts, rfl⟩
  obtain h | h | h := h
  · obtain ⟨ts, -, -, -, hts, -⟩ := Expression.exists_tokens h
    exact ⟨ts, hts⟩
  · obtain ⟨ks, hks, -⟩ := (SourceFile.checkBody_eq_ok_iff_run src).mp h
    exact hkinds hks
  · obtain ⟨pastImports, hscan⟩ := (SourceFile.check_eq_ok_iff src).mp h
    obtain ⟨ks, hks, -⟩ := Option.bind_eq_some_iff.mp hscan
    exact hkinds hks

end Checks

/-- A text passes every judgement that another one passes, and is empty if that one is. -/
structure Checker.Follows (checker : Checker) (src src' : String) : Prop where
  expression : checker.expression src = .ok () → checker.expression src' = .ok ()
  body : checker.body src = .ok () → checker.body src' = .ok ()
  file : checker.file src = .ok () → checker.file src' = .ok ()
  empty : src' = "" ↔ src = ""

theorem Checker.Follows.refl (checker : Checker) (src : String) : checker.Follows src src :=
  ⟨id, id, id, Iff.rfl⟩

/-- Texts that are read alike pass the same judgements. -/
theorem Checker.standard_follows {src src' : String}
    (h : ∀ ts, tokenize src = .ok ts →
      ∃ ts', tokenize src' = .ok ts' ∧ ts'.map Token.mark = ts.map Token.mark)
    (hempty : src' = "" ↔ src = "") : Checker.standard.Follows src src' := by
  have kinds : ∀ {ts ts'}, tokenize src = .ok ts → tokenize src' = .ok ts' →
      ts'.map Token.mark = ts.map Token.mark →
      kindsFrom false src'.toList = kindsFrom false src.toList := by
    intro ts ts' hts hts' hmarks
    rw [kindsFrom_of_tokenize hts, kindsFrom_of_tokenize hts', Token.kinds_of_marks hmarks]
  refine ⟨fun hpass => ?_, fun hpass => ?_, fun hpass => ?_, hempty⟩
  · obtain ⟨ts, hts⟩ := exists_tokens (.inl hpass)
    obtain ⟨ts', hts', hmarks⟩ := h ts hts
    exact Expression.check_of_marks hts hts' hmarks hpass
  · obtain ⟨ts, hts⟩ := exists_tokens (.inr (.inl hpass))
    obtain ⟨ts', hts', hmarks⟩ := h ts hts
    exact (SourceFile.checks_of_kinds (kinds hts hts' hmarks)).1.mpr hpass
  · obtain ⟨ts, hts⟩ := exists_tokens (.inr (.inr hpass))
    obtain ⟨ts', hts', hmarks⟩ := h ts hts
    exact (SourceFile.checks_of_kinds (kinds hts hts' hmarks)).2.mpr hpass

section Parts

variable {w : Rewriting} {checker : Checker}

theorem TypeExpr.obeys_rewrite (hnames : w.KeepsNames) {t : TypeExpr} (h : t.Obeys) :
    (t.rewrite w).Obeys := by
  cases t with
  | named t =>
    obtain ⟨hname, hpackage⟩ := h
    rw [← String.isEmpty_iff] at hpackage
    have hpackage' := hnames t.package hpackage
    rw [String.isEmpty_iff] at hpackage'
    exact ⟨hname, hpackage'⟩
  | array element length ellipsis => exact h
  | map key value => trivial
  | struct fields =>
    simp only [Obeys, TypeExpr.rewrite, Field.rewriteAll_eq, List.forall_mem_map] at h ⊢
    intro f hf hname
    obtain ⟨t, ht⟩ := h f hf (by simpa using hname)
    exact ⟨_, by rw [Field.rewrite_eq, ht, TypeExpr.rewrite]⟩
  | interface members =>
    simp only [Obeys, TypeExpr.rewrite, Field.rewriteAll_eq, List.forall_mem_map] at h ⊢
    intro f hf
    rw [Field.rewrite_eq]
    obtain ⟨hname, t, ht, hpointer⟩ | ⟨hname, s, hs⟩ := h f hf
    · rw [ht]
      exact .inl ⟨hname, _, rfl, hpointer⟩
    · rw [hs]
      exact .inr ⟨hname, _, rfl⟩
  | func s =>
    obtain ⟨hvariadic, hresults⟩ := h
    simp only [Obeys, TypeExpr.rewrite, Signature.rewrite_eq, List.getLast?_map,
      List.forall_mem_map, Field.rewrite_eq]
    refine ⟨fun hv => ?_, hresults⟩
    obtain ⟨last, element, hlast, htype⟩ := hvariadic hv
    refine ⟨_, element.rewrite w, by rw [hlast]; rfl, ?_⟩
    rw [Field.rewrite_eq, htype, TypeExpr.rewrite]
  | foreign kind data => exact h

/-- What the rewriting puts for an import keeps the rule of imports. -/
def Rewriting.KeepsImports (w : Rewriting) (checker : Checker) : Prop :=
  ∀ i, (Node.importDecl i).Obeys checker → (Node.importDecl (w.entry i)).Obeys checker

/-- One part of a tree keeps its rule, whatever the rewriting does elsewhere. -/
theorem Node.obeys_rewrite (hnames : w.KeepsNames) (hlocal : w.package "" = "")
    (himports : w.KeepsImports checker) {p : Node}
    (htext : ∀ text, p.text? = some text → checker.Follows text (w.code text))
    (h : p.Obeys checker) : (p.rewrite w).Obeys checker := by
  cases p with
  | type t => exact t.obeys_rewrite hnames h
  | field f =>
    rw [Node.rewrite, Field.rewrite_eq]
    exact h
  | const c =>
    obtain ⟨hname, hannotations, hpointer, hvalue⟩ := h
    have hfollows := htext c.value rfl
    refine ⟨hname, hannotations, ?_, hvalue.imp hfollows.empty.mpr hfollows.expression⟩
    intro t ht
    obtain ⟨u, hu, hrewrite⟩ := Option.map_eq_some_iff.mp ht
    cases u with
    | named u =>
      cases hrewrite
      exact hpointer u hu
    | array | map | struct | interface | func | foreign => cases hrewrite
  | var v =>
    obtain ⟨hname, hannotations, hgiven, hvalue⟩ := h
    have hfollows := htext v.value rfl
    refine ⟨hname, hannotations, hgiven.imp ?_ ?_,
      hvalue.imp hfollows.empty.mpr hfollows.expression⟩
    · intro htype
      simpa [Var.rewrite] using htype
    · exact fun hne hempty => hne (hfollows.empty.mp hempty)
  | typeDecl t => exact h
  | func f =>
    obtain ⟨hname, hannotations, hreceiver, hcontent⟩ := h
    have hfollows := htext f.content rfl
    refine ⟨hname, hannotations, ?_, hcontent.imp hfollows.empty.mpr hfollows.body⟩
    intro r hr
    obtain ⟨q, hq, rfl⟩ := Option.map_eq_some_iff.mp hr
    obtain ⟨t, ht, hpackage⟩ := hreceiver q hq
    refine ⟨_, by rw [Field.rewrite_eq, ht, TypeExpr.rewrite], ?_⟩
    rw [hpackage, hlocal]
  | importDecl i => exact himports i h
  | constGroup | varGroup | typeGroup | importGroup => trivial
  | file f =>
    obtain ⟨hname, hpackage, hannotations, hcontent⟩ := h
    have hfollows := htext f.content rfl
    exact ⟨hname, hpackage, hannotations, hcontent.imp hfollows.empty.mpr hfollows.file⟩

/-- A valid tree stays valid if its texts pass what they passed before. -/
theorem Node.validate_rewrite (hnames : w.KeepsNames) (hlocal : w.package "" = "")
    (himports : w.KeepsImports checker) {n : Node}
    (htexts : ∀ text ∈ n.texts, checker.Follows text (w.code text))
    (h : n.validate checker = .ok ()) : (n.rewrite w).validate checker = .ok () := by
  rw [validate_iff_parts] at h ⊢
  rw [parts_rewrite, List.forall_mem_map]
  intro p hp
  refine obeys_rewrite hnames hlocal himports (fun text htext => ?_) (h p hp)
  exact htexts text (List.mem_filterMap.mpr ⟨p, hp, htext⟩)

end Parts

section Aliases

variable {old new : String}

/-- Both aliases are read as names in a text that uses the old one: they are no keywords, and
no number of the text draws them in, before the renaming or after it. -/
structure ReadAsNames (old new text : String) : Prop where
  old_keyword : Keyword.ofSpelling? old.toList = none
  new_keyword : Keyword.ofSpelling? new.toList = none
  before : Tight old.toList text
  after : Tight new.toList (Qualifier.substitute text old new)

/-- A text without the old alias is kept. -/
theorem Qualifier.substitute_eq_self {text : String} (hold : isIdentifier old = true)
    (h : references text old = false) : substitute text old new = text := by
  apply String.toList_injective
  rw [toList_substitute hold, respell_congr (g := id), respell_id]
  intro name hmem
  have hne : name ≠ old.toList := by
    intro heq
    subst heq
    rw [(references_iff hold).mpr hmem] at h
    cases h
  simp [replaceName, hne]

variable (hold : isIdentifier old = true) (hnew : isIdentifier new = true)
include hold hnew

theorem Qualifier.substitute_eq_empty_iff (text : String) :
    substitute text old new = "" ↔ text = "" := by
  have hrespelled := Respelled.of_respell old.toList new.toList true text.toList
  rw [← toList_substitute hold] at hrespelled
  rw [← String.toList_eq_nil_iff, ← String.toList_eq_nil_iff]
  constructor
  · intro h
    rw [h] at hrespelled
    exact hrespelled.nil_right (isName_iff.mp hnew)
  · intro h
    rw [h] at hrespelled
    exact hrespelled.nil_left (isName_iff.mp hold)

/-- A text passes with the new alias what it passed with the old one. -/
theorem Checker.standard_follows_substitute {text : String}
    (h : Qualifier.references text old = true → ReadAsNames old new text) :
    Checker.standard.Follows text (Qualifier.substitute text old new) := by
  cases huse : Qualifier.references text old with
  | false =>
    rw [Qualifier.substitute_eq_self hold huse]
    exact .refl _ text
  | true =>
    obtain ⟨hkeyword, hkeyword', htight, htight'⟩ := h huse
    have hrespelled := Respelled.of_respell old.toList new.toList true text.toList
    rw [← Qualifier.toList_substitute hold] at hrespelled
    refine standard_follows (fun ts hts => ?_) (Qualifier.substitute_eq_empty_iff hold hnew text)
    exact tokenize_respelled (isName_iff.mp hold) (isName_iff.mp hnew) hkeyword hkeyword' hrespelled
      hts htight htight'

omit hold in
theorem Rewriting.keepsImports_ofAlias (checker : Checker) :
    (Rewriting.ofAlias old new).KeepsImports checker := by
  intro i h
  simp only [Rewriting.ofAlias]
  split
  · exact ⟨.inr hnew, h.2⟩
  · exact h

omit hold hnew in
/-- A renaming that succeeds is one of identifiers, and rewrites the whole tree. -/
theorem Node.eq_rewrite_of_renameImports {n renamed : Node}
    (h : n.renameImports old new = .ok renamed) :
    isIdentifier old = true ∧ isIdentifier new = true ∧
      renamed = n.rewrite (.ofAlias old new) := by
  by_cases hold : isIdentifier old = true
  · by_cases hnew : isIdentifier new = true
    · refine ⟨hold, hnew, ?_⟩
      by_cases hforeign : n.HasForeign
      · obtain ⟨kind, herror⟩ := renameImports_eq_error hold hnew hforeign
        cases h.symm.trans herror
      · exact Except.ok.inj (h.symm.trans (renameImports_eq_ok hold hnew hforeign))
    · simp [renameImports, Renaming.make, hold, hnew, bind, Except.bind] at h
  · simp [renameImports, Renaming.make, hold, bind, Except.bind] at h

end Aliases

/-- A valid tree is valid after a renaming that succeeds, its free texts included, if every
text that uses the old alias reads both aliases as names. -/
theorem Node.validate_renameImports {n renamed : Node} {old new : String}
    (hvalid : n.validate .standard = .ok ()) (hrename : n.renameImports old new = .ok renamed)
    (htexts : ∀ text ∈ n.texts, Qualifier.references text old = true → ReadAsNames old new text) :
    renamed.validate .standard = .ok () := by
  obtain ⟨hold, hnew, rfl⟩ := eq_rewrite_of_renameImports hrename
  have hlocal : (Rewriting.ofAlias old new).package "" = "" := by
    rw [← String.isEmpty_iff, Rewriting.isEmpty_package_ofAlias hold hnew]
    rfl
  exact validate_rewrite (Rewriting.keepsNames_ofAlias old hnew) hlocal
    (Rewriting.keepsImports_ofAlias hnew .standard)
    (fun text htext => Checker.standard_follows_substitute hold hnew (htexts text htext)) hvalid

/-- A function that multiplies by something of a package, and says so in a comment. -/
def FuncDecl.scaled (package : String) : FuncDecl where
  name := "scaled"
  signature := ⟨[], [], false⟩
  content := "x := 1e+2 * " ++ package ++ ".Pi // " ++ package ++ ".Pi"

/-- Both aliases start with an underscore, and there is a signed exponent in the text. -/
theorem Node.validate_scaled_renamed :
    (Node.func (.scaled "_m")).renameImports "_m" "_math" = .ok (.func (.scaled "_math")) ∧
      (Node.func (.scaled "_math")).validate .standard = .ok () := by
  have hvalid : (Node.func (.scaled "_m")).validate .standard = .ok () := by decide +kernel
  have hrename : (Node.func (.scaled "_m")).renameImports "_m" "_math" =
      .ok (.func (.scaled "_math")) := by decide +kernel
  refine ⟨hrename, Node.validate_renameImports hvalid hrename fun text htext _ => ?_⟩
  obtain rfl : (FuncDecl.scaled "_m").content = text := by
    simpa [texts, parts, FuncDecl.parts, FuncDecl.scaled, TypeExpr.parts, text?] using htext
  exact ⟨by decide, by decide, by decide +kernel, by decide +kernel⟩

/-- The tree is valid, and is not any more after a renaming that succeeds. -/
def Node.BrokenBy (old new : String) (n : Node) : Prop :=
  n.validate .standard = .ok () ∧
    ∃ renamed, n.renameImports old new = .ok renamed ∧ renamed.validate .standard ≠ .ok ()

/-- Trees that do not survive a renaming: to a keyword, from a keyword, from an alias that a
number has drawn in, and to one that a number draws in. -/
theorem Node.brokenBy_unread_aliases :
    (Node.const { name := "c", value := "pkg.X" }).BrokenBy "pkg" "if" ∧
    (Node.file { name := "p.go", package := "p", content := "package p\nvar.x" }).BrokenBy
      "var" "v" ∧
    (Node.const { name := "c", value := "1e+_5.X" }).BrokenBy "_5" "pkg" ∧
    (Node.const { name := "c", value := "f(1e+pkg.X)" }).BrokenBy "pkg" "_for" := by
  refine ⟨⟨by decide +kernel, .const { name := "c", value := "if.X" }, ?_⟩,
    ⟨by decide +kernel, .file { name := "p.go", package := "p", content := "package p\nv.x" }, ?_⟩,
    ⟨by decide +kernel, .const { name := "c", value := "1e+pkg.X" }, ?_⟩,
    ⟨by decide +kernel, .const { name := "c", value := "f(1e+_for.X)" }, ?_⟩⟩
  all_goals decide +kernel

end GoSource
