import GoSource.Proofs.Imports.Renaming
import GoSource.Proofs.Layout.Type
import GoSource.Proofs.Validate.Rewriting

/-!
# Renaming an alias in the text of a type

A type can be renamed as a tree or, once it is written out, as free text. The two
agree on every valid type without comments and tags, except where a variadic
parameter is concerned: the points before its elements make a qualifier of its name,
and hide a qualifier that follows them.
-/

namespace GoSource.Qualifier

/-- No point follows the text, nor its continuations, over blanks only. -/
def Pointless (cs : List Char) : Prop := ∀ rest, pointAfterBlanks? (cs ++ rest) = none

/-- What can follow a name that is no qualifier. -/
def Follows (rest : List Char) : Prop :=
  (∀ c ∈ rest.head?, isNamePart c = false) ∧ pointAfterBlanks? rest = none

theorem pointless_cons {c : Char} {cs : List Char} (hblank : Text.isBlank c = false)
    (hpoint : c ≠ '.') : Pointless (c :: cs) := by
  intro rest
  simp [pointAfterBlanks?, hblank, hpoint]

theorem pointless_blank {c : Char} {cs : List Char} (hpoint : c ≠ '.') (h : Pointless cs) :
    Pointless (c :: cs) := by
  intro rest
  cases hblank : Text.isBlank c <;> simp [pointAfterBlanks?, hblank, hpoint, h rest]

theorem pointless_append {w cs : List Char} (hw : ∀ c ∈ w, c ≠ '.') (h : Pointless cs) :
    Pointless (w ++ cs) := by
  induction w with
  | nil => exact h
  | cons c w ih =>
    exact pointless_blank (hw c (by simp)) (ih fun d hd => hw d (List.mem_cons_of_mem _ hd))

theorem pointless_margin (indent : Indent) (depth : Nat) {cs : List Char} (h : Pointless cs) :
    Pointless (indent.margin depth ++ cs) := by
  apply pointless_append _ h
  intro c hc
  rcases Indent.mem_margin hc with rfl | rfl <;> decide

theorem pointless_name {name : List Char} (h : IsName name) (cs : List Char) :
    Pointless (name ++ cs) := by
  intro rest
  rw [List.append_assoc]
  exact pointAfterBlanks?_name h (cs ++ rest)

theorem Pointless.follows {c : Char} {cs : List Char} (h : Pointless (c :: cs))
    (hc : isNamePart c = false) (rest : List Char) : Follows (c :: cs ++ rest) :=
  ⟨by simpa using hc, h rest⟩

theorem Follows.startsUse_eq_false {rest : List Char} (h : Follows rest) :
    startsUse rest = false := by
  cases rest with
  | nil => rfl
  | cons c cs =>
    apply startsUse_eq_false_of_not_isNameStart
    by_contra hstart
    have hpart := isNamePart_of_isNameStart (Bool.of_not_eq_false hstart)
    rw [h.1 c rfl] at hpart
    cases hpart

theorem Follows.pieces_eq {rest : List Char} (h : Follows rest) (b : Bool) :
    pieces b rest = pieces false rest := by
  cases b with
  | false => rfl
  | true => exact pieces_true_eq_false h.startsUse_eq_false

/-- In front of anything that can follow it, the text `cs` reads as pieces that are
`cs'` after the renaming; `uses` says whether the old alias is among them. -/
def Renames (old new : List Char) (b : Bool) (cs cs' : List Char) (uses : Prop) : Prop :=
  ∃ ps, (∀ rest, Follows rest → pieces b (cs ++ rest) = ps ++ pieces false rest) ∧
    ps.flatMap (Piece.spell (replaceName old new)) = cs' ∧ (.use old ∈ ps ↔ uses)

namespace Renames

variable {old new : List Char} {b : Bool} {cs cs' ds ds' : List Char} {uses uses' : Prop}

theorem congr (h : Renames old new b cs cs' uses) (hiff : uses ↔ uses') :
    Renames old new b cs cs' uses' := by
  obtain ⟨ps, hps, hspell, huse⟩ := h
  exact ⟨ps, hps, hspell, huse.trans hiff⟩

theorem nil (old new : List Char) (b : Bool) : Renames old new b [] [] False :=
  ⟨[], fun _ hrest => hrest.pieces_eq b, rfl, by simp⟩

/-- A character that starts no name. -/
theorem sign {c : Char} (hc : isNameStart c = false)
    (h : Renames old new (isBoundary c) ds ds' uses) :
    Renames old new b (c :: ds) (c :: ds') uses := by
  obtain ⟨ps, hps, hspell, huse⟩ := h
  refine ⟨.char c :: ps, ?_, ?_, ?_⟩
  · intro rest hrest
    rw [List.cons_append, pieces_char fun _ => startsUse_eq_false_of_not_isNameStart hc,
      hps rest hrest]
    rfl
  · simp [Piece.spell, hspell]
  · simp [huse]

/-- A run of such characters. -/
theorem signs {w : List Char} (hw : ∀ c ∈ w, isNameStart c = false)
    (h : ∀ b, Renames old new b ds ds' uses) (b : Bool) :
    Renames old new b (w ++ ds) (w ++ ds') uses := by
  induction w generalizing b with
  | nil => exact h b
  | cons c w ih =>
    exact sign (hw c (by simp)) (ih (fun d hd => hw d (List.mem_cons_of_mem _ hd)) _)

/-- A name that no point follows. -/
theorem name {w : List Char} (hw : IsName w) : Renames old new b w w False := by
  refine ⟨w.map .char, ?_, flatMap_spell_map_char _ w, by simp⟩
  intro rest hrest
  have hfalse := pieces_false_append (fun _ hc => hw.isNamePart hc) rest
  rcases pieces_true_cases (w ++ rest) with ⟨-, htrue⟩ | ⟨w', rest', heq, hw', hpoint, -⟩
  · cases b
    · exact hfalse
    · rw [htrue, hfalse]
  · -- The name would end where another ends before a point.
    exfalso
    have h₁ := takeWhile_append_of_head (p := isNamePart) (fun _ hc => hw.isNamePart hc) hrest.1
    have h₂ := takeWhile_append_of_head (p := isNamePart) (fun _ hc => hw'.isNamePart hc)
      (isNamePart_head_of_point hpoint)
    rw [heq] at h₁
    rw [← h₂.2, h₁.2, hrest.2] at hpoint
    cases hpoint

/-- One text after another, with a sign between them that ends a name. -/
theorem append_sign {c : Char} (h : Renames old new b cs cs' uses) (hc : isNamePart c = false)
    (hpoint : Pointless (c :: ds)) (hds : Renames old new (isBoundary c) ds ds' uses') :
    Renames old new b (cs ++ c :: ds) (cs' ++ c :: ds') (uses ∨ uses') := by
  have hstart : isNameStart c = false := by
    by_contra hs
    rw [isNamePart_of_isNameStart (Bool.of_not_eq_false hs)] at hc
    cases hc
  obtain ⟨ps, hps, hspell, huse⟩ := h
  obtain ⟨qs, hqs, hspell', huse'⟩ := sign (b := false) hstart hds
  refine ⟨ps ++ qs, ?_, ?_, ?_⟩
  · intro rest hrest
    rw [List.append_assoc, hps _ (hpoint.follows hc rest), hqs rest hrest, List.append_assoc]
  · rw [List.flatMap_append, hspell, hspell']
  · rw [List.mem_append, huse, huse']

/-- A qualifier and the name after it. -/
theorem qualified {p w : List Char} (hp : IsName p) (hw : IsName w) :
    Renames old new true (p ++ '.' :: w) (replaceName old new p ++ '.' :: w) (old = p) := by
  have hname : Renames old new (isBoundary '.') w w False := name hw
  obtain ⟨ps, hps, hspell, huse⟩ := sign (c := '.') (b := false) (by decide) hname
  refine ⟨.use p :: ps, ?_, ?_, ?_⟩
  · intro rest hrest
    have hpoint : (pointAfterBlanks? ('.' :: w ++ rest)).isSome = true := by
      simp [pointAfterBlanks?]
    rw [List.append_assoc, pieces_name_append hp hpoint, hps rest hrest]
    rfl
  · simp [Piece.spell, hspell]
  · simp [huse]

/-- A qualifier where none can stand is a name like any other. -/
theorem unqualified {p w : List Char} (hp : IsName p) (hw : IsName w) :
    Renames old new false (p ++ '.' :: w) (p ++ '.' :: w) False := by
  have hname : Renames old new (isBoundary '.') w w False := name hw
  obtain ⟨ps, hps, hspell, huse⟩ := sign (c := '.') (b := false) (by decide) hname
  refine ⟨p.map .char ++ ps, ?_, ?_, ?_⟩
  · intro rest hrest
    rw [List.append_assoc, pieces_false_append (fun _ hc => hp.isNamePart hc), hps rest hrest,
      List.append_assoc]
  · rw [List.flatMap_append, flatMap_spell_map_char, hspell]
  · simp [huse]

/-- A name before a blank and a point reads as a qualifier. -/
theorem name_before_point {w : List Char} (hw : IsName w) (hne : w ≠ old)
    (h : Renames old new false ds ds' uses) :
    Renames old new true (w ++ ' ' :: '.' :: ds) (w ++ ' ' :: '.' :: ds') uses := by
  obtain ⟨ps, hps, hspell, huse⟩ := sign (b := false) (c := ' ') (by decide)
    (sign (c := '.') (by decide) h)
  refine ⟨.use w :: ps, ?_, ?_, ?_⟩
  · intro rest hrest
    have hblank : Text.isBlank ' ' = true := by decide
    have hpoint : (pointAfterBlanks? (' ' :: '.' :: ds ++ rest)).isSome = true := by
      simp [pointAfterBlanks?, hblank]
    rw [List.append_assoc, pieces_name_append hw hpoint, hps rest hrest]
    rfl
  · simp [Piece.spell, hspell, replaceName, hne]
  · simp [huse, hne.symm]

/-- Blanks, which are boundaries. -/
theorem blanks {w : List Char} (hw : ∀ c ∈ w, c = '\t' ∨ c = ' ')
    (h : Renames old new true ds ds' uses) :
    Renames old new true (w ++ ds) (w ++ ds') uses := by
  induction w with
  | nil => exact h
  | cons c w ih =>
    have ih' := ih fun d hd => hw d (List.mem_cons_of_mem _ hd)
    rcases hw c (by simp) with rfl | rfl
    · exact sign (by decide) ih'
    · exact sign (by decide) ih'

end Renames

end GoSource.Qualifier

namespace GoSource

open Qualifier MemberLayout

/-- A named type at some depth is qualified with the name. -/
def TypeExpr.Names (t : TypeExpr) (name : String) : Prop :=
  ∃ u, .type (.named u) ∈ t.parts ∧ u.package = name

namespace TypeExpr

variable {name : String}

@[simp] theorem names_named {u : NamedType} : (named u).Names name ↔ u.package = name := by
  simp [Names, parts]

@[simp] theorem names_array {element : TypeExpr} {length : Int} {ellipsis : Bool} :
    (array element length ellipsis).Names name ↔ element.Names name := by
  simp [Names, parts]

@[simp] theorem names_map {key value : TypeExpr} :
    (map key value).Names name ↔ key.Names name ∨ value.Names name := by
  simp [Names, parts, or_and_right, exists_or]

theorem names_fields {fs : List Field} :
    (∃ u, .type (.named u) ∈ fs.flatMap Field.parts ∧ u.package = name) ↔
      ∃ f ∈ fs, f.type.Names name := by
  simp only [List.mem_flatMap, Field.parts_eq, List.mem_cons, reduceCtorEq, false_or, Names]
  constructor
  · rintro ⟨u, ⟨f, hf, hu⟩, hname⟩
    exact ⟨f, hf, u, hu, hname⟩
  · rintro ⟨f, hf, u, hu, hname⟩
    exact ⟨u, ⟨f, hf, hu⟩, hname⟩

@[simp] theorem names_struct {fs : List Field} :
    (struct fs).Names name ↔ ∃ f ∈ fs, f.type.Names name := by
  rw [← names_fields]
  simp [Names, parts]

@[simp] theorem names_interface {fs : List Field} :
    (interface fs).Names name ↔ ∃ f ∈ fs, f.type.Names name := by
  rw [← names_fields]
  simp [Names, parts]

@[simp] theorem names_func {s : Signature} :
    (func s).Names name ↔
      (∃ f ∈ s.params, f.type.Names name) ∨ ∃ f ∈ s.results, f.type.Names name := by
  rw [← names_fields, ← names_fields, ← exists_or]
  simp only [Names, parts, Signature.parts_eq, List.mem_cons, reduceCtorEq, false_or,
    List.mem_append, or_and_right, Node.type.injEq]

/-- The type is written with the name first. -/
def StartsWith (t : TypeExpr) (name : String) : Prop :=
  ∃ u, t = .named u ∧ u.pointer = false ∧ u.package = name

end TypeExpr

/-- Where the line is not empty, the document `d` writes text that the renaming turns
into what `d'` writes. -/
def Doc.Renames (old new : String) (b : Bool) (d d' : Doc) (uses : Prop) : Prop :=
  ∀ indent depth, Qualifier.Renames old.toList new.toList b (d.chars indent depth false)
    (d'.chars indent depth false) uses

section Types

variable {old new : String}

theorem Rewriting.toList_package_ofAlias (name : String) :
    ((Rewriting.ofAlias old new).package name).toList =
      replaceName old.toList new.toList name.toList := by
  simp only [Rewriting.ofAlias, replaceName, String.toList_inj]
  split <;> rfl

/-- A named type without its star. -/
theorem NamedType.renames_unpointed {u : NamedType} (hold : isIdentifier old = true)
    (h : u.validate = .ok ()) {b : Bool}
    (hb : b = true ∨ u.package ≠ old) :
    Qualifier.Renames old.toList new.toList b
      ((if u.isQualified then u.package.toList ++ ['.'] else []) ++ u.name.toList)
      ((if u.isQualified then ((Rewriting.ofAlias old new).package u.package).toList ++ ['.'] else []) ++
        u.name.toList) (u.package = old) := by
  obtain ⟨hname, hpackage⟩ := NamedType.validate_eq_ok.mp h
  cases hq : u.package.isEmpty with
  | true =>
    have hne : ¬ u.package = old := by
      intro heq
      rw [heq, isEmpty_eq_false_of_isIdentifier hold] at hq
      cases hq
    simp only [NamedType.isQualified, hq]
    exact (Renames.name (isName_iff.mp hname)).congr (by simp [hne])
  | false =>
    have hp : isIdentifier u.package = true := by simpa [hq] using hpackage
    simp only [NamedType.isQualified, hq, Bool.not_false, if_true, List.append_assoc,
      List.singleton_append, Rewriting.toList_package_ofAlias]
    cases b with
    | true =>
      refine (Renames.qualified (isName_iff.mp hp) (isName_iff.mp hname)).congr ?_
      rw [String.toList_inj]
      exact eq_comm
    | false =>
      have hne : ¬ u.package = old := by simpa using hb
      rw [replaceName, if_neg (by rwa [String.toList_inj])]
      exact (Renames.unqualified (isName_iff.mp hp) (isName_iff.mp hname)).congr (by simp [hne])

theorem NamedType.renames {u : NamedType} (hold : isIdentifier old = true)
    (hnew : isIdentifier new = true) (h : u.validate = .ok ()) {b : Bool}
    (hb : b = true ∨ ¬ (TypeExpr.named u).StartsWith old) :
    Doc.Renames old new b u.doc
      { u with package := (Rewriting.ofAlias old new).package u.package }.doc
      (u.package = old) := by
  intro indent depth
  have hq : { u with package := (Rewriting.ofAlias old new).package u.package }.isQualified =
      u.isQualified := by
    simp only [NamedType.isQualified, Rewriting.isEmpty_package_ofAlias hold hnew]
  rw [NamedType.chars_doc, NamedType.chars_doc, hq]
  cases hp : u.pointer with
  | true => exact Renames.sign (by decide) (NamedType.renames_unpointed hold h (.inl rfl))
  | false =>
    apply NamedType.renames_unpointed hold h
    rcases hb with hb | hb
    · exact .inl hb
    · exact .inr fun heq => hb ⟨u, rfl, hp, heq⟩

theorem NamedType.pointless_chars {u : NamedType} (h : u.validate = .ok ()) (indent : Indent)
    (depth : Nat) : Pointless (u.doc.chars indent depth false) := by
  obtain ⟨hname, hpackage⟩ := NamedType.validate_eq_ok.mp h
  rw [NamedType.chars_doc]
  cases hp : u.pointer with
  | true => exact pointless_cons (by decide) (by decide)
  | false =>
    cases hq : u.package.isEmpty with
    | true =>
      simpa [NamedType.isQualified, hq] using pointless_name (isName_iff.mp hname) []
    | false =>
      have hp : isIdentifier u.package = true := by simpa [hq] using hpackage
      simpa [NamedType.isQualified, hq] using
        pointless_name (isName_iff.mp hp) ('.' :: u.name.toList)

/-- No valid type starts with a blank or a point. -/
theorem TypeExpr.pointless_chars {t : TypeExpr} (h : t.validate = .ok ()) (indent : Indent)
    (depth : Nat) :
    Pointless (t.layout.bare.chars indent depth false) ∧
      Pointless (t.layout.full.chars indent depth false) := by
  have hsolid : ∀ {c : Char} {cs : List Char}, (c ∈ ['[', '(', 'm', 's', 'i', 'f']) →
      Pointless (c :: cs) := by
    intro c cs hc
    have hall : ∀ d ∈ ['[', '(', 'm', 's', 'i', 'f'], Text.isBlank d = false ∧ d ≠ '.' :=
      List.all_iff_forall_prop.mp (by decide)
    exact pointless_cons (hall c hc).1 (hall c hc).2
  cases t with
  | named u =>
    exact ⟨NamedType.pointless_chars h indent depth, NamedType.pointless_chars h indent depth⟩
  | array element length ellipsis =>
    simp only [TypeExpr.layout, Doc.append_eq, Doc.chars, Bool.false_and, Bool.false_eq_true,
      if_false, List.nil_append, toList_brackets, and_self]
    exact hsolid (by decide)
  | map key value => exact ⟨hsolid (by decide), hsolid (by decide)⟩
  | struct fs =>
    simp only [TypeExpr.layout, TypeLayout.plain, braced, and_self]
    split <;> exact hsolid (by decide)
  | interface fs =>
    simp only [TypeExpr.layout, TypeLayout.plain, braced, and_self]
    split <;> exact hsolid (by decide)
  | func s => exact ⟨by simpa [TypeExpr.layout, signature] using hsolid (by decide), hsolid (by decide)⟩
  | foreign kind data => cases h

/-- A variadic parameter neither goes by the name nor has elements that start with it. -/
def Signature.SpreadAvoids (s : Signature) (name : String) : Prop :=
  s.variadic = true → ∀ last ∈ s.params.getLast?, last.name ≠ name ∧
    ∀ element length ellipsis, last.type = .array element length ellipsis →
      ¬ element.StartsWith name

/-- The renaming of the text of a type agrees with that of the type. -/
structure TypeExpr.Agrees (old new : String) (t : TypeExpr) : Prop where
  full : ∀ b, b = true ∨ ¬ t.StartsWith old → Doc.Renames old new b t.layout.full
    (t.rewrite (.ofAlias old new)).layout.full (t.Names old)
  method : ∀ s, t = .func s → ∀ indent depth, ∃ tail tail',
    s.doc.chars indent depth false = '(' :: tail ∧
    (s.rewrite (.ofAlias old new)).doc.chars indent depth false = '(' :: tail' ∧
    Qualifier.Renames old.toList new.toList true tail tail' (t.Names old)
  element : ∀ element length ellipsis, t = .array element length ellipsis →
    ∀ b, b = true ∨ ¬ element.StartsWith old → Doc.Renames old new b element.layout.full
      (element.rewrite (.ofAlias old new)).layout.full (t.Names old)

/-- A name and what stands after it, set off by a blank. -/
theorem renames_named {name : String} {cs cs' : List Char} {uses : Prop}
    (hname : name.isEmpty = true ∨ isIdentifier name = true)
    (h : Qualifier.Renames old.toList new.toList true cs cs' uses) (hpoint : Pointless cs) :
    Qualifier.Renames old.toList new.toList true
      ((if !name.isEmpty then name.toList ++ [' '] else []) ++ cs)
      ((if !name.isEmpty then name.toList ++ [' '] else []) ++ cs') uses := by
  cases hn : name.isEmpty with
  | true => simpa [hn] using h
  | false =>
    have hid : isIdentifier name = true := by simpa [hn] using hname
    have hnamed := (Renames.name (isName_iff.mp hid) (b := true)).append_sign (c := ' ') (by decide)
      (pointless_blank (by decide) hpoint) h
    simpa [hn] using hnamed

theorem Field.renames_typed {f : Field} (hvalid : f.validate = .ok ())
    (h : f.type.Agrees old new) :
    Doc.Renames old new true f.layout.typed (f.rewrite (.ofAlias old new)).layout.typed
      (f.type.Names old) := by
  obtain ⟨hname, -, htype⟩ := Field.validate_eq_ok.mp hvalid
  intro indent depth
  rw [chars_typed, chars_typed]
  simp only [Field.layout_eq, Field.rewrite_eq, Field.isNamed]
  exact renames_named hname (h.full true (.inl rfl) indent depth)
    (TypeExpr.pointless_chars htype indent depth).2

theorem Field.renames_spread {f : Field} {element : TypeExpr} {length : Int} {ellipsis : Bool}
    (hvalid : f.validate = .ok ()) (htype : f.type = .array element length ellipsis)
    (h : f.type.Agrees old new) (hname : f.name ≠ old) (helement : ¬ element.StartsWith old) :
    Doc.Renames old new true f.layout.spread (f.rewrite (.ofAlias old new)).layout.spread
      (f.type.Names old) := by
  obtain ⟨hid, -, -⟩ := Field.validate_eq_ok.mp hvalid
  intro indent depth
  have hdoc : f.layout.type.element? = some element.layout.full := by
    rw [Field.layout_eq, htype]
    rfl
  have hdoc' : (f.rewrite (.ofAlias old new)).layout.type.element? =
      some (element.rewrite (.ofAlias old new)).layout.full := by
    rw [Field.layout_eq, Field.rewrite_eq, htype]
    rfl
  rw [chars_spread indent depth hdoc, chars_spread indent depth hdoc']
  simp only [Field.layout_eq, Field.rewrite_eq, Field.isNamed]
  have hpoints : Qualifier.Renames old.toList new.toList false
      ('.' :: '.' :: element.layout.full.chars indent depth false)
      ('.' :: '.' :: (element.rewrite (.ofAlias old new)).layout.full.chars indent depth false)
      (f.type.Names old) :=
    Renames.sign (by decide) (Renames.sign (by decide)
      (h.element element length ellipsis htype false (.inr helement) indent depth))
  cases hn : f.name.isEmpty with
  | true => exact Renames.sign (by decide) hpoints
  | false =>
    have hid' : isIdentifier f.name = true := by simpa [hn] using hid
    have hne : f.name.toList ≠ old.toList := by rwa [Ne, String.toList_inj]
    have hspread := Renames.name_before_point (isName_iff.mp hid') hne hpoints
    simpa [hn] using hspread

/-- Parameters or results, with commas between them. -/
theorem renames_entries (variadic : Bool) (fs : List Field)
    (h : ∀ f ∈ fs, f.validate = .ok () ∧ f.type.Agrees old new)
    (hlast : variadic = true → ∀ last ∈ fs.getLast?, last.name ≠ old ∧
      ∃ element length ellipsis, last.type = .array element length ellipsis ∧
        ¬ element.StartsWith old) :
    Doc.Renames old new true (separated (entries variadic (fs.map Field.layout)))
      (separated (entries variadic
        ((fs.map (Field.rewrite (.ofAlias old new))).map Field.layout)))
      (∃ f ∈ fs, f.type.Names old) := by
  induction fs with
  | nil =>
    intro indent depth
    exact (Renames.nil _ _ _).congr (by simp)
  | cons f fs ih =>
    obtain ⟨hvalid, hf⟩ := h f (by simp)
    cases fs with
    | nil =>
      intro indent depth
      simp only [List.mem_singleton, exists_eq_left]
      cases variadic with
      | false => exact Field.renames_typed hvalid hf indent depth
      | true =>
        obtain ⟨hname, element, length, ellipsis, htype, helement⟩ := hlast rfl f (by simp)
        exact Field.renames_spread hvalid htype hf hname helement indent depth
    | cons g fs =>
      intro indent depth
      have hinline : f.layout.typed.freshAfter false = false := by
        simp [typed, f.type.freshAfter_layout]
      have hinline' : (f.rewrite (.ofAlias old new)).layout.typed.freshAfter false = false := by
        simp [typed, TypeExpr.freshAfter_layout]
      have htail := ih (fun k hk => h k (List.mem_cons_of_mem _ hk)) fun hv last hmem =>
        hlast hv last (by rwa [List.getLast?_cons_cons])
      simp only [List.map_cons] at htail ⊢
      rw [chars_separated_entries indent depth hinline,
        chars_separated_entries indent depth hinline']
      refine ((Field.renames_typed hvalid hf indent depth).append_sign (c := ',') (by decide)
        (pointless_cons (by decide) (by decide))
        (Renames.sign (c := ' ') (by decide) (htail indent depth))).congr ?_
      simp

/-- Lines in braces, from the first one to the closing brace. -/
theorem renames_lines {fs : List Field} {line line' : Field → Doc} {uses : Field → Prop}
    (h : ∀ f ∈ fs, Doc.Renames old new true (line f) (line' f) (uses f))
    (hpoint : ∀ f ∈ fs, ∀ indent depth, Pointless ((line f).chars indent depth false))
    (indent : Indent) (depth : Nat) :
    let body := fun (line : Field → Doc) => (fs.flatMap fun f =>
      indent.margin (depth + 1) ++ (line f).chars indent (depth + 1) false ++ ['\n']) ++
        (indent.margin depth ++ ['\x7d'])
    Qualifier.Renames old.toList new.toList true (body line) (body line') (∃ f ∈ fs, uses f) ∧
      Pointless (body line) := by
  induction fs with
  | nil =>
    refine ⟨?_, ?_⟩
    · exact (Renames.blanks (fun _ => Indent.mem_margin)
        (Renames.sign (by decide) (Renames.nil _ _ _))).congr (by simp)
    · exact pointless_margin indent depth (pointless_cons (by decide) (by decide))
  | cons f fs ih =>
    obtain ⟨htail, hpoints⟩ := ih (fun g hg => h g (List.mem_cons_of_mem _ hg))
      (fun g hg => hpoint g (List.mem_cons_of_mem _ hg))
    simp only [List.flatMap_cons, List.append_assoc, List.singleton_append] at htail hpoints ⊢
    refine ⟨?_, ?_⟩
    · refine (Renames.blanks (fun _ => Indent.mem_margin)
        ((h f (by simp) indent (depth + 1)).append_sign (c := '\n') (by decide)
          (pointless_blank (by decide) hpoints) htail)).congr (by simp)
    · refine pointless_margin indent (depth + 1) fun rest => ?_
      rw [List.append_assoc]
      exact hpoint f (by simp) indent (depth + 1) _

/-- Lines in braces after a keyword. -/
theorem renames_braced (keyword : String) (hkeyword : isIdentifier keyword = true)
    {fs : List Field} {line line' : Field → Doc} {uses : Field → Prop}
    (h : ∀ f ∈ fs, Doc.Renames old new true (line f) (line' f) (uses f))
    (hpoint : ∀ f ∈ fs, ∀ indent depth, Pointless ((line f).chars indent depth false))
    (hleads : ∀ f ∈ fs, (line f).leads = true ∧ (line' f).leads = true) (b : Bool) :
    Doc.Renames old new b (braced keyword (fs.map line)) (braced keyword (fs.map line'))
      (∃ f ∈ fs, uses f) := by
  intro indent depth
  rw [chars_braced indent depth keyword (by simpa using fun f hf => (hleads f hf).1),
    chars_braced indent depth keyword (by simpa using fun f hf => (hleads f hf).2)]
  have hname : Qualifier.Renames old.toList new.toList b keyword.toList keyword.toList False :=
    Renames.name (isName_iff.mp hkeyword)
  cases fs with
  | nil =>
    refine (hname.append_sign (c := '\x7b') (by decide) (pointless_cons (by decide) (by decide))
      (Renames.sign (by decide) (Renames.nil _ _ _))).congr (by simp)
  | cons f fs =>
    obtain ⟨hlines, hpoints⟩ := renames_lines h hpoint indent depth
    simp only [List.flatMap_map]
    exact (hname.append_sign (c := ' ') (by decide)
      (pointless_blank (by decide) (pointless_cons (by decide) (by decide)))
      (Renames.sign (c := '\x7b') (by decide) (Renames.sign (c := '\n') (by decide) hlines))).congr
        (by simp)

/-- A signature, from what follows its first parenthesis. -/
theorem Signature.renames {s : Signature} (hvalid : s.validate = .ok ())
    (hplain : ∀ f, f ∈ s.params ∨ f ∈ s.results → f.comment = "")
    (hspread : s.SpreadAvoids old)
    (h : ∀ f, f ∈ s.params ∨ f ∈ s.results → f.type.Agrees old new) (indent : Indent)
    (depth : Nat) :
    ∃ tail tail', s.doc.chars indent depth false = '(' :: tail ∧
      (s.rewrite (.ofAlias old new)).doc.chars indent depth false = '(' :: tail' ∧
      Qualifier.Renames old.toList new.toList true tail tail'
        ((TypeExpr.func s).Names old) := by
  obtain ⟨hparams, hresults, hvariadic, -⟩ := Signature.validate_eq_ok.mp hvalid
  have hp := renames_entries s.variadic s.params
    (fun f hf => ⟨hparams f hf, h f (.inl hf)⟩) (by
      intro hv last hlast
      obtain ⟨last', element, hlast', htype⟩ := exists_slice_of_checkVariadic (hvariadic hv)
      obtain rfl : last' = last := by simpa [hlast'] using hlast
      obtain ⟨hname, helement⟩ := hspread hv last' hlast
      exact ⟨hname, element, 0, false, htype, helement element 0 false htype⟩) indent depth
  have hr := renames_entries false s.results
    (fun f hf => ⟨hresults f hf, h f (.inr hf)⟩) (fun hv => by cases hv) indent depth
  rw [chars_signature indent depth (fun f hf => hplain f (.inl hf))
    (fun f hf => hplain f (.inr hf))]
  rw [chars_signature indent depth
    (by simpa using fun f hf => hplain f (.inl hf)) (by simpa using fun f hf => hplain f (.inr hf))]
  refine ⟨_, _, rfl, rfl, ?_⟩
  have hclose : ∀ b, Qualifier.Renames old.toList new.toList b [] [] False :=
    Renames.nil old.toList new.toList
  simp only [Signature.rewrite_eq, List.isEmpty_map]
  cases hempty : s.results.isEmpty with
  | true =>
    have hnil : s.results = [] := List.isEmpty_iff.mp hempty
    exact (hp.append_sign (c := ')') (by decide) (pointless_cons (by decide) (by decide))
      (hclose _)).congr (by simp [hnil])
  | false =>
    have hlist := hr.append_sign (c := ')') (by decide) (pointless_cons (by decide) (by decide))
      (hclose _)
    exact (hp.append_sign (c := ')') (by decide) (pointless_cons (by decide) (by decide))
      (Renames.sign (c := ' ') (by decide) (Renames.sign (c := '(') (by decide) hlist))).congr
        (by simp)

/-- What a type may not have for the two renamings to agree: comments and tags, and
variadic parameters that involve the old alias. -/
def Node.Plain (name : String) : Node → Prop
  | field f => f.comment = "" ∧ f.tag = ""
  | type (.func s) => s.SpreadAvoids name
  | _ => True

theorem Rewriting.keepsNames_ofAlias (old : String) (hnew : isIdentifier new = true) :
    (Rewriting.ofAlias old new).KeepsNames := by
  intro name h
  simp only [Rewriting.ofAlias]
  split
  · exact .inr hnew
  · exact h

theorem Field.pointless_typed {f : Field} (hvalid : f.validate = .ok ()) (indent : Indent)
    (depth : Nat) : Pointless (f.layout.typed.chars indent depth false) := by
  obtain ⟨hname, -, htype⟩ := Field.validate_eq_ok.mp hvalid
  rw [chars_typed]
  simp only [Field.layout_eq, Field.isNamed]
  cases hn : f.name.isEmpty with
  | true => simpa [hn] using (TypeExpr.pointless_chars htype indent depth).2
  | false =>
    have hid : isIdentifier f.name = true := by simpa [hn] using hname
    simpa [hn] using pointless_name (isName_iff.mp hid)
      (' ' :: f.type.layout.full.chars indent depth false)

theorem Field.pointless_structField {f : Field} (hvalid : f.validate = .ok ())
    (hplain : f.comment = "" ∧ f.tag = "") (indent : Indent) (depth : Nat) :
    Pointless (f.layout.structField.chars indent depth false) := by
  have hlines : commentLines "" = [] := rfl
  simpa [structField, hplain, hlines, Doc.commentChars] using
    Field.pointless_typed hvalid indent depth

theorem Field.pointless_interfaceMember {f : Field} (hvalid : f.validate = .ok ())
    (hplain : f.comment = "") (indent : Indent) (depth : Nat) :
    Pointless (f.layout.interfaceMember.chars indent depth false) := by
  have hlines : commentLines "" = [] := rfl
  obtain ⟨hname, -, htype⟩ := Field.validate_eq_ok.mp hvalid
  cases hn : f.name.isEmpty with
  | false =>
    have hid : isIdentifier f.name = true := by simpa [hn] using hname
    simpa [interfaceMember, hplain, hlines, Doc.commentChars] using
      pointless_name (isName_iff.mp hid) (f.type.layout.bare.chars indent depth false)
  | true =>
    simpa [interfaceMember, hplain, hlines, Doc.commentChars, String.isEmpty_iff.mp hn] using
      (TypeExpr.pointless_chars htype indent depth).1

theorem Field.plain_of_mem {name : String} {fs : List Field}
    (h : ∀ p ∈ fs.flatMap Field.parts, p.Plain name) {f : Field} (hf : f ∈ fs) :
    (f.comment = "" ∧ f.tag = "") ∧ ∀ p ∈ f.type.parts, p.Plain name := by
  have hparts : ∀ p ∈ f.parts, p.Plain name := fun p hp => h p (List.mem_flatMap.mpr ⟨f, hf, hp⟩)
  simp only [Field.parts_eq, List.forall_mem_cons] at hparts
  exact hparts

/-- A line of a struct. -/
theorem Field.renames_structField {f : Field} (hvalid : f.validate = .ok ())
    (hplain : f.comment = "" ∧ f.tag = "") (h : f.type.Agrees old new) :
    Doc.Renames old new true f.layout.structField
      (f.rewrite (.ofAlias old new)).layout.structField (f.type.Names old) := by
  intro indent depth
  have hlines : commentLines "" = [] := rfl
  have htyped := Field.renames_typed hvalid h indent depth
  simpa [structField, hplain, hlines, Doc.commentChars] using htyped

/-- A line of an interface. -/
theorem Field.renames_interfaceMember {f : Field} (hvalid : f.validate = .ok ())
    (hrule : Place.interfaceMember.rule f = .ok ()) (hplain : f.comment = "")
    (h : f.type.Agrees old new) :
    Doc.Renames old new true f.layout.interfaceMember
      (f.rewrite (.ofAlias old new)).layout.interfaceMember (f.type.Names old) := by
  intro indent depth
  have hlines : commentLines "" = [] := rfl
  obtain ⟨name, tag, comment, annotations, type⟩ := f
  cases hn : name.isEmpty with
  | true =>
    cases type with
    | named u =>
      obtain rfl := String.isEmpty_iff.mp hn
      have hfull := h.full true (.inl rfl) indent depth
      simpa [interfaceMember, hplain, hlines, Doc.commentChars, TypeExpr.layout,
        TypeLayout.plain, TypeExpr.rewrite] using hfull
    | _ => simp [Place.rule, Field.isNamed, hn] at hrule
  | false =>
    cases type with
    | func s =>
      have hid : isIdentifier name = true := by
        simpa [hn] using (Field.validate_eq_ok.mp hvalid).1
      obtain ⟨tail, tail', hdoc, hdoc', htail⟩ := h.method s rfl indent depth
      have hmethod := (Renames.name (isName_iff.mp hid) (b := true)).append_sign (c := '(')
        (by decide) (pointless_cons (by decide) (by decide)) htail
      simp only [Signature.doc_eq, Signature.rewrite_eq, List.map_map] at hdoc hdoc'
      simpa [interfaceMember, hplain, hlines, Doc.commentChars, TypeExpr.layout, TypeExpr.rewrite,
        hdoc, hdoc'] using hmethod
    | _ => simp [Place.rule, Field.isNamed, hn] at hrule

theorem isNameStart_of_mem_bracketed {length : Int} {ellipsis : Bool} {c : Char}
    (h : c ∈ bracketed length ellipsis) : isNameStart c = false := by
  unfold bracketed at h
  split at h
  · obtain rfl : c = '.' := by simpa using h
    decide
  · split at h
    · rename_i hpos
      obtain ⟨n, hn⟩ := toList_toString_of_pos hpos
      rw [hn] at h
      have hdigit := Nat.isDigit_of_mem_toDigits (by decide) (by decide) h
      by_contra hstart
      rw [isDigit_eq_false_of_isNameStart (Bool.of_not_eq_false hstart)] at hdigit
      cases hdigit
    · cases h

section Shapes

theorem TypeExpr.agrees_array {element : TypeExpr} {length : Int} {ellipsis : Bool}
    (h : element.Agrees old new) : (TypeExpr.array element length ellipsis).Agrees old new := by
  refine ⟨fun b _ indent depth => ?_, (fun s hs => by cases hs), ?_⟩
  · have hclose : ∀ b, Qualifier.Renames old.toList new.toList b _ _ _ := fun b =>
      Renames.sign (c := ']') (by decide) (h.full true (.inl rfl) indent depth)
    have hopen := Renames.sign (c := '[') (b := b) (by decide)
      (Renames.signs (fun c (hc : c ∈ bracketed length ellipsis) =>
        isNameStart_of_mem_bracketed hc) hclose _)
    simpa [TypeExpr.layout, TypeExpr.rewrite, toList_brackets] using hopen
  · intro element' length' ellipsis' heq
    obtain ⟨rfl, -, -⟩ := TypeExpr.array.inj heq
    simpa using h.full

theorem TypeExpr.agrees_map {key value : TypeExpr} (hk : key.Agrees old new)
    (hv : value.Agrees old new) : (TypeExpr.map key value).Agrees old new := by
  refine ⟨fun b _ indent depth => ?_, (fun s hs => by cases hs), (fun _ _ _ h => by cases h)⟩
  have hkeyword : IsName "map".toList := isName_iff.mp (by decide)
  have hmap := (Renames.name hkeyword (b := b)).append_sign (c := '[')
    (by decide) (pointless_cons (by decide) (by decide))
    ((hk.full true (.inl rfl) indent depth).append_sign (c := ']') (by decide)
      (pointless_cons (by decide) (by decide)) (hv.full true (.inl rfl) indent depth))
  simpa [TypeExpr.layout, TypeLayout.plain, TypeExpr.rewrite, TypeExpr.freshAfter_layout] using hmap

theorem TypeExpr.agrees_struct (hnew : isIdentifier new = true) {fs : List Field}
    (hvalid : (TypeExpr.struct fs).validate = .ok ())
    (hplain : ∀ f ∈ fs, f.comment = "" ∧ f.tag = "") (h : ∀ f ∈ fs, f.type.Agrees old new) :
    (TypeExpr.struct fs).Agrees old new := by
  have hvalid' := TypeExpr.validate_rewrite (Rewriting.keepsNames_ofAlias old hnew) hvalid
  simp only [TypeExpr.validate, Field.validateAll_eq_ok, TypeExpr.rewrite, Field.rewriteAll_eq,
    List.forall_mem_map] at hvalid hvalid'
  refine ⟨fun b _ => ?_, (fun s hs => by cases hs), (fun _ _ _ h => by cases h)⟩
  have hstruct := renames_braced "struct" (by decide)
    (fun f hf => Field.renames_structField (hvalid f hf).2 (hplain f hf) (h f hf))
    (fun f hf => Field.pointless_structField (hvalid f hf).2 (hplain f hf))
    (fun f hf => ⟨Field.leads_structField (hvalid f hf).2,
      Field.leads_structField (hvalid' f hf).2⟩) b
  simpa [TypeExpr.layout, TypeLayout.plain, TypeExpr.rewrite, Function.comp_def] using hstruct

theorem TypeExpr.agrees_interface (hnew : isIdentifier new = true) {fs : List Field}
    (hvalid : (TypeExpr.interface fs).validate = .ok ()) (hplain : ∀ f ∈ fs, f.comment = "")
    (h : ∀ f ∈ fs, f.type.Agrees old new) : (TypeExpr.interface fs).Agrees old new := by
  have hvalid' := TypeExpr.validate_rewrite (Rewriting.keepsNames_ofAlias old hnew) hvalid
  simp only [TypeExpr.validate, Field.validateAll_eq_ok, TypeExpr.rewrite, Field.rewriteAll_eq,
    List.forall_mem_map] at hvalid hvalid'
  refine ⟨fun b _ => ?_, (fun s hs => by cases hs), (fun _ _ _ h => by cases h)⟩
  have hinterface := renames_braced "interface" (by decide)
    (fun f hf => Field.renames_interfaceMember (hvalid f hf).2 (hvalid f hf).1 (hplain f hf)
      (h f hf))
    (fun f hf => Field.pointless_interfaceMember (hvalid f hf).2 (hplain f hf))
    (fun f hf => ⟨Field.leads_interfaceMember (hvalid f hf).2,
      Field.leads_interfaceMember (hvalid' f hf).2⟩) b
  simpa [TypeExpr.layout, TypeLayout.plain, TypeExpr.rewrite, Function.comp_def] using hinterface

theorem TypeExpr.agrees_func {s : Signature} (hvalid : s.validate = .ok ())
    (hplain : ∀ f, f ∈ s.params ∨ f ∈ s.results → f.comment = "") (hspread : s.SpreadAvoids old)
    (h : ∀ f, f ∈ s.params ∨ f ∈ s.results → f.type.Agrees old new) :
    (TypeExpr.func s).Agrees old new := by
  have hmethod := Signature.renames hvalid hplain hspread h
  refine ⟨fun b _ indent depth => ?_, ?_, (fun _ _ _ h => by cases h)⟩
  · obtain ⟨tail, tail', hdoc, hdoc', htail⟩ := hmethod indent depth
    have hkeyword : IsName "func".toList := isName_iff.mp (by decide)
    have hfunc := (Renames.name hkeyword (b := b)).append_sign (c := ' ') (by decide)
      (pointless_blank (by decide) (pointless_cons (by decide) (by decide)))
      (Renames.sign (c := '(') (by decide) htail)
    simp only [Signature.doc_eq, Signature.rewrite_eq, List.map_map] at hdoc hdoc'
    simpa [TypeExpr.layout, TypeExpr.rewrite, hdoc, hdoc'] using hfunc
  · rintro s' heq indent depth
    obtain rfl := TypeExpr.func.inj heq
    exact hmethod indent depth

end Shapes

/-- On a valid plain type the two renamings agree. -/
theorem TypeExpr.agrees (hold : isIdentifier old = true) (hnew : isIdentifier new = true)
    {t : TypeExpr} (hvalid : t.validate = .ok ()) (hplain : ∀ p ∈ t.parts, p.Plain old) :
    t.Agrees old new := by
  induction t using TypeExpr.induction with
  | named u =>
    refine ⟨fun b hb => ?_, (fun s hs => by cases hs), (fun _ _ _ h => by cases h)⟩
    rw [TypeExpr.names_named]
    exact NamedType.renames hold hnew hvalid hb
  | array element length ellipsis ih =>
    simp only [TypeExpr.validate, Verdict.bind_eq_ok, Verdict.within_eq_ok] at hvalid
    simp only [TypeExpr.parts, List.forall_mem_cons] at hplain
    exact agrees_array (ih hvalid.2 hplain.2)
  | map key value hk hv =>
    simp only [TypeExpr.validate, Verdict.bind_eq_ok, Verdict.within_eq_ok] at hvalid
    simp only [TypeExpr.parts, List.forall_mem_cons, List.forall_mem_append] at hplain
    exact agrees_map (hk hvalid.1 hplain.2.1) (hv hvalid.2 hplain.2.2)
  | struct fs ih =>
    have hfields := hvalid
    simp only [TypeExpr.validate, Field.validateAll_eq_ok, Field.validate_eq_ok] at hfields
    simp only [TypeExpr.parts, List.forall_mem_cons, Field.partsAll_eq] at hplain
    exact agrees_struct hnew hvalid (fun f hf => (Field.plain_of_mem hplain.2 hf).1)
      fun f hf => ih f hf (hfields f hf).2.2.2 (Field.plain_of_mem hplain.2 hf).2
  | interface fs ih =>
    have hfields := hvalid
    simp only [TypeExpr.validate, Field.validateAll_eq_ok, Field.validate_eq_ok] at hfields
    simp only [TypeExpr.parts, List.forall_mem_cons, Field.partsAll_eq] at hplain
    exact agrees_interface hnew hvalid (fun f hf => (Field.plain_of_mem hplain.2 hf).1.1)
      fun f hf => ih f hf (hfields f hf).2.2.2 (Field.plain_of_mem hplain.2 hf).2
  | func s hp hr =>
    obtain ⟨hparams, hresults, -⟩ := Signature.validate_eq_ok.mp hvalid
    simp only [TypeExpr.parts, Signature.parts_eq, List.forall_mem_cons,
      List.forall_mem_append] at hplain
    obtain ⟨hspread, hplainp, hplainr⟩ := hplain
    refine agrees_func hvalid ?_ hspread ?_
    · rintro f (hf | hf)
      · exact (Field.plain_of_mem hplainp hf).1.1
      · exact (Field.plain_of_mem hplainr hf).1.1
    · rintro f (hf | hf)
      · exact hp f hf (Field.validate_eq_ok.mp (hparams f hf)).2.2 (Field.plain_of_mem hplainp hf).2
      · exact hr f hf (Field.validate_eq_ok.mp (hresults f hf)).2.2 (Field.plain_of_mem hplainr hf).2
  | foreign kind data => cases hvalid

theorem TypeExpr.Agrees.bare {t : TypeExpr} (h : t.Agrees old new) :
    Doc.Renames old new true t.layout.bare (t.rewrite (.ofAlias old new)).layout.bare
      (t.Names old) := by
  cases t with
  | func s =>
    intro indent depth
    obtain ⟨tail, tail', hdoc, hdoc', htail⟩ := h.method s rfl indent depth
    simp only [TypeExpr.layout, TypeExpr.rewrite, hdoc, hdoc']
    exact Renames.sign (by decide) htail
  | _ => exact h.full true (.inl rfl)

/-- The two renamings agree on the text of a type, and a type is seen to use an alias in
its text exactly if it does, unless a variadic parameter goes by the alias or has
elements that start with it. -/
theorem TypeExpr.substitute_render {t : TypeExpr} (hvalid : t.validate = .ok ())
    (hplain : ∀ f, .field f ∈ t.parts → f.comment = "" ∧ f.tag = "")
    (hspread : ∀ s, .type (.func s) ∈ t.parts → s.SpreadAvoids old)
    (hold : isIdentifier old = true) (hnew : isIdentifier new = true) (indent : Indent) :
    ∃ text renamed, (Node.type t).render indent = .ok text ∧
      (Node.type t).renameImports old new = .ok renamed ∧
      renamed.render indent = .ok (Qualifier.substitute text old new) ∧
      (Qualifier.references text old = true ↔
        ∃ u, .type (.named u) ∈ t.parts ∧ u.package = old) := by
  have hparts : ∀ p ∈ t.parts, p.Plain old := by
    intro p hp
    unfold Node.Plain
    split
    · exact hplain _ hp
    · exact hspread _ hp
    · trivial
  have hvalid' := TypeExpr.validate_rewrite (Rewriting.keepsNames_ofAlias old hnew) hvalid
  obtain ⟨ps, hps, hspell, huse⟩ := (TypeExpr.agrees hold hnew hvalid hparts).bare indent 0
  have hpieces : pieces true (t.layout.bare.chars indent 0 false) = ps := by
    simpa [Follows, pointAfterBlanks?] using hps []
  refine ⟨_, _, TypeExpr.render_eq hvalid indent,
    Node.renameImports_eq_ok hold hnew (TypeExpr.not_hasForeign hvalid), ?_, ?_⟩
  · rw [Node.rewrite, TypeExpr.render_eq hvalid', Qualifier.substitute, String.toList_ofList,
      substituteChars_eq_respell (isName_iff.mp hold), respell, hpieces, hspell]
  · rw [references_iff hold, String.toList_ofList, hpieces, huse]
    rfl

end Types

/-- A variadic function with elements of one named type. -/
def TypeExpr.spreading (element : NamedType) : TypeExpr :=
  .func ⟨[⟨"xs", "", "", [], .array (.named element) 0 false⟩], [], true⟩

theorem TypeExpr.plain_of_mem_spreading {element : NamedType} {f : Field}
    (h : .field f ∈ (spreading element).parts) : f.comment = "" ∧ f.tag = "" := by
  simp only [spreading, parts, Signature.parts_eq, List.flatMap_cons, List.flatMap_nil,
    Field.parts_eq, List.append_nil, List.mem_cons, reduceCtorEq, Node.field.injEq, false_or,
    List.not_mem_nil, or_false] at h
  obtain rfl := h
  exact ⟨rfl, rfl⟩

/-- Elements that start with a star are renamed in the text as well. -/
theorem TypeExpr.substitute_render_spreading_pointers :
    Qualifier.substitute "(xs ...*pkg.T)" "pkg" "p" = "(xs ...*p.T)" := by
  have hspread : ∀ s, .type (.func s) ∈ (spreading ⟨"pkg", "T", true⟩).parts →
      s.SpreadAvoids "pkg" := by
    intro s hs
    simp only [spreading, parts, Signature.parts_eq, List.flatMap_cons, List.flatMap_nil,
      Field.parts_eq, List.append_nil, List.mem_cons, reduceCtorEq, Node.type.injEq, func.injEq,
      List.not_mem_nil, or_false] at hs
    obtain rfl := hs
    rintro - last hlast
    obtain rfl := Option.some.inj hlast
    refine ⟨by decide, ?_⟩
    rintro element length ellipsis heq ⟨u, rfl, hpointer, -⟩
    cases heq
    cases hpointer
  obtain ⟨text, renamed, htext, hrenamed, hsubstitute, -⟩ :=
    substitute_render (t := spreading ⟨"pkg", "T", true⟩) (by decide)
      (fun _ => plain_of_mem_spreading) hspread (by decide) (by decide : isIdentifier "p" = true) .tab
  obtain rfl : "(xs ...*pkg.T)" = text := Except.ok.inj htext
  obtain rfl : .type (spreading ⟨"p", "T", true⟩) = renamed := Except.ok.inj hrenamed
  exact (Except.ok.inj hsubstitute).symm

/-- Without the condition on variadic parameters the two renamings disagree. -/
theorem TypeExpr.not_substitute_render :
    ¬ ∀ (t : TypeExpr) (old new : String), t.validate = .ok () →
      (∀ f, .field f ∈ t.parts → f.comment = "" ∧ f.tag = "") →
      isIdentifier old = true → isIdentifier new = true →
      ∃ text renamed, (Node.type t).render .tab = .ok text ∧
        (Node.type t).renameImports old new = .ok renamed ∧
        renamed.render .tab = .ok (Qualifier.substitute text old new) ∧
        (Qualifier.references text old = true ↔
          ∃ u, .type (.named u) ∈ t.parts ∧ u.package = old) := by
  intro h
  obtain ⟨text, renamed, htext, -, -, huses⟩ := h (spreading ⟨"pkg", "T", false⟩) "pkg" "p"
    (by decide) (fun _ => plain_of_mem_spreading) (by decide) (by decide)
  obtain rfl : "(xs ...pkg.T)" = text := Except.ok.inj htext
  have hnamed : ∃ u, .type (.named u) ∈ (spreading ⟨"pkg", "T", false⟩).parts ∧
      u.package = "pkg" := ⟨⟨"pkg", "T", false⟩, by simp [spreading, parts], rfl⟩
  exact absurd (huses.mpr hnamed) (by decide)

end GoSource
