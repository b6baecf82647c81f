import GoSource.Proofs.Layout.Type
import GoSource.Proofs.Validate.LocalRules

/-!
# How the text of a type starts

The text of a valid type without comments, given for each shape in terms of the texts
inside it. A reader of such a text takes two decisions, which shape a type has and whether
a name stands before it, and both are functions of the first word and what follows it.
-/

namespace GoSource

open MemberLayout

section Clear

/-- A valid type without comments. -/
structure TypeExpr.Clear (t : TypeExpr) : Prop where
  valid : t.validate = .ok ()
  comments : ∀ f, .field f ∈ t.parts → f.comment = ""

/-- A valid field without comments. -/
structure Field.Clear (f : Field) : Prop where
  valid : f.validate = .ok ()
  comment : f.comment = ""
  type : f.type.Clear

theorem Field.clear_of_mem {fs : List Field} (hvalid : ∀ f ∈ fs, f.validate = .ok ())
    (hcomments : ∀ g, .field g ∈ fs.flatMap Field.parts → g.comment = "") :
    ∀ f ∈ fs, f.Clear := by
  intro f hf
  have hparts : ∀ g, .field g ∈ f.parts → g.comment = "" :=
    fun g hg => hcomments g (List.mem_flatMap.mpr ⟨f, hf, hg⟩)
  rw [Field.parts_eq] at hparts
  exact ⟨hvalid f hf, hparts f (by simp), (Field.validate_eq_ok.mp (hvalid f hf)).2.2,
    fun g hg => hparts g (List.mem_cons_of_mem _ hg)⟩

namespace TypeExpr.Clear

theorem array {element : TypeExpr} {length : Int} {ellipsis : Bool}
    (h : (TypeExpr.array element length ellipsis).Clear) :
    checkLength length ellipsis = .ok () ∧ element.Clear := by
  have hvalid := h.valid
  simp only [TypeExpr.validate, Verdict.bind_eq_ok, Verdict.within_eq_ok] at hvalid
  exact ⟨hvalid.1, hvalid.2, fun f hf => h.comments f (by simp [TypeExpr.parts, hf])⟩

theorem map {key value : TypeExpr} (h : (TypeExpr.map key value).Clear) :
    key.Clear ∧ value.Clear := by
  have hvalid := h.valid
  simp only [TypeExpr.validate, Verdict.bind_eq_ok, Verdict.within_eq_ok] at hvalid
  exact ⟨⟨hvalid.1, fun f hf => h.comments f (by simp [TypeExpr.parts, hf])⟩,
    hvalid.2, fun f hf => h.comments f (by simp [TypeExpr.parts, hf])⟩

theorem struct {fs : List Field} (h : (TypeExpr.struct fs).Clear) : ∀ f ∈ fs, f.Clear := by
  have hvalid := h.valid
  rw [TypeExpr.validate, Field.validateAll_eq_ok] at hvalid
  exact Field.clear_of_mem (fun f hf => (hvalid f hf).2)
    fun g hg => h.comments g (by simpa [TypeExpr.parts] using hg)

theorem interface {fs : List Field} (h : (TypeExpr.interface fs).Clear) :
    ∀ f ∈ fs, Place.interfaceMember.rule f = .ok () ∧ f.Clear := by
  have hvalid := h.valid
  rw [TypeExpr.validate, Field.validateAll_eq_ok] at hvalid
  have hclear := Field.clear_of_mem (fun f hf => (hvalid f hf).2)
    fun g hg => h.comments g (by simpa [TypeExpr.parts] using hg)
  exact fun f hf => ⟨(hvalid f hf).1, hclear f hf⟩

theorem func {s : Signature} (h : (TypeExpr.func s).Clear) :
    (∀ f ∈ s.params, f.Clear) ∧ (∀ f ∈ s.results, f.Clear) ∧
      (s.variadic = true → checkVariadic s.params = .ok ()) := by
  obtain ⟨hparams, hresults, hvariadic, -⟩ := Signature.validate_eq_ok.mp h.valid
  have hcomments : ∀ g, .field g ∈ s.params.flatMap Field.parts ++
      s.results.flatMap Field.parts → g.comment = "" :=
    fun g hg => h.comments g (by rw [TypeExpr.parts, Signature.parts_eq]; simp [hg])
  exact ⟨Field.clear_of_mem hparams fun g hg => hcomments g (List.mem_append_left _ hg),
    Field.clear_of_mem hresults fun g hg => hcomments g (List.mem_append_right _ hg), hvariadic⟩

end TypeExpr.Clear

end Clear

section Written

variable (indent : Indent) (depth : Nat)

/-- The text of a type in a place where one is expected. -/
def TypeExpr.written (t : TypeExpr) : List Char := t.layout.full.chars indent depth false

/-- A named type without its star. -/
def NamedType.reference (u : NamedType) : List Char :=
  (if u.isQualified then u.package.toList ++ ['.'] else []) ++ u.name.toList

/-- A name, set off from what follows it. -/
def Field.label (f : Field) : List Char := if f.isNamed then f.name.toList ++ [' '] else []

/-- Only a slice is spread. -/
def Field.CanSpread (spread : Bool) (f : Field) : Prop :=
  spread = true → ∃ element, f.type = .array element 0 false

/-- What follows the name of a parameter; the last one of a variadic function shows its
elements only. -/
def Field.body (spread : Bool) (f : Field) : List Char :=
  match spread, f.type with
  | true, .array element _ _ => '.' :: '.' :: '.' :: element.written indent depth
  | _, type => type.written indent depth

/-- Parameters or results between their parentheses. -/
def Field.list (variadic : Bool) (fs : List Field) : List Char :=
  (separated (entries variadic (fs.map Field.layout))).chars indent depth false

/-- The tag of a struct field. -/
def Field.tagging (f : Field) : List Char :=
  if f.tag.isEmpty then [] else ' ' :: (Text.quoteTag f.tag).toList

def Signature.written (s : Signature) : List Char := s.doc.chars indent depth false

variable {indent depth}

theorem TypeExpr.written_named (u : NamedType) :
    (TypeExpr.named u).written indent depth =
      (if u.pointer then ['*'] else []) ++ u.reference :=
  u.chars_doc indent depth

theorem TypeExpr.written_array (element : TypeExpr) (length : Int) (ellipsis : Bool) :
    (TypeExpr.array element length ellipsis).written indent depth =
      '[' :: (bracketed length ellipsis ++ ']' :: element.written indent depth) := by
  simp [written, TypeExpr.layout, toList_brackets]

theorem TypeExpr.written_map (key value : TypeExpr) :
    (TypeExpr.map key value).written indent depth =
      "map".toList ++ '[' :: (key.written indent depth ++ ']' :: value.written indent depth) := by
  simp [written, TypeExpr.layout, TypeLayout.plain, TypeExpr.freshAfter_layout]

theorem TypeExpr.written_func (s : Signature) :
    (TypeExpr.func s).written indent depth =
      "func".toList ++ ' ' :: s.written indent depth := by
  simp [written, Signature.written, TypeExpr.layout]

theorem Field.canSpread_false (f : Field) : f.CanSpread false := fun h => nomatch h

@[simp] theorem Field.body_false (f : Field) :
    f.body indent depth false = f.type.written indent depth := rfl

theorem Field.body_true {f : Field} {element : TypeExpr} {length : Int} {ellipsis : Bool}
    (h : f.type = .array element length ellipsis) :
    f.body indent depth true = '.' :: '.' :: '.' :: element.written indent depth := by
  simp [Field.body, h]

theorem Field.chars_typed_eq (f : Field) :
    f.layout.typed.chars indent depth false = f.label ++ f.body indent depth false := by
  rw [chars_typed, Field.layout_eq]
  rfl

theorem Field.freshAfter_typed (f : Field) : f.layout.typed.freshAfter false = false := by
  simp [typed, f.type.freshAfter_layout]

@[simp] theorem Field.list_nil (variadic : Bool) : Field.list indent depth variadic [] = [] := rfl

theorem Field.list_singleton {variadic : Bool} {f : Field}
    (h : f.CanSpread variadic) :
    Field.list indent depth variadic [f] = f.label ++ f.body indent depth variadic := by
  cases variadic with
  | false => exact f.chars_typed_eq
  | true =>
    obtain ⟨element, htype⟩ := h rfl
    have helement : f.layout.type.element? = some element.layout.full := by
      rw [Field.layout_eq, htype]
      rfl
    show f.layout.spread.chars indent depth false = _
    rw [chars_spread indent depth helement, Field.body_true htype, Field.layout_eq]
    rfl

theorem Field.list_cons_cons (variadic : Bool) (f g : Field) (fs : List Field) :
    Field.list indent depth variadic (f :: g :: fs) =
      f.label ++ (f.body indent depth false ++ ',' :: ' ' ::
        Field.list indent depth variadic (g :: fs)) := by
  rw [← List.append_assoc, ← f.chars_typed_eq]
  exact chars_separated_entries indent depth f.freshAfter_typed

theorem Signature.written_eq {s : Signature} (hp : ∀ f ∈ s.params, f.Clear)
    (hr : ∀ f ∈ s.results, f.Clear) :
    s.written indent depth =
      '(' :: (Field.list indent depth s.variadic s.params ++ ')' ::
        if s.results.isEmpty then [] else
          ' ' :: '(' :: (Field.list indent depth false s.results ++ [')'])) :=
  chars_signature indent depth (fun f hf => (hp f hf).comment) (fun f hf => (hr f hf).comment)

theorem Field.Clear.chars_structField {f : Field} (h : f.Clear) :
    f.layout.structField.chars indent depth false =
      f.label ++ (f.body indent depth false ++ f.tagging) := by
  have hlines : commentLines "" = [] := by decide
  rw [← List.append_assoc, ← f.chars_typed_eq, Field.tagging]
  simp only [structField, Field.layout_eq, h.comment, Doc.append_eq, Doc.chars, Doc.freshAfter,
    hlines, Doc.commentChars, List.isEmpty_nil, Bool.not_true, Bool.or_false, List.nil_append]
  rw [← Field.layout_eq, f.freshAfter_typed]
  split <;> simp

theorem Field.Clear.chars_interfaceMember {f : Field} (h : f.Clear) :
    f.layout.interfaceMember.chars indent depth false =
      f.name.toList ++ f.type.layout.bare.chars indent depth false := by
  have hlines : commentLines "" = [] := by decide
  simp [interfaceMember, h.comment, hlines, Doc.commentChars]

/-- Lines in braces after a keyword. -/
def block (indent : Indent) (depth : Nat) (line : Field → List Char) (fs : List Field) : List Char :=
  if fs.isEmpty then ['\x7b', '\x7d'] else
    ' ' :: '\x7b' :: '\n' :: ((fs.flatMap fun f => indent.margin (depth + 1) ++ line f ++ ['\n']) ++
      (indent.margin depth ++ ['\x7d']))

theorem chars_braced_map (keyword : String) {line : Field → Doc} {fs : List Field}
    (h : ∀ f ∈ fs, (line f).leads = true) :
    (braced keyword (fs.map line)).chars indent depth false =
      keyword.toList ++
        block indent depth (fun f => (line f).chars indent (depth + 1) false) fs := by
  have hleads : ∀ d ∈ fs.map line, d.leads = true := by simpa using h
  rw [chars_braced indent depth keyword hleads, block, List.isEmpty_map, List.flatMap_map]

theorem TypeExpr.written_struct {fs : List Field} (h : ∀ f ∈ fs, f.Clear) :
    (TypeExpr.struct fs).written indent depth =
      "struct".toList ++ block indent depth
        (fun f => f.layout.structField.chars indent (depth + 1) false) fs := by
  rw [← chars_braced_map "struct" fun f hf => Field.leads_structField (h f hf).valid]
  simp [written, TypeExpr.layout, TypeLayout.plain, Function.comp_def]

theorem TypeExpr.written_interface {fs : List Field} (h : ∀ f ∈ fs, f.Clear) :
    (TypeExpr.interface fs).written indent depth =
      "interface".toList ++ block indent depth
        (fun f => f.layout.interfaceMember.chars indent (depth + 1) false) fs := by
  rw [← chars_braced_map "interface" fun f hf => Field.leads_interfaceMember (h f hf).valid]
  simp [written, TypeExpr.layout, TypeLayout.plain, Function.comp_def]

end Written

section Decisions

/-- What can follow a type: the end, a sign that closes or separates, or a tag. -/
inductive Ends : List Char → Prop
  | nil : Ends []
  | sign {c : Char} {cs : List Char} (h : c ∈ [']', ',', ')', '\n']) : Ends (c :: cs)
  | tag {cs : List Char} : Ends (' ' :: '"' :: cs)

/-- What a type starts with. -/
def startsType (c : Char) : Bool := isNameStart c || c == '*' || c == '['

/-- The shape of a type, told by its first word and what follows it. -/
def kindBefore (word : List Char) : List Char → String
  | '[' :: _ => if word.isEmpty then "ArraySpec" else "MapSpec"
  | '\x7b' :: _ | ' ' :: '\x7b' :: _ =>
    if word = "struct".toList then "StructSpec" else "InterfaceSpec"
  | ' ' :: '(' :: _ => "FuncSpec"
  | _ => "SimpleSpec"

/-- The word before it is the name of a parameter, and not of a type. -/
def typeAfterBlank : List Char → Bool
  | ' ' :: c :: _ => startsType c || c == '.'
  | _ => false

def kindAt (cs : List Char) : String :=
  kindBefore (cs.takeWhile isNamePart) (cs.dropWhile isNamePart)

def namedAt (cs : List Char) : Bool := typeAfterBlank (cs.dropWhile isNamePart)

/-- A text can be cut in one way after the characters of one class. -/
theorem cut_unique {p : Char → Bool} {w w' rest rest' : List Char} (hw : ∀ c ∈ w, p c = true)
    (hw' : ∀ c ∈ w', p c = true) (hrest : ∀ c ∈ rest.head?, p c = false)
    (hrest' : ∀ c ∈ rest'.head?, p c = false) (h : w ++ rest = w' ++ rest') :
    w = w' ∧ rest = rest' := by
  obtain ⟨htake, hdrop⟩ := takeWhile_append_of_head hw hrest
  obtain ⟨htake', hdrop'⟩ := takeWhile_append_of_head hw' hrest'
  rw [h] at htake hdrop
  exact ⟨htake.symm.trans htake', hdrop.symm.trans hdrop'⟩

/-- The two decisions at a word that ends where it stands. -/
theorem decisions_at_word {word rest : List Char} (hword : ∀ c ∈ word, isNamePart c = true)
    (hrest : ∀ c ∈ rest.head?, isNamePart c = false) :
    kindAt (word ++ rest) = kindBefore word rest ∧
      namedAt (word ++ rest) = typeAfterBlank rest := by
  obtain ⟨htake, hdrop⟩ := takeWhile_append_of_head hword hrest
  rw [kindAt, namedAt, htake, hdrop]
  exact ⟨rfl, rfl⟩

theorem Ends.decisions {rest : List Char} (h : Ends rest) :
    (∀ c ∈ rest.head?, isNamePart c = false) ∧ typeAfterBlank rest = false ∧
      ∀ word, kindBefore word rest = "SimpleSpec" := by
  cases h with
  | nil => exact ⟨by simp, rfl, fun _ => rfl⟩
  | sign hc =>
    simp only [List.mem_cons, List.not_mem_nil, or_false] at hc
    obtain rfl | rfl | rfl | rfl := hc <;>
      exact ⟨by simp; decide, rfl, fun _ => rfl⟩
  | tag =>
    have hquote : (startsType '"' || '"' == '.') = false := by decide
    exact ⟨by simp; decide, hquote, fun _ => rfl⟩

/-- A named type without its star starts with a word, which is its qualifier if a point
follows. -/
theorem NamedType.exists_word {u : NamedType} (h : u.validate = .ok ()) (rest : List Char) :
    ∃ word tail, u.reference ++ rest = String.toList word ++ tail ∧ isIdentifier word = true ∧
      (u.package = "" ∧ word = u.name ∧ tail = rest ∨
        word = u.package ∧ tail = '.' :: (u.name.toList ++ rest)) := by
  obtain ⟨hname, hpackage⟩ := NamedType.validate_eq_ok.mp h
  cases hq : u.package.isEmpty with
  | true =>
    exact ⟨u.name, rest, by simp [NamedType.reference, NamedType.isQualified, hq], hname,
      .inl ⟨String.isEmpty_iff.mp hq, rfl, rfl⟩⟩
  | false =>
    rw [hq] at hpackage
    exact ⟨u.package, _, by simp [NamedType.reference, NamedType.isQualified, hq],
      by simpa using hpackage, .inr ⟨rfl, rfl⟩⟩

/-- The shape of a type is decided by how its text starts, and no name stands before it. -/
theorem TypeExpr.Clear.decisions {t : TypeExpr} (h : t.Clear) {indent : Indent} {depth : Nat}
    {rest : List Char} (hrest : Ends rest) :
    kindAt (t.written indent depth ++ rest) = t.kindName ∧
      namedAt (t.written indent depth ++ rest) = false := by
  have sign : ∀ (word : List Char) (c : Char) {cs : List Char}, (∀ d ∈ word, isNamePart d = true) →
      isNamePart c = false → typeAfterBlank (c :: cs) = false →
      kindAt (word ++ c :: cs) = kindBefore word (c :: cs) ∧ namedAt (word ++ c :: cs) = false := by
    intro word c cs hword hc hblank
    rw [← hblank]
    exact decisions_at_word hword (by simpa using hc)
  have keyword : ∀ {w : String}, isIdentifier w = true → ∀ c ∈ w.toList, isNamePart c = true :=
    fun hw c hc => (isName_iff.mp hw).isNamePart hc
  cases t with
  | named u =>
    rw [TypeExpr.written_named]
    cases hp : u.pointer with
    | true => exact sign [] '*' (by simp) (by decide) rfl
    | false =>
      obtain ⟨word, tail, htext, hword, htail⟩ := NamedType.exists_word h.valid rest
      rw [if_neg (by simp), List.nil_append, htext]
      obtain ⟨-, -, rfl⟩ | ⟨-, rfl⟩ := htail
      · obtain ⟨hhead, hblank, hkind⟩ := hrest.decisions
        rw [← hblank, show (TypeExpr.named u).kindName = _ from (hkind word.toList).symm]
        exact decisions_at_word (keyword hword) hhead
      · exact sign _ '.' (keyword hword) (by decide) rfl
  | array element length ellipsis =>
    rw [TypeExpr.written_array]
    exact sign [] '[' (by simp) (by decide) rfl
  | map key value =>
    rw [TypeExpr.written_map, List.append_assoc]
    exact sign _ _ (keyword (by decide)) (by decide) rfl
  | struct fs =>
    rw [TypeExpr.written_struct h.struct, List.append_assoc, block]
    cases fs.isEmpty <;> exact sign _ _ (keyword (by decide)) (by decide) rfl
  | interface fs =>
    rw [TypeExpr.written_interface fun f hf => (h.interface f hf).2, List.append_assoc, block]
    cases fs.isEmpty <;> exact sign _ _ (keyword (by decide)) (by decide) rfl
  | func s =>
    obtain ⟨hparams, hresults, -⟩ := h.func
    rw [TypeExpr.written_func, Signature.written_eq hparams hresults, List.append_assoc]
    exact sign _ _ (keyword (by decide)) (by decide) rfl
  | foreign kind data => cases h.valid

theorem exists_head_of_isName {w : List Char} (hw : IsName w) (cs : List Char) :
    ∃ c ds, w ++ cs = c :: ds ∧ startsType c = true := by
  cases w with
  | nil => exact hw.elim
  | cons c w => exact ⟨c, w ++ cs, rfl, by simp [startsType, hw.1]⟩

theorem TypeExpr.Clear.exists_head {t : TypeExpr} (h : t.Clear) (indent : Indent) (depth : Nat) :
    ∃ c cs, t.written indent depth = c :: cs ∧ startsType c = true := by
  cases t with
  | named u =>
    rw [TypeExpr.written_named]
    cases hp : u.pointer with
    | true => exact ⟨_, _, rfl, by decide⟩
    | false =>
      obtain ⟨word, tail, htext, hword, -⟩ := NamedType.exists_word h.valid []
      rw [List.append_nil] at htext
      rw [if_neg (by simp), List.nil_append, htext]
      exact exists_head_of_isName (isName_iff.mp hword) tail
  | array element length ellipsis => exact ⟨_, _, TypeExpr.written_array .., by decide⟩
  | map key value => exact ⟨_, _, TypeExpr.written_map .., by decide⟩
  | struct fs => exact ⟨_, _, TypeExpr.written_struct h.struct, by decide⟩
  | interface fs =>
    exact ⟨_, _, TypeExpr.written_interface fun f hf => (h.interface f hf).2, by decide⟩
  | func s => exact ⟨_, _, TypeExpr.written_func s, by decide⟩
  | foreign kind data => cases h.valid

variable {indent : Indent} {depth : Nat} {spread : Bool} {f : Field}

/-- What follows the name of a field starts as a type does, or with the points of a spread. -/
theorem Field.Clear.exists_head_body (h : f.Clear) (indent : Indent) (depth : Nat)
    (hspread : f.CanSpread spread) :
    ∃ c cs, f.body indent depth spread = c :: cs ∧
      if spread then c = '.' else startsType c = true := by
  cases spread with
  | false => exact h.type.exists_head indent depth
  | true =>
    obtain ⟨element, htype⟩ := hspread rfl
    exact ⟨_, _, Field.body_true htype, rfl⟩

/-- The characters of the name of a field. -/
theorem Field.Clear.isName (h : f.Clear) (hnamed : f.isNamed = true) : IsName f.name.toList := by
  have hname := (Field.validate_eq_ok.mp h.valid).1
  rw [Field.isNamed, Bool.not_eq_true'] at hnamed
  rw [hnamed] at hname
  exact isName_iff.mp (by simpa using hname)

/-- A field with its name starts as a type does, or with the points of a spread. -/
theorem Field.Clear.exists_head_entry (h : f.Clear) (indent : Indent) (depth : Nat)
    (hspread : f.CanSpread spread) (rest : List Char) :
    ∃ c cs, f.label ++ (f.body indent depth spread ++ rest) = c :: cs ∧
      (startsType c = true ∨ c = '.') := by
  cases hn : f.isNamed with
  | true =>
    obtain ⟨c, cs, hname, hc⟩ := exists_head_of_isName (h.isName hn)
      (' ' :: (f.body indent depth spread ++ rest))
    refine ⟨c, cs, ?_, .inl hc⟩
    rw [← hname, Field.label, if_pos hn, List.append_assoc]
    rfl
  | false =>
    obtain ⟨c, cs, hbody, hc⟩ := h.exists_head_body indent depth hspread
    refine ⟨c, cs ++ rest, ?_, ?_⟩
    · rw [Field.label, hn, hbody]
      rfl
    · cases spread with
      | false => exact .inl hc
      | true => exact .inr hc

/-- A field is seen to have a name exactly if it has one. -/
theorem Field.Clear.namedAt_entry (h : f.Clear)
    (hspread : f.CanSpread spread) {rest : List Char}
    (hrest : Ends rest) :
    namedAt (f.label ++ (f.body indent depth spread ++ rest)) = f.isNamed := by
  obtain ⟨c, cs, hbody, hc⟩ := h.exists_head_body indent depth hspread
  cases hn : f.isNamed with
  | true =>
    have hblank : namedAt (f.name.toList ++ ' ' :: (f.body indent depth spread ++ rest)) =
        typeAfterBlank (' ' :: (f.body indent depth spread ++ rest)) :=
      (decisions_at_word (fun d hd => (h.isName hn).isNamePart hd) (by simp; decide)).2
    rw [Field.label, if_pos hn, List.append_assoc, List.singleton_append, hblank, hbody]
    cases spread <;> simp_all [typeAfterBlank]
  | false =>
    rw [Field.label, hn, if_neg (by simp), List.nil_append]
    cases spread with
    | false => exact (h.type.decisions hrest).2
    | true =>
      rw [hbody, show c = '.' from hc]
      rfl

end Decisions

end GoSource
