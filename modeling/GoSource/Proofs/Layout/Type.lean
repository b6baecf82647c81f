import GoSource.Proofs.Layout.Output
import GoSource.Proofs.Validate.Rules

/-!
# What the layout of a type writes

A valid type has a layout that does not fail, starts on the current line and ends
on a line with something on it. Its characters are given for each shape of a type,
in terms of those of the types inside.
-/

namespace GoSource

@[simp] theorem Field.layouts_eq (fs : List Field) : Field.layouts fs = fs.map Field.layout := by
  induction fs with
  | nil => rfl
  | cons f fs ih => rw [Field.layouts, ih, List.map_cons]

@[simp] theorem Field.layout_eq (f : Field) : f.layout = ⟨f, f.type.layout⟩ := by
  cases f
  rfl

@[simp] theorem Signature.doc_eq (s : Signature) :
    s.doc = MemberLayout.signature s.variadic (s.params.map Field.layout)
      (s.results.map Field.layout) := by
  cases s
  simp [Signature.doc]

namespace Doc

theorem concat_cons (d : Doc) (ds : List Doc) : concat (d :: ds) = append d (concat ds) := rfl

/-- Documents one after another fail as the first of them that fails. -/
theorem fault?_concat_eq (ds : List Doc) : (concat ds).fault? = ds.findSome? fault? := by
  induction ds with
  | nil => rfl
  | cons d ds ih =>
    rw [concat_cons, fault?, ih, List.findSome?_cons]
    cases d.fault? <;> rfl

theorem fault?_concat {ds : List Doc} : (concat ds).fault? = none ↔ ∀ d ∈ ds, d.fault? = none := by
  rw [fault?_concat_eq, List.findSome?_eq_none_iff]

/-- Documents that each end their line. -/
theorem chars_lines {ds : List Doc} (h : ∀ d ∈ ds, d.leads = true) (indent : Indent)
    (depth : Nat) :
    (concat (ds.map (· ++ newline))).chars indent depth true =
        (ds.flatMap fun d => indent.margin depth ++ d.chars indent depth false ++ ['\n']) ∧
      (concat (ds.map (· ++ newline))).freshAfter true = true := by
  induction ds with
  | nil => simp [concat]
  | cons d ds ih =>
    have hd := chars_of_leads (h d (by simp)) indent depth
    have hds := ih fun d hd => h d (List.mem_cons_of_mem _ hd)
    simp only [append_eq] at hds
    simp [concat_cons, hd, hds]

end Doc

open MemberLayout

section Ends

/-- A type ends on the line on which its last text stands. -/
theorem TypeExpr.freshAfter_layout (t : TypeExpr) :
    t.layout.bare.freshAfter false = false ∧ t.layout.full.freshAfter false = false := by
  have hbraced : ∀ keyword lines, (braced keyword lines).freshAfter false = false := by
    intro keyword lines
    unfold braced
    split <;> simp
  have hsignature : ∀ variadic params results,
      (signature variadic params results).freshAfter false = false := by
    intro variadic params results
    unfold signature
    split <;> simp
  induction t using TypeExpr.induction with
  | named type => simp [TypeExpr.layout, TypeLayout.plain, NamedType.doc]
  | array element length ellipsis ih => simp [TypeExpr.layout, ih]
  | map key value hk hv => simp [TypeExpr.layout, TypeLayout.plain, hk, hv]
  | struct fs ih => simp [TypeExpr.layout, TypeLayout.plain, hbraced]
  | interface fs ih => simp [TypeExpr.layout, TypeLayout.plain, hbraced]
  | func s hp hr => simp [TypeExpr.layout, hsignature]
  | foreign kind data => simp [TypeExpr.layout, TypeLayout.plain]

/-- An entry of a list is written as any other, or as the last one of a variadic list. -/
theorem mem_entries {variadic : Bool} {ms : List MemberLayout} {d : Doc}
    (h : d ∈ entries variadic ms) :
    (∃ m ∈ ms, d = m.typed) ∨
      variadic = true ∧ ∃ m, ms.getLast? = some m ∧ d = m.spread := by
  fun_induction entries variadic ms with
  | case1 => cases h
  | case2 m =>
    obtain rfl := List.mem_singleton.mp h
    cases variadic with
    | false => exact .inl ⟨m, by simp, rfl⟩
    | true => exact .inr ⟨rfl, m, rfl, rfl⟩
  | case3 m ms hms ih =>
    rcases List.mem_cons.mp h with rfl | h
    · exact .inl ⟨m, by simp, rfl⟩
    · rcases ih h with ⟨m', hm', rfl⟩ | ⟨hv, m', hm', rfl⟩
      · exact .inl ⟨m', List.mem_cons_of_mem _ hm', rfl⟩
      · refine .inr ⟨hv, m', ?_, rfl⟩
        rw [List.getLast?_cons, hm']
        rfl

/-- What holds of each field in the usual form, and of a slice that is spread, holds of every
entry of a list whose last field can be spread if it is variadic. -/
theorem forall_mem_entries {P : Doc → Prop} {variadic : Bool} {fs : List Field}
    (htyped : ∀ f ∈ fs, P f.layout.typed)
    (hspread : variadic = true → ∀ f ∈ fs, ∀ element, f.type = .array element 0 false →
      P f.layout.spread)
    (hvariadic : variadic = true → checkVariadic fs = .ok ()) :
    ∀ d ∈ entries variadic (fs.map Field.layout), P d := by
  intro d hd
  rcases mem_entries hd with ⟨m, hm, rfl⟩ | ⟨hv, m, hm, rfl⟩
  · obtain ⟨f, hf, rfl⟩ := List.mem_map.mp hm
    exact htyped f hf
  · obtain ⟨last, element, hlast, htype⟩ := exists_slice_of_checkVariadic (hvariadic hv)
    rw [List.getLast?_map, hlast] at hm
    obtain rfl := Option.some.inj hm
    exact hspread hv last (List.mem_of_getLast? hlast) element htype

/-- The elements of an array are laid out as the type that they have. -/
theorem TypeExpr.exists_element {t : TypeExpr} {d : Doc} (h : t.layout.element? = some d) :
    ∃ element length ellipsis, t = .array element length ellipsis ∧ d = element.layout.full := by
  cases t with
  | array element length ellipsis => exact ⟨element, length, ellipsis, rfl, (Option.some.inj h).symm⟩
  | _ => cases h

/-- An entry of a list ends on the line on which its last text stands. -/
theorem freshAfter_of_mem_entries {variadic : Bool} {fs : List Field} {d : Doc}
    (h : d ∈ entries variadic (fs.map Field.layout)) : d.freshAfter false = false := by
  rcases mem_entries h with ⟨m, hm, rfl⟩ | ⟨-, m, hm, rfl⟩
  · obtain ⟨f, -, rfl⟩ := List.mem_map.mp hm
    simp [typed, f.type.freshAfter_layout]
  · obtain ⟨f, -, rfl⟩ := List.mem_map.mp (List.mem_of_getLast? hm)
    cases helement : f.type.layout.element? with
    | none => simp [spread, helement]
    | some d =>
      obtain ⟨element, -, -, -, rfl⟩ := TypeExpr.exists_element helement
      simp [spread, helement, element.freshAfter_layout]

theorem freshAfter_separated {ds : List Doc} (h : ∀ d ∈ ds, d.freshAfter false = false) :
    (separated ds).freshAfter false = false := by
  fun_induction separated ds with
  | case1 => rfl
  | case2 d => exact h d (by simp)
  | case3 d ds hds ih => simp [h d (by simp), ih fun e he => h e (List.mem_cons_of_mem _ he)]

end Ends

section Starts

/-- What stands between the brackets of an array. -/
def bracketed (length : Int) (ellipsis : Bool) : List Char :=
  if ellipsis then ['.', '.', '.'] else if 0 < length then (toString length).toList else []

/-- A length is written in digits. -/
theorem toList_toString_of_pos {length : Int} (h : 0 < length) :
    ∃ n : Nat, (toString length).toList = Nat.toDigits 10 n := by
  obtain ⟨n, rfl⟩ := Int.eq_ofNat_of_zero_le (Int.le_of_lt h)
  refine ⟨n, ?_⟩
  change (Nat.repr n).toList = _
  rw [Nat.repr_eq_ofList_toDigits, String.toList_ofList]

theorem toList_brackets (length : Int) (ellipsis : Bool) :
    (brackets length ellipsis).toList = '[' :: (bracketed length ellipsis ++ [']']) := by
  unfold brackets bracketed
  split
  · rfl
  · split
    · rw [String.toList_append, String.toList_append]
      rfl
    · rfl

theorem NamedType.leads_doc {t : NamedType} (h : isIdentifier t.name = true) :
    t.doc.leads = true := by
  have hname := isEmpty_eq_false_of_isIdentifier h
  cases hp : t.pointer <;> cases hq : t.isQualified <;> simp_all [NamedType.doc, NamedType.isQualified]

theorem leads_braced (keyword : String) (lines : List Doc) : (braced keyword lines).leads = true := by
  unfold braced
  split <;> simp

/-- A valid type starts on the current line. -/
theorem TypeExpr.leads_layout {t : TypeExpr} (h : t.validate = .ok ()) :
    t.layout.bare.leads = true ∧ t.layout.full.leads = true := by
  cases t with
  | named type =>
    have hname := (NamedType.validate_eq_ok.mp h).1
    simp [TypeExpr.layout, TypeLayout.plain, NamedType.leads_doc hname]
  | array element length ellipsis =>
    have hbrackets : brackets length ellipsis ≠ "" := by
      intro he
      have hlist := toList_brackets length ellipsis
      rw [he] at hlist
      cases hlist
    simp [TypeExpr.layout, hbrackets]
  | map key value => simp [TypeExpr.layout, TypeLayout.plain]
  | struct fs => simp [TypeExpr.layout, TypeLayout.plain, leads_braced]
  | interface fs => simp [TypeExpr.layout, TypeLayout.plain, leads_braced]
  | func s => simp [TypeExpr.layout, signature]
  | foreign kind data => cases h

theorem Field.leads_typed {f : Field} (h : f.validate = .ok ()) : f.layout.typed.leads = true := by
  have htype := TypeExpr.leads_layout (Field.validate_eq_ok.mp h).2.2
  cases hn : f.name.isEmpty <;> simp_all [typed, Field.isNamed]

/-- A line of a struct starts on the current line, with its comment if it has one. -/
theorem Field.leads_structField {f : Field} (h : f.validate = .ok ()) :
    f.layout.structField.leads = true := by
  have htyped := Field.leads_typed h
  cases hc : (commentLines f.comment).isEmpty <;> simp_all [structField]

theorem Field.leads_interfaceMember {f : Field} (h : f.validate = .ok ()) :
    f.layout.interfaceMember.leads = true := by
  have htype := TypeExpr.leads_layout (Field.validate_eq_ok.mp h).2.2
  cases hc : (commentLines f.comment).isEmpty <;> cases hn : f.name.isEmpty <;>
    simp_all [interfaceMember]

end Starts

section Faults

theorem fault?_braced {keyword : String} {lines : List Doc} (h : ∀ d ∈ lines, d.fault? = none) :
    (braced keyword lines).fault? = none := by
  unfold braced
  split
  · rfl
  · have hlines : (Doc.concat (lines.map (· ++ .newline))).fault? = none := by
      rw [Doc.fault?_concat]
      simpa using h
    simp only [Doc.append_eq] at hlines
    simp [hlines]

theorem fault?_separated {ds : List Doc} (h : ∀ d ∈ ds, d.fault? = none) :
    (separated ds).fault? = none := by
  fun_induction separated ds with
  | case1 => rfl
  | case2 d => exact h d (by simp)
  | case3 d ds hds ih => simp [h d (by simp), ih fun e he => h e (List.mem_cons_of_mem _ he)]

theorem fault?_listed {variadic : Bool} {ms : List MemberLayout}
    (h : ∀ d ∈ entries variadic ms, d.fault? = none) : (listed variadic ms).fault? = none := by
  unfold listed
  split
  · exact fault?_separated h
  · change (Doc.concat _).fault? = none
    rw [Doc.fault?_concat]
    intro line hline
    obtain ⟨⟨m, d⟩, hd, rfl⟩ := List.mem_map.mp hline
    simp [h d (List.of_mem_zip hd).2]

theorem fault?_typed {m : MemberLayout} (h : m.type.full.fault? = none) :
    m.typed.fault? = none := by
  simp [typed, h]

theorem fault?_spread {f : Field} {element : TypeExpr} {length : Int} {ellipsis : Bool}
    (htype : f.type = .array element length ellipsis)
    (h : f.type.layout.full.fault? = none) : f.layout.spread.fault? = none := by
  rw [htype] at h
  have helement : element.layout.full.fault? = none := by simpa [TypeExpr.layout] using h
  simp [spread, htype, TypeExpr.layout, helement]

/-- A signature can be laid out if its types can and a variadic one ends in a slice. -/
theorem Signature.fault?_doc {s : Signature}
    (hparams : ∀ f ∈ s.params, f.type.layout.full.fault? = none)
    (hresults : ∀ f ∈ s.results, f.type.layout.full.fault? = none)
    (hvariadic : s.variadic = true → checkVariadic s.params = .ok ()) : s.doc.fault? = none := by
  have hp : (listed s.variadic (s.params.map Field.layout)).fault? = none := by
    apply fault?_listed
    refine forall_mem_entries (fun f hf => ?_) (fun _ f hf element htype => ?_) hvariadic
    · exact fault?_typed (by simpa using hparams f hf)
    · exact fault?_spread htype (hparams f hf)
  have hr : (listed false (s.results.map Field.layout)).fault? = none := by
    apply fault?_listed
    refine forall_mem_entries (fun f hf => ?_) nofun nofun
    exact fault?_typed (by simpa using hresults f hf)
  simp [signature, hp, hr]

/-- A valid type can be laid out. -/
theorem TypeExpr.fault?_layout {t : TypeExpr} (h : t.validate = .ok ()) :
    t.layout.bare.fault? = none ∧ t.layout.full.fault? = none := by
  induction t using TypeExpr.induction with
  | named type => simp [TypeExpr.layout, TypeLayout.plain, NamedType.doc]
  | array element length ellipsis ih =>
    simp only [TypeExpr.validate, Verdict.bind_eq_ok, Verdict.within_eq_ok] at h
    simp [TypeExpr.layout, ih h.2]
  | map key value hk hv =>
    simp only [TypeExpr.validate, Verdict.bind_eq_ok, Verdict.within_eq_ok] at h
    simp [TypeExpr.layout, TypeLayout.plain, hk h.1, hv h.2]
  | struct fs ih =>
    simp only [TypeExpr.validate, Field.validateAll_eq_ok, Field.validate_eq_ok] at h
    have hlines : ∀ d ∈ (Field.layouts fs).map (·.structField), d.fault? = none := by
      simp only [Field.layouts_eq, List.map_map, List.mem_map]
      rintro _ ⟨f, hf, rfl⟩
      simp [structField, typed, ih f hf (h f hf).2.2.2]
    simp only [TypeExpr.layout, TypeLayout.plain, fault?_braced hlines, and_self]
  | interface fs ih =>
    simp only [TypeExpr.validate, Field.validateAll_eq_ok, Field.validate_eq_ok] at h
    have hlines : ∀ d ∈ (Field.layouts fs).map (·.interfaceMember), d.fault? = none := by
      simp only [Field.layouts_eq, List.map_map, List.mem_map]
      rintro _ ⟨f, hf, rfl⟩
      simp [interfaceMember, ih f hf (h f hf).2.2.2]
    simp only [TypeExpr.layout, TypeLayout.plain, fault?_braced hlines, and_self]
  | func s hp hr =>
    obtain ⟨hparams, hresults, hvariadic, -⟩ := Signature.validate_eq_ok.mp h
    have hdoc : s.doc.fault? = none := Signature.fault?_doc
      (fun f hf => (hp f hf (Field.validate_eq_ok.mp (hparams f hf)).2.2).2)
      (fun f hf => (hr f hf (Field.validate_eq_ok.mp (hresults f hf)).2.2).2) hvariadic
    simp only [TypeExpr.layout, Doc.append_eq, Doc.fault?, hdoc, Option.none_or, and_self]
  | foreign kind data => cases h

end Faults

section Characters

variable (indent : Indent) (depth : Nat)

theorem NamedType.chars_doc (t : NamedType) :
    t.doc.chars indent depth false =
      (if t.pointer then ['*'] else []) ++
        ((if t.isQualified then t.package.toList ++ ['.'] else []) ++ t.name.toList) := by
  cases hp : t.pointer <;> cases hq : t.isQualified <;> simp [NamedType.doc, hp, hq]

/-- A name is set off from its type by a blank. -/
theorem chars_typed (m : MemberLayout) :
    m.typed.chars indent depth false =
      (if m.field.isNamed then m.field.name.toList ++ [' '] else []) ++
        m.type.full.chars indent depth false := by
  cases h : m.field.isNamed <;> simp [typed, h]

theorem chars_spread {m : MemberLayout} {element : Doc} (h : m.type.element? = some element) :
    m.spread.chars indent depth false =
      (if m.field.isNamed then m.field.name.toList ++ [' '] else []) ++
        '.' :: '.' :: '.' :: element.chars indent depth false := by
  cases hn : m.field.isNamed <;> simp [spread, h, hn]

/-- Lines in braces: each has its margin, and so has the closing brace. -/
theorem chars_braced (keyword : String) {lines : List Doc} (h : ∀ d ∈ lines, d.leads = true) :
    (braced keyword lines).chars indent depth false =
      keyword.toList ++ if lines.isEmpty then ['\x7b', '\x7d'] else
        ' ' :: '\x7b' :: '\n' :: ((lines.flatMap fun d =>
          indent.margin (depth + 1) ++ d.chars indent (depth + 1) false ++ ['\n']) ++
            (indent.margin depth ++ ['\x7d'])) := by
  have hlines := Doc.chars_lines h indent (depth + 1)
  simp only [Doc.append_eq] at hlines
  unfold braced
  split
  · simp
  · simp [hlines]

/-- The first of several entries, and the comma after it. -/
theorem chars_separated_entries {variadic : Bool} {m n : MemberLayout} {ms : List MemberLayout}
    (hm : m.typed.freshAfter false = false) :
    (separated (entries variadic (m :: n :: ms))).chars indent depth false =
      m.typed.chars indent depth false ++ ',' :: ' ' ::
        (separated (entries variadic (n :: ms))).chars indent depth false := by
  obtain ⟨d, ds, hds⟩ : ∃ d ds, entries variadic (n :: ms) = d :: ds := by
    cases ms <;> simp [entries]
  rw [entries, hds]
  · simp [separated, hm]
  · simp

/-- A signature without comments stands on one line. -/
theorem chars_signature {s : Signature} (hp : ∀ f ∈ s.params, f.comment = "")
    (hr : ∀ f ∈ s.results, f.comment = "") :
    s.doc.chars indent depth false =
      '(' :: ((separated (entries s.variadic (s.params.map Field.layout))).chars indent depth false ++
        ')' :: if s.results.isEmpty then [] else ' ' :: '(' ::
          ((separated (entries false (s.results.map Field.layout))).chars indent depth false ++
            [')'])) := by
  have hparams : (s.params.map Field.layout).all (·.field.comment.isEmpty) = true := by
    simpa [List.all_eq_true] using hp
  have hresults : (s.results.map Field.layout).all (·.field.comment.isEmpty) = true := by
    simpa [List.all_eq_true] using hr
  have hfp : (separated (entries s.variadic (s.params.map Field.layout))).freshAfter false = false :=
    freshAfter_separated fun d hd => freshAfter_of_mem_entries hd
  have hfr : (separated (entries false (s.results.map Field.layout))).freshAfter false = false :=
    freshAfter_separated fun d hd => freshAfter_of_mem_entries hd
  rw [Signature.doc_eq, signature, listed, listed, if_pos hparams, if_pos hresults]
  simp [hfp, hfr]

end Characters

/-- The text that a valid type is on its own. -/
theorem TypeExpr.render_eq {t : TypeExpr} (h : t.validate = .ok ()) (indent : Indent) :
    (Node.type t).render indent = .ok (String.ofList (t.layout.bare.chars indent 0 false)) := by
  change t.layout.bare.render indent = _
  rw [Doc.render_eq (TypeExpr.fault?_layout h).1,
    (Doc.chars_of_leads (TypeExpr.leads_layout h).1 indent 0).1]
  rfl

end GoSource
