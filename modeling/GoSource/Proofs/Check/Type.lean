import GoSource.Proofs.Check.Document

/-!
# Reading what the layout of a type writes

A valid type whose names are no keywords is a phrase wherever it stands: it closes
what it opens and ends in a token that can end a statement. In particular each line
of a struct or an interface ends where it should, and a list in parentheses never
has a line that ends too early.
-/

namespace GoSource

namespace Node

/-- The names that the node itself holds. -/
def names : Node → List String
  | type (.named t) => [t.package, t.name]
  | field f => [f.name]
  | const c => [c.name]
  | var v => [v.name]
  | typeDecl t => [t.name]
  | func f => [f.name]
  | importDecl i => [i.localName]
  | file f => [f.package]
  | _ => []

/-- The comment that the node itself carries; types carry none. -/
def comment : Node → String
  | type _ => ""
  | field f => f.comment
  | const c => c.comment
  | var v => v.comment
  | typeDecl t => t.comment
  | func f => f.comment
  | importDecl i => i.comment
  | constGroup g => g.comment
  | varGroup g => g.comment
  | typeGroup g => g.comment
  | importGroup g => g.comment
  | file f => f.comment

/-- The path of an import. -/
def path? : Node → Option String
  | importDecl i => some i.path
  | _ => none

/-- The initializer of a constant or a variable. -/
def initializer? : Node → Option String
  | const c => some c.value
  | var v => some v.value
  | _ => none

/-- A constant without an initializer, which cannot be laid out. -/
def isBareConstant : Node → Bool
  | const c => c.value.isEmpty
  | _ => false

/-- What a node that was read from source text has beyond the rules of validation. -/
structure Spelled (n : Node) : Prop where
  names : ∀ name ∈ n.names, Keyword.ofSpelling? name.toList = none
  comment : '\r' ∉ n.comment.toList
  path : ∀ path ∈ n.path?, '\n' ∉ path.toList ∧ '\r' ∉ path.toList
  constant : n.isBareConstant = false
  initializer : ∀ value ∈ n.initializer?, value ≠ "" → Expression.FitsLine value

end Node

/-- The document is read inside a declaration without leaving anything open, and ends in a
token that can end a statement. -/
def Doc.IsPhrase (d : Doc) : Prop :=
  ∀ pastImports opened started pending,
    d.Takes Apart ⟨.inside pastImports opened started, pending⟩
      ⟨.inside pastImports opened true, true⟩

open Doc MemberLayout

theorem Reaches.identifier {name : String} (hname : isIdentifier name = true)
    (hkeyword : Keyword.ofSpelling? name.toList = none) (pastImports : Bool)
    (opened : List Delimiter) (started pending : Bool) :
    Reaches Apart ⟨.inside pastImports opened started, pending⟩ name.toList
      ⟨.inside pastImports opened true, true⟩ :=
  Reaches.name hname hkeyword rfl

theorem Reaches.opens (pair : Delimiter) (pastImports : Bool) (opened : List Delimiter)
    (started pending : Bool) :
    Reaches Anything ⟨.inside pastImports opened started, pending⟩ [pair.opener]
      ⟨.inside pastImports (pair :: opened) true, false⟩ :=
  Reaches.opening pair (by cases pair <;> rfl)

theorem Reaches.closes (pair : Delimiter) (pastImports : Bool) (opened : List Delimiter)
    (started pending : Bool) :
    Reaches Anything ⟨.inside pastImports (pair :: opened) started, pending⟩ [pair.closer]
      ⟨.inside pastImports opened true, true⟩ :=
  Reaches.closing pair (by cases pair <;> rfl)

theorem isPhrase_name {name : String} (hname : isIdentifier name = true)
    (hkeyword : Keyword.ofSpelling? name.toList = none) : (Doc.text name).IsPhrase :=
  fun pastImports opened started pending =>
    Takes.text (Reaches.identifier hname hkeyword pastImports opened started pending)

/-- A name, its package and its star. -/
theorem NamedType.isPhrase_doc {t : NamedType} (hvalid : t.validate = .ok ())
    (hspelled : (Node.type (.named t)).Spelled) : t.doc.IsPhrase := by
  obtain ⟨hname, hpackage⟩ := NamedType.validate_eq_ok.mp hvalid
  have hkeywords := hspelled.names
  simp only [Node.names, List.forall_mem_cons] at hkeywords
  intro pastImports opened started pending
  have hlast (started pending : Bool) :
      Reaches Apart ⟨.inside pastImports opened started, pending⟩ t.name.toList
        ⟨.inside pastImports opened true, true⟩ :=
    Reaches.identifier hname hkeywords.2.1 pastImports opened started pending
  have hdot : Reaches Apart ⟨.inside pastImports opened true, true⟩ ('.' :: t.name.toList)
      ⟨.inside pastImports opened true, true⟩ :=
    (Reaches.dot rfl).append (hlast true false) fun rest _ =>
      NameNext.of_isName (isName_iff.mp hname) rest
  have hunstarred (started pending : Bool) :
      Reaches Apart ⟨.inside pastImports opened started, pending⟩
          ((if t.isQualified then t.package.toList ++ ['.'] else []) ++ t.name.toList)
          ⟨.inside pastImports opened true, true⟩ ∧
        ∀ rest, NameNext
          ((if t.isQualified then t.package.toList ++ ['.'] else []) ++ t.name.toList ++ rest) := by
    cases hq : t.package.isEmpty with
    | true =>
      simp only [NamedType.isQualified, hq, Bool.not_true, Bool.false_eq_true, if_false,
        List.nil_append]
      exact ⟨hlast started pending, NameNext.of_isName (isName_iff.mp hname)⟩
    | false =>
      have hident := hpackage.resolve_left (by simp [hq])
      simp only [NamedType.isQualified, hq, Bool.not_false, if_true, List.append_assoc,
        List.singleton_append]
      refine ⟨Reaches.append_sign ?_ (by decide) hdot, fun rest =>
        NameNext.of_isName (isName_iff.mp hident) _⟩
      exact Reaches.identifier hident hkeywords.1 pastImports opened started pending
  refine Takes.of_leads (NamedType.leads_doc hname) fun indent depth => ?_
  rw [NamedType.chars_doc]
  split
  · exact (Reaches.star rfl).append (hunstarred true false).1 fun rest _ =>
      (hunstarred true false).2 rest
  · exact (hunstarred started pending).1

section Shapes

variable (pastImports : Bool) (opened : List Delimiter) (started pending : Bool)

/-- The brackets of an array or a slice. -/
theorem takes_brackets (length : Int) (ellipsis : Bool) :
    (Doc.text (brackets length ellipsis)).Takes Anything
      ⟨.inside pastImports opened started, pending⟩ ⟨.inside pastImports opened true, true⟩ := by
  have hclosed (pending : Bool) := Reaches.closes .bracket pastImports opened true pending
  have hinner : Reaches Anything ⟨.inside pastImports (.bracket :: opened) true, false⟩
      (bracketed length ellipsis ++ [']']) ⟨.inside pastImports opened true, true⟩ := by
    unfold bracketed
    split
    · exact (Reaches.ellipsis rfl).trans (hclosed false)
    · split
      · rename_i hpos
        obtain ⟨n, hn⟩ := toList_toString_of_pos hpos
        rw [hn]
        have hdigits : ∀ c ∈ Nat.toDigits 10 n, c.isDigit = true := fun c hc =>
          Nat.isDigit_of_mem_toDigits (by decide) (by decide) hc
        exact (Reaches.digits Nat.toDigits_ne_nil hdigits rfl).append (hclosed true)
          fun rest _ => ⟨rest, rfl⟩
      · exact hclosed false
  apply Takes.text
  rw [toList_brackets]
  exact (Reaches.opens .bracket pastImports opened started pending).trans hinner

/-- A name that is set off from what follows it. -/
theorem isPhrase_named {f : Field} {d : Doc} (hvalid : f.validate = .ok ())
    (hspelled : (Node.field f).Spelled) (hd : d.IsPhrase) :
    ((if f.isNamed then Doc.text f.name ++ Doc.text " " else .empty) ++ d).IsPhrase := by
  intro pastImports opened started pending
  cases hempty : f.name.isEmpty with
  | true =>
    simp only [Field.isNamed, hempty, Bool.not_true, Bool.false_eq_true, if_false]
    exact (Takes.empty _).trans (hd pastImports opened started pending)
  | false =>
    have hname := (Field.validate_eq_ok.mp hvalid).1.resolve_left (by simp [hempty])
    have hphrase := isPhrase_name hname (hspelled.names f.name (by simp [Node.names]))
    simp only [Field.isNamed, hempty, Bool.not_false, if_true]
    exact ((hphrase pastImports opened started pending).append (Takes.space _)
      (meets_sign rfl (by decide))).trans (hd pastImports opened true true)

/-- A document that ends the line on which it stands in a declaration. -/
def Doc.IsLine (d : Doc) : Prop :=
  ∀ pastImports opened started,
    (d ++ .newline).Takes Anything ⟨.inside pastImports opened started, false⟩
      ⟨.lineEnd pastImports opened, false⟩

theorem Doc.IsPhrase.isLine {d : Doc} (h : d.IsPhrase) : d.IsLine :=
  fun pastImports opened started =>
    (h pastImports opened started false).append
      (Takes.newline (Phase.step_semicolon pastImports opened)) meets_newline

theorem Doc.IsLine.comment {d : Doc} (h : d.IsLine) {c : String} (hc : '\r' ∉ c.toList) :
    (Doc.comment c ++ d).IsLine := fun pastImports opened started =>
  Takes.assoc ((Takes.comment hc _).trans (h pastImports opened started))

/-- Lines in braces after the keyword of a type. -/
theorem isPhrase_braced {word : Keyword} {lines : List Doc}
    (hword : word = .kwStruct ∨ word = .kwInterface) (hlines : ∀ d ∈ lines, d.IsLine) :
    (braced word.spelling lines).IsPhrase := by
  intro pastImports opened started pending
  have hkeyword : Reaches Apart ⟨.inside pastImports opened started, pending⟩ word.spelling.toList
      ⟨.inside pastImports opened true, false⟩ := by
    rcases hword with rfl | rfl <;> exact Reaches.keyword _ rfl
  have hopen := Reaches.opens .brace pastImports opened true false
  have hclose := Reaches.closes .brace pastImports opened true false
  unfold braced
  split
  · refine Takes.anywhere (Takes.text ?_)
    rw [String.toList_append]
    exact hkeyword.append_sign (by decide) (hopen.trans hclose)
  · have hhead : Reaches Anything ⟨.inside pastImports opened started, pending⟩
        (word.spelling ++ " \x7b").toList ⟨.inside pastImports (.brace :: opened) true, false⟩ := by
      rw [String.toList_append]
      exact hkeyword.append_sign (by decide) ((Reaches.space _).trans hopen)
    have hbody : (Doc.concat (lines.map (· ++ .newline))).Takes Anything
        ⟨.inside pastImports (.brace :: opened) true, false⟩
        ⟨.inside pastImports (.brace :: opened) true, false⟩ := by
      apply Takes.concat
      intro d hd
      obtain ⟨line, hline, rfl⟩ := List.mem_map.mp hd
      exact hlines line hline pastImports (.brace :: opened) true
    exact Takes.anywhere ((((Takes.text hhead).trans (Takes.newline_idle _)).trans hbody.nest).trans
      (Takes.text hclose))

end Shapes

section Lists

variable (pastImports : Bool) (opened : List Delimiter)

theorem Reaches.separator (pending : Bool) :
    Reaches Anything ⟨.inside pastImports opened true, pending⟩ [',']
      ⟨.inside pastImports opened true, false⟩ := Reaches.comma rfl

theorem takes_separated {ds : List Doc} (h : ∀ d ∈ ds, d.IsPhrase) :
    ∃ pending, (separated ds).Takes Apart ⟨.inside pastImports opened true, false⟩
      ⟨.inside pastImports opened true, pending⟩ := by
  fun_induction separated ds with
  | case1 => exact ⟨false, Takes.empty _⟩
  | case2 d => exact ⟨true, h d (by simp) pastImports opened true false⟩
  | case3 d ds hds ih =>
    obtain ⟨pending, hrest⟩ := ih fun e he => h e (List.mem_cons_of_mem _ he)
    have hcomma : (Doc.text ", ").Takes Anything ⟨.inside pastImports opened true, true⟩
        ⟨.inside pastImports opened true, false⟩ :=
      Takes.text ((Reaches.separator pastImports opened true).trans (Reaches.space _))
    exact ⟨pending, ((h d (by simp) pastImports opened true false).append hcomma
      (meets_sign rfl (by decide))).trans hrest⟩

/-- A list stands on one line, or each of its lines ends in a comma. -/
theorem takes_listed {variadic : Bool} {ms : List MemberLayout}
    (hentries : ∀ d ∈ entries variadic ms, d.IsPhrase)
    (hcomments : ∀ m ∈ ms, '\r' ∉ m.field.comment.toList) :
    ∃ pending, (listed variadic ms).Takes Apart ⟨.inside pastImports opened true, false⟩
      ⟨.inside pastImports opened true, pending⟩ := by
  unfold listed
  split
  · exact takes_separated pastImports opened hentries
  · refine ⟨false, Takes.anywhere ((Takes.newline_idle _).trans (Takes.nest (Takes.concat ?_)))⟩
    intro d hd
    obtain ⟨⟨m, entry⟩, hmem, rfl⟩ := List.mem_map.mp hd
    obtain ⟨hm, hentry⟩ := List.of_mem_zip hmem
    have hphrase := hentries entry hentry pastImports opened true false
    have hcomma := Reaches.separator pastImports opened true
    exact (((Takes.comment (hcomments m hm) _).trans hphrase).append (Takes.text hcomma)
      (meets_sign rfl (by decide))).trans (Takes.newline_idle _)

/-- Every layout of a type is read as a phrase. The elements are kept apart, since a variadic
parameter shows only them. -/
structure TypeLayout.Readable (layout : TypeLayout) : Prop where
  bare : layout.bare.IsPhrase
  full : layout.full.IsPhrase
  element : ∀ d, layout.element? = some d → d.IsPhrase

theorem TypeLayout.readable_plain {d : Doc} (h : d.IsPhrase) : (TypeLayout.plain d).Readable := by
  refine ⟨h, h, fun e he => ?_⟩
  cases he

/-- A valid field that can be read. -/
structure Field.Readable (f : Field) : Prop where
  valid : f.validate = .ok ()
  spelled : (Node.field f).Spelled
  type : f.type.layout.Readable

theorem Field.Readable.typed {f : Field} (h : f.Readable) : f.layout.typed.IsPhrase := by
  rw [Field.layout_eq]
  exact isPhrase_named h.valid h.spelled h.type.full

/-- The last parameter of a variadic function shows the elements of its slice. -/
theorem Field.Readable.spread {f : Field} {element : Doc} (h : f.Readable)
    (helement : f.type.layout.element? = some element) : f.layout.spread.IsPhrase := by
  have hspread : (Doc.text "..." ++ element).IsPhrase := fun pastImports opened started pending =>
    (Takes.text (Reaches.ellipsis rfl)).trans
      (h.type.element element helement pastImports opened true false)
  have hnamed := isPhrase_named h.valid h.spelled hspread
  simpa [MemberLayout.spread, helement] using hnamed

/-- Parameters and results in parentheses, whatever follows them. -/
theorem Signature.takes_doc {s : Signature} (hparams : ∀ f ∈ s.params, f.Readable)
    (hresults : ∀ f ∈ s.results, f.Readable)
    (hvariadic : s.variadic = true → checkVariadic s.params = .ok ()) (started pending : Bool) :
    s.doc.Takes Anything ⟨.inside pastImports opened started, pending⟩
      ⟨.inside pastImports opened true, true⟩ := by
  have hcomments : ∀ fs : List Field, (∀ f ∈ fs, f.Readable) →
      ∀ m ∈ fs.map Field.layout, '\r' ∉ m.field.comment.toList := by
    intro fs hfs m hm
    obtain ⟨f, hf, rfl⟩ := List.mem_map.mp hm
    simpa [Node.comment] using (hfs f hf).spelled.comment
  have hentries : ∀ d ∈ entries s.variadic (s.params.map Field.layout), d.IsPhrase := by
    refine forall_mem_entries (fun f hf => (hparams f hf).typed) ?_ hvariadic
    intro _ f hf element htype
    exact (hparams f hf).spread (by rw [htype]; rfl)
  have houtcomes : ∀ d ∈ entries false (s.results.map Field.layout), d.IsPhrase :=
    forall_mem_entries (fun f hf => (hresults f hf).typed) nofun nofun
  obtain ⟨p, hlist⟩ := takes_listed pastImports (.paren :: opened) hentries
    (hcomments s.params hparams)
  obtain ⟨q, hlist'⟩ := takes_listed pastImports (.paren :: opened) houtcomes
    (hcomments s.results hresults)
  have hclose (pending : Bool) := Reaches.closes .paren pastImports opened true pending
  have hhead : (Doc.text "(" ++ listed s.variadic (s.params.map Field.layout) ++
      Doc.text ")").Takes Anything ⟨.inside pastImports opened started, pending⟩
      ⟨.inside pastImports opened true, true⟩ :=
    ((Takes.text (Reaches.opens .paren pastImports opened started pending)).trans hlist).append
      (Takes.text (hclose p)) (meets_sign rfl (by decide))
  have hopen : (Doc.text " (").Takes Anything ⟨.inside pastImports opened true, true⟩
      ⟨.inside pastImports (.paren :: opened) true, false⟩ :=
    Takes.text ((Reaches.space _).trans (Reaches.opens .paren pastImports opened true true))
  rw [Signature.doc_eq, signature]
  split
  · exact hhead.trans (Takes.empty _)
  · exact hhead.trans ((hopen.trans hlist').append (Takes.text (hclose q))
      (meets_sign rfl (by decide)))

theorem Signature.meets_doc (s : Signature) : s.doc.Meets Anything Apart := by
  rw [Signature.doc_eq, signature]
  exact Meets.append (Meets.append (Meets.append (meets_sign rfl (by decide))))

end Lists

section Members

/-- A field of a struct, with its tag on the same line. -/
theorem Field.Readable.structField {f : Field} (h : f.Readable) : f.layout.structField.IsLine := by
  have htag : (f.layout.typed ++ if f.tag.isEmpty then Doc.empty else
      Doc.text " " ++ Doc.text (Text.quoteTag f.tag)).IsPhrase := by
    intro pastImports opened started pending
    have htyped := h.typed pastImports opened started pending
    split
    · exact htyped.append (Takes.empty _) meets_empty
    · have hquoted : (Doc.text (Text.quoteTag f.tag)).Takes Apart
          ⟨.inside pastImports opened true, true⟩ ⟨.inside pastImports opened true, true⟩ :=
        Takes.anywhere (Takes.text (Reaches.quoted (fun c _ => escaped_escapeTag c) rfl))
      exact htyped.append ((Takes.space _).trans hquoted)
        (Meets.append (meets_sign rfl (by decide)))
  have hcomment : '\r' ∉ f.comment.toList := h.spelled.comment
  intro pastImports opened started
  have hline := htag.isLine.comment hcomment pastImports opened started
  rw [Field.layout_eq] at hline ⊢
  intro indent depth fresh
  simpa [MemberLayout.structField] using hline indent depth fresh

/-- A member of an interface is a method or an embedded type. -/
theorem Place.rule_interfaceMember {f : Field} (h : Place.interfaceMember.rule f = .ok ()) :
    f.name.isEmpty = true ∨ f.name.isEmpty = false ∧ ∃ s, f.type = .func s := by
  cases hempty : f.name.isEmpty with
  | true => exact .inl rfl
  | false =>
    refine .inr ⟨rfl, ?_⟩
    cases htype : f.type with
    | func s => exact ⟨s, rfl⟩
    | _ => simp [Place.rule, htype, Field.isNamed, hempty] at h

theorem Field.Readable.interfaceMember {f : Field} (h : f.Readable)
    (hrule : Place.interfaceMember.rule f = .ok ()) : f.layout.interfaceMember.IsLine := by
  have hmember : (Doc.text f.name ++ f.type.layout.bare).IsPhrase := by
    intro pastImports opened started pending
    rcases Place.rule_interfaceMember hrule with hempty | ⟨hempty, s, hs⟩
    · rw [String.isEmpty_iff.mp hempty]
      exact (Takes.text (Reaches.refl Anything _)).trans
        (h.type.bare pastImports opened started pending)
    · have hname := (Field.validate_eq_ok.mp h.valid).1.resolve_left (by simp [hempty])
      have hphrase := isPhrase_name hname (h.spelled.names f.name (by simp [Node.names]))
      have hmeets : f.type.layout.bare.Meets Apart Apart := by
        rw [hs]
        exact s.meets_doc.mono
      exact (hphrase pastImports opened started pending).append
        (h.type.bare pastImports opened true true) hmeets
  have hcomment : '\r' ∉ f.comment.toList := h.spelled.comment
  intro pastImports opened started
  have hline := hmember.isLine.comment hcomment pastImports opened started
  rw [Field.layout_eq]
  intro indent depth fresh
  simpa [MemberLayout.interfaceMember] using hline indent depth fresh

end Members

theorem Field.spelled_of_parts {fs : List Field} (h : ∀ n ∈ fs.flatMap Field.parts, n.Spelled)
    {f : Field} (hf : f ∈ fs) : (Node.field f).Spelled ∧ ∀ n ∈ f.type.parts, n.Spelled := by
  have hparts : ∀ n ∈ f.parts, n.Spelled := fun n hn => h n (List.mem_flatMap.mpr ⟨f, hf, hn⟩)
  rwa [Field.parts_eq, List.forall_mem_cons] at hparts

theorem TypeExpr.readable_array {element : TypeExpr} (h : element.layout.Readable) (length : Int)
    (ellipsis : Bool) : (TypeExpr.array element length ellipsis).layout.Readable := by
  have hphrase : (Doc.text (brackets length ellipsis) ++ element.layout.full).IsPhrase :=
    fun pastImports opened started pending =>
      (takes_brackets pastImports opened started pending length ellipsis).trans
        (h.full pastImports opened true true)
  refine ⟨hphrase, hphrase, fun d hd => ?_⟩
  obtain rfl := Option.some.inj hd
  exact h.full

theorem TypeExpr.readable_map {key value : TypeExpr} (hk : key.layout.Readable)
    (hv : value.layout.Readable) : (TypeExpr.map key value).layout.Readable := by
  apply TypeLayout.readable_plain
  intro pastImports opened started pending
  have hopen : (Doc.text "map[").Takes Anything ⟨.inside pastImports opened started, pending⟩
      ⟨.inside pastImports (.bracket :: opened) true, false⟩ :=
    Takes.text ((Reaches.keyword .kwMap rfl).append_sign (by decide)
      (Reaches.opens .bracket pastImports opened true false))
  exact ((hopen.trans (hk.full pastImports (.bracket :: opened) true false)).append
    (Takes.text (Reaches.closes .bracket pastImports opened true true))
    (meets_sign rfl (by decide))).trans (hv.full pastImports opened true true)

theorem TypeExpr.readable_func {s : Signature} (hparams : ∀ f ∈ s.params, f.Readable)
    (hresults : ∀ f ∈ s.results, f.Readable)
    (hvariadic : s.variadic = true → checkVariadic s.params = .ok ()) :
    (TypeExpr.func s).layout.Readable := by
  have hdoc (pastImports : Bool) (opened : List Delimiter) (started pending : Bool) :=
    Signature.takes_doc pastImports opened hparams hresults hvariadic started pending
  refine ⟨fun pastImports opened started pending => ?_,
    fun pastImports opened started pending => ?_, fun d hd => ?_⟩
  · exact (hdoc pastImports opened started pending).anywhere
  · have hkeyword : (Doc.text "func ").Takes Anything
        ⟨.inside pastImports opened started, pending⟩ ⟨.inside pastImports opened true, false⟩ :=
      Takes.text ((Reaches.keyword .kwFunc rfl).append_sign (by decide) (Reaches.space _))
    exact (hkeyword.trans (hdoc pastImports opened true false)).anywhere
  · cases hd

/-- A valid type is read as a phrase, with and without the keyword of a function type. -/
theorem TypeExpr.readable_layout {t : TypeExpr} (hvalid : t.validate = .ok ())
    (hspelled : ∀ n ∈ t.parts, n.Spelled) : t.layout.Readable := by
  have fields : ∀ fs : List Field, (∀ n ∈ fs.flatMap Field.parts, n.Spelled) →
      (∀ f ∈ fs, f.type.validate = .ok () → (∀ n ∈ f.type.parts, n.Spelled) →
        f.type.layout.Readable) →
      ∀ f ∈ fs, f.validate = .ok () → f.Readable := by
    intro fs hfs ih f hf hvalid
    obtain ⟨hfield, htype⟩ := Field.spelled_of_parts hfs hf
    exact ⟨hvalid, hfield, ih f hf (Field.validate_eq_ok.mp hvalid).2.2 htype⟩
  induction t using TypeExpr.induction with
  | named type =>
    exact TypeLayout.readable_plain
      (NamedType.isPhrase_doc hvalid (hspelled _ (by simp [TypeExpr.parts])))
  | array element length ellipsis ih =>
    simp only [TypeExpr.validate, Verdict.bind_eq_ok, Verdict.within_eq_ok] at hvalid
    simp only [TypeExpr.parts, List.forall_mem_cons] at hspelled
    exact readable_array (ih hvalid.2 hspelled.2) length ellipsis
  | map key value hk hv =>
    simp only [TypeExpr.validate, Verdict.bind_eq_ok, Verdict.within_eq_ok] at hvalid
    simp only [TypeExpr.parts, List.forall_mem_cons, List.forall_mem_append] at hspelled
    exact readable_map (hk hvalid.1 hspelled.2.1) (hv hvalid.2 hspelled.2.2)
  | struct fs ih =>
    simp only [TypeExpr.validate, Field.validateAll_eq_ok] at hvalid
    simp only [TypeExpr.parts, Field.partsAll_eq, List.forall_mem_cons] at hspelled
    have hphrase : (braced Keyword.kwStruct.spelling
        ((Field.layouts fs).map (·.structField))).IsPhrase := by
      apply isPhrase_braced (.inl rfl)
      simp only [Field.layouts_eq, List.map_map, List.mem_map]
      rintro _ ⟨f, hf, rfl⟩
      exact (fields fs hspelled.2 ih f hf (hvalid f hf).2).structField
    exact TypeLayout.readable_plain hphrase
  | interface fs ih =>
    simp only [TypeExpr.validate, Field.validateAll_eq_ok] at hvalid
    simp only [TypeExpr.parts, Field.partsAll_eq, List.forall_mem_cons] at hspelled
    have hphrase : (braced Keyword.kwInterface.spelling
        ((Field.layouts fs).map (·.interfaceMember))).IsPhrase := by
      apply isPhrase_braced (.inr rfl)
      simp only [Field.layouts_eq, List.map_map, List.mem_map]
      rintro _ ⟨f, hf, rfl⟩
      exact (fields fs hspelled.2 ih f hf (hvalid f hf).2).interfaceMember (hvalid f hf).1
    exact TypeLayout.readable_plain hphrase
  | func s hp hr =>
    obtain ⟨hparams, hresults, hvariadic, -⟩ := Signature.validate_eq_ok.mp hvalid
    simp only [TypeExpr.parts, Signature.parts_eq, List.forall_mem_cons,
      List.forall_mem_append] at hspelled
    exact readable_func (fun f hf => fields s.params hspelled.2.1 hp f hf (hparams f hf))
      (fun f hf => fields s.results hspelled.2.2 hr f hf (hresults f hf)) hvariadic
  | foreign kind data => cases hvalid

end GoSource
