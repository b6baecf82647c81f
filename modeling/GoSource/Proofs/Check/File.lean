import GoSource.Proofs.Check.Type
import GoSource.Proofs.Layout.Decl

/-!
# A laid out file passes the check of files

A valid file without content of its own, whose names, comments, paths and values are
as source text has them, is laid out as a text that the check accepts, whatever the
number, nesting and order of its parts. That the text means what the file says is
not claimed.
-/

namespace GoSource

open Doc MemberLayout

section Members

/-- The value of a declaration, up to the end of its line. -/
theorem takes_value {value : String} (hcheck : Expression.check value = .ok ())
    (hfits : Expression.FitsLine value) (pastImports : Bool) (opened : List Delimiter) :
    (Doc.text value ++ Doc.newline).Takes Anything ⟨.inside pastImports opened true, false⟩
      ⟨.lineEnd pastImports opened, false⟩ := by
  intro indent depth fresh
  have hvalue := Reaches.value hcheck hfits pastImports opened
  simp only [append_eq, chars]
  split
  · rw [List.append_assoc]
    exact (Reaches.margin indent depth _).trans hvalue
  · exact hvalue

/-- A name with its type and its value ends its line. -/
theorem isLine_bindingDoc {name value : String} {type : Option TypeExpr}
    (hname : isIdentifier name = true) (hkeyword : Keyword.ofSpelling? name.toList = none)
    (htype : ∀ t, type = some t → t.layout.full.IsPhrase)
    (hvalue : value ≠ "" → Expression.check value = .ok () ∧ Expression.FitsLine value) :
    (bindingDoc name type value).IsLine := by
  have hname' := isPhrase_name hname hkeyword
  obtain ⟨head, hhead, hdoc⟩ : ∃ head : Doc, head.IsPhrase ∧ bindingDoc name type value =
      head ++ if value.isEmpty then .empty else Doc.text " = " ++ Doc.text value := by
    cases type with
    | none =>
      refine ⟨Doc.text name ++ .empty, fun pastImports opened started pending => ?_, rfl⟩
      exact (hname' pastImports opened started pending).append (Takes.empty _) meets_empty
    | some t =>
      refine ⟨Doc.text name ++ (Doc.text " " ++ Doc.within (.part "Spec") t.layout.full),
        fun pastImports opened started pending => ?_, rfl⟩
      have htyped := (Takes.space _).trans (htype t rfl pastImports opened true true)
      exact (hname' pastImports opened started pending).append htyped
        (Meets.append (meets_sign rfl (by decide)))
  intro pastImports opened started
  rw [hdoc]
  split
  · have hend := (hhead pastImports opened started false).append (Takes.empty _) meets_empty
    exact hend.append (Takes.newline (Phase.step_semicolon pastImports opened)) meets_newline
  · -- The value is read as a whole, and only together with the line feed after it.
    rename_i hne
    obtain ⟨hcheck, hfits⟩ := hvalue fun h => hne (String.isEmpty_iff.mpr h)
    have hassign : (Doc.text " = ").Takes Anything ⟨.inside pastImports opened true, true⟩
        ⟨.inside pastImports opened true, false⟩ :=
      Takes.text ((Reaches.space _).trans (Reaches.assign rfl))
    have hline := (hhead pastImports opened started false).append
      (hassign.trans (takes_value hcheck hfits pastImports opened))
      (Meets.append (meets_sign rfl (by decide)))
    intro indent depth fresh
    simpa using hline indent depth fresh

theorem Const.isLine_member {c : Const} (hvalid : c.validate .standard = .ok ())
    (hspelled : ∀ n ∈ c.parts, n.Spelled) : c.member.IsLine := by
  obtain ⟨hname, -, htype, hvalue⟩ := Const.validate_eq_ok.mp hvalid
  simp only [Const.parts, List.forall_mem_append, List.forall_mem_singleton] at hspelled
  obtain ⟨htypes, hconst⟩ := hspelled
  have hne : c.value ≠ "" := by simpa [Node.isBareConstant] using hconst.constant
  rw [Const.member, if_neg (by simpa using hne)]
  refine isLine_bindingDoc hname (hconst.names c.name (by simp [Node.names])) ?_ fun _ => ?_
  · intro t ht
    have hparts : ∀ n ∈ t.parts, n.Spelled := by simpa [ht] using htypes
    exact (TypeExpr.readable_layout (htype t ht).2 hparts).full
  · exact ⟨hvalue.resolve_left (by simpa using hne), hconst.initializer c.value rfl hne⟩

theorem Var.isLine_member {v : Var} (hvalid : v.validate .standard = .ok ())
    (hspelled : ∀ n ∈ v.parts, n.Spelled) : v.member.IsLine := by
  obtain ⟨hname, -, htype, -, hvalue⟩ := Var.validate_eq_ok.mp hvalid
  simp only [Var.parts, List.forall_mem_append, List.forall_mem_singleton] at hspelled
  obtain ⟨htypes, hvar⟩ := hspelled
  refine isLine_bindingDoc hname (hvar.names v.name (by simp [Node.names])) ?_ fun hne => ?_
  · intro t ht
    have hparts : ∀ n ∈ t.parts, n.Spelled := by simpa [ht] using htypes
    exact (TypeExpr.readable_layout (htype t ht) hparts).full
  · exact ⟨hvalue.resolve_left (by simpa using hne), hvar.initializer v.value rfl hne⟩

theorem TypeDecl.isLine_member {t : TypeDecl} (hvalid : t.validate = .ok ())
    (hspelled : ∀ n ∈ t.parts, n.Spelled) : t.member.IsLine := by
  obtain ⟨hname, -, htype⟩ := TypeDecl.validate_eq_ok.mp hvalid
  simp only [TypeDecl.parts, List.forall_mem_cons] at hspelled
  refine isLine_bindingDoc hname (hspelled.1.names t.name (by simp [Node.names])) ?_
    fun hne => absurd rfl hne
  intro type ht
  obtain rfl := Option.some.inj ht
  exact (TypeExpr.readable_layout htype hspelled.2).full

theorem Import.isLine_member {i : Import} (hvalid : i.validate = .ok ())
    (hspelled : (Node.importDecl i).Spelled) : i.member.IsLine := by
  obtain ⟨hname, -, -⟩ := Import.validate_eq_ok.mp hvalid
  have hescaped : ∀ c ∈ i.path.toList, Escaped (Text.escapePath c) := by
    intro c hc
    obtain ⟨hfeed, hreturn⟩ := hspelled.path i.path rfl
    apply escaped_escapePath
    simp [Text.isLineBreak, ne_of_mem_of_not_mem hc hfeed, ne_of_mem_of_not_mem hc hreturn]
  apply IsPhrase.isLine
  intro pastImports opened started pending
  have hpath (started pending : Bool) : (Doc.text (Text.quotePath i.path)).Takes Apart
      ⟨.inside pastImports opened started, pending⟩ ⟨.inside pastImports opened true, true⟩ :=
    (Takes.text (Reaches.quoted hescaped rfl)).anywhere
  unfold Import.member
  split
  · exact (Takes.empty _).trans (hpath started pending)
  · rename_i hne
    have hphrase := isPhrase_name (hname.resolve_left hne)
      (hspelled.names i.localName (by simp [Node.names])) pastImports opened started pending
    exact (hphrase.append (Takes.space _) (meets_sign rfl (by decide))).trans
      (hpath true true)

end Members

section Groups

variable {α : Type} [Grouped α] {member : α → Doc} {p q : Bool}

/-- The keyword of a sort of declarations, where a declaration of that sort may start. -/
def Opens (α : Type) [Grouped α] (p q : Bool) : Prop :=
  (Doc.text (Grouped.keyword α)).Takes Apart ⟨.outside p, false⟩ ⟨.inside q [] false, false⟩

theorem opens_import : Opens Import false false := Takes.text (Reaches.keyword .kwImport rfl)

theorem opens_const (p : Bool) : Opens Const p true := Takes.text (Reaches.keyword .kwConst rfl)

theorem opens_var (p : Bool) : Opens Var p true := Takes.text (Reaches.keyword .kwVar rfl)

theorem opens_type (p : Bool) : Opens TypeDecl p true := Takes.text (Reaches.keyword .kwType rfl)

/-- A declaration on its own, after the declarations before it. -/
theorem takes_declarationDoc {a : α} (hopens : Opens α p q)
    (hcomment : '\r' ∉ (Grouped.comment a).toList) (hline : (member a).IsLine) :
    (declarationDoc member a).Takes Anything ⟨.outside p, false⟩ ⟨.outside q, false⟩ := by
  have hhead := ((Takes.comment hcomment _).trans hopens).append (Takes.space _)
    (meets_sign rfl (by decide))
  exact Takes.assoc (hhead.trans (hline q [] false))

/-- A group of declarations, in parentheses unless it holds a single one. -/
theorem Group.takes_doc {g : Group α} (hopens : Opens α p q) (hcomment : '\r' ∉ g.comment.toList)
    (hitems : ∀ a ∈ g.items, '\r' ∉ (Grouped.comment a).toList ∧ (member a).IsLine) :
    (g.doc member).Takes Anything ⟨.outside p, false⟩ ⟨.outside q, false⟩ := by
  refine (Takes.comment hcomment _).trans ?_
  split
  · rename_i a honly
    obtain ⟨hc, hline⟩ := hitems a (Group.mem_of_only? honly)
    exact takes_declarationDoc hopens hc hline
  · have hopen : (Doc.text " (").Takes Anything ⟨.inside q [] false, false⟩
        ⟨.inside q [.paren] true, false⟩ :=
      Takes.text ((Reaches.space _).trans (Reaches.opens .paren q [] false false))
    have hbody : (Doc.concat (Group.itemDocs member 0 g.items)).Takes Anything
        ⟨.inside q [.paren] true, false⟩ ⟨.inside q [.paren] true, false⟩ := by
      apply Takes.concat
      intro d hd
      obtain ⟨a, ha, segment, rfl⟩ := Group.mem_itemDocs hd
      obtain ⟨hc, hline⟩ := hitems a ha
      exact hline.comment hc q [.paren] true
    exact ((((hopens.append hopen (meets_sign rfl (by decide))).trans
      (Takes.newline_idle _)).trans hbody.nest).trans
      (Takes.text (Reaches.closes .paren q [] true false))).trans (Takes.newline rfl)

/-- The groups of one sort, each with an empty line before it. -/
theorem takes_docs {gs : List (Group α)} {node : Group α → Node} {parts : α → List Node}
    (single : α → Node) (hgs : ∀ n ∈ gs.flatMap (Group.parts node parts), n.Spelled)
    (hnode : ∀ g, (node g).comment = g.comment)
    (hsingle : ∀ a, single a ∈ parts a ∧ (single a).comment = Grouped.comment a)
    (hmember : ∀ g ∈ gs, ∀ a ∈ g.items, (∀ n ∈ parts a, n.Spelled) → (member a).IsLine)
    (hopens : Opens α p q) :
    ∀ d ∈ Group.docs member gs, d.Takes Anything ⟨.outside p, false⟩ ⟨.outside q, false⟩ := by
  intro d hd
  obtain ⟨g, hg, rfl⟩ := Group.exists_of_mem_docs hd
  have hparts : ∀ n ∈ Group.parts node parts g, n.Spelled := fun n hn =>
    hgs n (List.mem_flatMap.mpr ⟨g, hg, hn⟩)
  rw [Group.parts, List.forall_mem_cons] at hparts
  refine Group.takes_doc hopens (hnode g ▸ hparts.1.comment) fun a ha => ?_
  have hitem : ∀ n ∈ parts a, n.Spelled := fun n hn =>
    hparts.2 n (List.mem_flatMap.mpr ⟨a, ha, hn⟩)
  obtain ⟨hmem, hcomment⟩ := hsingle a
  exact ⟨hcomment ▸ (hitem _ hmem).comment, hmember g hg a ha hitem⟩

end Groups

section Functions

/-- The receiver of a method, in parentheses before its name. -/
theorem takes_receiver {r : Field} (h : r.Readable) :
    (Doc.text "(" ++ .within (.part "Related") r.layout.typed ++ .text ") ").Takes Anything
      ⟨.inside true [] false, false⟩ ⟨.inside true [] true, true⟩ := by
  have htyped := (h.typed true [.paren] true false).within (.part "Related")
  have hclose : (Doc.text ") ").Takes Anything ⟨.inside true [.paren] true, true⟩
      ⟨.inside true [] true, true⟩ :=
    Takes.text ((Reaches.closes .paren true [] true true).trans (Reaches.space _))
  exact ((Takes.text (Reaches.opens .paren true [] false false)).trans htyped).append hclose
    (meets_sign rfl (by decide))

/-- A function up to the line on which its brace opens. -/
theorem FuncDecl.exists_head {f : FuncDecl} (hvalid : f.validate .standard = .ok ())
    (hspelled : ∀ n ∈ f.parts, n.Spelled) (p : Bool) :
    ∃ head : Doc, f.doc = head ++ .verbatim f.content ++
        (if f.content.isEmpty || f.content.toList.getLast? == some '\n' then .empty
          else .newline) ++ .text "\x7d" ++ .newline ∧
      head.Takes Anything ⟨.outside p, false⟩ ⟨.inside true [.brace] true, false⟩ := by
  obtain ⟨hname, -, hreceiver, hsignature, -⟩ := FuncDecl.validate_eq_ok.mp hvalid
  simp only [FuncDecl.parts, List.forall_mem_append, List.forall_mem_singleton] at hspelled
  obtain ⟨⟨hrparts, hsparts⟩, hfunc⟩ := hspelled
  have hphrase := isPhrase_name hname (hfunc.names f.name (by simp [Node.names]))
  have hdoc : f.signature.doc.IsPhrase :=
    (TypeExpr.readable_layout (t := .func f.signature) hsignature hsparts).bare
  have hcomment : '\r' ∉ f.comment.toList := hfunc.comment
  have hkeyword : (Doc.text "func ").Takes Anything ⟨.outside p, false⟩
      ⟨.inside true [] false, false⟩ :=
    Takes.text ((Reaches.keyword .kwFunc rfl).append_sign (by decide) (Reaches.space _))
  have hopen : (Doc.text " \x7b").Takes Anything ⟨.inside true [] true, true⟩
      ⟨.inside true [.brace] true, false⟩ :=
    Takes.text ((Reaches.space _).trans (Reaches.opens .brace true [] true true))
  have hstart := (Takes.comment hcomment _).trans hkeyword
  have hsignature := (hdoc true [] true true).within (.part "Spec")
  have hhead {receiver : Doc} {started pending : Bool} (h : receiver.Takes Anything
      ⟨.inside true [] false, false⟩ ⟨.inside true [] started, pending⟩) :=
    ((((hstart.trans h).trans (hphrase true [] started pending)).append hsignature
      f.signature.meets_doc.mono).append hopen (meets_sign rfl (by decide))).trans
      (Takes.newline_idle _)
  cases hr : f.receiver with
  | none =>
    refine ⟨_, ?_, hhead (Takes.empty _)⟩
    simp only [FuncDecl.doc, hr]
  | some r =>
    rw [hr] at hrparts
    obtain ⟨hfield, htypes⟩ := Field.spelled_of_parts hrparts (f := r) (by simp)
    have hr' := (hreceiver r hr).2
    have htype := TypeExpr.readable_layout (Field.validate_eq_ok.mp hr').2.2 htypes
    refine ⟨_, ?_, hhead (takes_receiver ⟨hr', hfield, htype⟩)⟩
    simp only [FuncDecl.doc, hr]

/-- A function, after the declarations before it. Its content may close it and open another,
so where the check stands in between is not known. -/
theorem FuncDecl.takes_doc {f : FuncDecl} (hvalid : f.validate .standard = .ok ())
    (hspelled : ∀ n ∈ f.parts, n.Spelled) (p : Bool) :
    ∃ q, f.doc.Takes Anything ⟨.outside p, false⟩ ⟨.outside q, false⟩ := by
  obtain ⟨-, -, -, -, hcontent⟩ := FuncDecl.validate_eq_ok.mp hvalid
  obtain ⟨head, hdoc, hhead⟩ := FuncDecl.exists_head hvalid hspelled p
  obtain ⟨phase, q, hbody, hbrace⟩ := Reaches.body hcontent
  refine ⟨q, ?_⟩
  have hcontent : (Doc.verbatim f.content ++ if f.content.isEmpty ||
      f.content.toList.getLast? == some '\n' then Doc.empty else .newline).Takes Anything
      ⟨.inside true [.brace] true, false⟩ ⟨phase, false⟩ := by
    intro indent depth fresh
    simpa using hbody
  have hend : (Doc.text "\x7d" ++ .newline).Takes Anything ⟨phase, false⟩ ⟨.outside q, false⟩ := by
    intro indent depth fresh
    cases fresh with
    | false => exact hbrace
    | true => simpa using (Reaches.margin indent depth _).trans hbrace
  rw [hdoc]
  intro indent depth fresh
  simpa using (hhead.trans (hcontent.trans hend)) indent depth fresh

end Functions

section Files

/-- The sections of a file: imports first, then declarations of all other sorts. -/
theorem takes_sections {imports others : List Doc}
    (himports : ∀ d ∈ imports, d.Takes Anything ⟨.outside false, false⟩ ⟨.outside false, false⟩)
    (hothers : ∀ d ∈ others, ∀ p, ∃ q, d.Takes Anything ⟨.outside p, false⟩ ⟨.outside q, false⟩) :
    ∃ q, (Doc.concat ((imports ++ others).map (.newline ++ ·))).Takes Anything
      ⟨.outside false, false⟩ ⟨.outside q, false⟩ := by
  have hrest : ∀ p, ∃ q, (Doc.concat (others.map (.newline ++ ·))).Takes Anything
      ⟨.outside p, false⟩ ⟨.outside q, false⟩ := by
    induction others with
    | nil => exact fun p => ⟨p, Takes.empty _⟩
    | cons d ds ih =>
      intro p
      obtain ⟨q, hd⟩ := hothers d (by simp) p
      obtain ⟨q', hds⟩ := ih (fun e he => hothers e (List.mem_cons_of_mem _ he)) q
      exact ⟨q', ((Takes.newline_idle _).trans hd).trans hds⟩
  induction imports with
  | nil => exact hrest false
  | cons d ds ih =>
    obtain ⟨q, hds⟩ := ih fun e he => himports e (List.mem_cons_of_mem _ he)
    exact ⟨q, ((Takes.newline_idle _).trans (himports d (by simp))).trans hds⟩

/-- A file leads from its package clause past its last declaration. -/
theorem File.takes_doc {f : File} (hcontent : f.content = "")
    (hvalid : f.validate .standard = .ok ()) (hspelled : ∀ n ∈ f.parts, n.Spelled) :
    ∃ q, f.doc.Takes Anything ⟨.packageClause, false⟩ ⟨.outside q, false⟩ := by
  obtain ⟨-, hpackage, -, -, hi, hc, hv, ht, hf⟩ := File.validate_eq_ok.mp hvalid
  simp only [File.parts, List.forall_mem_cons, List.forall_mem_append] at hspelled
  obtain ⟨hfile, ⟨⟨⟨himports, hconsts⟩, hvars⟩, htypes⟩, hfuncs⟩ := hspelled
  have hcomment : '\r' ∉ f.comment.toList := hfile.comment
  have hkeyword : (Doc.text "package ").Takes Anything ⟨.packageClause, false⟩
      ⟨.packageName, false⟩ :=
    Takes.text ((Reaches.keyword .kwPackage rfl).append_sign (by decide) (Reaches.space _))
  have hname : (Doc.text f.package).Takes Apart ⟨.packageName, false⟩ ⟨.packageEnd, true⟩ :=
    Takes.text (Reaches.name hpackage (hfile.names f.package (by simp [Node.names])) rfl)
  have hclause := (((Takes.comment hcomment _).trans hkeyword).trans hname).append
    (Takes.newline rfl) meets_newline
  have hothers : ∀ d ∈ Group.docs Const.member f.consts ++ (Group.docs Var.member f.vars ++
      (Group.docs TypeDecl.member f.types ++ f.funcs.map FuncDecl.doc)),
      ∀ p, ∃ q, d.Takes Anything ⟨.outside p, false⟩ ⟨.outside q, false⟩ := by
    simp only [List.forall_mem_append]
    refine ⟨fun d hd p => ⟨true, ?_⟩, fun d hd p => ⟨true, ?_⟩, fun d hd p => ⟨true, ?_⟩,
      fun d hd p => ?_⟩
    · exact takes_docs .const hconsts (fun _ => rfl)
        (fun c => ⟨by simp [Const.parts], rfl⟩)
        (fun g hg c hmem => Const.isLine_member (hc g hg c hmem)) (opens_const p) d hd
    · exact takes_docs .var hvars (fun _ => rfl)
        (fun v => ⟨by simp [Var.parts], rfl⟩)
        (fun g hg v hmem => Var.isLine_member (hv g hg v hmem)) (opens_var p) d hd
    · exact takes_docs .typeDecl htypes (fun _ => rfl)
        (fun t => ⟨by simp [TypeDecl.parts], rfl⟩)
        (fun g hg t hmem => TypeDecl.isLine_member (ht g hg t hmem)) (opens_type p) d hd
    · obtain ⟨func, hfunc, rfl⟩ := List.mem_map.mp hd
      exact FuncDecl.takes_doc (hf func hfunc)
        (fun n hn => hfuncs n (List.mem_flatMap.mpr ⟨func, hfunc, hn⟩)) p
  have hheads := takes_docs .importDecl himports (fun _ => rfl)
    (fun i => ⟨by simp [Import.parts], rfl⟩)
    (fun g hg i hmem h => Import.isLine_member (hi g hg i hmem) (h _ (by simp [Import.parts])))
    opens_import
  obtain ⟨q, hsections⟩ := takes_sections hheads hothers
  refine ⟨q, ?_⟩
  rw [File.doc, if_pos (by simp [hcontent])]
  refine hclause.trans ?_
  simpa [File.sections] using hsections

/-- A valid file without content of its own can be laid out, with any indentation, and the
text passes the check of files. -/
theorem File.check_render {f : File} (hcontent : f.content = "")
    (hvalid : f.validate .standard = .ok ()) (hspelled : ∀ n ∈ (Node.file f).parts, n.Spelled)
    (indent : Indent) :
    ∃ text, (Node.file f).render indent = .ok text ∧ SourceFile.check text = .ok () := by
  obtain ⟨q, htakes⟩ := File.takes_doc hcontent hvalid hspelled
  have hfault : f.doc.fault? = none := by
    refine File.fault?_doc hvalid fun g hg c hc => ?_
    have hconst : (Node.const c).Spelled := hspelled _ <| by
      simp only [Node.parts, File.parts, List.mem_cons, List.mem_append, List.mem_flatMap]
      exact .inr (.inl (.inl (.inl (.inr ⟨g, hg, by
        simp only [Group.parts, List.mem_cons, List.mem_flatMap]
        exact .inr ⟨c, hc, by simp [Const.parts]⟩⟩))))
    simpa [Node.isBareConstant] using hconst.constant
  refine ⟨String.ofList (f.doc.chars indent 0 true), Doc.render_eq hfault indent, ?_⟩
  rw [SourceFile.check_eq_ok_iff, String.toList_ofList]
  have hscan := htakes indent 0 true [] trivial
  rw [List.append_nil] at hscan
  exact ⟨q, by simpa [Config.scan, Phase.scan, kindsFrom] using hscan⟩

/-- A file with declarations of every sort. -/
def File.greeting : File where
  name := "greeting.go"
  package := "greeting"
  comment := "Package greeting says hello."
  imports := [⟨"", [⟨"", "fmt", "", []⟩, ⟨"str", "example.com/strings", "text", []⟩]⟩]
  consts := [⟨"Limits.", [⟨"Limit", "", [], none, "1 << 4"⟩]⟩]
  vars := [⟨"", [⟨"seen", "", [], some (.map (.named ⟨"", "string", false⟩)
    (.array (.named ⟨"str", "Builder", true⟩) 0 false)), ""⟩]⟩]
  types := [⟨"", [⟨"Greeter", "", [],
    .struct [⟨"Name", "json:\"name\"", "shown", [], .named ⟨"", "string", false⟩⟩]⟩]⟩]
  funcs := [⟨"Greet", "", [],
    ⟨[⟨"words", "", "", [], .array (.named ⟨"", "string", false⟩) 0 false⟩],
      [⟨"", "", "", [], .named ⟨"", "error", false⟩⟩], true⟩,
    some ⟨"g", "", "", [], .named ⟨"", "Greeter", true⟩⟩, "return nil"⟩]

theorem File.validate_greeting : File.greeting.validate .standard = .ok () := by decide +kernel

theorem File.spelled_greeting : ∀ n ∈ (Node.file File.greeting).parts, n.Spelled := by
  have hplain : ∀ n ∈ (Node.file File.greeting).parts,
      (∀ name ∈ n.names, Keyword.ofSpelling? name.toList = none) ∧ '\r' ∉ n.comment.toList ∧
      (∀ path ∈ n.path?, '\n' ∉ path.toList ∧ '\r' ∉ path.toList) ∧ n.isBareConstant = false := by
    decide +kernel
  have hvalues : ∀ n ∈ (Node.file File.greeting).parts, ∀ value ∈ n.initializer?,
      value = "" ∨ value = "1 << 4" := by decide +kernel
  have hfits : Expression.FitsLine "1 << 4" := by decide +kernel
  intro n hn
  obtain ⟨hnames, hcomment, hpath, hconstant⟩ := hplain n hn
  refine ⟨hnames, hcomment, hpath, hconstant, fun value hvalue hne => ?_⟩
  rcases hvalues n hn value hvalue with rfl | rfl
  · exact absurd rfl hne
  · exact hfits

theorem File.check_render_greeting :
    File.greeting.content = "" ∧ File.greeting.validate .standard = .ok () ∧
      (∀ n ∈ (Node.file File.greeting).parts, n.Spelled) ∧
      ∃ text, (Node.file File.greeting).render .tab = .ok text ∧ SourceFile.check text = .ok () :=
  ⟨rfl, File.validate_greeting, File.spelled_greeting,
    File.check_render rfl File.validate_greeting File.spelled_greeting .tab⟩

end Files

end GoSource
