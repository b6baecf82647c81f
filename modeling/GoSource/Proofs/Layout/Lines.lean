import GoSource.Node
import GoSource.Proofs.Check.Document
import GoSource.Proofs.Layout.Type

/-!
# The lines of a type

Indentation is written late, at the first text of a line, and how far a line stands in is known
to the page only. A valid type still has lines of its own, each with a depth relative to the
place where the type stands: whatever the page, they follow one another with the margins that
these depths give. The first of them goes on with the current line, and the last one is left
open. A type that starts a line is not treated here.
-/

namespace GoSource

/-- A line of a layout, and how much deeper it stands than the layout itself. -/
structure Line where
  depth : Nat
  text : String
deriving DecidableEq, Repr

/-- Something stands on the line, and it is one line. -/
structure Line.Solid (l : Line) : Prop where
  nonempty : l.text ≠ ""
  unbroken : '\n' ∉ l.text.toList

theorem Line.Solid.append {depth : Nat} {s t : String} (h : (Line.mk depth s).Solid)
    (ht : '\n' ∉ t.toList) : (Line.mk depth (s ++ t)).Solid :=
  ⟨by simp [h.nonempty], by simp [h.unbroken, ht]⟩

/-- The line one level deeper. -/
def Line.deeper (l : Line) : Line := ⟨l.depth + 1, l.text⟩

/-- A line of a comment. -/
def Line.comment (line : String) : Line := ⟨0, if line.isEmpty then "//" else "// " ++ line⟩

/-- Lines that start and end at the depth of the layout. -/
structure Framed (ls : List Line) : Prop where
  first : ls.head?.map Line.depth = some 0
  last : ls.getLast?.map Line.depth = some 0
  solid : ∀ l ∈ ls, l.Solid

/-- The text of lines that are added to a page on which the current line is not empty. -/
def Page.continued (p : Page) : List Line → String
  | [] => ""
  | first :: rest => first.text ++ String.join (rest.map fun l =>
      "\n" ++ String.join (List.replicate (p.depth + l.depth) p.indent.unit) ++ l.text)

theorem Line.toList_comment (line : String) :
    (comment line).text.toList =
      '/' :: '/' :: if line.isEmpty then [] else ' ' :: line.toList := by
  rw [comment]
  split <;> simp

theorem Line.solid_comment {line : String} (h : '\n' ∉ line.toList) : (comment line).Solid where
  nonempty := by
    intro hempty
    have hmark := toList_comment line
    rw [hempty] at hmark
    cases hmark
  unbroken := by
    rw [toList_comment]
    split <;> simp [h]

section Characters

variable (indent : Indent) (depth : Nat)

/-- A line with its margin. -/
def Line.chars (l : Line) : List Char := indent.margin (depth + l.depth) ++ l.text.toList

/-- Lines behind something, the first of them without its margin. -/
def spanChars : List Line → List Char
  | [] => []
  | first :: rest => first.text.toList ++ rest.flatMap fun l => '\n' :: l.chars indent depth

/-- Lines that start and end with a line of the page. -/
def stanzaChars (ls : List Line) : List Char := ls.flatMap fun l => l.chars indent depth ++ ['\n']

theorem Page.toList_continued (p : Page) (ls : List Line) :
    (p.continued ls).toList = spanChars p.indent p.depth ls := by
  cases ls with
  | nil => rfl
  | cons first rest =>
    have hmargin : ∀ l : Line,
        (String.join (List.replicate (p.depth + l.depth) p.indent.unit)).toList =
          p.indent.margin (p.depth + l.depth) := fun l =>
      Page.toList_margin { p with depth := p.depth + l.depth }
    simp [continued, spanChars, Line.chars, String.toList_join, List.flatMap_map, hmargin]

variable {indent depth}

@[simp] theorem stanzaChars_cons (l : Line) (ls : List Line) :
    stanzaChars indent depth (l :: ls) =
      l.chars indent depth ++ '\n' :: stanzaChars indent depth ls := by
  simp [stanzaChars]

theorem stanzaChars_append (ls ms : List Line) :
    stanzaChars indent depth (ls ++ ms) =
      stanzaChars indent depth ls ++ stanzaChars indent depth ms := List.flatMap_append

theorem stanzaChars_succ (ls : List Line) :
    stanzaChars indent (depth + 1) ls = stanzaChars indent depth (ls.map Line.deeper) := by
  simp [stanzaChars, List.flatMap_map, Line.chars, Line.deeper, Nat.add_assoc, Nat.add_comm 1]

/-- A line break before each line, or one after each. -/
theorem cons_stanzaChars (ls : List Line) :
    '\n' :: stanzaChars indent depth ls =
      (ls.flatMap fun l => '\n' :: l.chars indent depth) ++ ['\n'] := by
  induction ls with
  | nil => rfl
  | cons l ls ih => rw [stanzaChars_cons, ih, List.flatMap_cons, List.append_assoc, List.cons_append]

/-- Lines that start the line of the page, and end the last one. -/
theorem Framed.margin_spanChars {ls : List Line} (h : Framed ls) :
    indent.margin depth ++ spanChars indent depth ls ++ ['\n'] = stanzaChars indent depth ls := by
  cases ls with
  | nil => cases h.first
  | cons first rest =>
    have hfirst : first.depth = 0 := by simpa using h.first
    rw [stanzaChars_cons, cons_stanzaChars, spanChars, Line.chars, hfirst]
    simp

/-- The last line goes on with the first one of what follows. -/
theorem spanChars_join (init : List Line) (l m : Line) (rest : List Line) :
    spanChars indent depth (init ++ ⟨l.depth, l.text ++ m.text⟩ :: rest) =
      spanChars indent depth (init ++ [l]) ++ spanChars indent depth (m :: rest) := by
  cases init <;> simp [spanChars, Line.chars]

end Characters

/-- Lines with the next ones joined to them are framed as these are. -/
theorem Framed.join {init : List Line} {l m : Line} {rest : List Line} (h : Framed (init ++ [l]))
    (h' : Framed (m :: rest)) : Framed (init ++ ⟨l.depth, l.text ++ m.text⟩ :: rest) where
  first := by
    have hfirst := h.first
    cases init <;> simpa using hfirst
  last := by
    -- The joined line is the last one if nothing follows the first line of the second list.
    have hl : l.depth = 0 := by simpa using h.last
    have hrest := h'.last
    cases hlast : rest.getLast? <;> simp_all [List.getLast?_cons]
  solid := by
    intro k hk
    rw [List.mem_append, List.mem_cons] at hk
    rcases hk with hk | rfl | hk
    · exact h.solid k (List.mem_append_left _ hk)
    · exact (h.solid l (by simp)).append (h'.solid m (by simp)).unbroken
    · exact h'.solid k (List.mem_cons_of_mem _ hk)

namespace Doc

/-- The document goes on with the current line and leaves its last line open. Between them it
has lines that do not depend on the page. -/
structure IsSpan (d : Doc) : Prop where
  leads : d.leads = true
  stays : d.freshAfter false = false
  lines : ∃ ls, Framed ls ∧ ∀ indent depth,
    d.chars indent depth false = spanChars indent depth ls

/-- The document consists of whole lines, which do not depend on the page. -/
structure IsStanza (d : Doc) : Prop where
  ends : d.freshAfter true = true
  lines : ∃ ls : List Line, (∀ l ∈ ls, l.Solid) ∧ ∀ indent depth,
    d.chars indent depth true = stanzaChars indent depth ls

variable {d e : Doc}

namespace IsSpan

/-- Everything on the current line. -/
theorem of_chars {s : String} (hs : (Line.mk 0 s).Solid) (hleads : d.leads = true)
    (hstays : d.freshAfter false = false)
    (h : ∀ indent depth, d.chars indent depth false = s.toList) : d.IsSpan := by
  refine ⟨hleads, hstays, [⟨0, s⟩], ⟨rfl, rfl, ?_⟩, ?_⟩
  · intro l hl
    rwa [List.mem_singleton.mp hl]
  · intro indent depth
    simp [h, spanChars]

theorem text {s : String} (hs : (Line.mk 0 s).Solid) : (Doc.text s).IsSpan :=
  of_chars hs (by simpa using hs.nonempty) (by simp) (by simp)

/-- Whole lines between two signs stand one level deeper than these. -/
theorem block {opening closing : String} {body : Doc} (hopening : (Line.mk 0 opening).Solid)
    (hclosing : (Line.mk 0 closing).Solid) (hbody : body.IsStanza) :
    (Doc.text opening ++ newline ++ nest body ++ Doc.text closing).IsSpan := by
  obtain ⟨ls, hls, hlines⟩ := hbody.lines
  refine ⟨by simp [hopening.nonempty], by simp [hclosing.nonempty],
    ⟨0, opening⟩ :: (ls.map Line.deeper ++ [⟨0, closing⟩]), ⟨rfl, ?_, ?_⟩, ?_⟩
  · simp [List.getLast?_cons]
  · simp only [List.mem_cons, List.mem_append, List.mem_map, List.not_mem_nil, or_false]
    rintro l (rfl | ⟨m, hm, rfl⟩ | rfl)
    · exact hopening
    · exact ⟨(hls m hm).nonempty, (hls m hm).unbroken⟩
    · exact hclosing
  · intro indent depth
    have hwritten : (Doc.text opening ++ newline ++ nest body ++ Doc.text closing).chars indent
        depth false = opening.toList ++ ('\n' :: stanzaChars indent depth (ls.map Line.deeper) ++
          (indent.margin depth ++ closing.toList)) := by
      simp [hbody.ends, hclosing.nonempty, hlines, stanzaChars_succ]
    -- The break behind the opening sign is counted to the first inner line, and so on, so that
    -- the last one is that of the closing sign.
    rw [hwritten, cons_stanzaChars]
    simp [spanChars, Line.chars]

/-- What writes the same has the same lines. -/
theorem congr (h : d.IsSpan) (hleads : e.leads = true) (hstays : e.freshAfter false = false)
    (hchars : ∀ indent depth, e.chars indent depth false = d.chars indent depth false) :
    e.IsSpan := by
  obtain ⟨ls, hls, hlines⟩ := h.lines
  exact ⟨hleads, hstays, ls, hls, fun indent depth => (hchars indent depth).trans
    (hlines indent depth)⟩

theorem assoc {a b c e : Doc} (h : (a ++ b ++ c ++ e).IsSpan) : (a ++ (b ++ c) ++ e).IsSpan := by
  refine h.congr ?_ h.stays (by simp)
  simpa [Bool.or_assoc, Bool.and_assoc, Bool.and_or_distrib_left] using h.leads

theorem append (h : d.IsSpan) (h' : e.IsSpan) : (d ++ e).IsSpan := by
  obtain ⟨ls, hls, hd⟩ := h.lines
  obtain ⟨ms, hms, he⟩ := h'.lines
  cases ms with
  | nil => cases hms.first
  | cons m rest =>
    rcases ls.eq_nil_or_concat with rfl | ⟨init, l, rfl⟩
    · cases hls.first
    · rw [List.concat_eq_append] at hls hd
      refine ⟨by simp [h.leads], by simp [h.stays, h'.stays], _, hls.join hms, ?_⟩
      intro indent depth
      simp only [append_eq, chars, h.stays, hd, he, spanChars_join]

theorem silent_append (hd : d.silent = true) (h : e.IsSpan) : (d ++ e).IsSpan := by
  have hfresh := (chars_of_silent hd .tab 0 false).2
  refine h.congr (by simp [hd, h.leads]) (by simp [hfresh, h.stays]) fun indent depth => ?_
  simp [(chars_of_silent hd indent depth false).1, hfresh]

theorem append_silent (h : d.IsSpan) (he : e.silent = true) : (d ++ e).IsSpan := by
  have hfresh := (chars_of_silent he .tab 0 false).2
  refine h.congr (by simp [h.leads]) (by simp [h.stays, hfresh]) fun indent depth => ?_
  simp [h.stays, (chars_of_silent he indent depth false).1]

end IsSpan

namespace IsStanza

/-- The lines of a comment. -/
theorem comment (s : String) : (Doc.comment s).IsStanza := by
  refine ⟨by simp, (commentLines s).map Line.comment, ?_, fun indent depth => ?_⟩
  · intro l hl
    obtain ⟨line, hline, rfl⟩ := List.mem_map.mp hl
    exact Line.solid_comment fun hbreak => (mem_of_mem_commentLines hline hbreak).2 rfl
  · rw [chars]
    induction commentLines s with
    | nil => rfl
    | cons line lines ih =>
      rw [commentChars, ih, List.map_cons, stanzaChars_cons, Line.chars, Line.toList_comment]
      simp [Line.comment]

theorem append (h : d.IsStanza) (h' : e.IsStanza) : (d ++ e).IsStanza := by
  obtain ⟨ls, hls, hd⟩ := h.lines
  obtain ⟨ms, hms, he⟩ := h'.lines
  refine ⟨by simp [h.ends, h'.ends], ls ++ ms, ?_, fun indent depth => ?_⟩
  · intro l hl
    exact (List.mem_append.mp hl).elim (hls l) (hms l)
  · simp [h.ends, hd, he, stanzaChars_append]

theorem concat {ds : List Doc} (h : ∀ d ∈ ds, d.IsStanza) : (Doc.concat ds).IsStanza := by
  induction ds with
  | nil => exact ⟨rfl, [], by simp, fun _ _ => rfl⟩
  | cons d ds ih =>
    exact append (h d (by simp)) (ih fun e he => h e (List.mem_cons_of_mem _ he))

/-- What goes on with its line takes whole lines if it starts its first and ends its last one. -/
theorem line (h : d.IsSpan) : (d ++ newline).IsStanza := by
  obtain ⟨ls, hls, hd⟩ := h.lines
  refine ⟨rfl, ls, hls.solid, fun indent depth => ?_⟩
  have hleads := (chars_of_leads h.leads indent depth).1
  simp only [append_eq, chars, hleads, hd, hls.margin_spanChars]

/-- A commented line. -/
theorem commented (s : String) (h : (d ++ e).IsSpan) :
    (Doc.comment s ++ d ++ e ++ newline).IsStanza := by
  obtain ⟨ls, hls, hlines⟩ := ((comment s).append (line h)).lines
  exact ⟨rfl, ls, hls, fun indent depth => by simpa using hlines indent depth⟩

end IsStanza

end Doc

open MemberLayout
open Doc (IsSpan IsStanza)

section Shapes

theorem solid_of_isIdentifier {name : String} (h : isIdentifier name = true) :
    (Line.mk 0 name).Solid where
  nonempty := by
    have hname := isEmpty_eq_false_of_isIdentifier h
    simpa using hname
  unbroken hbreak := ne_of_isNamePart ((isName_iff.mp h).isNamePart hbreak) (by decide) rfl

theorem NamedType.isSpan_doc {t : NamedType} (h : t.validate = .ok ()) : t.doc.IsSpan := by
  obtain ⟨hname, hpackage⟩ := NamedType.validate_eq_ok.mp h
  have hsolid := solid_of_isIdentifier hname
  have hqualifier : '\n' ∉ t.package.toList := by
    rcases hpackage with hempty | hpackage
    · simp [String.isEmpty_iff.mp hempty]
    · exact (solid_of_isIdentifier hpackage).unbroken
  refine IsSpan.of_chars ⟨?_, ?_⟩ (NamedType.leads_doc hname)
    (TypeExpr.freshAfter_layout (.named t)).1 fun indent depth =>
      (t.chars_doc indent depth).trans String.toList_ofList.symm
  · simp [hsolid.nonempty]
  · simp only [String.toList_ofList, List.mem_append, not_or]
    refine ⟨?_, ?_, hsolid.unbroken⟩
    · split <;> simp
    · split <;> simp [hqualifier]

theorem solid_brackets (length : Int) (ellipsis : Bool) :
    (Line.mk 0 (brackets length ellipsis)).Solid := by
  have hinner : '\n' ∉ bracketed length ellipsis := by
    unfold bracketed
    split
    · decide
    · split
      · rename_i hpos
        obtain ⟨n, hn⟩ := toList_toString_of_pos hpos
        rw [hn]
        intro hbreak
        cases Nat.isDigit_of_mem_toDigits (by decide) (by decide) hbreak
      · simp
  have hlist := toList_brackets length ellipsis
  refine ⟨fun hempty => ?_, ?_⟩
  · rw [show brackets length ellipsis = "" from hempty] at hlist
    cases hlist
  · rw [hlist]
    simp [hinner]

theorem solid_quoteTag (tag : String) : (Line.mk 0 (Text.quoteTag tag)).Solid := by
  have hescaped : '\n' ∉ tag.toList.flatMap Text.escapeTag := by
    intro hbreak
    obtain ⟨c, -, hc⟩ := List.mem_flatMap.mp hbreak
    cases (escaped_escapeTag c).isLineBreak_eq_false hc
  exact ⟨by simp [Text.quoteTag, Text.quoteWith], by simp [Text.quoteTag, Text.quoteWith, hescaped]⟩

/-- Fields in braces after a keyword, each in whole lines. -/
theorem isSpan_braced {keyword : String} {line : MemberLayout → Doc} {fs : List Field}
    (hkeyword : (Line.mk 0 keyword).Solid)
    (h : ∀ f ∈ fs, (line f.layout ++ Doc.newline).IsStanza) :
    (braced keyword ((Field.layouts fs).map line)).IsSpan := by
  have hbody : (Doc.concat (((Field.layouts fs).map line).map (· ++ .newline))).IsStanza := by
    apply IsStanza.concat
    simpa using h
  unfold braced
  split
  · exact IsSpan.text (hkeyword.append (by decide))
  · have hopening : (Line.mk 0 (keyword ++ " \x7b")).Solid := hkeyword.append (by decide)
    have hclosing : (Line.mk 0 "\x7d").Solid := ⟨by decide, by decide⟩
    exact IsSpan.block hopening hclosing hbody

theorem isSpan_separated {ds : List Doc} (h : ∀ d ∈ ds, d.IsSpan) :
    (separated ds).silent = true ∨ (separated ds).IsSpan := by
  fun_induction separated ds with
  | case1 => exact .inl rfl
  | case2 d => exact .inr (h d (by simp))
  | case3 d ds hds ih =>
    have hcomma := (h d (by simp)).append (IsSpan.text (s := ", ") ⟨by decide, by decide⟩)
    rcases ih fun e he => h e (List.mem_cons_of_mem _ he) with hsilent | hrest
    · exact .inr (hcomma.append_silent hsilent)
    · exact .inr (hcomma.append hrest)

/-- A list in parentheses, on one line or on lines of its own. -/
theorem isSpan_listed {opening : String} {variadic : Bool} {ms : List MemberLayout}
    (hopening : (Line.mk 0 opening).Solid) (h : ∀ d ∈ entries variadic ms, d.IsSpan) :
    (Doc.text opening ++ listed variadic ms ++ Doc.text ")").IsSpan := by
  have hopen := IsSpan.text hopening
  have hclosing : (Line.mk 0 ")").Solid := ⟨by decide, by decide⟩
  unfold listed
  split
  · rcases isSpan_separated h with hsilent | hlist
    · exact (hopen.append_silent hsilent).append (IsSpan.text hclosing)
    · exact (hopen.append hlist).append (IsSpan.text hclosing)
  · refine (IsSpan.block hopening hclosing (IsStanza.concat ?_)).assoc
    intro line hline
    obtain ⟨⟨m, d⟩, hd, rfl⟩ := List.mem_map.mp hline
    have hentry := h d (List.of_mem_zip hd).2
    exact IsStanza.commented _ (hentry.append (IsSpan.text ⟨by decide, by decide⟩))

end Shapes

section Members

/-- Each layout of a type goes on with its line. The elements are kept apart, since a variadic
parameter shows only them. -/
structure TypeLayout.Spans (layout : TypeLayout) : Prop where
  bare : layout.bare.IsSpan
  full : layout.full.IsSpan
  element : ∀ d, layout.element? = some d → d.IsSpan

theorem TypeLayout.spans_plain {d : Doc} (h : d.IsSpan) : (TypeLayout.plain d).Spans := by
  refine ⟨h, h, fun e he => ?_⟩
  cases he

/-- A valid field whose type goes on with its line. -/
structure Field.Spans (f : Field) : Prop where
  valid : f.validate = .ok ()
  type : f.type.layout.Spans

namespace Field.Spans

variable {f : Field}

/-- A name, if there is one, before what follows it. -/
theorem label (h : f.Spans) {d : Doc} (hd : d.IsSpan) :
    ((if f.isNamed then Doc.text f.name ++ Doc.text " " else Doc.empty) ++ d).IsSpan := by
  split
  · rename_i hnamed
    have hname := (Field.validate_eq_ok.mp h.valid).1.resolve_left (by simpa [isNamed] using hnamed)
    exact ((IsSpan.text (solid_of_isIdentifier hname)).append
      (IsSpan.text ⟨by decide, by decide⟩)).append hd
  · exact hd.silent_append rfl

theorem typed (h : f.Spans) : f.layout.typed.IsSpan := by
  rw [Field.layout_eq]
  exact h.label h.type.full

/-- The last parameter of a variadic function shows the elements of its slice. -/
theorem spread (h : f.Spans) {element : Doc} (helement : f.type.layout.element? = some element) :
    f.layout.spread.IsSpan := by
  have hpoints : (Doc.text "..." ++ element).IsSpan :=
    (IsSpan.text ⟨by decide, by decide⟩).append (h.type.element element helement)
  simpa [MemberLayout.spread, helement] using h.label hpoints

/-- A field of a struct, with its tag on its last line. -/
theorem structField (h : f.Spans) : (f.layout.structField ++ Doc.newline).IsStanza := by
  rw [MemberLayout.structField]
  apply IsStanza.commented
  split
  · exact h.typed.append_silent rfl
  · exact h.typed.append ((IsSpan.text ⟨by decide, by decide⟩).append
      (IsSpan.text (solid_quoteTag _)))

/-- A member of an interface, with its name only if it is a method. -/
theorem interfaceMember (h : f.Spans) : (f.layout.interfaceMember ++ Doc.newline).IsStanza := by
  rw [MemberLayout.interfaceMember, Field.layout_eq]
  apply IsStanza.commented
  rcases (Field.validate_eq_ok.mp h.valid).1 with hempty | hname
  · exact h.type.bare.silent_append hempty
  · exact (IsSpan.text (solid_of_isIdentifier hname)).append h.type.bare

end Field.Spans

/-- Parameters and results in parentheses. -/
theorem Signature.isSpan_doc {s : Signature} (hparams : ∀ f ∈ s.params, f.Spans)
    (hresults : ∀ f ∈ s.results, f.Spans)
    (hvariadic : s.variadic = true → checkVariadic s.params = .ok ()) : s.doc.IsSpan := by
  have hentries : ∀ d ∈ entries s.variadic (s.params.map Field.layout), d.IsSpan := by
    refine forall_mem_entries (fun f hf => (hparams f hf).typed) ?_ hvariadic
    intro _ f hf element htype
    exact (hparams f hf).spread (by rw [htype]; rfl)
  have houtcomes : ∀ d ∈ entries false (s.results.map Field.layout), d.IsSpan :=
    forall_mem_entries (fun f hf => (hresults f hf).typed) nofun nofun
  have hhead : (Doc.text "(" ++ listed s.variadic (s.params.map Field.layout) ++
      Doc.text ")").IsSpan := isSpan_listed ⟨by decide, by decide⟩ hentries
  rw [Signature.doc_eq, signature]
  split
  · exact hhead.append_silent rfl
  · exact hhead.append (isSpan_listed ⟨by decide, by decide⟩ houtcomes)

/-- A valid type goes on with the line on which it stands, with and without the keyword of a
function type. -/
theorem TypeExpr.spans_layout {t : TypeExpr} (h : t.validate = .ok ()) : t.layout.Spans := by
  have fields : ∀ fs : List Field,
      (∀ f ∈ fs, f.type.validate = .ok () → f.type.layout.Spans) →
      ∀ f ∈ fs, f.validate = .ok () → f.Spans := fun fs ih f hf hvalid =>
    ⟨hvalid, ih f hf (Field.validate_eq_ok.mp hvalid).2.2⟩
  -- All layouts at once: a method shows the bare one, other places the full one or, where a
  -- slice is spread, that of its elements.
  induction t using TypeExpr.induction with
  | named type => exact TypeLayout.spans_plain (NamedType.isSpan_doc h)
  | array element length ellipsis ih =>
    simp only [TypeExpr.validate, Verdict.bind_eq_ok, Verdict.within_eq_ok] at h
    have helement := (ih h.2).full
    have hdoc := (IsSpan.text (solid_brackets length ellipsis)).append helement
    refine ⟨hdoc, hdoc, fun d hd => ?_⟩
    rwa [← Option.some.inj hd]
  | map key value hk hv =>
    simp only [TypeExpr.validate, Verdict.bind_eq_ok, Verdict.within_eq_ok] at h
    have hopening := IsSpan.text (s := "map[") ⟨by decide, by decide⟩
    have hclosing := IsSpan.text (s := "]") ⟨by decide, by decide⟩
    exact TypeLayout.spans_plain
      (((hopening.append (hk h.1).full).append hclosing).append (hv h.2).full)
  | struct fs ih =>
    simp only [TypeExpr.validate, Field.validateAll_eq_ok] at h
    exact TypeLayout.spans_plain (isSpan_braced ⟨by decide, by decide⟩ fun f hf =>
      (fields fs ih f hf (h f hf).2).structField)
  | interface fs ih =>
    simp only [TypeExpr.validate, Field.validateAll_eq_ok] at h
    exact TypeLayout.spans_plain (isSpan_braced ⟨by decide, by decide⟩ fun f hf =>
      (fields fs ih f hf (h f hf).2).interfaceMember)
  | func s hp hr =>
    obtain ⟨hparams, hresults, hvariadic, -⟩ := Signature.validate_eq_ok.mp h
    have hdoc : s.doc.IsSpan := Signature.isSpan_doc
      (fun f hf => fields s.params hp f hf (hparams f hf))
      (fun f hf => fields s.results hr f hf (hresults f hf)) hvariadic
    refine ⟨hdoc, (IsSpan.text ⟨by decide, by decide⟩).append hdoc, fun d hd => ?_⟩
    cases hd
  | foreign kind data => cases h

end Members

/-- A valid type has lines that depend on nothing else. They start and end at the depth of the
type, and none is empty or broken. Behind something on a page, with any indentation and at any
depth, the type adds its first line and then, for each other line, a line break, as many units
of indentation as the depths of the page and of the line say, and its text. -/
theorem Node.exists_lines_type {t : TypeExpr} (h : t.validate = .ok ()) :
    ∃ lines, Framed lines ∧ ∀ p : Page, p.fresh = false →
      (Node.type t).doc.write p = ({ p with text := p.text ++ p.continued lines }, none) := by
  have hspan := (TypeExpr.spans_layout h).bare
  obtain ⟨lines, hframed, hlines⟩ := hspan.lines
  refine ⟨lines, hframed, fun p hp => ?_⟩
  have hstays : (Node.type t).doc.freshAfter false = false := hspan.stays
  have hchars : (Node.type t).doc.chars p.indent p.depth false = (p.continued lines).toList :=
    (hlines p.indent p.depth).trans (p.toList_continued lines).symm
  rw [Doc.write_eq (d := (Node.type t).doc) (TypeExpr.fault?_layout h).1, hp, hstays, hchars,
    Doc.extended, ← hp, String.ofList_toList]

/-- A function with a comment at its parameter, which is a struct. -/
def TypeExpr.query : TypeExpr :=
  .func ⟨
    [⟨"opts", "", "Tuning.", [],
      .struct [⟨"Limit", "json:\"limit\"", "", [], .named { name := "int" }⟩]⟩],
    [⟨"", "", "", [], .named { name := "error" }⟩], false⟩

/-- The same lines are written on a page with tabs and, deeper, on one with spaces. -/
theorem Node.exists_lines_type_query :
    let d := (Node.type .query).doc
    let p : Page := { text := "type Query func", fresh := false }
    let q : Page := { text := "run ", indent := .spaces 2, depth := 1, fresh := false }
    TypeExpr.query.validate = .ok () ∧ (∃ lines, Framed lines ∧
      d.write p = ({ p with text := p.text ++ p.continued lines }, none) ∧
      d.write q = ({ q with text := q.text ++ q.continued lines }, none)) ∧
    (d.write p).1.text = "type Query func(\n\t// Tuning.\n\topts struct \x7b\n" ++
      "\t\tLimit int \"json:\\\"limit\\\"\"\n\t\x7d,\n) (error)" ∧
    (d.write q).1.text = "run (\n    // Tuning.\n    opts struct \x7b\n" ++
      "      Limit int \"json:\\\"limit\\\"\"\n    \x7d,\n  ) (error)" := by
  intro d p q
  have hvalid : TypeExpr.query.validate = .ok () := by decide +kernel
  obtain ⟨lines, hframed, hwrite⟩ := Node.exists_lines_type hvalid
  refine ⟨hvalid, ⟨lines, hframed, hwrite p rfl, hwrite q rfl⟩, ?_, ?_⟩
  · decide +kernel
  · decide +kernel

end GoSource
