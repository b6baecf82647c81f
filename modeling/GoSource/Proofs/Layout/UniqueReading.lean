import GoSource.Proofs.Layout.Written
import GoSource.Proofs.Text.Quoted

/-!
# A type is read back from its text

Two valid types without comments that are written alike are the same type, up to what
the text never shows: annotations, and tags outside structs. Each shape is read by cutting
the text at the same places on both sides; what follows the type is the same text as well.
Types with comments are left out: a comment can hold any line.
-/

namespace GoSource

open MemberLayout

mutual

/-- What the text of a type shows: annotations are erased, and so are the tags of
everything but struct fields. -/
def TypeExpr.shown : TypeExpr → TypeExpr
  | .named type => .named type
  | .array element length ellipsis => .array element.shown length ellipsis
  | .map key value => .map key.shown value.shown
  | .struct fields => .struct (Field.shownAll true fields)
  | .interface members => .interface (Field.shownAll false members)
  | .func signature => .func signature.shown
  | .foreign kind data => .foreign kind data
termination_by structural t => t

def Field.shown (tagged : Bool) : Field → Field
  | ⟨name, tag, comment, _, type⟩ =>
    ⟨name, if tagged then tag else "", comment, [], type.shown⟩
termination_by structural f => f

def Field.shownAll (tagged : Bool) : List Field → List Field
  | [] => []
  | f :: fs => f.shown tagged :: Field.shownAll tagged fs
termination_by structural fs => fs

def Signature.shown : Signature → Signature
  | ⟨params, results, variadic⟩ =>
    ⟨Field.shownAll false params, Field.shownAll false results, variadic⟩
termination_by structural s => s

end

@[simp] theorem Field.shown_eq (tagged : Bool) (f : Field) :
    f.shown tagged =
      ⟨f.name, if tagged then f.tag else "", f.comment, [], f.type.shown⟩ := by
  cases f
  rfl

@[simp] theorem Field.shownAll_eq (tagged : Bool) (fs : List Field) :
    Field.shownAll tagged fs = fs.map (Field.shown tagged) := by
  induction fs with
  | nil => rfl
  | cons f fs ih => rw [Field.shownAll, ih, List.map_cons]

@[simp] theorem Signature.shown_eq (s : Signature) :
    s.shown = ⟨s.params.map (Field.shown false), s.results.map (Field.shown false),
      s.variadic⟩ := by
  cases s
  simp [Signature.shown]

section Erasure

/-- What a list writes of its members, each of which may be changed where nothing is
written. -/
theorem listed_map_congr {fs : List Field} {a b : Field → MemberLayout}
    (htyped : ∀ f ∈ fs, (a f).typed = (b f).typed) (hspread : ∀ f ∈ fs, (a f).spread = (b f).spread)
    (hcomment : ∀ f ∈ fs, (a f).field.comment = (b f).field.comment) (variadic : Bool) :
    listed variadic (fs.map a) = listed variadic (fs.map b) := by
  have hentries : entries variadic (fs.map a) = entries variadic (fs.map b) := by
    induction fs with
    | nil => rfl
    | cons f fs ih =>
      have hfs := ih (fun g hg => htyped g (List.mem_cons_of_mem _ hg))
        (fun g hg => hspread g (List.mem_cons_of_mem _ hg))
        (fun g hg => hcomment g (List.mem_cons_of_mem _ hg))
      cases fs with
      | nil => simp [entries, htyped f (by simp), hspread f (by simp)]
      | cons g fs =>
        simp only [List.map_cons, entries] at hfs ⊢
        rw [hfs, htyped f (by simp)]
  have hall : ((fs.map a).all (·.field.comment.isEmpty)) =
      (fs.map b).all (·.field.comment.isEmpty) := by
    rw [Bool.eq_iff_iff]
    simp only [List.all_map, List.all_eq_true, Function.comp_apply]
    exact forall₂_congr fun f hf => by rw [hcomment f hf]
  rw [listed, listed, hall, hentries]
  simp only [List.zip_map_left, List.map_map]
  split
  · rfl
  · congr 3
    refine List.map_congr_left fun p hp => ?_
    simp [hcomment p.1 (List.of_mem_zip hp).1]

theorem TypeExpr.kindName_shown (t : TypeExpr) : t.shown.kindName = t.kindName := by
  cases t <;> rfl

/-- The layout of a type depends only on what is shown. -/
theorem TypeExpr.layout_shown (t : TypeExpr) : t.shown.layout = t.layout := by
  induction t using TypeExpr.induction with
  | named u => rfl
  | array element length ellipsis ih => simp [TypeExpr.shown, TypeExpr.layout, ih]
  | map key value hk hv => simp [TypeExpr.shown, TypeExpr.layout, hk, hv]
  | struct fs ih =>
    have hlines : ∀ f ∈ fs, (f.shown true).layout.structField = f.layout.structField := by
      intro f hf
      simp [structField, typed, ih f hf, Field.isNamed]
    simp only [TypeExpr.shown, TypeExpr.layout, Field.layouts_eq, Field.shownAll_eq, List.map_map,
      Function.comp_def]
    rw [List.map_congr_left hlines]
  | interface fs ih =>
    have hlines : ∀ f ∈ fs, (f.shown false).layout.interfaceMember = f.layout.interfaceMember := by
      intro f hf
      simp [interfaceMember, ih f hf]
    simp only [TypeExpr.shown, TypeExpr.layout, Field.layouts_eq, Field.shownAll_eq, List.map_map,
      Function.comp_def]
    rw [List.map_congr_left hlines]
  | func s hp hr =>
    have hlist : ∀ {fs : List Field}, (∀ f ∈ fs, f.type.shown.layout = f.type.layout) →
        ∀ variadic, listed variadic ((fs.map (Field.shown false)).map Field.layout) =
          listed variadic (fs.map Field.layout) := by
      intro fs hfs variadic
      rw [List.map_map]
      apply listed_map_congr
      · intro f hf
        simp [typed, hfs f hf, Field.isNamed]
      · intro f hf
        simp [spread, hfs f hf, Field.isNamed, TypeExpr.kindName_shown]
      · intro f _
        simp
    have hdoc : s.shown.doc = s.doc := by
      simp only [Signature.shown_eq, Signature.doc_eq, signature, hlist hp, hlist hr,
        List.isEmpty_map]
    simp only [TypeExpr.shown, TypeExpr.layout, hdoc]
  | foreign kind data => rfl

end Erasure

section Leaves

/-- What stands between the brackets is points or digits, and tells the length. -/
theorem bracketed_reads {length : Int} {ellipsis : Bool}
    (h : checkLength length ellipsis = .ok ()) :
    ellipsis = decide ('.' ∈ bracketed length ellipsis) ∧
      length = if '.' ∈ bracketed length ellipsis then 0
        else (Nat.ofDigitChars 10 (bracketed length ellipsis) 0 : Int) := by
  obtain ⟨hnonneg, hellipsis⟩ := checkLength_eq_ok.mp h
  obtain ⟨n, rfl⟩ := Int.eq_ofNat_of_zero_le hnonneg
  have hspelled : (toString (n : Int)).toList = Nat.toDigits 10 n := by
    show (Nat.repr n).toList = _
    rw [Nat.repr_eq_ofList_toDigits, String.toList_ofList]
  have hpoint : '.' ∉ Nat.toDigits 10 n := fun hmem =>
    absurd (Nat.isDigit_of_mem_toDigits (by decide) (by decide) hmem) (by decide)
  cases ellipsis with
  | true =>
    have hzero : n = 0 := by
      by_contra hn
      exact hellipsis ⟨by omega, rfl⟩
    simp [bracketed, hzero]
  | false =>
    by_cases hn : n = 0
    · simp [bracketed, hn]
    · have hbracketed : bracketed n false = Nat.toDigits 10 n := by
        rw [bracketed, if_neg (by simp), if_pos (by omega), hspelled]
      simp [hbracketed, hpoint]

/-- The bracket after it is the first one. -/
theorem ne_bracket_of_mem_bracketed {length : Int} {ellipsis : Bool} {c : Char}
    (h : c ∈ bracketed length ellipsis) : (c != ']') = true := by
  unfold bracketed at h
  split at h
  · obtain rfl : c = '.' := by simpa using h
    decide
  · split at h
    · rename_i hpos
      obtain ⟨n, hn⟩ := toList_toString_of_pos hpos
      rw [hn] at h
      have hdigit := Nat.isDigit_of_mem_toDigits (by decide) (by decide) h
      by_contra hc
      obtain rfl : c = ']' := by simpa using hc
      exact absurd hdigit (by decide)
    · cases h

/-- The qualifier and the name of a type are told apart by the point between them. -/
theorem NamedType.eq_of_reference {u v : NamedType} (hu : u.validate = .ok ())
    (hv : v.validate = .ok ()) {rest rest' : List Char} (hrest : Ends rest) (hrest' : Ends rest')
    (h : u.reference ++ rest = v.reference ++ rest') :
    u.package = v.package ∧ u.name = v.name ∧ rest = rest' := by
  have cut : ∀ {w w' : String} {cs cs' : List Char}, isIdentifier w = true →
      isIdentifier w' = true → (∀ c ∈ cs.head?, isNamePart c = false) →
      (∀ c ∈ cs'.head?, isNamePart c = false) → w.toList ++ cs = w'.toList ++ cs' →
      w = w' ∧ cs = cs' := by
    intro w w' cs cs' hw hw' hcs hcs' heq
    obtain ⟨hwords, htails⟩ := cut_unique (fun c hc => (isName_iff.mp hw).isNamePart hc)
      (fun c hc => (isName_iff.mp hw').isNamePart hc) hcs hcs' heq
    exact ⟨String.toList_inj.mp hwords, htails⟩
  have point : ∀ {cs : List Char}, ∀ c ∈ ('.' :: cs).head?, isNamePart c = false := by
    intro cs c hc
    obtain rfl : '.' = c := by simpa using hc
    decide
  have apart : ∀ {cs ds : List Char}, Ends cs → cs ≠ '.' :: ds := by
    intro cs ds hcs heq
    subst heq
    cases hcs with
    | sign hc => exact absurd hc (by decide)
  obtain ⟨word, tail, htext, hword, hu'⟩ := NamedType.exists_word hu rest
  obtain ⟨word', tail', htext', hword', hv'⟩ := NamedType.exists_word hv rest'
  rw [htext, htext'] at h
  obtain ⟨hp, rfl, rfl⟩ | ⟨rfl, rfl⟩ := hu' <;> obtain ⟨hp', rfl, rfl⟩ | ⟨rfl, rfl⟩ := hv'
  · exact ⟨hp.trans hp'.symm, cut hword hword' hrest.decisions.1 hrest'.decisions.1 h⟩
  · exact absurd (cut hword hword' hrest.decisions.1 point h).2 (apart hrest)
  · exact absurd (cut hword hword' point hrest'.decisions.1 h).2.symm (apart hrest')
  · obtain ⟨hpackage, htail⟩ := cut hword hword' point point h
    exact ⟨hpackage, cut (NamedType.validate_eq_ok.mp hu).1 (NamedType.validate_eq_ok.mp hv).1
      hrest.decisions.1 hrest'.decisions.1 (List.cons.inj htail).2⟩

/-- A named type is read back from its text. -/
theorem NamedType.eq_of_written {u v : NamedType} (hu : u.validate = .ok ())
    (hv : v.validate = .ok ()) {indent : Indent} {depth : Nat} {rest rest' : List Char}
    (hrest : Ends rest) (hrest' : Ends rest')
    (h : (TypeExpr.named u).written indent depth ++ rest =
      (TypeExpr.named v).written indent depth ++ rest') : u = v ∧ rest = rest' := by
  have star : ∀ {w : NamedType} {cs ds : List Char}, w.validate = .ok () →
      '*' :: cs ≠ w.reference ++ ds := by
    intro w cs ds hw heq
    obtain ⟨word, tail, htext, hword, -⟩ := NamedType.exists_word hw ds
    rw [htext] at heq
    have hname := isName_iff.mp hword
    cases hlist : word.toList with
    | nil =>
      rw [hlist] at hname
      exact hname
    | cons c cs =>
      rw [hlist] at heq hname
      obtain rfl : '*' = c := (List.cons.inj heq).1
      exact absurd hname.1 (by decide)
  rw [TypeExpr.written_named, TypeExpr.written_named] at h
  have hpointer : u.pointer = v.pointer := by
    cases hp : u.pointer <;> cases hp' : v.pointer <;> rw [hp, hp'] at h
    · exact absurd h.symm (star hu)
    · exact absurd h (star hv)
  rw [hpointer, List.append_assoc, List.append_assoc] at h
  obtain ⟨hpackage, hname, hends⟩ :=
    NamedType.eq_of_reference hu hv hrest hrest' (List.append_cancel_left h)
  cases u
  cases v
  simp_all

end Leaves

section Reading

/-- Where the text of the type stands, no other type can be read, and the text after it
is the same. -/
def TypeExpr.Legible (indent : Indent) (s : TypeExpr) : Prop :=
  ∀ {t : TypeExpr} {depth : Nat} {rest rest' : List Char}, t.Clear → Ends rest → Ends rest' →
    s.written indent depth ++ rest = t.written indent depth ++ rest' →
      s.shown = t.shown ∧ rest = rest'

variable {indent : Indent} {depth : Nat}

/-- What follows the name of a parameter is read back, the points of a spread included. -/
theorem Field.eq_of_body {f g : Field} {x y : Bool} (hf : f.Clear) (hg : g.Clear)
    (hlegible : f.type.Legible indent)
    (hx : f.CanSpread x)
    (hy : g.CanSpread y) {rest rest' : List Char}
    (hrest : Ends rest) (hrest' : Ends rest')
    (h : f.body indent depth x ++ rest = g.body indent depth y ++ rest') :
    x = y ∧ f.type.shown = g.type.shown ∧ rest = rest' := by
  obtain ⟨c, cs, hbody, hc⟩ := hf.exists_head_body indent depth hx
  obtain ⟨d, ds, hbody', hd⟩ := hg.exists_head_body indent depth hy
  have hhead : c = d := by
    rw [hbody, hbody'] at h
    exact (List.cons.inj h).1
  subst hhead
  cases x <;> cases y
  · exact ⟨rfl, hlegible hg.type hrest hrest' h⟩
  · rw [show c = '.' from hd] at hc
    exact absurd hc (by decide)
  · rw [show c = '.' from hc] at hd
    exact absurd hd (by decide)
  · obtain ⟨element, htype⟩ := hx rfl
    obtain ⟨element', htype'⟩ := hy rfl
    rw [Field.body_true htype, Field.body_true htype'] at h
    have hslice : f.type.written indent depth ++ rest = g.type.written indent depth ++ rest' := by
      rw [htype, htype', TypeExpr.written_array, TypeExpr.written_array]
      simpa [bracketed] using h
    exact ⟨rfl, hlegible hg.type hrest hrest' hslice⟩

/-- A parameter is read back, its name included. -/
theorem Field.eq_of_entry {f g : Field} {x y : Bool} (hf : f.Clear) (hg : g.Clear)
    (hlegible : f.type.Legible indent)
    (hx : f.CanSpread x)
    (hy : g.CanSpread y) {rest rest' : List Char}
    (hrest : Ends rest) (hrest' : Ends rest')
    (h : f.label ++ (f.body indent depth x ++ rest) =
      g.label ++ (g.body indent depth y ++ rest')) :
    x = y ∧ f.shown false = g.shown false ∧ rest = rest' := by
  have hnamed : f.isNamed = g.isNamed := by
    rw [← hf.namedAt_entry hx hrest, h, hg.namedAt_entry hy hrest']
  have hcut : f.name = g.name ∧
      f.body indent depth x ++ rest = g.body indent depth y ++ rest' := by
    cases hn : f.isNamed with
    | true =>
      have hn' : g.isNamed = true := hnamed ▸ hn
      rw [Field.label, Field.label, if_pos hn, if_pos hn', List.append_assoc,
        List.append_assoc] at h
      obtain ⟨hname, htail⟩ := cut_unique (fun c hc => (hf.isName hn).isNamePart hc)
        (fun c hc => (hg.isName hn').isNamePart hc) (by simp; decide) (by simp; decide) h
      exact ⟨String.toList_inj.mp hname, (List.cons.inj htail).2⟩
    | false =>
      have hn' : g.isNamed = false := hnamed ▸ hn
      rw [Field.label, Field.label, hn, hn'] at h
      have hempty : f.name = "" ∧ g.name = "" := by
        simpa [Field.isNamed] using And.intro hn hn'
      exact ⟨hempty.1.trans hempty.2.symm, h⟩
  obtain ⟨hspread, htype, hends⟩ := Field.eq_of_body hf hg hlegible hx hy hrest hrest' hcut.2
  refine ⟨hspread, ?_, hends⟩
  rw [Field.shown_eq, Field.shown_eq, hcut.1, htype, hf.comment, hg.comment]
  rfl

/-- A tag stays within its line. -/
theorem Field.ends_tagging (f : Field) (rest : List Char) : Ends (f.tagging ++ '\n' :: rest) := by
  unfold Field.tagging
  split
  · exact .sign (by decide)
  · rw [Text.quoteTag, Text.quoteWith, String.toList_ofList]
    exact .tag

theorem Field.eq_of_tagging {f g : Field} {rest rest' : List Char}
    (h : f.tagging ++ '\n' :: rest = g.tagging ++ '\n' :: rest') :
    f.tag = g.tag ∧ rest = rest' := by
  have quoted : ∀ k : Field, k.tag.isEmpty = false →
      k.tagging = ' ' :: '"' :: (k.tag.toList.flatMap Text.escapeTag ++ ['"']) := by
    intro k hk
    rw [Field.tagging, hk, Text.quoteTag, Text.quoteWith, String.toList_ofList]
    rfl
  have unquoted : ∀ k : Field, k.tag.isEmpty = true → k.tagging = [] := by
    intro k hk
    rw [Field.tagging, if_pos hk]
  cases hf : f.tag.isEmpty <;> cases hg : g.tag.isEmpty
  · rw [quoted f hf, quoted g hg] at h
    simp only [List.cons_append, List.append_assoc, List.cons.injEq, true_and,
      List.nil_append] at h
    obtain ⟨htag, hline⟩ := Text.undoes_tag.flatMap_inj h
    exact ⟨String.toList_inj.mp htag, (List.cons.inj hline).2⟩
  · rw [quoted f hf, unquoted g hg] at h
    exact absurd (List.cons.inj h).1 (by decide)
  · rw [unquoted f hf, quoted g hg] at h
    exact absurd (List.cons.inj h).1 (by decide)
  · rw [unquoted f hf, unquoted g hg] at h
    exact ⟨by rw [String.isEmpty_iff.mp hf, String.isEmpty_iff.mp hg], (List.cons.inj h).2⟩

/-- A line of a struct is read back, its tag included. -/
theorem Field.eq_of_structField {f g : Field} (hf : f.Clear) (hg : g.Clear)
    (hlegible : f.type.Legible indent) {rest rest' : List Char}
    (h : f.layout.structField.chars indent depth false ++ '\n' :: rest =
      g.layout.structField.chars indent depth false ++ '\n' :: rest') :
    f.shown true = g.shown true ∧ rest = rest' := by
  rw [hf.chars_structField, hg.chars_structField] at h
  simp only [List.append_assoc] at h
  obtain ⟨-, hshown, htail⟩ := Field.eq_of_entry hf hg hlegible f.canSpread_false
    g.canSpread_false (f.ends_tagging rest) (g.ends_tagging rest') h
  obtain ⟨htag, hends⟩ := Field.eq_of_tagging htail
  refine ⟨?_, hends⟩
  simp only [Field.shown_eq, Field.mk.injEq] at hshown ⊢
  exact ⟨hshown.1, htag, hshown.2.2⟩

/-- A list starts with its first field; a parenthesis or a comma follows. -/
theorem Field.exists_entry (indent : Indent) (depth : Nat) {f : Field} {fs : List Field} {x : Bool}
    (hx : x = true → checkVariadic (f :: fs) = .ok ()) (rest : List Char) :
    ∃ z tail, Field.list indent depth x (f :: fs) ++ ')' :: rest =
        f.label ++ (f.body indent depth z ++ tail) ∧ f.CanSpread z ∧
      (fs = [] ∧ z = x ∧ tail = ')' :: rest ∨
        z = false ∧ tail = ',' :: ' ' :: (Field.list indent depth x fs ++ ')' :: rest) ∧
          (x = true → checkVariadic fs = .ok ())) := by
  cases fs with
  | nil =>
    have hspread : f.CanSpread x := by
      intro htrue
      obtain ⟨last, element, hlast, htype⟩ := checkVariadic_eq_ok.mp (hx htrue)
      obtain rfl : f = last := by simpa using hlast
      exact ⟨element, htype⟩
    exact ⟨x, _, by rw [Field.list_singleton hspread, List.append_assoc], hspread,
      .inl ⟨rfl, rfl, rfl⟩⟩
  | cons g fs =>
    refine ⟨false, _, by simp [Field.list_cons_cons], f.canSpread_false, .inr ⟨rfl, rfl, ?_⟩⟩
    intro htrue
    obtain ⟨last, element, hlast, htype⟩ := checkVariadic_eq_ok.mp (hx htrue)
    exact checkVariadic_eq_ok.mpr ⟨last, element, by rwa [List.getLast?_cons_cons] at hlast, htype⟩

/-- Parameters or results are read back, up to the parenthesis after them. -/
theorem Field.eq_of_list {fs gs : List Field} {x y : Bool} (hfs : ∀ f ∈ fs, f.Clear)
    (hgs : ∀ g ∈ gs, g.Clear) (hlegible : ∀ f ∈ fs, f.type.Legible indent)
    (hx : x = true → checkVariadic fs = .ok ()) (hy : y = true → checkVariadic gs = .ok ())
    {rest rest' : List Char}
    (h : Field.list indent depth x fs ++ ')' :: rest = Field.list indent depth y gs ++ ')' :: rest') :
    x = y ∧ fs.map (Field.shown false) = gs.map (Field.shown false) ∧ rest = rest' := by
  have none : ∀ {z : Bool}, (z = true → checkVariadic [] = .ok ()) → z = false := by
    intro z hz
    cases z with
    | false => rfl
    | true => exact absurd (hz rfl) (by decide)
  have first : ∀ {k : Field} {ks : List Field} {z : Bool} {cs ds : List Char}, k.Clear →
      (z = true → checkVariadic (k :: ks) = .ok ()) →
      ')' :: cs ≠ Field.list indent depth z (k :: ks) ++ ')' :: ds := by
    intro k ks z cs ds hk hz heq
    obtain ⟨w, tail, htext, hspread, -⟩ := Field.exists_entry indent depth hz ds
    obtain ⟨c, es, hhead, hc⟩ := hk.exists_head_entry indent depth hspread tail
    rw [htext, hhead] at heq
    obtain rfl : ')' = c := (List.cons.inj heq).1
    exact absurd hc (by decide)
  induction fs generalizing gs with
  | nil =>
    cases gs with
    | nil => exact ⟨(none hx).trans (none hy).symm, rfl, (List.cons.inj h).2⟩
    | cons g gs => exact absurd h (first (hgs g (by simp)) hy)
  | cons f fs ih =>
    cases gs with
    | nil => exact absurd h.symm (first (hfs f (by simp)) hx)
    | cons g gs =>
      obtain ⟨z, tail, htext, hspread, htail⟩ := Field.exists_entry indent depth hx rest
      obtain ⟨z', tail', htext', hspread', htail'⟩ := Field.exists_entry indent depth hy rest'
      have hends : Ends tail := by
        obtain ⟨-, -, rfl⟩ | ⟨-, rfl, -⟩ := htail <;> exact .sign (by decide)
      have hends' : Ends tail' := by
        obtain ⟨-, -, rfl⟩ | ⟨-, rfl, -⟩ := htail' <;> exact .sign (by decide)
      rw [htext, htext'] at h
      obtain ⟨hz, hshown, htails⟩ := Field.eq_of_entry (hfs f (by simp)) (hgs g (by simp))
        (hlegible f (by simp)) hspread hspread' hends hends' h
      rw [List.map_cons, List.map_cons, hshown]
      obtain ⟨rfl, rfl, rfl⟩ | ⟨-, rfl, hx'⟩ := htail <;>
        obtain ⟨rfl, rfl, rfl⟩ | ⟨-, rfl, hy'⟩ := htail'
      · exact ⟨hz, rfl, (List.cons.inj htails).2⟩
      · exact absurd (List.cons.inj htails).1 (by decide)
      · exact absurd (List.cons.inj htails).1 (by decide)
      · simp only [List.cons.injEq, true_and] at htails
        obtain ⟨hxy, hmap, hrest⟩ := ih (fun k hk => hfs k (List.mem_cons_of_mem _ hk))
          (fun k hk => hgs k (List.mem_cons_of_mem _ hk))
          (fun k hk => hlegible k (List.mem_cons_of_mem _ hk)) hx' hy' htails
        exact ⟨hxy, by rw [hmap], hrest⟩

/-- A signature is read back; a blank and a parenthesis after it start its results. -/
theorem Signature.eq_of_written {s t : Signature} (hs : (TypeExpr.func s).Clear)
    (ht : (TypeExpr.func t).Clear) (hp : ∀ f ∈ s.params, f.type.Legible indent)
    (hr : ∀ f ∈ s.results, f.type.Legible indent) {rest rest' : List Char} (hrest : Ends rest)
    (hrest' : Ends rest')
    (h : s.written indent depth ++ rest = t.written indent depth ++ rest') :
    s.shown = t.shown ∧ rest = rest' := by
  obtain ⟨hparams, hresults, hvariadic⟩ := hs.func
  obtain ⟨hparams', hresults', hvariadic'⟩ := ht.func
  have parenthesis : ∀ {cs ds : List Char}, Ends cs → cs ≠ ' ' :: '(' :: ds := by
    intro cs ds hcs heq
    subst heq
    cases hcs with
    | sign hc => exact absurd hc (by decide)
  rw [Signature.written_eq hparams hresults, Signature.written_eq hparams' hresults'] at h
  simp only [List.cons_append, List.append_assoc, List.cons.injEq, true_and] at h
  obtain ⟨hxy, hmap, htail⟩ := Field.eq_of_list hparams hparams' hp hvariadic hvariadic' h
  have hresult : s.results.map (Field.shown false) = t.results.map (Field.shown false) ∧
      rest = rest' := by
    cases hempty : s.results.isEmpty <;> cases hempty' : t.results.isEmpty <;>
      simp only [hempty, hempty', Bool.false_eq_true, if_true, if_false, List.cons_append,
        List.nil_append, List.append_assoc, List.cons.injEq, true_and] at htail
    · exact (Field.eq_of_list (x := false) (y := false) hresults hresults' hr (by simp) (by simp)
        htail).2
    · exact absurd htail.symm (parenthesis hrest')
    · exact absurd htail (parenthesis hrest)
    · rw [List.isEmpty_iff.mp hempty, List.isEmpty_iff.mp hempty']
      exact ⟨rfl, htail⟩
  rw [Signature.shown_eq, Signature.shown_eq, hmap, hresult.1, hxy]
  exact ⟨rfl, hresult.2⟩

/-- A function type is read back with its keyword or, after a name, without. -/
theorem TypeExpr.Legible.signature {s t : Signature} (hs : (TypeExpr.func s).Legible indent)
    (ht : (TypeExpr.func t).Clear) {rest rest' : List Char} (hrest : Ends rest)
    (hrest' : Ends rest')
    (h : s.written indent depth ++ rest = t.written indent depth ++ rest') :
    (TypeExpr.func s).shown = (TypeExpr.func t).shown ∧ rest = rest' := by
  apply hs ht hrest hrest'
  rw [TypeExpr.written_func, TypeExpr.written_func, List.append_assoc, List.append_assoc,
    List.cons_append, List.cons_append, h]

theorem Signature.exists_written (s : Signature) (indent : Indent) (depth : Nat) :
    ∃ tail, s.written indent depth = '(' :: tail := by
  simp [Signature.written, signature]

/-- No named type is read where a name and a signature stand. -/
theorem NamedType.reference_ne_method {u : NamedType} (hu : u.validate = .ok ()) {name : List Char}
    (hname : IsName name) {cs ds : List Char} : u.reference ++ '\n' :: cs ≠ name ++ '(' :: ds := by
  intro heq
  obtain ⟨word, tail, htext, hword, htail⟩ := NamedType.exists_word hu ('\n' :: cs)
  have hhead : ∀ c ∈ tail.head?, isNamePart c = false ∧ c ≠ '(' := by
    obtain ⟨-, -, rfl⟩ | ⟨-, rfl⟩ := htail <;> simp <;> decide
  rw [htext] at heq
  obtain ⟨-, hsign⟩ := cut_unique (fun c hc => (isName_iff.mp hword).isNamePart hc)
    (fun c hc => hname.isNamePart hc) (fun c hc => (hhead c hc).1) (by simp; decide) heq
  exact (hhead '(' (by simp [hsign])).2 rfl

/-- The line of an embedded type. -/
theorem Field.Clear.chars_embedded {f : Field} {u : NamedType} (h : f.Clear) (hname : f.name = "")
    (htype : f.type = .named u) (hpointer : u.pointer = false) :
    f.layout.interfaceMember.chars indent depth false = u.reference ∧
      f.type.written indent depth = u.reference ∧ u.validate = .ok () := by
  have hvalid := h.type.valid
  have hreference : f.type.written indent depth = u.reference := by
    rw [htype, TypeExpr.written_named, hpointer]
    rfl
  rw [htype] at hvalid
  refine ⟨?_, hreference, hvalid⟩
  rw [h.chars_interfaceMember, hname, ← hreference, htype]
  rfl

/-- The line of a method. -/
theorem Field.Clear.chars_method {f : Field} {s : Signature} (h : f.Clear) (hname : f.name ≠ "")
    (htype : f.type = .func s) :
    f.layout.interfaceMember.chars indent depth false =
      f.name.toList ++ s.written indent depth ∧ IsName f.name.toList := by
  refine ⟨?_, h.isName (by simpa [Field.isNamed] using hname)⟩
  rw [h.chars_interfaceMember, htype]
  rfl

/-- The name of a method ends at the parenthesis after it. -/
theorem Signature.cut_method {s t : Signature} {name name' : List Char} (hname : IsName name)
    (hname' : IsName name') {rest rest' : List Char}
    (h : name ++ s.written indent depth ++ rest = name' ++ t.written indent depth ++ rest') :
    name = name' ∧ s.written indent depth ++ rest = t.written indent depth ++ rest' := by
  obtain ⟨tail, htail⟩ := s.exists_written indent depth
  obtain ⟨tail', htail'⟩ := t.exists_written indent depth
  rw [List.append_assoc, List.append_assoc] at h
  apply cut_unique (fun c hc => hname.isNamePart hc) (fun c hc => hname'.isNamePart hc) _ _ h
  · rw [htail]
    simp
    decide
  · rw [htail']
    simp
    decide

/-- A line of an interface is read back: a parenthesis follows the name of a method. -/
theorem Field.eq_of_interfaceMember {f g : Field} (hf : f.Clear) (hg : g.Clear)
    (hrule : Place.interfaceMember.rule f = .ok ()) (hrule' : Place.interfaceMember.rule g = .ok ())
    (hlegible : f.type.Legible indent) {rest rest' : List Char}
    (h : f.layout.interfaceMember.chars indent depth false ++ '\n' :: rest =
      g.layout.interfaceMember.chars indent depth false ++ '\n' :: rest') :
    f.shown false = g.shown false ∧ rest = rest' := by
  have hends : ∀ cs : List Char, Ends ('\n' :: cs) := fun cs => .sign (by decide)
  have hread : f.name = g.name ∧ f.type.shown = g.type.shown ∧ '\n' :: rest = '\n' :: rest' := by
    obtain ⟨hname, u, htype, hpointer⟩ | ⟨hname, s, htype⟩ :=
        Place.rule_interfaceMember_eq_ok.mp hrule <;>
      obtain ⟨hname', v, htype', hpointer'⟩ | ⟨hname', t, htype'⟩ :=
        Place.rule_interfaceMember_eq_ok.mp hrule'
    · obtain ⟨hline, hwritten, -⟩ := hf.chars_embedded hname htype hpointer
      obtain ⟨hline', hwritten', -⟩ := hg.chars_embedded hname' htype' hpointer'
      rw [hline, hline', ← hwritten, ← hwritten'] at h
      exact ⟨hname.trans hname'.symm, hlegible hg.type (hends rest) (hends rest') h⟩
    · obtain ⟨hline, -, hvalid⟩ := hf.chars_embedded hname htype hpointer
      obtain ⟨hline', hword⟩ := hg.chars_method hname' htype'
      obtain ⟨tail, htail⟩ := t.exists_written indent depth
      rw [hline, hline', htail, List.append_assoc] at h
      exact absurd h (NamedType.reference_ne_method hvalid hword)
    · obtain ⟨hline, hword⟩ := hf.chars_method hname htype
      obtain ⟨hline', -, hvalid⟩ := hg.chars_embedded hname' htype' hpointer'
      obtain ⟨tail, htail⟩ := s.exists_written indent depth
      rw [hline, hline', htail, List.append_assoc] at h
      exact absurd h.symm (NamedType.reference_ne_method hvalid hword)
    · obtain ⟨hline, hword⟩ := hf.chars_method hname htype
      obtain ⟨hline', hword'⟩ := hg.chars_method hname' htype'
      have hclear := hg.type
      rw [hline, hline'] at h
      rw [htype] at hlegible ⊢
      rw [htype'] at hclear ⊢
      obtain ⟨hnames, hsignature⟩ := Signature.cut_method hword hword' h
      exact ⟨String.toList_inj.mp hnames,
        hlegible.signature hclear (hends rest) (hends rest') hsignature⟩
  rw [Field.shown_eq, Field.shown_eq, hread.1, hread.2.1, hf.comment, hg.comment]
  exact ⟨rfl, (List.cons.inj hread.2.2).2⟩

/-- Lines in braces are read back, one after the other, if each line is. -/
theorem eq_of_lines {line : Field → List Char} {view : Field → Field} {fs gs : List Field}
    (hfs : ∀ f ∈ fs, ∃ c cs, line f = c :: cs ∧ (startsType c = true ∨ c = '.'))
    (hgs : ∀ g ∈ gs, ∃ c cs, line g = c :: cs ∧ (startsType c = true ∨ c = '.'))
    (hline : ∀ f ∈ fs, ∀ g ∈ gs, ∀ {cs ds : List Char}, line f ++ '\n' :: cs = line g ++ '\n' :: ds →
      view f = view g ∧ cs = ds) {rest rest' : List Char}
    (h : (fs.flatMap fun f => indent.margin (depth + 1) ++ (line f ++ ['\n'])) ++
        (indent.margin depth ++ '\x7d' :: rest) =
      (gs.flatMap fun g => indent.margin (depth + 1) ++ (line g ++ ['\n'])) ++
        (indent.margin depth ++ '\x7d' :: rest')) :
    fs.map view = gs.map view ∧ rest = rest' := by
  have first : ∀ {k : Field} {cs ds : List Char},
      (∃ c es, line k = c :: es ∧ (startsType c = true ∨ c = '.')) →
      indent.margin depth ++ '\x7d' :: cs ≠ indent.margin (depth + 1) ++ (line k ++ ds) := by
    intro k cs ds hk heq
    obtain ⟨c, es, hline, hc⟩ := hk
    have blank : ∀ {n : Nat}, ∀ d ∈ indent.margin n, (d == '\t' || d == ' ') = true := by
      intro n d hd
      simpa using Indent.mem_margin hd
    have solid : (c == '\t' || c == ' ') = false := by
      by_contra hblank
      simp only [Bool.not_eq_false, Bool.or_eq_true, beq_iff_eq] at hblank
      obtain rfl | rfl := hblank <;> exact absurd hc (by decide)
    rw [hline] at heq
    obtain ⟨-, hbrace⟩ := cut_unique blank blank (by simp) (by simpa using solid) heq
    obtain rfl : '\x7d' = c := (List.cons.inj hbrace).1
    exact absurd hc (by decide)
  induction fs generalizing gs with
  | nil =>
    cases gs with
    | nil => exact ⟨rfl, (List.cons.inj (List.append_cancel_left h)).2⟩
    | cons g gs =>
      rw [List.flatMap_cons, List.append_assoc, List.append_assoc, List.append_assoc] at h
      exact absurd h (first (hgs g (by simp)))
  | cons f fs ih =>
    cases gs with
    | nil =>
      rw [List.flatMap_cons, List.append_assoc, List.append_assoc, List.append_assoc] at h
      exact absurd h.symm (first (hfs f (by simp)))
    | cons g gs =>
      simp only [List.flatMap_cons, List.append_assoc, List.cons_append, List.nil_append] at h
      obtain ⟨hview, htail⟩ := hline f (by simp) g (by simp) (List.append_cancel_left h)
      obtain ⟨hmap, hrest⟩ := ih (fun k hk => hfs k (List.mem_cons_of_mem _ hk))
        (fun k hk => hgs k (List.mem_cons_of_mem _ hk))
        (fun k hk m hm => hline k (List.mem_cons_of_mem _ hk) m (List.mem_cons_of_mem _ hm)) htail
      rw [List.map_cons, List.map_cons, hview, hmap]
      exact ⟨rfl, hrest⟩

/-- An empty block is told from one with lines by the blank before its brace. -/
theorem eq_of_block {line : Field → List Char} {view : Field → Field} {fs gs : List Field}
    (hfs : ∀ f ∈ fs, ∃ c cs, line f = c :: cs ∧ (startsType c = true ∨ c = '.'))
    (hgs : ∀ g ∈ gs, ∃ c cs, line g = c :: cs ∧ (startsType c = true ∨ c = '.'))
    (hline : ∀ f ∈ fs, ∀ g ∈ gs, ∀ {cs ds : List Char}, line f ++ '\n' :: cs = line g ++ '\n' :: ds →
      view f = view g ∧ cs = ds) {rest rest' : List Char}
    (h : block indent depth line fs ++ rest = block indent depth line gs ++ rest') :
    fs.map view = gs.map view ∧ rest = rest' := by
  cases hempty : fs.isEmpty <;> cases hempty' : gs.isEmpty <;>
    simp only [block, hempty, hempty', Bool.false_eq_true, if_true, if_false, List.cons_append,
      List.nil_append, List.append_assoc, List.cons.injEq, true_and] at h
  · exact eq_of_lines hfs hgs hline h
  · exact absurd h.1 (by decide)
  · exact absurd h.1 (by decide)
  · rw [List.isEmpty_iff.mp hempty, List.isEmpty_iff.mp hempty']
    exact ⟨rfl, h⟩

theorem Field.Clear.exists_head_structField {f : Field} (h : f.Clear) :
    ∃ c cs, f.layout.structField.chars indent depth false = c :: cs ∧
      (startsType c = true ∨ c = '.') := by
  rw [h.chars_structField]
  exact h.exists_head_entry indent depth f.canSpread_false f.tagging

theorem Field.Clear.exists_head_interfaceMember {f : Field} (h : f.Clear)
    (hrule : Place.interfaceMember.rule f = .ok ()) :
    ∃ c cs, f.layout.interfaceMember.chars indent depth false = c :: cs ∧
      (startsType c = true ∨ c = '.') := by
  obtain ⟨hname, u, htype, hpointer⟩ | ⟨hname, s, htype⟩ := Place.rule_interfaceMember_eq_ok.mp hrule
  · obtain ⟨hline, hwritten, -⟩ := h.chars_embedded hname htype hpointer
    obtain ⟨c, cs, hhead, hc⟩ := h.type.exists_head indent depth
    exact ⟨c, cs, by rw [hline, ← hwritten, hhead], .inl hc⟩
  · obtain ⟨hline, hword⟩ := h.chars_method hname htype
    obtain ⟨c, cs, hhead, hc⟩ := exists_head_of_isName hword (s.written indent depth)
    exact ⟨c, cs, by rw [hline, hhead], .inl hc⟩

/-- Types that are written alike have one shape. -/
theorem TypeExpr.Clear.kindName_eq {s t : TypeExpr} (hs : s.Clear) (ht : t.Clear)
    {rest rest' : List Char} (hrest : Ends rest) (hrest' : Ends rest')
    (h : s.written indent depth ++ rest = t.written indent depth ++ rest') :
    s.kindName = t.kindName := by
  rw [← (hs.decisions hrest).1, h, (ht.decisions hrest').1]

theorem TypeExpr.legible_named {u : NamedType} (hs : (TypeExpr.named u).Clear) :
    (TypeExpr.named u).Legible indent := by
  intro t depth rest rest' ht hrest hrest' h
  have hkind := hs.kindName_eq ht hrest hrest' h
  cases t with
  | named v =>
    obtain ⟨rfl, hends⟩ := NamedType.eq_of_written hs.valid ht.valid hrest hrest' h
    exact ⟨rfl, hends⟩
  | foreign kind data => cases ht.valid
  | _ => simp [TypeExpr.kindName] at hkind

theorem TypeExpr.legible_array {element : TypeExpr} {length : Int} {ellipsis : Bool}
    (hs : (TypeExpr.array element length ellipsis).Clear) (ih : element.Legible indent) :
    (TypeExpr.array element length ellipsis).Legible indent := by
  intro t depth rest rest' ht hrest hrest' h
  have hkind := hs.kindName_eq ht hrest hrest' h
  cases t with
  | array element' length' ellipsis' =>
    obtain ⟨hlength, helement⟩ := hs.array
    obtain ⟨hlength', helement'⟩ := ht.array
    rw [TypeExpr.written_array, TypeExpr.written_array] at h
    simp only [List.cons_append, List.append_assoc, List.cons.injEq, true_and] at h
    obtain ⟨hbracketed, htail⟩ := cut_unique (fun _ => ne_bracket_of_mem_bracketed)
      (fun _ => ne_bracket_of_mem_bracketed) (by simp) (by simp) h
    obtain ⟨hshown, hends⟩ := ih helement' hrest hrest' (List.cons.inj htail).2
    obtain ⟨hx, hn⟩ := bracketed_reads hlength
    obtain ⟨hx', hn'⟩ := bracketed_reads hlength'
    rw [← hbracketed, ← hx] at hx'
    rw [← hbracketed, ← hn] at hn'
    rw [TypeExpr.shown, TypeExpr.shown, hshown, hx', hn']
    exact ⟨rfl, hends⟩
  | foreign kind data => cases ht.valid
  | _ => simp [TypeExpr.kindName] at hkind

theorem TypeExpr.legible_map {key value : TypeExpr} (hs : (TypeExpr.map key value).Clear)
    (hk : key.Legible indent) (hv : value.Legible indent) :
    (TypeExpr.map key value).Legible indent := by
  intro t depth rest rest' ht hrest hrest' h
  have hkind := hs.kindName_eq ht hrest hrest' h
  cases t with
  | map key' value' =>
    rw [TypeExpr.written_map, TypeExpr.written_map] at h
    simp only [List.append_assoc, List.cons_append, List.append_cancel_left_eq, List.cons.injEq,
      true_and] at h
    obtain ⟨hkey, htail⟩ := hk ht.map.1 (.sign (by decide)) (.sign (by decide)) h
    obtain ⟨hvalue, hends⟩ := hv ht.map.2 hrest hrest' (List.cons.inj htail).2
    rw [TypeExpr.shown, TypeExpr.shown, hkey, hvalue]
    exact ⟨rfl, hends⟩
  | foreign kind data => cases ht.valid
  | _ => simp [TypeExpr.kindName] at hkind

theorem TypeExpr.legible_struct {fs : List Field} (hs : (TypeExpr.struct fs).Clear)
    (ih : ∀ f ∈ fs, f.type.Legible indent) : (TypeExpr.struct fs).Legible indent := by
  intro t depth rest rest' ht hrest hrest' h
  have hkind := hs.kindName_eq ht hrest hrest' h
  cases t with
  | struct gs =>
    have hfs := hs.struct
    have hgs := ht.struct
    rw [TypeExpr.written_struct hfs, TypeExpr.written_struct hgs, List.append_assoc,
      List.append_assoc] at h
    obtain ⟨hmap, hends⟩ := eq_of_block (fun f hf => (hfs f hf).exists_head_structField)
      (fun g hg => (hgs g hg).exists_head_structField)
      (fun f hf g hg => Field.eq_of_structField (hfs f hf) (hgs g hg) (ih f hf))
      (List.append_cancel_left h)
    rw [TypeExpr.shown, TypeExpr.shown, Field.shownAll_eq, Field.shownAll_eq, hmap]
    exact ⟨rfl, hends⟩
  | foreign kind data => cases ht.valid
  | _ => simp [TypeExpr.kindName] at hkind

theorem TypeExpr.legible_interface {fs : List Field} (hs : (TypeExpr.interface fs).Clear)
    (ih : ∀ f ∈ fs, f.type.Legible indent) : (TypeExpr.interface fs).Legible indent := by
  intro t depth rest rest' ht hrest hrest' h
  have hkind := hs.kindName_eq ht hrest hrest' h
  cases t with
  | interface gs =>
    have hfs := hs.interface
    have hgs := ht.interface
    rw [TypeExpr.written_interface fun f hf => (hfs f hf).2,
      TypeExpr.written_interface fun g hg => (hgs g hg).2, List.append_assoc,
      List.append_assoc] at h
    obtain ⟨hmap, hends⟩ := eq_of_block
      (fun f hf => (hfs f hf).2.exists_head_interfaceMember (hfs f hf).1)
      (fun g hg => (hgs g hg).2.exists_head_interfaceMember (hgs g hg).1)
      (fun f hf g hg => Field.eq_of_interfaceMember (hfs f hf).2 (hgs g hg).2 (hfs f hf).1
        (hgs g hg).1 (ih f hf)) (List.append_cancel_left h)
    rw [TypeExpr.shown, TypeExpr.shown, Field.shownAll_eq, Field.shownAll_eq, hmap]
    exact ⟨rfl, hends⟩
  | foreign kind data => cases ht.valid
  | _ => simp [TypeExpr.kindName] at hkind

theorem TypeExpr.legible_func {s : Signature} (hs : (TypeExpr.func s).Clear)
    (hp : ∀ f ∈ s.params, f.type.Legible indent) (hr : ∀ f ∈ s.results, f.type.Legible indent) :
    (TypeExpr.func s).Legible indent := by
  intro t depth rest rest' ht hrest hrest' h
  have hkind := hs.kindName_eq ht hrest hrest' h
  cases t with
  | func t =>
    rw [TypeExpr.written_func, TypeExpr.written_func, List.append_assoc, List.append_assoc] at h
    obtain ⟨hshown, hends⟩ := Signature.eq_of_written hs ht hp hr hrest hrest'
      (List.cons.inj (List.append_cancel_left h)).2
    rw [TypeExpr.shown, TypeExpr.shown, hshown]
    exact ⟨rfl, hends⟩
  | foreign kind data => cases ht.valid
  | _ => simp [TypeExpr.kindName] at hkind

/-- Every valid type without comments can be read back. -/
theorem TypeExpr.Clear.legible {s : TypeExpr} (hs : s.Clear) : s.Legible indent := by
  induction s using TypeExpr.induction with
  | named u => exact legible_named hs
  | array element length ellipsis ih => exact legible_array hs (ih hs.array.2)
  | map key value hk hv => exact legible_map hs (hk hs.map.1) (hv hs.map.2)
  | struct fs ih => exact legible_struct hs fun f hf => ih f hf (hs.struct f hf).type
  | interface fs ih => exact legible_interface hs fun f hf => ih f hf (hs.interface f hf).2.type
  | func s hp hr =>
    obtain ⟨hparams, hresults, -⟩ := hs.func
    exact legible_func hs (fun f hf => hp f hf (hparams f hf).type)
      fun f hf => hr f hf (hresults f hf).type
  | foreign kind data => cases hs.valid

/-- A type on its own is read back; a function type has no keyword there. -/
theorem TypeExpr.Clear.shown_eq_of_bare {s t : TypeExpr} (hs : s.Clear) (ht : t.Clear)
    (h : s.layout.bare.chars indent 0 false = t.layout.bare.chars indent 0 false) :
    s.shown = t.shown := by
  have read : s.written indent 0 = t.written indent 0 → s.shown = t.shown := by
    intro heq
    have hwhole : s.written indent 0 ++ [] = t.written indent 0 ++ [] := by rw [heq]
    exact (hs.legible ht .nil .nil hwhole).1
  have keyless : ∀ {k : TypeExpr} {u : Signature}, k.Clear →
      u.written indent 0 ≠ k.written indent 0 := by
    intro k u hk heq
    obtain ⟨tail, htail⟩ := u.exists_written indent 0
    obtain ⟨c, cs, hhead, hc⟩ := hk.exists_head indent 0
    rw [htail, hhead] at heq
    obtain rfl : '(' = c := (List.cons.inj heq).1
    exact absurd hc (by decide)
  have bare : ∀ k : TypeExpr, (∃ u, k = .func u) ∨
      k.layout.bare.chars indent 0 false = k.written indent 0 := by
    intro k
    cases k with
    | func u => exact .inl ⟨u, rfl⟩
    | _ => exact .inr rfl
  obtain ⟨u, rfl⟩ | hbare := bare s <;> obtain ⟨v, rfl⟩ | hbare' := bare t
  · have hsignature : u.written indent 0 = v.written indent 0 := h
    exact read (by rw [TypeExpr.written_func, TypeExpr.written_func, hsignature])
  · rw [hbare'] at h
    exact absurd h (keyless ht)
  · rw [hbare] at h
    exact absurd h.symm (keyless hs)
  · rw [hbare, hbare'] at h
    exact read h

end Reading

/-- Two valid types without comments have the same text exactly if they agree in all that
is shown: everything but annotations and the tags of interface members, parameters and
results. -/
theorem TypeExpr.render_eq_iff_shown_eq {s t : TypeExpr} (hs : s.validate = .ok ())
    (ht : t.validate = .ok ()) (hcomments : ∀ f, .field f ∈ s.parts → f.comment = "")
    (hcomments' : ∀ f, .field f ∈ t.parts → f.comment = "") (indent : Indent) :
    ∃ text text', (Node.type s).render indent = .ok text ∧
      (Node.type t).render indent = .ok text' ∧ (text = text' ↔ s.shown = t.shown) := by
  refine ⟨_, _, TypeExpr.render_eq hs indent, TypeExpr.render_eq ht indent, ?_, ?_⟩
  · intro h
    rw [String.ofList_inj] at h
    exact TypeExpr.Clear.shown_eq_of_bare ⟨hs, hcomments⟩ ⟨ht, hcomments'⟩ h
  · intro h
    rw [← s.layout_shown, ← t.layout_shown, h]

/-- A struct with one callback, whose parameter has a tag that is never written. -/
def TypeExpr.callback (tag : String) : TypeExpr :=
  .struct [⟨"map", "json", "", [],
    .func ⟨[⟨"xs", tag, "", [], .array (.named { name := "T" }) 0 false⟩], [], true⟩⟩]

theorem TypeExpr.render_callback_eq :
    callback "a" ≠ callback "b" ∧
      ∃ text, (Node.type (callback "a")).render .tab = .ok text ∧
        (Node.type (callback "b")).render .tab = .ok text := by
  have hcomments : ∀ tag f, .field f ∈ (callback tag).parts → f.comment = "" := by
    intro tag f hf
    simp only [callback, parts, Field.partsAll_eq, Signature.parts_eq, List.flatMap_cons,
      List.flatMap_nil, Field.parts_eq, List.append_nil, List.mem_cons, reduceCtorEq,
      Node.field.injEq, false_or, List.not_mem_nil, or_false] at hf
    obtain rfl | rfl := hf <;> rfl
  obtain ⟨text, text', htext, htext', hiff⟩ := render_eq_iff_shown_eq (s := callback "a")
    (t := callback "b") (by decide) (by decide) (hcomments "a") (hcomments "b") .tab
  have hshown : (callback "a").shown = (callback "b").shown := by decide
  exact ⟨by decide, text, htext, by rw [htext', hiff.mpr hshown]⟩

end GoSource
