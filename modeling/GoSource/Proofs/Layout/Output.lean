import GoSource.Layout.Doc
import Mathlib.Data.List.Basic
import Mathlib.Tactic.Common

/-!
# What a document writes

Writing a document that does not fail appends characters to a page. They depend
on the indentation, the depth and whether the current line is still empty, and
not on the text before them. What a failing document writes is not described.
-/

namespace GoSource

/-- The indentation of a line at some depth. -/
def Indent.margin (indent : Indent) (depth : Nat) : List Char :=
  (List.replicate depth indent.unit.toList).flatten

theorem Indent.mem_unit {indent : Indent} {c : Char} (h : c ∈ indent.unit.toList) :
    c = '\t' ∨ c = ' ' := by
  cases indent with
  | tab => exact .inl (List.mem_singleton.mp h)
  | spaces count =>
    right
    induction count with
    | zero => cases h
    | succ count ih =>
      rw [Indent.unit, String.pushn_eq_repeat_push, Nat.repeat, String.toList_push,
        List.mem_append] at h
      rcases h with h | h
      · exact ih h
      · exact List.mem_singleton.mp h

theorem Indent.mem_margin {indent : Indent} {depth : Nat} {c : Char}
    (h : c ∈ indent.margin depth) : c = '\t' ∨ c = ' ' := by
  obtain ⟨unit, hunit, hc⟩ := List.mem_flatten.mp h
  rw [List.eq_of_mem_replicate hunit] at hc
  exact Indent.mem_unit hc

theorem Page.toList_margin (p : Page) : p.margin.toList = p.indent.margin p.depth := by
  rw [margin, Indent.margin, String.toList_join, List.flatMap_def, List.map_replicate]

namespace Doc

@[simp] theorem append_eq (first second : Doc) : first ++ second = append first second := rfl

/-- The lines of a comment; the first of them has a margin if it starts a line. -/
def commentChars (margin : List Char) (fresh : Bool) : List String → List Char
  | [] => []
  | line :: lines =>
    (if fresh then margin else []) ++ '/' :: '/' ::
      ((if line.isEmpty then [] else ' ' :: line.toList) ++
        '\n' :: commentChars margin true lines)

/-- Whether the current line is empty after the document if it was so before. -/
@[simp] def freshAfter : Doc → Bool → Bool
  | empty, fresh => fresh
  | text s, fresh => fresh && s.isEmpty
  | verbatim s, fresh => if s.isEmpty then fresh else s.toList.getLast? = some '\n'
  | newline, _ => true
  | comment s, fresh => fresh || !(commentLines s).isEmpty
  | append first second, fresh => second.freshAfter (first.freshAfter fresh)
  | nest body, fresh => body.freshAfter fresh
  | within _ body, fresh => body.freshAfter fresh
  | fail _, fresh => fresh

/-- The characters that the document adds at a depth; `fresh` says that the current
line is still empty. -/
@[simp] def chars (indent : Indent) : Doc → Nat → Bool → List Char
  | empty, _, _ => []
  | text s, depth, fresh =>
    (if fresh && !s.isEmpty then indent.margin depth else []) ++ s.toList
  | verbatim s, _, _ => s.toList
  | newline, _, _ => ['\n']
  | comment s, depth, fresh => commentChars (indent.margin depth) fresh (commentLines s)
  | append first second, depth, fresh =>
    first.chars indent depth fresh ++ second.chars indent depth (first.freshAfter fresh)
  | nest body, depth, fresh => body.chars indent (depth + 1) fresh
  | within _ body, depth, fresh => body.chars indent depth fresh
  | fail _, _, _ => []

/-- The fault of the first place that fails. -/
@[simp] def fault? : Doc → Option Fault
  | append first second => first.fault?.or second.fault?
  | nest body => body.fault?
  | within segment body => body.fault?.map (Fault.within segment)
  | fail fault => some fault
  | _ => none

section Choice

variable (c : Prop) [Decidable c] (d e : Doc)

@[simp] theorem freshAfter_ite (fresh : Bool) :
    (if c then d else e).freshAfter fresh = if c then d.freshAfter fresh else e.freshAfter fresh :=
  apply_ite (freshAfter · fresh) c d e

@[simp] theorem chars_ite (indent : Indent) (depth : Nat) (fresh : Bool) :
    (if c then d else e).chars indent depth fresh =
      if c then d.chars indent depth fresh else e.chars indent depth fresh :=
  apply_ite (chars indent · depth fresh) c d e

@[simp] theorem fault?_ite :
    (if c then d else e).fault? = if c then d.fault? else e.fault? := apply_ite fault? c d e

end Choice

/-- A page with more on it. -/
def extended (p : Page) (cs : List Char) (fresh : Bool) : Page :=
  { p with text := p.text ++ String.ofList cs, fresh }

theorem emit_eq (p : Page) (s : String) :
    p.emit s = extended p ((text s).chars p.indent p.depth p.fresh)
      ((text s).freshAfter p.fresh) := by
  cases hs : s.isEmpty with
  | true =>
    obtain rfl := String.isEmpty_iff.mp hs
    simp [Page.emit, extended, hs]
  | false => cases hf : p.fresh <;> simp [Page.emit, extended, hs, hf, ← Page.toList_margin,
      String.append_assoc]

theorem commentLine_eq (p : Page) (line : String) :
    p.commentLine line =
      extended p (commentChars (p.indent.margin p.depth) p.fresh [line]) true := by
  have hmark (s : String) : "// " ++ s = "/" ++ ("/" ++ (" " ++ s)) := by
    simp [← String.append_assoc]
  cases hl : line.isEmpty <;>
    simp [Page.commentLine, emit_eq, extended, Page.newline, commentChars, hl, hmark,
      String.append_assoc]

theorem foldl_commentLine_eq (p : Page) (lines : List String) :
    lines.foldl Page.commentLine p =
      extended p (commentChars (p.indent.margin p.depth) p.fresh lines)
        (p.fresh || !lines.isEmpty) := by
  induction lines generalizing p with
  | nil => simp [extended, commentChars]
  | cons line lines ih =>
    rw [List.foldl_cons, ih, commentLine_eq]
    simp [extended, commentChars, String.append_assoc]

/-- Writing a document that does not fail appends its characters. -/
theorem write_eq {d : Doc} (h : d.fault? = none) (p : Page) :
    d.write p =
      (extended p (d.chars p.indent p.depth p.fresh) (d.freshAfter p.fresh), none) := by
  induction d generalizing p with
  | empty => simp [write, extended]
  | text s => simp [write, emit_eq]
  | verbatim s =>
    cases hs : s.isEmpty <;> simp_all [write, Page.verbatim, extended]
  | newline => simp [write, Page.newline, extended]
  | comment s => simp [write, Page.comment, foldl_commentLine_eq]
  | append first second hfirst hsecond =>
    obtain ⟨h₁, h₂⟩ := Option.or_eq_none_iff.mp h
    simp [write, hfirst h₁, hsecond h₂, extended, String.append_assoc]
  | nest body ih => simp [write, Page.indented, ih h, extended]
  | within segment body ih =>
    have hbody : body.fault? = none := by simpa using h
    simp [write, ih hbody]
  | fail fault => cases h

/-- The text of a document that does not fail. -/
theorem render_eq {d : Doc} (h : d.fault? = none) (indent : Indent) :
    d.render indent = .ok (String.ofList (d.chars indent 0 true)) := by
  rw [render, write_eq h]
  simp [extended]

section Fresh

/-- The document writes nothing. -/
@[simp] def silent : Doc → Bool
  | empty => true
  | text s => s.isEmpty
  | verbatim s => s.isEmpty
  | newline => false
  | comment s => (commentLines s).isEmpty
  | append first second => first.silent && second.silent
  | nest body => body.silent
  | within _ body => body.silent
  | fail _ => true

/-- The first thing that the document writes stands on the current line, at its depth. -/
@[simp] def leads : Doc → Bool
  | text s => !s.isEmpty
  | comment s => !(commentLines s).isEmpty
  | append first second => first.leads || (first.silent && second.leads)
  | within _ body => body.leads
  | _ => false

theorem chars_of_silent {d : Doc} (h : d.silent = true) (indent : Indent) (depth : Nat)
    (fresh : Bool) : d.chars indent depth fresh = [] ∧ d.freshAfter fresh = fresh := by
  induction d generalizing depth fresh with
  | append first second hfirst hsecond =>
    obtain ⟨h₁, h₂⟩ := Bool.and_eq_true_iff.mp h
    simp [hfirst h₁ depth fresh, hsecond h₂ depth fresh]
  | nest body ih => exact ih h (depth + 1) fresh
  | within segment body ih => exact ih h depth fresh
  | comment s =>
    have hlines : commentLines s = [] := by simpa using h
    simp [hlines, commentChars]
  | _ => simp_all

/-- On an empty line such a document writes the margin and then what it writes anyway. -/
theorem chars_of_leads {d : Doc} (h : d.leads = true) (indent : Indent) (depth : Nat) :
    d.chars indent depth true = indent.margin depth ++ d.chars indent depth false ∧
      d.freshAfter true = d.freshAfter false := by
  induction d with
  | append first second hfirst hsecond =>
    rcases Bool.or_eq_true_iff.mp h with h | h
    · obtain ⟨hchars, hfresh⟩ := hfirst h
      simp [hchars, hfresh]
    · obtain ⟨hsilent, hsecond'⟩ := Bool.and_eq_true_iff.mp h
      have htrue := chars_of_silent hsilent indent depth true
      have hfalse := chars_of_silent hsilent indent depth false
      simp [htrue, hfalse, hsecond hsecond']
  | within segment body ih => exact ih h
  | text s => simp_all
  | comment s =>
    cases hlines : commentLines s with
    | nil => simp [hlines] at h
    | cons line lines => simp [hlines, commentChars]
  | _ => cases h

end Fresh

end Doc

end GoSource
