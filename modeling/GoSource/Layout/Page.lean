import GoSource.Text.Blank

/-!
# Pages

The text written so far, and how its next line is indented. Indentation is
written late: only when something is put on a line, so empty lines hold none.
-/

namespace GoSource

/-- What one level of indentation is written as. -/
inductive Indent where
  | tab
  | spaces (count : Nat)
deriving DecidableEq, Repr

def Indent.unit : Indent → String
  | tab => "\t"
  | spaces count => "".pushn ' ' count

/-- A text in the making. -/
structure Page where
  text : String := ""
  indent : Indent := .tab
  depth : Nat := 0
  /-- Nothing stands on the current line yet. -/
  fresh : Bool := true
deriving DecidableEq, Repr

/-- The lines of a comment, blanks at their ends and line breaks at the end of
the text left out. -/
def commentLines (text : String) : List String :=
  match Text.trimEnd Text.isLineBreak text.toList with
  | [] => []
  | body => (Text.splitLines body).map fun line => String.ofList (Text.trimEnd Text.isBlank line)

namespace Page

/-- The indentation of the current depth. -/
def margin (p : Page) : String := String.join (List.replicate p.depth p.indent.unit)

/-- Puts `s`, which has no line breaks, on the current line. -/
def emit (p : Page) (s : String) : Page :=
  if s.isEmpty then p
  else if p.fresh then { p with text := p.text ++ p.margin ++ s, fresh := false }
  else { p with text := p.text ++ s }

/-- Ends the current line. -/
def newline (p : Page) : Page := { p with text := p.text ++ "\n", fresh := true }

/-- Appends `s` as it is, line breaks and indentation included. -/
def verbatim (p : Page) (s : String) : Page :=
  if s.isEmpty then p
  else { p with text := p.text ++ s, fresh := s.toList.getLast? = some '\n' }

/-- One line of a comment. -/
def commentLine (p : Page) (line : String) : Page :=
  (if line.isEmpty then p.emit "//" else (p.emit "// ").emit line).newline

/-- A comment, a line for each of its lines. -/
def comment (p : Page) (text : String) : Page := (commentLines text).foldl commentLine p

/-- Runs `f` one level deeper. -/
def indented {α : Type} (f : Page → Page × α) (p : Page) : Page × α :=
  let (q, a) := f { p with depth := p.depth + 1 }
  ({ q with depth := q.depth - 1 }, a)

end Page

end GoSource
