import GoSource.Fault
import GoSource.Layout.Page

/-!
# Documents

What a node looks like, without saying at which depth or with which indentation
it is written. A document may fail at some place: what stands before that place
is written, what stands after it is not, and the depth is as before either way.
-/

namespace GoSource

/-- The layout of a node. -/
inductive Doc where
  | empty
  /-- Text without line breaks. -/
  | text (s : String)
  /-- Text that keeps its own line breaks and indentation. -/
  | verbatim (s : String)
  | newline
  | comment (s : String)
  | append (first second : Doc)
  /-- A document one level deeper. -/
  | nest (body : Doc)
  /-- A document whose faults lie under a segment. -/
  | within (segment : Segment) (body : Doc)
  | fail (fault : Fault)
deriving DecidableEq, Repr

namespace Doc

instance : Append Doc := ⟨append⟩

def concat (docs : List Doc) : Doc := docs.foldr append empty

/-- Writes a document on a page: the page afterwards, and the fault if it failed. -/
def write : Doc → Page → Page × Option Fault
  | empty, p => (p, none)
  | text s, p => (p.emit s, none)
  | verbatim s, p => (p.verbatim s, none)
  | newline, p => (p.newline, none)
  | comment s, p => (p.comment s, none)
  | append first second, p =>
    match first.write p with
    | (q, none) => second.write q
    | (q, some fault) => (q, some fault)
  | nest body, p => p.indented body.write
  | within segment body, p =>
    let (q, fault) := body.write p
    (q, fault.map (Fault.within segment))
  | fail fault, p => (p, some fault)

/-- The text of a document on an empty page. -/
def render (indent : Indent) (d : Doc) : Except Fault String :=
  match d.write { indent } with
  | (page, none) => .ok page.text
  | (_, some fault) => .error fault

end Doc

end GoSource
