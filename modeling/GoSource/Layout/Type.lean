import GoSource.Layout.Doc
import GoSource.Model.TypeExpr
import GoSource.Text.Quoted

/-!
# Layout of types

A function type is written with the keyword where a type is expected and without
it after the name of a method, so a type has two layouts. The elements of an
array are kept apart as well: a variadic parameter shows only them.
-/

namespace GoSource

/-- The layouts of a type. -/
structure TypeLayout where
  /-- Without the keyword of a function type. -/
  bare : Doc
  /-- In a place where a type is expected. -/
  full : Doc
  /-- The elements, if the type is an array or a slice. -/
  element? : Option Doc

def TypeLayout.plain (d : Doc) : TypeLayout := ⟨d, d, none⟩

/-- A field with the layouts of its type. -/
structure MemberLayout where
  field : Field
  type : TypeLayout

def NamedType.doc (t : NamedType) : Doc :=
  .text (if t.pointer then "*" else "") ++
    (if t.isQualified then .text t.package ++ .text "." else .empty) ++ .text t.name

/-- The brackets before the elements of an array. -/
def brackets (length : Int) (ellipsis : Bool) : String :=
  if ellipsis then "[...]" else if 0 < length then s!"[{length}]" else "[]"

namespace MemberLayout

/-- The name, if there is one, and the type. -/
def typed (m : MemberLayout) : Doc :=
  (if m.field.isNamed then .text m.field.name ++ .text " " else .empty) ++ m.type.full

/-- The last parameter of a variadic function. -/
def spread (m : MemberLayout) : Doc :=
  (if m.field.isNamed then .text m.field.name ++ .text " " else .empty) ++
    match m.type.element? with
    | some element => .text "..." ++ element
    | none => .fail (.onPart "Spec" (.variadicSpread m.field.type.kindName))

/-- A field of a struct: comment, name, type and tag. -/
def structField (m : MemberLayout) : Doc :=
  .comment m.field.comment ++ m.typed ++
    if m.field.tag.isEmpty then .empty else .text " " ++ .text (Text.quoteTag m.field.tag)

/-- A member of an interface: comment, name and what follows it without a keyword. -/
def interfaceMember (m : MemberLayout) : Doc :=
  .comment m.field.comment ++ .text m.field.name ++ m.type.bare

/-- Lines in braces after a keyword, one for each document. -/
def braced (keyword : String) (lines : List Doc) : Doc :=
  if lines.isEmpty then .text (keyword ++ "\x7b\x7d")
  else .text (keyword ++ " \x7b") ++ .newline ++
    .nest (Doc.concat (lines.map (· ++ .newline))) ++ .text "\x7d"

/-- Parameters or results, each as it is written in the list. -/
def entries (variadic : Bool) : List MemberLayout → List Doc
  | [] => []
  | [m] => [if variadic then m.spread else m.typed]
  | m :: ms => m.typed :: entries variadic ms

/-- Documents with a comma and a space between them. -/
def separated : List Doc → Doc
  | [] => .empty
  | [d] => d
  | d :: ds => d ++ .text ", " ++ separated ds

/-- Parameters or results: in one line, or one a line as soon as one has a comment. -/
def listed (variadic : Bool) (ms : List MemberLayout) : Doc :=
  if ms.all (·.field.comment.isEmpty) then separated (entries variadic ms)
  else .newline ++ .nest (Doc.concat
    ((ms.zip (entries variadic ms)).map fun (m, d) =>
      .comment m.field.comment ++ d ++ .text "," ++ .newline))

/-- A parameter list and, if there are results, a result list. -/
def signature (variadic : Bool) (params results : List MemberLayout) : Doc :=
  .text "(" ++ listed variadic params ++ .text ")" ++
    if results.isEmpty then .empty else .text " (" ++ listed false results ++ .text ")"

end MemberLayout

mutual

/-- The layouts of a type; a foreign type has none. -/
def TypeExpr.layout : TypeExpr → TypeLayout
  | .named type => .plain type.doc
  | .array element length ellipsis =>
    let elements := element.layout.full
    let doc := .text (brackets length ellipsis) ++ elements
    ⟨doc, doc, some elements⟩
  | .map key value =>
    .plain (.text "map[" ++ key.layout.full ++ .text "]" ++ value.layout.full)
  | .struct fields =>
    .plain (MemberLayout.braced "struct" ((Field.layouts fields).map (·.structField)))
  | .interface members =>
    .plain (MemberLayout.braced "interface" ((Field.layouts members).map (·.interfaceMember)))
  | .func signature =>
    let doc := signature.doc
    ⟨doc, .text "func " ++ doc, none⟩
  | .foreign kind _ => .plain (.fail (.onPart "Spec" (.foreignType kind)))
termination_by structural t => t

def Field.layout : Field → MemberLayout
  | ⟨name, tag, comment, annotations, type⟩ =>
    ⟨⟨name, tag, comment, annotations, type⟩, type.layout⟩
termination_by structural f => f

def Field.layouts : List Field → List MemberLayout
  | [] => []
  | f :: fs => f.layout :: Field.layouts fs
termination_by structural fs => fs

/-- Parameters and results, without the keyword before them. -/
def Signature.doc : Signature → Doc
  | ⟨params, results, variadic⟩ =>
    MemberLayout.signature variadic (Field.layouts params) (Field.layouts results)
termination_by structural s => s

end

/-- A type on its own, a function type without its keyword. -/
def TypeExpr.doc (t : TypeExpr) : Doc := t.layout.bare

/-- A field on its own, laid out as in a struct. -/
def Field.doc (f : Field) : Doc := f.layout.structField

end GoSource
