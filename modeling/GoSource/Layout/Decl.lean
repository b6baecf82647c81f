import GoSource.Layout.Type
import GoSource.Model.File

/-!
# Layout of declarations, groups and files

A declaration is the same after its keyword whether it stands alone or in a
group. Only a constant without a value has no layout of its own accord; every
other failure comes from a type.
-/

namespace GoSource

/-- A name, its type and its value, as far as they are there. -/
def bindingDoc (name : String) (type : Option TypeExpr) (value : String) : Doc :=
  .text name ++
    (match type with
      | some t => .text " " ++ .within (.part "Spec") t.layout.full
      | none => .empty) ++
    if value.isEmpty then .empty else .text " = " ++ .text value

/-- The constant after its keyword; it needs a value. -/
def Const.member (c : Const) : Doc :=
  if c.value.isEmpty then .fail (.onPart "Value" (.valuelessConstant c.name))
  else bindingDoc c.name c.type c.value

def Var.member (v : Var) : Doc := bindingDoc v.name v.type v.value

def TypeDecl.member (t : TypeDecl) : Doc := bindingDoc t.name (some t.type) ""

def Import.member (i : Import) : Doc :=
  (if i.localName.isEmpty then .empty else .text i.localName ++ .text " ") ++
    .text (Text.quotePath i.path)

/-- A declaration on its own: its comment, its keyword and what follows that. -/
def declarationDoc {α : Type} [Grouped α] (member : α → Doc) (a : α) : Doc :=
  .comment (Grouped.comment a) ++ .text (Grouped.keyword α) ++ .text " " ++ member a ++ .newline

def Const.doc (c : Const) : Doc := declarationDoc Const.member c

def Var.doc (v : Var) : Doc := declarationDoc Var.member v

def TypeDecl.doc (t : TypeDecl) : Doc := declarationDoc TypeDecl.member t

def Import.doc (i : Import) : Doc := declarationDoc Import.member i

def FuncDecl.doc (f : FuncDecl) : Doc :=
  .comment f.comment ++ .text "func " ++
    (match f.receiver with
      | some r => .text "(" ++ .within (.part "Related") r.layout.typed ++ .text ") "
      | none => .empty) ++
    .text f.name ++ .within (.part "Spec") f.signature.doc ++ .text " \x7b" ++ .newline ++
    .verbatim f.content ++
    (if f.content.isEmpty || f.content.toList.getLast? == some '\n' then .empty else .newline) ++
    .text "\x7d" ++ .newline

/-- The elements of a group in parentheses, each on its lines. -/
def Group.itemDocs {α : Type} [Grouped α] (member : α → Doc) (index : Nat) : List α → List Doc
  | [] => []
  | a :: as =>
    (.comment (Grouped.comment a) ++ .within (.item (Grouped.plural α) index) (member a) ++
      .newline) :: itemDocs member (index + 1) as

/-- A group: one declaration if it holds a single one without a comment, and
otherwise all in parentheses. -/
def Group.doc {α : Type} [Grouped α] (member : α → Doc) (g : Group α) : Doc :=
  .comment g.comment ++
    match g.only? with
    | some a => declarationDoc member a
    | none =>
      .text (Grouped.keyword α) ++ .text " (" ++ .newline ++
        .nest (Doc.concat (itemDocs member 0 g.items)) ++ .text ")" ++ .newline

/-- The groups that hold something, in order. -/
def Group.docs {α : Type} [Grouped α] (member : α → Doc) (gs : List (Group α)) : List Doc :=
  (gs.filter (!·.items.isEmpty)).map (Group.doc member)

/-- The sections of a file, in order. -/
def File.sections (f : File) : List Doc :=
  Group.docs Import.member f.imports ++ Group.docs Const.member f.consts ++
    Group.docs Var.member f.vars ++ Group.docs TypeDecl.member f.types ++
    f.funcs.map FuncDecl.doc

/-- A file: its content if it has one, and otherwise the package clause and the
sections, with an empty line before each. -/
def File.doc (f : File) : Doc :=
  if f.content.isEmpty then
    .comment f.comment ++ .text "package " ++ .text f.package ++ .newline ++
      Doc.concat (f.sections.map (.newline ++ ·))
  else .verbatim f.content

end GoSource
