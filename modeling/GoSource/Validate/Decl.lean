import GoSource.Check.Checker
import GoSource.Model.File
import GoSource.Validate.Type

/-!
# Validity of declarations and files

Free text goes through the checker; text that is left out is never asked about.
-/

namespace GoSource

/-- A judgement on free text that may be left out. -/
def checkText (judge : String → Except Diagnostic Unit) (text : String) : Verdict :=
  if text.isEmpty then .ok () else Verdict.ofText (judge text)

def Const.validate (checker : Checker) (c : Const) : Verdict := do
  requireName "Name" c.name
  c.annotations.validate
  match c.type with
  | some t =>
    Verdict.require (!t.isPointer) (.onPart "Spec" .pointerConstant)
    Verdict.within (.part "Spec") t.validate
  | none => pure ()
  checkText checker.expression c.value

def Var.validate (checker : Checker) (v : Var) : Verdict := do
  requireName "Name" v.name
  v.annotations.validate
  match v.type with
  | some t => Verdict.within (.part "Spec") t.validate
  | none => Verdict.require (!v.value.isEmpty) (.onPart "Spec" (.bareVariable v.name))
  checkText checker.expression v.value

def TypeDecl.validate (t : TypeDecl) : Verdict := do
  requireName "Name" t.name
  t.annotations.validate
  Verdict.within (.part "Spec") t.type.validate

/-- A receiver is a type of the package itself, referred to by name. -/
def checkReceiver (receiver : Field) : Verdict :=
  match receiver.type with
  | .named t =>
    Verdict.require (!t.isQualified)
      (.invariant [.part "Spec", .part "PackageName"] (.qualifiedReceiver t.package t.name))
  | t => .error (.onPart "Spec" (.receiverType t.kindName))

def FuncDecl.validate (checker : Checker) (f : FuncDecl) : Verdict := do
  requireName "Name" f.name
  f.annotations.validate
  match f.receiver with
  | some r =>
    Verdict.within (.part "Related") do
      checkReceiver r
      r.validate
  | none => pure ()
  Verdict.within (.part "Spec") f.signature.validate
  checkText checker.body f.content

def Import.validate (i : Import) : Verdict := do
  optionalName "Alias" i.localName
  requireText "Namespace" i.path
  i.annotations.validate

/-- The elements of a group in turn. -/
def Group.validate {α : Type} [Grouped α] (check : α → Verdict) (g : Group α) : Verdict :=
  Verdict.each (Grouped.plural α) check g.items

def File.validate (checker : Checker) (f : File) : Verdict :=
  Verdict.within (.node "File" f.name) do
    requireText "Name" f.name
    requireName "PackageName" f.package
    f.annotations.validate
    checkText checker.file f.content
    Verdict.each "ImportGroups" (Group.validate Import.validate) f.imports
    Verdict.each "ConstGroups" (Group.validate (Const.validate checker)) f.consts
    Verdict.each "VarGroups" (Group.validate (Var.validate checker)) f.vars
    Verdict.each "TypeGroups" (Group.validate TypeDecl.validate) f.types
    Verdict.each "Funcs" (FuncDecl.validate checker) f.funcs

end GoSource
