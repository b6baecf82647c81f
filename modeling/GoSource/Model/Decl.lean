import GoSource.Check.Literal
import GoSource.Model.TypeExpr
import GoSource.Name

/-!
# Declarations

Constants, variables, types, functions and imports. A declaration keeps free text
(an initializer, a function body) as it was given.
-/

namespace GoSource

/-- `const name type = value`. -/
structure Const where
  name : String
  comment : String := ""
  annotations : Annotations := []
  type : Option TypeExpr := none
  /-- The initializer; a constant without one cannot be laid out. -/
  value : String := ""
deriving DecidableEq

/-- `var name type = value`, of which the type or the value may be left out. -/
structure Var where
  name : String
  comment : String := ""
  annotations : Annotations := []
  type : Option TypeExpr := none
  value : String := ""
deriving DecidableEq

/-- `type name type`. -/
structure TypeDecl where
  name : String
  comment : String := ""
  annotations : Annotations := []
  type : TypeExpr
deriving DecidableEq

/-- A function, or a method if it has a receiver. -/
structure FuncDecl where
  name : String
  comment : String := ""
  annotations : Annotations := []
  signature : Signature
  receiver : Option Field := none
  /-- The statements, without the braces around them. -/
  content : String := ""
deriving DecidableEq

/-- `import name "path"`. -/
structure Import where
  /-- The local name; empty if the path's last segment serves. -/
  localName : String := ""
  path : String
  comment : String := ""
  annotations : Annotations := []
deriving DecidableEq

/-- The type that an initializer gives to a declaration without one: only string,
integer and float literals give one. -/
def inferredType? (value : String) : Option TypeExpr :=
  match Literal.ofText? value with
  | some .string => some (.named ⟨"", "string", false⟩)
  | some .int => some (.named ⟨"", "int", false⟩)
  | some .float => some (.named ⟨"", "float64", false⟩)
  | _ => none

/-- The declared type, or the one that the value implies. -/
def Const.defaultType? (c : Const) : Option TypeExpr := c.type <|> inferredType? c.value

/-- The declared type, or the one that the value implies. -/
def Var.defaultType? (v : Var) : Option TypeExpr := v.type <|> inferredType? v.value

namespace Import

/-- The name by which code refers to the import. -/
def realAlias (i : Import) : String :=
  if i.localName.isEmpty then lastSegment i.path else i.localName

/-- Agreement on local name, path and comment, whatever the annotations. -/
def same (i j : Import) : Bool :=
  i.localName == j.localName && i.path == j.path && i.comment == j.comment

end Import

end GoSource
