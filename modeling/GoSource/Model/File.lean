import GoSource.Model.Group

/-!
# Files

The declarations of a file in the order in which they are laid out. A file with
content of its own is that text, and its declarations are not laid out.
-/

namespace GoSource

/-- A source file. -/
structure File where
  name : String
  package : String
  content : String := ""
  comment : String := ""
  annotations : Annotations := []
  imports : List (Group Import) := []
  consts : List (Group Const) := []
  vars : List (Group Var) := []
  types : List (Group TypeDecl) := []
  funcs : List FuncDecl := []
deriving DecidableEq

namespace File

/-- The imports of all groups, in order. -/
def allImports (f : File) : List Import := f.imports.flatMap (·.items)

/-- The first function of that name. -/
def func? (f : File) (name : String) : Option FuncDecl := f.funcs.find? (·.name == name)

/-- The first type declared under that name. -/
def type? (f : File) (name : String) : Option TypeDecl :=
  (f.types.flatMap (·.items)).find? (·.name == name)

def pushFunc (f : File) (func : FuncDecl) : File := { f with funcs := f.funcs ++ [func] }

end File

end GoSource
