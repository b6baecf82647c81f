import GoSource.Model.Decl

/-!
# Groups

Declarations of one sort that share a keyword and a leading comment.
-/

namespace GoSource

/-- Declarations of one sort under one comment. -/
structure Group (α : Type) where
  comment : String := ""
  items : List α := []
deriving DecidableEq

/-- The sorts of declarations that can be grouped. -/
class Grouped (α : Type) where
  /-- The keyword that introduces the declaration. -/
  keyword : String
  /-- What a path calls the elements of a group. -/
  plural : String
  comment : α → String

instance : Grouped Const := ⟨"const", "Consts", Const.comment⟩

instance : Grouped Var := ⟨"var", "Vars", Var.comment⟩

instance : Grouped TypeDecl := ⟨"type", "Types", TypeDecl.comment⟩

instance : Grouped Import := ⟨"import", "Imports", Import.comment⟩

namespace Group

variable {α : Type}

/-- The one element of a group that is laid out without parentheses: the only
one, and without a comment of its own. -/
def only? [Grouped α] (g : Group α) : Option α :=
  match g.items with
  | [a] => if (Grouped.comment a).isEmpty then some a else none
  | _ => none

def push (g : Group α) (a : α) : Group α := { g with items := g.items ++ [a] }

end Group

end GoSource
