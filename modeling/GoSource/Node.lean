import GoSource.Imports.Mention
import GoSource.Imports.Renaming
import GoSource.Layout.Decl
import GoSource.Validate.Decl

/-!
# Nodes

Every sort of tree that can be validated, laid out, searched for imports and
renamed, with these four operations on it.
-/

namespace GoSource

/-- A file or any part of one. -/
inductive Node where
  | type (t : TypeExpr)
  | field (f : Field)
  | const (c : Const)
  | var (v : Var)
  | typeDecl (t : TypeDecl)
  | func (f : FuncDecl)
  | importDecl (i : Import)
  | constGroup (g : Group Const)
  | varGroup (g : Group Var)
  | typeGroup (g : Group TypeDecl)
  | importGroup (g : Group Import)
  | file (f : File)
deriving DecidableEq

namespace Node

/-- The first rule that the node or something below it breaks. -/
def validate (checker : Checker) : Node → Verdict
  | type t => t.validate
  | field f => f.validate
  | const c => c.validate checker
  | var v => v.validate checker
  | typeDecl t => t.validate
  | func f => f.validate checker
  | importDecl i => i.validate
  | constGroup g => g.validate (Const.validate checker)
  | varGroup g => g.validate (Var.validate checker)
  | typeGroup g => g.validate TypeDecl.validate
  | importGroup g => g.validate Import.validate
  | file f => f.validate checker

/-- The layout of the node. -/
def doc : Node → Doc
  | type t => t.doc
  | field f => f.doc
  | const c => c.doc
  | var v => v.doc
  | typeDecl t => t.doc
  | func f => f.doc
  | importDecl i => i.doc
  | constGroup g => g.doc Const.member
  | varGroup g => g.doc Var.member
  | typeGroup g => g.doc TypeDecl.member
  | importGroup g => g.doc Import.member
  | file f => f.doc

/-- The text of the node on a page of its own. -/
def render (indent : Indent) (n : Node) : Except Fault String := n.doc.render indent

/-- The places of the node that can refer to an import. -/
def mentions : Node → List Mention
  | type t => t.mentions
  | field f => f.mentions
  | const c => c.mentions
  | var v => v.mentions
  | typeDecl t => t.mentions
  | func f => f.mentions
  | importDecl i => i.mentions
  | constGroup g => g.mentions Const.mentions
  | varGroup g => g.mentions Var.mentions
  | typeGroup g => g.mentions TypeDecl.mentions
  | importGroup g => g.mentions Import.mentions
  | file f => f.mentions

/-- Adds the imports of a file that the node refers to; on a fault, those found
before it. -/
def collectImports (n : Node) (f : File) (found : ImportSet) : ImportSet × Option Fault :=
  collect f.allImports n.mentions found

/-- The imports of a file that the node refers to. -/
def fetchImports (n : Node) (f : File) : Except Fault ImportSet :=
  match n.collectImports f {} with
  | (found, none) => .ok found
  | (_, some fault) => .error fault

/-- The node after a renaming, visited in the order of its mentions. -/
def rename (r : Renaming) : Node → Stoppable Node
  | type t => return type (← t.rename r)
  | field f => return field (← f.rename r)
  | const c => return const (← c.rename r)
  | var v => return var (← v.rename r)
  | typeDecl t => return typeDecl (← t.rename r)
  | func f => return func (← f.rename r)
  | importDecl i => return importDecl (← i.rename r)
  | constGroup g => return constGroup (← g.rename (Const.rename r))
  | varGroup g => return varGroup (← g.rename (Var.rename r))
  | typeGroup g => return typeGroup (← g.rename (TypeDecl.rename r))
  | importGroup g => return importGroup (← g.rename (Import.rename r))
  | file f => return file (← f.rename r)

/-- The node as far as a renaming gets, and the fault that stopped it. -/
def applyRenaming (r : Renaming) (n : Node) : Node × Option Fault := (n.rename r).run none

/-- Renames an alias in the whole node or not at all. -/
def renameImports (old new : String) (n : Node) : Except Fault Node := do
  match n.applyRenaming (← Renaming.make old new) with
  | (renamed, none) => .ok renamed
  | (_, some fault) => .error fault

/-- The node that a renaming leaves behind, and the fault if it was refused. The
renaming works on a copy, which takes the place of the node only if it succeeds. -/
def renameInPlace (old new : String) (n : Node) : Node × Option Fault :=
  match n.renameImports old new with
  | .ok renamed => (renamed, none)
  | .error fault => (n, some fault)

/-- The annotations of the node itself; types and groups carry none. -/
def annotations : Node → Annotations
  | field f => f.annotations
  | const c => c.annotations
  | var v => v.annotations
  | typeDecl t => t.annotations
  | func f => f.annotations
  | importDecl i => i.annotations
  | file f => f.annotations
  | _ => []

/-- The node with other annotations, if it can carry any. -/
def withAnnotations (annotations : Annotations) : Node → Node
  | field f => field { f with annotations }
  | const c => const { c with annotations }
  | var v => var { v with annotations }
  | typeDecl t => typeDecl { t with annotations }
  | func f => func { f with annotations }
  | importDecl i => importDecl { i with annotations }
  | file f => file { f with annotations }
  | n => n

end Node

end GoSource
