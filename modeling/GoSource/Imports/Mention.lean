import GoSource.Imports.ImportSet
import GoSource.Imports.Qualifier
import GoSource.Model.File

/-!
# Mentions of imports

The places of a node that can refer to an import, in the order in which they are
visited, and the imports of a file that they refer to. A foreign type ends the
visit: what was found before it is kept.
-/

namespace GoSource

/-- A place that can refer to an import. -/
inductive Mention where
  /-- The package of a named type. -/
  | package (name : String)
  /-- Free text. -/
  | code (text : String)
  /-- An import by itself. -/
  | whole (entry : Import)
  /-- A type that cannot be looked into. -/
  | foreign (kind : String)
deriving DecidableEq

/-- Whether the place refers to the import. -/
def Mention.refersTo : Mention → Import → Bool
  | package name, i => i.realAlias == name
  | code text, i => Qualifier.references text i.realAlias
  | whole entry, i => i.same entry
  | foreign _, _ => false

mutual

/-- The packages that a type names, keys before values, members in order. -/
def TypeExpr.mentions : TypeExpr → List Mention
  | .named type => if type.isQualified then [.package type.package] else []
  | .array element _ _ => element.mentions
  | .map key value => key.mentions ++ value.mentions
  | .struct fields => Field.mentionsAll fields
  | .interface members => Field.mentionsAll members
  | .func signature => signature.mentions
  | .foreign kind _ => [.foreign kind]
termination_by structural t => t

def Field.mentions : Field → List Mention
  | ⟨_, _, _, _, type⟩ => type.mentions
termination_by structural f => f

def Field.mentionsAll : List Field → List Mention
  | [] => []
  | f :: fs => f.mentions ++ Field.mentionsAll fs
termination_by structural fs => fs

/-- Parameters before results. -/
def Signature.mentions : Signature → List Mention
  | ⟨params, results, _⟩ => Field.mentionsAll params ++ Field.mentionsAll results
termination_by structural s => s

end

@[simp] theorem Field.mentions_eq (f : Field) : f.mentions = f.type.mentions := by
  cases f
  rfl

@[simp] theorem Field.mentionsAll_eq (fs : List Field) :
    Field.mentionsAll fs = fs.flatMap Field.mentions := by
  induction fs with
  | nil => rfl
  | cons f fs ih => rw [Field.mentionsAll, ih, List.flatMap_cons]

@[simp] theorem Signature.mentions_eq (s : Signature) :
    s.mentions = s.params.flatMap Field.mentions ++ s.results.flatMap Field.mentions := by
  cases s
  simp only [Signature.mentions, Field.mentionsAll_eq]

def Const.mentions (c : Const) : List Mention :=
  (c.type.map TypeExpr.mentions).getD [] ++ [.code c.value]

def Var.mentions (v : Var) : List Mention :=
  (v.type.map TypeExpr.mentions).getD [] ++ [.code v.value]

def TypeDecl.mentions (t : TypeDecl) : List Mention := t.type.mentions

def FuncDecl.mentions (f : FuncDecl) : List Mention :=
  (f.receiver.map Field.mentions).getD [] ++ f.signature.mentions ++ [.code f.content]

def Import.mentions (i : Import) : List Mention := [.whole i]

def Group.mentions {α : Type} (mentions : α → List Mention) (g : Group α) : List Mention :=
  g.items.flatMap mentions

/-- The content comes first. The imports of a file are no mentions, since declaring
one is not using it. -/
def File.mentions (f : File) : List Mention :=
  .code f.content :: f.consts.flatMap (Group.mentions Const.mentions) ++
    f.vars.flatMap (Group.mentions Var.mentions) ++
    f.types.flatMap (Group.mentions TypeDecl.mentions) ++ f.funcs.flatMap FuncDecl.mentions

/-- Adds the imports that the mentions refer to, up to the first foreign type. -/
def collect (imports : List Import) : List Mention → ImportSet → ImportSet × Option Fault
  | [], s => (s, none)
  | .foreign kind :: _, s => (s, some (.onPart "Spec" (.foreignType kind)))
  | m :: ms, s => collect imports ms (s.insertAll (imports.filter m.refersTo))

end GoSource
