import GoSource.Imports.Qualifier
import GoSource.Model.File

/-!
# Renaming an alias

One alias takes the place of another in the packages of named types, in the
aliases of imports and in free text. A foreign type stops the work, and what was
renamed before it stays renamed.
-/

namespace GoSource

/-- One identifier to be put for another. -/
structure Renaming where
  old : String
  new : String
  old_isIdentifier : isIdentifier old = true
  new_isIdentifier : isIdentifier new = true

namespace Renaming

/-- A renaming of identifiers; the old one is looked at first. -/
def make (old new : String) : Except Fault Renaming :=
  if hold : isIdentifier old = true then
    if hnew : isIdentifier new = true then .ok ⟨old, new, hold, hnew⟩
    else .error (.argument "new" (.notIdentifier new))
  else .error (.argument "old" (.notIdentifier old))

/-- The package of a named type after the renaming. -/
def name (r : Renaming) (package : String) : String := if package = r.old then r.new else package

/-- Free text after the renaming. -/
def code (r : Renaming) (text : String) : String := Qualifier.substitute text r.old r.new

/-- An import after the renaming: the new alias is written out even if the old one
came from the path. -/
def entry (r : Renaming) (i : Import) : Import :=
  if i.realAlias = r.old then { i with localName := r.new } else i

end Renaming

/-- Work that a fault stops: once there is one, nothing changes any more. -/
abbrev Stoppable := StateM (Option Fault)

namespace Stoppable

/-- Changes a value unless the work has stopped. -/
def change {α : Type} (f : α → α) (a : α) : Stoppable α := do
  if (← get).isSome then pure a else pure (f a)

/-- Stops the work; the first fault counts. -/
def stop (fault : Fault) : Stoppable Unit := modify fun stopped => stopped <|> some fault

end Stoppable

mutual

/-- The type after a renaming, visited in the order of its mentions. -/
def TypeExpr.rename (r : Renaming) : TypeExpr → Stoppable TypeExpr
  | .named type => do
    let package ← Stoppable.change r.name type.package
    return .named { type with package }
  | .array element length ellipsis => return .array (← element.rename r) length ellipsis
  | .map key value => return .map (← key.rename r) (← value.rename r)
  | .struct fields => return .struct (← Field.renameAll r fields)
  | .interface members => return .interface (← Field.renameAll r members)
  | .func signature => return .func (← signature.rename r)
  | .foreign kind data => do
    Stoppable.stop (.onPart "Spec" (.foreignType kind))
    return .foreign kind data
termination_by structural t => t

def Field.rename (r : Renaming) : Field → Stoppable Field
  | ⟨name, tag, comment, annotations, type⟩ =>
    return ⟨name, tag, comment, annotations, ← type.rename r⟩
termination_by structural f => f

def Field.renameAll (r : Renaming) : List Field → Stoppable (List Field)
  | [] => return []
  | f :: fs => return (← f.rename r) :: (← Field.renameAll r fs)
termination_by structural fs => fs

def Signature.rename (r : Renaming) : Signature → Stoppable Signature
  | ⟨params, results, variadic⟩ =>
    return ⟨← Field.renameAll r params, ← Field.renameAll r results, variadic⟩
termination_by structural s => s

end

theorem Field.renameAll_eq (r : Renaming) (fs : List Field) :
    Field.renameAll r fs = fs.mapM (Field.rename r) := by
  induction fs with
  | nil => rfl
  | cons f fs ih => rw [Field.renameAll, ih, List.mapM_cons]

theorem Signature.rename_eq (r : Renaming) (s : Signature) :
    s.rename r = do
      return ⟨← s.params.mapM (Field.rename r), ← s.results.mapM (Field.rename r), s.variadic⟩ := by
  cases s
  simp only [Signature.rename, Field.renameAll_eq]

/-- The part of a node that may be missing. -/
def renameOption {α : Type} (rename : α → Stoppable α) : Option α → Stoppable (Option α)
  | none => return none
  | some a => return some (← rename a)

def Const.rename (r : Renaming) (c : Const) : Stoppable Const := do
  let type ← renameOption (TypeExpr.rename r) c.type
  let value ← Stoppable.change r.code c.value
  return { c with type, value }

def Var.rename (r : Renaming) (v : Var) : Stoppable Var := do
  let type ← renameOption (TypeExpr.rename r) v.type
  let value ← Stoppable.change r.code v.value
  return { v with type, value }

def TypeDecl.rename (r : Renaming) (t : TypeDecl) : Stoppable TypeDecl := do
  let type ← t.type.rename r
  return { t with type }

def FuncDecl.rename (r : Renaming) (f : FuncDecl) : Stoppable FuncDecl := do
  let receiver ← renameOption (Field.rename r) f.receiver
  let signature ← f.signature.rename r
  let content ← Stoppable.change r.code f.content
  return { f with receiver, signature, content }

def Import.rename (r : Renaming) (i : Import) : Stoppable Import := Stoppable.change r.entry i

def Group.rename {α : Type} (rename : α → Stoppable α) (g : Group α) : Stoppable (Group α) := do
  let items ← g.items.mapM rename
  return { g with items }

/-- The content comes first, then the declarations in the order of the layout. -/
def File.rename (r : Renaming) (f : File) : Stoppable File := do
  let content ← Stoppable.change r.code f.content
  let imports ← f.imports.mapM (Group.rename (Import.rename r))
  let consts ← f.consts.mapM (Group.rename (Const.rename r))
  let vars ← f.vars.mapM (Group.rename (Var.rename r))
  let types ← f.types.mapM (Group.rename (TypeDecl.rename r))
  let funcs ← f.funcs.mapM (FuncDecl.rename r)
  return { f with content, imports, consts, vars, types, funcs }

end GoSource
