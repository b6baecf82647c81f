import GoSource.Model.File

/-!
# Packages and workspaces

A package is the files of one directory, a workspace is a list of packages.
Files and packages are found by name; the first match counts, and an empty key
is an error of the caller.
-/

namespace GoSource

/-- The files that share one package. -/
structure Package where
  /-- The import path. -/
  name : String
  /-- The directory. -/
  path : String
  /-- Left out of generation, and so without files. -/
  ignored : Bool := false
  files : List File := []
deriving DecidableEq

/-- All packages that are worked on together. -/
structure Workspace where
  packages : List Package := []
deriving DecidableEq

/-- Applies `f` to the first element that satisfies `p`. -/
def modifyFirst {α : Type} (p : α → Bool) (f : α → α) : List α → List α
  | [] => []
  | a :: as => if p a then f a :: as else a :: modifyFirst p f as

/-- A key to look something up by may not be empty. -/
def requireKey (argument key : String) : Verdict :=
  Verdict.require (!key.isEmpty) (.argument argument .emptyKey)

namespace Package

/-- The package name that the files declare; without files, the last segment of
the import path. -/
def declaredName (p : Package) : String :=
  match p.files with
  | f :: _ => f.package
  | [] => lastSegment p.name

/-- The first file of that name. -/
def file? (p : Package) (name : String) : Except Fault (Option File) := do
  requireKey "name" name
  pure (p.files.find? (·.name == name))

/-- Changes the first file of that name, if there is one. -/
def modifyFile (p : Package) (name : String) (f : File → File) : Except Fault Package := do
  requireKey "name" name
  pure { p with files := modifyFirst (·.name == name) f p.files }

def pushFile (p : Package) (f : File) : Package := { p with files := p.files ++ [f] }

end Package

namespace Workspace

/-- The first package of that name. -/
def package? (w : Workspace) (name : String) : Except Fault (Option Package) := do
  requireKey "name" name
  pure (w.packages.find? (·.name == name))

/-- The first package in that directory. -/
def packageAt? (w : Workspace) (path : String) : Except Fault (Option Package) := do
  requireKey "path" path
  pure (w.packages.find? (·.path == path))

/-- Changes the first package of that name, if there is one. -/
def modifyPackage (w : Workspace) (name : String) (f : Package → Package) :
    Except Fault Workspace := do
  requireKey "name" name
  pure { w with packages := modifyFirst (·.name == name) f w.packages }

def pushPackage (w : Workspace) (p : Package) : Workspace :=
  { w with packages := w.packages ++ [p] }

end Workspace

end GoSource
