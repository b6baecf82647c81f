import GoSource.Model.Package
import GoSource.Validate.Decl

/-!
# Validity of packages and workspaces

Names are distinct among the files of a package and among the packages of a
workspace, directories among the packages. A repetition is found at the later of
the two places, before the rules of what stands there in a package, and after
them in a workspace.
-/

namespace GoSource

/-- A directory is given from the root. -/
def isAbsolute (path : String) : Bool := path.toList.head? == some '/'

/-- The files after `earlier` ones, which all declare the package `expected`. -/
def Package.validateFiles (checker : Checker) (expected : String) (earlier : List File) :
    List File → Verdict
  | [] => .ok ()
  | f :: fs => do
    let file := .item "Files" earlier.length
    Verdict.require (earlier.all (·.name != f.name))
      (.invariant [file, .part "Name"] (.duplicateFile f.name))
    Verdict.require (f.package == expected)
      (.invariant [file, .part "PackageName"] (.otherPackage f.package expected))
    f.validate checker
    validateFiles checker expected (earlier ++ [f]) fs

def Package.validate (checker : Checker) (p : Package) : Verdict :=
  Verdict.within (.node "Namespace" p.name) do
    requireText "Name" p.name
    requireText "Path" p.path
    Verdict.require (isAbsolute p.path) (.onPart "Path" (.relativePath p.path))
    Verdict.require (!p.ignored || p.files.isEmpty)
      (.onPart "IsIgnored" (.ignoredFiles p.files.length))
    Package.validateFiles checker p.declaredName [] p.files

/-- The packages after `earlier` ones. -/
def Workspace.validatePackages (checker : Checker) (earlier : List Package) :
    List Package → Verdict
  | [] => .ok ()
  | p :: ps => do
    p.validate checker
    let package := .item "Namespaces" earlier.length
    Verdict.require (earlier.all (·.name != p.name))
      (.invariant [package, .part "Name"] (.duplicateName p.name))
    Verdict.require (earlier.all (·.path != p.path))
      (.invariant [package, .part "Path"] (.duplicatePath p.path))
    validatePackages checker (earlier ++ [p]) ps

def Workspace.validate (checker : Checker) (w : Workspace) : Verdict :=
  Workspace.validatePackages checker [] w.packages

end GoSource
