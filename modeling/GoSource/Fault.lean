import GoSource.Diagnostic

/-!
# Faults

Why a tree is refused. A fault of the tree names the rule it breaks and the path
to the place; the path grows from the inside out while the fault is passed up.
Free text and arguments are refused without a path.
-/

namespace GoSource

/-- A step of a path. -/
inductive Segment where
  /-- A part that its owner has once. -/
  | part (name : String)
  /-- An element of a list. -/
  | item (list : String) (index : Nat)
  /-- A node that is told apart by its own name. -/
  | node (kind name : String)
deriving DecidableEq, Repr

def Segment.text : Segment → String
  | part name => name
  | item list index => s!"{list}[{index}]"
  | node kind name => s!"{kind}({name})"

/-- The rules that a tree or an argument can break. -/
inductive Violation where
  | required
  | notIdentifier (value : String)
  | emptyKey
  | annotationComplaint (name complaint : String)
  | foreignType (kind : String)
  | negativeLength (length : Int)
  | ellipsisWithLength (length : Int)
  | embeddedField (kind : String)
  | embeddedPointer
  | unnamedMethod
  | embeddedMember (kind : String)
  | methodType (kind : String)
  | variadicWithoutParams
  | variadicLength (length : Int) (ellipsis : Bool)
  | variadicType (kind : String)
  | variadicSpread (kind : String)
  | mixedResults
  | pointerConstant
  | valuelessConstant (name : String)
  | bareVariable (name : String)
  | qualifiedReceiver (package name : String)
  | receiverType (kind : String)
  | relativePath (path : String)
  | ignoredFiles (count : Nat)
  | duplicateFile (name : String)
  | otherPackage (found expected : String)
  | duplicateName (name : String)
  | duplicatePath (path : String)
  /-- A rule of the caller's own. -/
  | stated (wording : String)
deriving DecidableEq, Repr

/-- The wording of a broken rule. -/
def Violation.message : Violation → String
  | required => "is required"
  | notIdentifier value => s!"`{value}` is not a valid identifier"
  | emptyKey => "must not be empty"
  | annotationComplaint name complaint => s!"{name}: {complaint}"
  | foreignType kind => s!"invalid type {kind}"
  | negativeLength length => s!"must not be negative, got {length}"
  | ellipsisWithLength length => s!"cannot be set together with Length {length}"
  | embeddedField kind => s!"embedded field must be a SimpleSpec, got {kind}"
  | embeddedPointer => "embedded interface must not be a pointer"
  | unnamedMethod => "method requires a name"
  | embeddedMember kind => s!"embedded interface must be a SimpleSpec, got {kind}"
  | methodType kind => s!"method must be a FuncSpec, got {kind}"
  | variadicWithoutParams => "requires at least one parameter"
  | variadicLength length ellipsis =>
    s!"variadic parameter must be a slice, got length {length} ellipsis {ellipsis}"
  | variadicType kind => s!"variadic parameter must be an ArraySpec, got {kind}"
  | variadicSpread kind => s!"variadic parameter must be a slice, got {kind}"
  | mixedResults => "must be all named or all unnamed"
  | pointerConstant => "constant cannot be a pointer"
  | valuelessConstant name => s!"constant {name} has no value"
  | bareVariable name => s!"variable {name} needs a type or a value"
  | qualifiedReceiver package name =>
    s!"receiver type must be declared locally, got {package}.{name}"
  | receiverType kind => s!"receiver must be a SimpleSpec, got {kind}"
  | relativePath path => s!"`{path}` is not absolute"
  | ignoredFiles count => s!"ignored namespace holds {count} files"
  | duplicateFile name => s!"duplicate file name {name}"
  | otherPackage found expected => s!"{found} differs from {expected}"
  | duplicateName name => s!"duplicate namespace name {name}"
  | duplicatePath path => s!"duplicate namespace path {path}"
  | stated wording => wording

/-- Why an operation on a tree is refused. -/
inductive Fault where
  /-- A rule is broken at the end of the path, which starts at the outermost node. -/
  | invariant (path : List Segment) (violation : Violation)
  /-- An argument of the operation is unfit. -/
  | argument (name : String) (violation : Violation)
  /-- Free text does not pass its check. -/
  | syntactic (diagnostic : Diagnostic)
deriving DecidableEq, Repr

namespace Fault

/-- A broken rule at a part of the node itself. -/
def onPart (part : String) (violation : Violation) : Fault := .invariant [.part part] violation

/-- The fault as seen from the node that holds `segment`; only broken rules have a path. -/
def within (segment : Segment) : Fault → Fault
  | invariant path violation => invariant (segment :: path) violation
  | fault => fault

def message : Fault → String
  | invariant path violation =>
    ".".intercalate (path.map Segment.text) ++ ": " ++ violation.message
  | argument name violation => s!"invalid argument `{name}`: {violation.message}"
  | syntactic diagnostic => diagnostic.message

end Fault

/-- The outcome of a check: nothing, or the first fault. -/
abbrev Verdict := Except Fault Unit

namespace Verdict

/-- A verdict as seen from the node that holds `segment`. -/
def within (segment : Segment) (v : Verdict) : Verdict := v.mapError (Fault.within segment)

/-- Refuses with `fault` unless the condition holds. -/
def require (condition : Bool) (fault : Fault) : Verdict :=
  if condition then .ok () else .error fault

/-- A judgement on free text as a verdict on the node that holds it. -/
def ofText (judgement : Except Diagnostic Unit) : Verdict := judgement.mapError Fault.syntactic

/-- Checks the elements of a list in turn; `index` is that of the first one. -/
def eachFrom {α : Type} (list : String) (check : α → Verdict) (index : Nat) : List α → Verdict
  | [] => .ok ()
  | a :: as => do
    within (.item list index) (check a)
    eachFrom list check (index + 1) as

/-- Checks the elements of a list in turn and names the one that fails by its place. -/
def each {α : Type} (list : String) (check : α → Verdict) (as : List α) : Verdict :=
  eachFrom list check 0 as

end Verdict

end GoSource
