import GoSource.Fault

/-!
# Annotations

Metadata that a node carries without the library looking inside: a name, a
payload of the tool that wrote it, and what that tool holds against it.
-/

namespace GoSource

/-- What an annotation holds. -/
inductive Payload where
  | text (value : String)
  | number (value : Int)
deriving DecidableEq, Repr

namespace Payload

def text? : Payload → Option String
  | text value => some value
  | number _ => none

def number? : Payload → Option Int
  | text _ => none
  | number value => some value

end Payload

/-- A named payload. -/
structure AnnotationEntry where
  name : String
  payload : Payload
  /-- Why the annotation is invalid, if it is. -/
  complaint : Option String := none
deriving DecidableEq, Repr

/-- The annotations of a node, in the order in which they were written. -/
abbrev Annotations := List AnnotationEntry

namespace Annotations

/-- The first annotation of that name. -/
def named? (as : Annotations) (name : String) : Option AnnotationEntry := as.find? (·.name == name)

/-- The first annotation whose payload `pick` accepts, with what it picks. -/
def first? {α : Type} (as : Annotations) (pick : Payload → Option α) :
    Option (AnnotationEntry × α) :=
  as.findSome? fun a => (pick a.payload).map (a, ·)

/-- Refuses at the first annotation with a complaint. -/
def validateFrom (index : Nat) : Annotations → Verdict
  | [] => .ok ()
  | a :: as =>
    match a.complaint with
    | some complaint =>
      .error (.invariant [.item "Annotations" index] (.annotationComplaint a.name complaint))
    | none => validateFrom (index + 1) as

def validate (as : Annotations) : Verdict := validateFrom 0 as

end Annotations

end GoSource
