import GoSource.Model.TypeExpr
import GoSource.Name

/-!
# Validity of types

A verdict names the first broken rule in the order in which a reader meets the
parts of a type. No rule looks at free text, so no checker is asked.
-/

namespace GoSource

/-- A text that may not be left out. -/
def requireText (part value : String) : Verdict :=
  Verdict.require (!value.isEmpty) (.onPart part .required)

/-- An identifier, or nothing. -/
def optionalName (part value : String) : Verdict :=
  Verdict.require (value.isEmpty || isIdentifier value) (.onPart part (.notIdentifier value))

/-- An identifier that may not be left out. -/
def requireName (part value : String) : Verdict := do
  requireText part value
  optionalName part value

def NamedType.validate (t : NamedType) : Verdict := do
  requireName "TypeName" t.name
  optionalName "PackageName" t.package

/-- The place that a field has in its type. -/
inductive Place where
  | structField
  | interfaceMember
  | param
  | result
deriving DecidableEq, Repr

namespace Place

/-- What a path calls the list of such fields. -/
def list : Place → String
  | structField | interfaceMember => "Fields"
  | param => "Params"
  | result => "Results"

/-- The rule of the place for the field that stands there: a struct embeds named
types only, an interface holds methods and embeds named types. -/
def rule : Place → Field → Verdict
  | structField, f =>
    Verdict.require (f.isNamed || f.type.named?.isSome)
      (.onPart "Spec" (.embeddedField f.type.kindName))
  | interfaceMember, f =>
    match f.type, f.isNamed with
    | .named t, false => Verdict.require (!t.pointer) (.onPart "Spec" .embeddedPointer)
    | .func _, true => .ok ()
    | .func _, false => .error (.onPart "Name" .unnamedMethod)
    | t, false => .error (.onPart "Spec" (.embeddedMember t.kindName))
    | t, true => .error (.onPart "Spec" (.methodType t.kindName))
  | param, _ | result, _ => .ok ()

end Place

/-- An array has a length or takes it from the literal, not both. -/
def checkLength (length : Int) (ellipsis : Bool) : Verdict := do
  Verdict.require (0 ≤ length) (.onPart "Length" (.negativeLength length))
  Verdict.require (!(0 < length && ellipsis)) (.onPart "IsEllipsis" (.ellipsisWithLength length))

/-- The last parameter of a variadic function is a slice. -/
def checkVariadic (params : List Field) : Verdict :=
  match params.getLast? with
  | none => .error (.onPart "IsVariadic" .variadicWithoutParams)
  | some last =>
    let path := [.item "Params" (params.length - 1), .part "Spec"]
    match last.type with
    | .array _ length ellipsis =>
      Verdict.require last.type.isSlice (.invariant path (.variadicLength length ellipsis))
    | t => .error (.invariant path (.variadicType t.kindName))

/-- Results are all named or all unnamed. -/
def checkResults (results : List Field) : Verdict :=
  Verdict.require (results.all (·.isNamed) || results.all (!·.isNamed))
    (.onPart "Results" .mixedResults)

mutual

/-- The first rule that a type breaks. -/
def TypeExpr.validate : TypeExpr → Verdict
  | .named type => type.validate
  | .array element length ellipsis => do
    checkLength length ellipsis
    Verdict.within (.part "Value") element.validate
  | .map key value => do
    Verdict.within (.part "Key") key.validate
    Verdict.within (.part "Value") value.validate
  | .struct fields => Field.validateAll .structField 0 fields
  | .interface members => Field.validateAll .interfaceMember 0 members
  | .func signature => signature.validate
  | .foreign kind _ => .error (.onPart "Spec" (.foreignType kind))
termination_by structural t => t

def Field.validate : Field → Verdict
  | ⟨name, _, _, annotations, type⟩ => do
    optionalName "Name" name
    annotations.validate
    Verdict.within (.part "Spec") type.validate
termination_by structural f => f

/-- The fields of one place in turn; `index` is that of the first one. -/
def Field.validateAll (place : Place) (index : Nat) : List Field → Verdict
  | [] => .ok ()
  | f :: fs => do
    Verdict.within (.item place.list index) do
      place.rule f
      f.validate
    Field.validateAll place (index + 1) fs
termination_by structural fs => fs

def Signature.validate : Signature → Verdict
  | ⟨params, results, variadic⟩ => do
    Field.validateAll .param 0 params
    Field.validateAll .result 0 results
    if variadic then checkVariadic params
    checkResults results
termination_by structural s => s

end

end GoSource
