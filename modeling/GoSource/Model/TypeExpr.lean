import GoSource.Model.Annotations

/-!
# Type expressions

Types as Go source writes them, and the fields that structs, interfaces and
signatures are made of. Equality is structural, annotations included.
-/

namespace GoSource

/-- A type referred to by name, such as `*pkg.Name`. -/
structure NamedType where
  /-- Alias of the package that declares it; empty for local and builtin types. -/
  package : String := ""
  name : String
  pointer : Bool := false
deriving DecidableEq, Repr

def NamedType.isQualified (t : NamedType) : Bool := !t.package.isEmpty

mutual

/-- A type as the source writes it. -/
inductive TypeExpr where
  | named (type : NamedType)
  /-- A slice if the length is zero and not left to the literal by an ellipsis. -/
  | array (element : TypeExpr) (length : Int) (ellipsis : Bool)
  | map (key value : TypeExpr)
  | struct (fields : List Field)
  | interface (members : List Field)
  | func (signature : Signature)
  /-- A shape from outside the model, known by the name of its kind. -/
  | foreign (kind data : String)

/-- A field of a struct, a member of an interface, a parameter, a result or a receiver. -/
structure Field where
  /-- Empty for embedded types and unnamed parameters. -/
  name : String
  /-- The tag of a struct field, without quotes. -/
  tag : String
  comment : String
  annotations : Annotations
  type : TypeExpr

/-- Parameters and results of a function. -/
structure Signature where
  params : List Field
  results : List Field
  /-- The last parameter takes any number of arguments. -/
  variadic : Bool

end

instance : Inhabited TypeExpr := ⟨.struct []⟩

instance : Inhabited Field := ⟨⟨"", "", "", [], default⟩⟩

instance : Inhabited Signature := ⟨⟨[], [], false⟩⟩

namespace TypeExpr

/-- What messages call the type. -/
def kindName : TypeExpr → String
  | named _ => "SimpleSpec"
  | array _ _ _ => "ArraySpec"
  | map _ _ => "MapSpec"
  | struct _ => "StructSpec"
  | interface _ => "InterfaceSpec"
  | func _ => "FuncSpec"
  | foreign kind _ => kind

def named? : TypeExpr → Option NamedType
  | named type => some type
  | _ => none

def signature? : TypeExpr → Option Signature
  | func signature => some signature
  | _ => none

/-- A pointer to a named type. -/
def isPointer (t : TypeExpr) : Bool := t.named?.any (·.pointer)

/-- Neither a fixed length nor one taken from the literal. -/
def isSlice : TypeExpr → Bool
  | array _ length ellipsis => length == 0 && !ellipsis
  | _ => false

end TypeExpr

def Field.isNamed (f : Field) : Bool := !f.name.isEmpty

/-- The named members of an interface. -/
def TypeExpr.methods : TypeExpr → List Field
  | interface members => members.filter (·.isNamed)
  | _ => []

/-- The unnamed members of an interface. -/
def TypeExpr.embeds : TypeExpr → List Field
  | interface members => members.filter (!·.isNamed)
  | _ => []

mutual

/-- Structural equality of types. -/
def TypeExpr.beq : TypeExpr → TypeExpr → Bool
  | .named s, .named t => s == t
  | .array s m x, .array t n y => s.beq t && m == n && x == y
  | .map j s, .map k t => j.beq k && s.beq t
  | .struct fs, .struct gs => Field.beqAll fs gs
  | .interface fs, .interface gs => Field.beqAll fs gs
  | .func s, .func t => s.beq t
  | .foreign j c, .foreign k d => j == k && c == d
  | _, _ => false
termination_by structural s => s

def Field.beq : Field → Field → Bool
  | ⟨name, tag, comment, annotations, type⟩, g =>
    name == g.name && tag == g.tag && comment == g.comment && annotations == g.annotations &&
      type.beq g.type
termination_by structural f => f

def Field.beqAll : List Field → List Field → Bool
  | [], [] => true
  | f :: fs, g :: gs => f.beq g && Field.beqAll fs gs
  | _, _ => false
termination_by structural fs => fs

def Signature.beq : Signature → Signature → Bool
  | ⟨params, results, variadic⟩, t =>
    Field.beqAll params t.params && Field.beqAll results t.results && variadic == t.variadic
termination_by structural s => s

end

mutual

theorem TypeExpr.beq_iff (s t : TypeExpr) : s.beq t = true ↔ s = t := by
  cases s <;> cases t <;>
    simp [TypeExpr.beq, TypeExpr.beq_iff, Field.beqAll_iff, Signature.beq_iff, and_assoc]
termination_by structural s

theorem Field.beq_iff (f g : Field) : f.beq g = true ↔ f = g := by
  cases f; cases g
  simp [Field.beq, TypeExpr.beq_iff, and_assoc]
termination_by structural f

theorem Field.beqAll_iff (fs gs : List Field) : Field.beqAll fs gs = true ↔ fs = gs := by
  cases fs <;> cases gs <;> simp [Field.beqAll, Field.beq_iff, Field.beqAll_iff]
termination_by structural fs

theorem Signature.beq_iff (s t : Signature) : s.beq t = true ↔ s = t := by
  cases s; cases t
  simp [Signature.beq, Field.beqAll_iff, and_assoc]
termination_by structural s

end

instance : DecidableEq TypeExpr := fun s t => decidable_of_iff _ (s.beq_iff t)

instance : DecidableEq Field := fun f g => decidable_of_iff _ (f.beq_iff g)

instance : DecidableEq Signature := fun s t => decidable_of_iff _ (s.beq_iff t)

end GoSource
