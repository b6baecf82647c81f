import GoSource.Node

/-!
# Parts of a node

Every type, field and declaration at any depth of a node, the node itself
included, and the change of all places that can refer to an import. The change
acts on the parts one by one and leaves their order and number as they are.
-/

namespace GoSource

/-- Induction over types, through the fields that structs, interfaces and
signatures hold. -/
@[elab_as_elim]
theorem TypeExpr.induction {motive : TypeExpr → Prop}
    (named : ∀ type, motive (.named type))
    (array : ∀ element length ellipsis, motive element → motive (.array element length ellipsis))
    (map : ∀ key value, motive key → motive value → motive (.map key value))
    (struct : ∀ fields, (∀ f ∈ fields, motive f.type) → motive (.struct fields))
    (interface : ∀ members, (∀ f ∈ members, motive f.type) → motive (.interface members))
    (func : ∀ signature, (∀ f ∈ signature.params, motive f.type) →
      (∀ f ∈ signature.results, motive f.type) → motive (.func signature))
    (foreign : ∀ kind data, motive (.foreign kind data)) (t : TypeExpr) : motive t := by
  refine @TypeExpr.rec motive (fun f => motive f.type)
    (fun s => (∀ f ∈ s.params, motive f.type) ∧ ∀ f ∈ s.results, motive f.type)
    (fun fs => ∀ f ∈ fs, motive f.type) named array map struct interface (fun s h => func s h.1 h.2) foreign
    (fun _ _ _ _ _ h => h) (fun _ _ _ hp hr => ⟨hp, hr⟩) (fun _ h => nomatch h) ?_ t
  intro f fs hf hfs g hg
  rcases List.mem_cons.mp hg with rfl | hg
  · exact hf
  · exact hfs g hg

mutual

/-- The type and every type and field below it. -/
def TypeExpr.parts : TypeExpr → List Node
  | .named type => [.type (.named type)]
  | .array element length ellipsis => .type (.array element length ellipsis) :: element.parts
  | .map key value => .type (.map key value) :: (key.parts ++ value.parts)
  | .struct fields => .type (.struct fields) :: Field.partsAll fields
  | .interface members => .type (.interface members) :: Field.partsAll members
  | .func signature => .type (.func signature) :: signature.parts
  | .foreign kind data => [.type (.foreign kind data)]
termination_by structural t => t

def Field.parts : Field → List Node
  | ⟨name, tag, comment, annotations, type⟩ =>
    .field ⟨name, tag, comment, annotations, type⟩ :: type.parts
termination_by structural f => f

def Field.partsAll : List Field → List Node
  | [] => []
  | f :: fs => f.parts ++ Field.partsAll fs
termination_by structural fs => fs

def Signature.parts : Signature → List Node
  | ⟨params, results, _⟩ => Field.partsAll params ++ Field.partsAll results
termination_by structural s => s

end

@[simp] theorem Field.partsAll_eq (fs : List Field) : Field.partsAll fs = fs.flatMap Field.parts := by
  induction fs with
  | nil => rfl
  | cons f fs ih => rw [Field.partsAll, ih, List.flatMap_cons]

@[simp] theorem Field.parts_eq (f : Field) : f.parts = .field f :: f.type.parts := by
  cases f
  rfl

@[simp] theorem Signature.parts_eq (s : Signature) :
    s.parts = s.params.flatMap Field.parts ++ s.results.flatMap Field.parts := by
  cases s
  simp [Signature.parts]

/-- The constant comes after its type, as its value does. -/
def Const.parts (c : Const) : List Node := c.type.toList.flatMap TypeExpr.parts ++ [.const c]

def Var.parts (v : Var) : List Node := v.type.toList.flatMap TypeExpr.parts ++ [.var v]

def TypeDecl.parts (t : TypeDecl) : List Node := .typeDecl t :: t.type.parts

def FuncDecl.parts (f : FuncDecl) : List Node :=
  f.receiver.toList.flatMap Field.parts ++ (TypeExpr.func f.signature).parts ++ [.func f]

def Import.parts (i : Import) : List Node := [.importDecl i]

def Group.parts {α : Type} (node : Group α → Node) (parts : α → List Node) (g : Group α) :
    List Node :=
  node g :: g.items.flatMap parts

def File.parts (f : File) : List Node :=
  .file f :: (f.imports.flatMap (Group.parts .importGroup Import.parts) ++
    f.consts.flatMap (Group.parts .constGroup Const.parts) ++
    f.vars.flatMap (Group.parts .varGroup Var.parts) ++
    f.types.flatMap (Group.parts .typeGroup TypeDecl.parts) ++ f.funcs.flatMap FuncDecl.parts)

namespace Node

/-- The node and everything below it, in the order in which free text and package
names are visited. -/
def parts : Node → List Node
  | type t => t.parts
  | field f => f.parts
  | const c => c.parts
  | var v => v.parts
  | typeDecl t => t.parts
  | func f => f.parts
  | importDecl i => i.parts
  | constGroup g => g.parts constGroup Const.parts
  | varGroup g => g.parts varGroup Var.parts
  | typeGroup g => g.parts typeGroup TypeDecl.parts
  | importGroup g => g.parts importGroup Import.parts
  | file f => f.parts

/-- The free text that the node itself holds. -/
def text? : Node → Option String
  | const c => some c.value
  | var v => some v.value
  | func f => some f.content
  | file f => some f.content
  | _ => none

/-- The free texts at any depth of the node. -/
def texts (n : Node) : List String := n.parts.filterMap text?

/-- Some type at any depth of the node cannot be looked into. -/
def HasForeign (n : Node) : Prop := ∃ kind data, .type (.foreign kind data) ∈ n.parts

end Node

end GoSource
