import GoSource.Proofs.Node.Parts
import Mathlib.Data.List.Basic

/-!
# Rewriting the places that refer to imports

A change of package names, free texts and imports, carried through a whole node
without a fault and without an order of visits. Everything else of the node is
kept, so the parts of the result are the parts of the node, each rewritten.
-/

namespace GoSource

/-- What becomes of a package name, of free text and of an import. -/
structure Rewriting where
  package : String → String
  code : String → String
  entry : Import → Import

mutual

/-- The type with every package name changed. -/
def TypeExpr.rewrite (w : Rewriting) : TypeExpr → TypeExpr
  | .named type => .named { type with package := w.package type.package }
  | .array element length ellipsis => .array (element.rewrite w) length ellipsis
  | .map key value => .map (key.rewrite w) (value.rewrite w)
  | .struct fields => .struct (Field.rewriteAll w fields)
  | .interface members => .interface (Field.rewriteAll w members)
  | .func signature => .func (signature.rewrite w)
  | .foreign kind data => .foreign kind data
termination_by structural t => t

def Field.rewrite (w : Rewriting) : Field → Field
  | ⟨name, tag, comment, annotations, type⟩ =>
    ⟨name, tag, comment, annotations, type.rewrite w⟩
termination_by structural f => f

def Field.rewriteAll (w : Rewriting) : List Field → List Field
  | [] => []
  | f :: fs => f.rewrite w :: Field.rewriteAll w fs
termination_by structural fs => fs

def Signature.rewrite (w : Rewriting) : Signature → Signature
  | ⟨params, results, variadic⟩ =>
    ⟨Field.rewriteAll w params, Field.rewriteAll w results, variadic⟩
termination_by structural s => s

end

@[simp] theorem Field.rewriteAll_eq (w : Rewriting) (fs : List Field) :
    Field.rewriteAll w fs = fs.map (Field.rewrite w) := by
  induction fs with
  | nil => rfl
  | cons f fs ih => rw [Field.rewriteAll, ih, List.map_cons]

@[simp] theorem Field.rewrite_eq (w : Rewriting) (f : Field) :
    f.rewrite w = { f with type := f.type.rewrite w } := by
  cases f
  rfl

@[simp] theorem Signature.rewrite_eq (w : Rewriting) (s : Signature) :
    s.rewrite w =
      ⟨s.params.map (Field.rewrite w), s.results.map (Field.rewrite w), s.variadic⟩ := by
  cases s
  simp [Signature.rewrite]

def Const.rewrite (w : Rewriting) (c : Const) : Const :=
  { c with type := c.type.map (TypeExpr.rewrite w), value := w.code c.value }

def Var.rewrite (w : Rewriting) (v : Var) : Var :=
  { v with type := v.type.map (TypeExpr.rewrite w), value := w.code v.value }

def TypeDecl.rewrite (w : Rewriting) (t : TypeDecl) : TypeDecl :=
  { t with type := t.type.rewrite w }

def FuncDecl.rewrite (w : Rewriting) (f : FuncDecl) : FuncDecl :=
  { f with
    receiver := f.receiver.map (Field.rewrite w)
    signature := f.signature.rewrite w
    content := w.code f.content }

def Group.mapItems {α : Type} (f : α → α) (g : Group α) : Group α :=
  { g with items := g.items.map f }

def File.rewrite (w : Rewriting) (f : File) : File :=
  { f with
    content := w.code f.content
    imports := f.imports.map (Group.mapItems w.entry)
    consts := f.consts.map (Group.mapItems (Const.rewrite w))
    vars := f.vars.map (Group.mapItems (Var.rewrite w))
    types := f.types.map (Group.mapItems (TypeDecl.rewrite w))
    funcs := f.funcs.map (FuncDecl.rewrite w) }

/-- The node with every place that can refer to an import changed. -/
def Node.rewrite (w : Rewriting) : Node → Node
  | type t => type (t.rewrite w)
  | field f => field (f.rewrite w)
  | const c => const (c.rewrite w)
  | var v => var (v.rewrite w)
  | typeDecl t => typeDecl (t.rewrite w)
  | func f => func (f.rewrite w)
  | importDecl i => importDecl (w.entry i)
  | constGroup g => constGroup (g.mapItems (Const.rewrite w))
  | varGroup g => varGroup (g.mapItems (Var.rewrite w))
  | typeGroup g => typeGroup (g.mapItems (TypeDecl.rewrite w))
  | importGroup g => importGroup (g.mapItems w.entry)
  | file f => file (f.rewrite w)

section Parts

variable (w : Rewriting)

theorem flatMap_map_eq_map_flatMap {α β : Type} {f : α → α} {parts : α → List β} {g : β → β}
    {l : List α} (h : ∀ a ∈ l, parts (f a) = (parts a).map g) :
    (l.map f).flatMap parts = (l.flatMap parts).map g := by
  rw [List.flatMap_map, List.map_flatMap]
  exact List.flatMap_congr h

theorem TypeExpr.parts_rewrite (t : TypeExpr) :
    (t.rewrite w).parts = t.parts.map (Node.rewrite w) := by
  have fields : ∀ fs : List Field,
      (∀ f ∈ fs, (f.type.rewrite w).parts = f.type.parts.map (Node.rewrite w)) →
      (fs.map (Field.rewrite w)).flatMap Field.parts =
        (fs.flatMap Field.parts).map (Node.rewrite w) := by
    intro fs h
    apply flatMap_map_eq_map_flatMap
    intro f hf
    simp [h f hf, Node.rewrite]
  induction t using TypeExpr.induction with
  | named type => rfl
  | array element length ellipsis ih =>
    simp [TypeExpr.rewrite, TypeExpr.parts, Node.rewrite, ih]
  | map key value hk hv => simp [TypeExpr.rewrite, TypeExpr.parts, Node.rewrite, hk, hv]
  | struct fs ih =>
    simp only [TypeExpr.rewrite, TypeExpr.parts, Node.rewrite, Field.rewriteAll_eq,
      Field.partsAll_eq, List.map_cons, fields fs ih]
  | interface fs ih =>
    simp only [TypeExpr.rewrite, TypeExpr.parts, Node.rewrite, Field.rewriteAll_eq,
      Field.partsAll_eq, List.map_cons, fields fs ih]
  | func s hp hr =>
    simp only [TypeExpr.rewrite, TypeExpr.parts, Node.rewrite, Signature.rewrite_eq,
      Signature.parts_eq, List.map_cons, List.map_append, fields _ hp, fields _ hr]
  | foreign kind data => rfl

theorem Field.parts_rewrite (f : Field) :
    (f.rewrite w).parts = f.parts.map (Node.rewrite w) := by
  simp [TypeExpr.parts_rewrite, Node.rewrite]

theorem optional_parts_rewrite {α : Type} {rewrite : α → α} {parts : α → List Node}
    (h : ∀ a, parts (rewrite a) = (parts a).map (Node.rewrite w)) (o : Option α) :
    (o.map rewrite).toList.flatMap parts = (o.toList.flatMap parts).map (Node.rewrite w) := by
  cases o <;> simp [h]

theorem Group.parts_rewrite {α : Type} (node : Group α → Node) {rewrite : α → α}
    {parts : α → List Node} (hnode : ∀ g, Node.rewrite w (node g) = node (g.mapItems rewrite))
    (h : ∀ a, parts (rewrite a) = (parts a).map (Node.rewrite w)) (g : Group α) :
    (g.mapItems rewrite).parts node parts = (g.parts node parts).map (Node.rewrite w) := by
  simp only [Group.parts, List.map_cons, hnode, List.cons.injEq, true_and]
  exact flatMap_map_eq_map_flatMap (fun a _ => h a)

theorem Const.parts_rewrite (c : Const) : (c.rewrite w).parts = c.parts.map (Node.rewrite w) := by
  simp only [Const.parts, Const.rewrite, List.map_append, List.map_cons, List.map_nil, Node.rewrite,
    optional_parts_rewrite w (TypeExpr.parts_rewrite w)]

theorem Var.parts_rewrite (v : Var) : (v.rewrite w).parts = v.parts.map (Node.rewrite w) := by
  simp only [Var.parts, Var.rewrite, List.map_append, List.map_cons, List.map_nil, Node.rewrite,
    optional_parts_rewrite w (TypeExpr.parts_rewrite w)]

theorem TypeDecl.parts_rewrite (t : TypeDecl) :
    (t.rewrite w).parts = t.parts.map (Node.rewrite w) := by
  simp [TypeDecl.parts, TypeDecl.rewrite, Node.rewrite, TypeExpr.parts_rewrite]

theorem FuncDecl.parts_rewrite (f : FuncDecl) :
    (f.rewrite w).parts = f.parts.map (Node.rewrite w) := by
  have hs := TypeExpr.parts_rewrite w (.func f.signature)
  simp only [TypeExpr.rewrite] at hs
  simp only [FuncDecl.parts, FuncDecl.rewrite, List.map_append, List.map_cons, List.map_nil,
    Node.rewrite, hs, optional_parts_rewrite w (Field.parts_rewrite w)]

theorem Import.parts_entry (i : Import) :
    (w.entry i).parts = i.parts.map (Node.rewrite w) := rfl

theorem File.parts_rewrite (f : File) : (f.rewrite w).parts = f.parts.map (Node.rewrite w) := by
  have hi := flatMap_map_eq_map_flatMap (l := f.imports) fun g _ =>
    Group.parts_rewrite w .importGroup (fun _ => rfl) (Import.parts_entry w) g
  have hc := flatMap_map_eq_map_flatMap (l := f.consts) fun g _ =>
    Group.parts_rewrite w .constGroup (fun _ => rfl) (Const.parts_rewrite w) g
  have hv := flatMap_map_eq_map_flatMap (l := f.vars) fun g _ =>
    Group.parts_rewrite w .varGroup (fun _ => rfl) (Var.parts_rewrite w) g
  have ht := flatMap_map_eq_map_flatMap (l := f.types) fun g _ =>
    Group.parts_rewrite w .typeGroup (fun _ => rfl) (TypeDecl.parts_rewrite w) g
  have hf := flatMap_map_eq_map_flatMap (l := f.funcs) fun g _ => FuncDecl.parts_rewrite w g
  simp only [File.parts, File.rewrite, Node.rewrite, List.map_cons, List.map_append, hi, hc, hv,
    ht, hf]

/-- The parts of a rewritten node are its parts, each rewritten. -/
theorem Node.parts_rewrite (n : Node) : (n.rewrite w).parts = n.parts.map (Node.rewrite w) := by
  cases n with
  | type t => exact t.parts_rewrite w
  | field f => exact f.parts_rewrite w
  | const c => exact c.parts_rewrite w
  | var v => exact v.parts_rewrite w
  | typeDecl t => exact t.parts_rewrite w
  | func f => exact f.parts_rewrite w
  | importDecl i => rfl
  | constGroup g => exact Group.parts_rewrite w .constGroup (fun _ => rfl) (Const.parts_rewrite w) g
  | varGroup g => exact Group.parts_rewrite w .varGroup (fun _ => rfl) (Var.parts_rewrite w) g
  | typeGroup g => exact Group.parts_rewrite w .typeGroup (fun _ => rfl) (TypeDecl.parts_rewrite w) g
  | importGroup g => exact Group.parts_rewrite w .importGroup (fun _ => rfl) (Import.parts_entry w) g
  | file f => exact f.parts_rewrite w

theorem Node.text?_rewrite (n : Node) : (n.rewrite w).text? = n.text?.map w.code := by
  cases n <;> rfl

/-- The free texts of a rewritten node. -/
theorem Node.texts_rewrite (n : Node) : (n.rewrite w).texts = n.texts.map w.code := by
  rw [texts, texts, parts_rewrite, List.filterMap_map, List.map_filterMap]
  exact congrFun (congrArg _ (funext fun p => p.text?_rewrite w)) _

/-- A named type of a rewritten node was a named type before. -/
theorem Node.exists_named_of_mem_rewrite {n : Node} {t : NamedType}
    (h : .type (.named t) ∈ (n.rewrite w).parts) :
    ∃ u, .type (.named u) ∈ n.parts ∧ t = { u with package := w.package u.package } := by
  rw [parts_rewrite] at h
  obtain ⟨p, hp, heq⟩ := List.mem_map.mp h
  cases p with
  | type u =>
    cases u with
    | named u =>
      simp only [Node.rewrite, TypeExpr.rewrite, Node.type.injEq, TypeExpr.named.injEq] at heq
      exact ⟨u, hp, heq.symm⟩
    | _ => simp [Node.rewrite, TypeExpr.rewrite] at heq
  | _ => simp [Node.rewrite] at heq

/-- An import of a rewritten node was an import before. -/
theorem Node.exists_import_of_mem_rewrite {n : Node} {i : Import}
    (h : .importDecl i ∈ (n.rewrite w).parts) : ∃ j, .importDecl j ∈ n.parts ∧ i = w.entry j := by
  rw [parts_rewrite] at h
  obtain ⟨p, hp, heq⟩ := List.mem_map.mp h
  cases p with
  | importDecl j =>
    simp only [Node.rewrite, Node.importDecl.injEq] at heq
    exact ⟨j, hp, heq.symm⟩
  | _ => simp [Node.rewrite] at heq

/-- A foreign type of a rewritten node was there before. -/
theorem Node.foreign_mem_of_mem_rewrite {n : Node} {kind data : String}
    (h : .type (.foreign kind data) ∈ (n.rewrite w).parts) :
    .type (.foreign kind data) ∈ n.parts := by
  rw [parts_rewrite] at h
  obtain ⟨p, hp, heq⟩ := List.mem_map.mp h
  cases p with
  | type u =>
    cases u with
    | foreign kind' data' =>
      simp only [Node.rewrite, TypeExpr.rewrite] at heq
      exact heq ▸ hp
    | _ => simp [Node.rewrite, TypeExpr.rewrite] at heq
  | _ => simp [Node.rewrite] at heq

end Parts

end GoSource
