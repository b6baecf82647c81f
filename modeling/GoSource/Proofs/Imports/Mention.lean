import GoSource.Proofs.Node.Rewriting

/-!
# Mentions and parts

The places of a node that can refer to an import are those of its parts, taken
in order. A rewriting of the node is a rewriting of these places.
-/

namespace GoSource

/-- The place that the node itself has, apart from what is below it. -/
def Node.ownMentions : Node → List Mention
  | type (.named t) => if t.isQualified then [.package t.package] else []
  | type (.foreign kind _) => [.foreign kind]
  | const c => [.code c.value]
  | var v => [.code v.value]
  | func f => [.code f.content]
  | file f => [.code f.content]
  | _ => []

/-- The mentions of all parts. -/
def mentionsOf (parts : List Node) : List Mention := parts.flatMap Node.ownMentions

@[simp] theorem mentionsOf_nil : mentionsOf [] = [] := rfl

@[simp] theorem mentionsOf_cons (n : Node) (ns : List Node) :
    mentionsOf (n :: ns) = n.ownMentions ++ mentionsOf ns := List.flatMap_cons

@[simp] theorem mentionsOf_append (ms ns : List Node) :
    mentionsOf (ms ++ ns) = mentionsOf ms ++ mentionsOf ns := List.flatMap_append

theorem mentionsOf_flatMap {α : Type} {parts : α → List Node} {mentions : α → List Mention}
    {l : List α} (h : ∀ a ∈ l, mentions a = mentionsOf (parts a)) :
    l.flatMap mentions = mentionsOf (l.flatMap parts) := by
  rw [mentionsOf, List.flatMap_assoc]
  exact List.flatMap_congr h

theorem TypeExpr.mentions_eq_parts (t : TypeExpr) : t.mentions = mentionsOf t.parts := by
  have fields : ∀ fs : List Field, (∀ f ∈ fs, f.type.mentions = mentionsOf f.type.parts) →
      fs.flatMap Field.mentions = mentionsOf (fs.flatMap Field.parts) := by
    intro fs h
    apply mentionsOf_flatMap
    intro f hf
    simp [h f hf, Node.ownMentions]
  induction t using TypeExpr.induction with
  | named type => simp [TypeExpr.mentions, TypeExpr.parts, Node.ownMentions]
  | array element length ellipsis ih =>
    simp [TypeExpr.mentions, TypeExpr.parts, Node.ownMentions, ih]
  | map key value hk hv => simp [TypeExpr.mentions, TypeExpr.parts, Node.ownMentions, hk, hv]
  | struct fs ih => simp [TypeExpr.mentions, TypeExpr.parts, Node.ownMentions, fields fs ih]
  | interface fs ih => simp [TypeExpr.mentions, TypeExpr.parts, Node.ownMentions, fields fs ih]
  | func s hp hr =>
    simp [TypeExpr.mentions, TypeExpr.parts, Node.ownMentions, fields _ hp, fields _ hr]
  | foreign kind data => rfl

theorem Field.mentions_eq_parts (f : Field) : f.mentions = mentionsOf f.parts := by
  simp [TypeExpr.mentions_eq_parts, Node.ownMentions]

theorem optional_mentions_eq_parts {α : Type} {parts : α → List Node}
    {mentions : α → List Mention} (h : ∀ a, mentions a = mentionsOf (parts a)) (o : Option α) :
    (o.map mentions).getD [] = mentionsOf (o.toList.flatMap parts) := by
  cases o <;> simp [h]

theorem Const.mentions_eq_parts (c : Const) : c.mentions = mentionsOf c.parts := by
  rw [Const.mentions, Const.parts, mentionsOf_append,
    optional_mentions_eq_parts TypeExpr.mentions_eq_parts]
  rfl

theorem Var.mentions_eq_parts (v : Var) : v.mentions = mentionsOf v.parts := by
  rw [Var.mentions, Var.parts, mentionsOf_append,
    optional_mentions_eq_parts TypeExpr.mentions_eq_parts]
  rfl

theorem TypeDecl.mentions_eq_parts (t : TypeDecl) : t.mentions = mentionsOf t.parts := by
  simp [TypeDecl.mentions, TypeDecl.parts, TypeExpr.mentions_eq_parts, Node.ownMentions]

theorem FuncDecl.mentions_eq_parts (f : FuncDecl) : f.mentions = mentionsOf f.parts := by
  have hs := TypeExpr.mentions_eq_parts (.func f.signature)
  rw [TypeExpr.mentions] at hs
  rw [FuncDecl.mentions, FuncDecl.parts, mentionsOf_append, mentionsOf_append,
    optional_mentions_eq_parts Field.mentions_eq_parts, hs]
  rfl

theorem Group.mentions_eq_parts {α : Type} (node : Group α → Node) {parts : α → List Node}
    {mentions : α → List Mention} (hnode : ∀ g, (node g).ownMentions = [])
    (h : ∀ a, mentions a = mentionsOf (parts a)) (g : Group α) :
    g.mentions mentions = mentionsOf (g.parts node parts) := by
  rw [Group.mentions, Group.parts, mentionsOf_cons, hnode, List.nil_append]
  exact mentionsOf_flatMap fun a _ => h a

/-- The imports of a file are parts without a mention: declaring one is not using it. -/
theorem mentionsOf_imports (gs : List (Group Import)) :
    mentionsOf (gs.flatMap (Group.parts .importGroup Import.parts)) = [] := by
  rw [mentionsOf, List.flatMap_eq_nil_iff]
  intro n hn
  obtain ⟨g, -, hg⟩ := List.mem_flatMap.mp hn
  rcases List.mem_cons.mp hg with rfl | hi
  · rfl
  · obtain ⟨i, -, hi⟩ := List.mem_flatMap.mp hi
    obtain rfl := List.mem_singleton.mp hi
    rfl

theorem File.mentions_eq_parts (f : File) : f.mentions = mentionsOf f.parts := by
  have hc := mentionsOf_flatMap (l := f.consts) fun g _ =>
    Group.mentions_eq_parts .constGroup (fun _ => rfl) Const.mentions_eq_parts g
  have hv := mentionsOf_flatMap (l := f.vars) fun g _ =>
    Group.mentions_eq_parts .varGroup (fun _ => rfl) Var.mentions_eq_parts g
  have ht := mentionsOf_flatMap (l := f.types) fun g _ =>
    Group.mentions_eq_parts .typeGroup (fun _ => rfl) TypeDecl.mentions_eq_parts g
  have hf := mentionsOf_flatMap (l := f.funcs) fun g _ => g.mentions_eq_parts
  simp only [File.mentions, File.parts, hc, hv, ht, hf, mentionsOf_cons, mentionsOf_append,
    mentionsOf_imports, List.nil_append, List.cons_append, Node.ownMentions]

theorem mem_mentionsOf_foreign {kind : String} {parts : List Node} :
    .foreign kind ∈ mentionsOf parts ↔ ∃ data, .type (.foreign kind data) ∈ parts := by
  simp only [mentionsOf, List.mem_flatMap]
  constructor
  · rintro ⟨n, hn, hm⟩
    unfold Node.ownMentions at hm
    split at hm
    · split at hm <;> simp at hm
    · rename_i kind' data
      obtain rfl : kind = kind' := by simpa using hm
      exact ⟨data, hn⟩
    all_goals simp at hm
  · rintro ⟨data, hn⟩
    exact ⟨_, hn, by simp [Node.ownMentions]⟩

/-- An import by itself, or a group of imports. -/
def Node.isImport : Node → Bool
  | importDecl _ | importGroup _ => true
  | _ => false

/-- Imports apart, the mentions of a node are those of its parts. -/
theorem Node.mentions_eq_parts {n : Node} (h : n.isImport = false) :
    n.mentions = mentionsOf n.parts := by
  cases n with
  | type t => exact t.mentions_eq_parts
  | field f => exact f.mentions_eq_parts
  | const c => exact c.mentions_eq_parts
  | var v => exact v.mentions_eq_parts
  | typeDecl t => exact t.mentions_eq_parts
  | func f => exact f.mentions_eq_parts
  | importDecl i => cases h
  | constGroup g => exact Group.mentions_eq_parts _ (fun _ => rfl) Const.mentions_eq_parts g
  | varGroup g => exact Group.mentions_eq_parts _ (fun _ => rfl) Var.mentions_eq_parts g
  | typeGroup g => exact Group.mentions_eq_parts _ (fun _ => rfl) TypeDecl.mentions_eq_parts g
  | importGroup g => cases h
  | file f => exact f.mentions_eq_parts

/-- A visit of the node meets a foreign type exactly if the node has one at some depth. -/
theorem Node.hasForeign_iff (n : Node) : n.HasForeign ↔ ∃ kind, .foreign kind ∈ n.mentions := by
  cases himport : n.isImport with
  | false =>
    rw [mentions_eq_parts himport]
    exact exists_congr fun _ => mem_mentionsOf_foreign.symm
  | true =>
    cases n with
    | importDecl i => simp [HasForeign, parts, Import.parts, mentions, Import.mentions]
    | importGroup g =>
      simp [HasForeign, parts, Group.parts, Import.parts, mentions, Group.mentions, Import.mentions]
    | _ => cases himport

end GoSource
