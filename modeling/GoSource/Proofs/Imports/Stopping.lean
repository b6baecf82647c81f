import GoSource.Proofs.Imports.Fetching

/-!
# Where a visit stops

Collecting imports and renaming an alias go through the same slots of a node in the same
order, and both stop at the first foreign type. A renaming that was stopped has changed the
slots before that type and none after it; a collection that was stopped has found what the
slots before it use. Apart from its slots a node is never changed.
-/

namespace GoSource

/-- A place that a visit comes to. -/
inductive Slot where
  /-- The package of a named type, empty if the type is not qualified. -/
  | package (name : String)
  /-- Free text. -/
  | code (text : String)
  /-- An import of a file. -/
  | entry (i : Import)
  /-- A type that cannot be looked into. -/
  | foreign (kind : String)
deriving DecidableEq

namespace Slot

/-- The slot after a rewriting. -/
def rewrite (w : Rewriting) : Slot → Slot
  | package name => package (w.package name)
  | code text => code (w.code text)
  | entry i => entry (w.entry i)
  | foreign kind => foreign kind

/-- Whether the slot makes use of an import; to declare one is not to use it. -/
def uses : Slot → Import → Bool
  | package name, i => !name.isEmpty && i.realAlias == name
  | code text, i => Qualifier.references text i.realAlias
  | entry _, _ => false
  | foreign _, _ => false

/-- The fault of a slot that cannot be looked into. -/
def fault? : Slot → Option Fault
  | foreign kind => some (.onPart "Spec" (.foreignType kind))
  | _ => none

/-- The fault of the first slot that has one. -/
def stop? (slots : List Slot) : Option Fault := slots.findSome? fault?

/-- The slots up to the first foreign type rewritten, the others as they were. -/
def rewriteBefore (w : Rewriting) : List Slot → List Slot
  | [] => []
  | foreign kind :: slots => foreign kind :: slots
  | slot :: slots => slot.rewrite w :: rewriteBefore w slots

theorem fault?_eq_none_iff {slot : Slot} : slot.fault? = none ↔ ∀ kind, slot ≠ foreign kind := by
  cases slot <;> simp [fault?]

theorem stop?_append (slots later : List Slot) :
    stop? (slots ++ later) = (stop? slots).or (stop? later) := List.findSome?_append

section RewriteBefore

variable {w : Rewriting} {slots : List Slot}

theorem rewriteBefore_cons {slot : Slot} (h : slot.fault? = none) :
    rewriteBefore w (slot :: slots) = slot.rewrite w :: rewriteBefore w slots := by
  cases slot with
  | foreign kind => cases h
  | _ => rfl

theorem rewriteBefore_append_of_none (h : stop? slots = none) (later : List Slot) :
    rewriteBefore w (slots ++ later) = rewriteBefore w slots ++ rewriteBefore w later := by
  induction slots with
  | nil => rfl
  | cons slot slots ih =>
    obtain ⟨hslot, hslots⟩ := List.forall_mem_cons.mp (List.findSome?_eq_none_iff.mp h)
    rw [List.cons_append, rewriteBefore_cons hslot, rewriteBefore_cons hslot,
      ih (List.findSome?_eq_none_iff.mpr hslots), List.cons_append]

theorem rewriteBefore_append_of_some {fault : Fault} (h : stop? slots = some fault)
    (later : List Slot) : rewriteBefore w (slots ++ later) = rewriteBefore w slots ++ later := by
  induction slots with
  | nil => cases h
  | cons slot slots ih =>
    cases hslot : slot.fault? with
    | none =>
      rw [stop?, List.findSome?_cons, hslot] at h
      rw [List.cons_append, rewriteBefore_cons hslot, rewriteBefore_cons hslot, ih h,
        List.cons_append]
    | some first =>
      cases slot with
      | foreign kind => rfl
      | _ => cases hslot

/-- Without a foreign type every slot is rewritten. -/
theorem rewriteBefore_of_none (h : stop? slots = none) :
    rewriteBefore w slots = slots.map (rewrite w) := by
  induction slots with
  | nil => rfl
  | cons slot slots ih =>
    obtain ⟨hslot, hslots⟩ := List.forall_mem_cons.mp (List.findSome?_eq_none_iff.mp h)
    rw [rewriteBefore_cons hslot, ih (List.findSome?_eq_none_iff.mpr hslots), List.map_cons]

end RewriteBefore

end Slot

open Slot (stop? rewriteBefore)

/-- The slots that the node itself has, apart from what is below it. -/
def Node.ownSlots : Node → List Slot
  | type (.named t) => [.package t.package]
  | type (.foreign kind _) => [.foreign kind]
  | const c => [.code c.value]
  | var v => [.code v.value]
  | func f => [.code f.content]
  | importDecl i => [.entry i]
  | file f => [.code f.content]
  | _ => []

/-- The slots of all parts, in their order. -/
def slotsOf (parts : List Node) : List Slot := parts.flatMap Node.ownSlots

/-- The slots of a node in the order in which they are visited: of a file its content, its
imports and then its constants, variables, types and functions; of a constant or variable
its type before its value; of a function its receiver, parameters, results and content; of
a map its key before its value. -/
def Node.slots (n : Node) : List Slot := slotsOf n.parts

/-- Every slot emptied. -/
def Rewriting.blank : Rewriting where
  package _ := ""
  code _ := ""
  entry i := { i with localName := "" }

/-- What a node is apart from its slots. -/
def Node.outline (n : Node) : Node := n.rewrite .blank

@[simp] theorem slotsOf_nil : slotsOf [] = [] := rfl

@[simp] theorem slotsOf_cons (n : Node) (ns : List Node) :
    slotsOf (n :: ns) = n.ownSlots ++ slotsOf ns := List.flatMap_cons

@[simp] theorem slotsOf_append (ms ns : List Node) :
    slotsOf (ms ++ ns) = slotsOf ms ++ slotsOf ns := List.flatMap_append

@[simp] theorem slotsOf_flatMap {α : Type} (parts : α → List Node) (l : List α) :
    slotsOf (l.flatMap parts) = l.flatMap fun a => slotsOf (parts a) := List.flatMap_assoc

namespace Stoppable

/-- One piece of work after another. -/
def both {α β : Type} (m : Stoppable α) (k : Stoppable β) : Stoppable (α × β) :=
  return (← m, ← k)

/-- Work on `a` that rewrites its slots one after another, up to the first foreign type, and
keeps everything else. Once it has stopped it changes nothing. -/
structure Visits {α : Type} (w : Rewriting) (slots : α → List Slot) (outline : α → α)
    (m : Stoppable α) (a : α) : Prop where
  stopped : ∀ fault, m.run (some fault) = (a, some fault)
  fault : (m.run none).2 = stop? (slots a)
  slots : slots (m.run none).1 = rewriteBefore w (slots a)
  outline : outline (m.run none).1 = outline a

namespace Visits

variable {α β : Type} {w : Rewriting} {s : α → List Slot} {o : α → α} {m : Stoppable α} {a : α}
  {s' : β → List Slot} {o' : β → β} {k : Stoppable β} {b : β}

theorem pure (hs : s a = []) : Visits w s o (Pure.pure a) a where
  stopped _ := rfl
  fault := by
    rw [hs]
    rfl
  slots := by
    rw [hs]
    exact hs
  outline := rfl

/-- A change of one slot. -/
theorem change {f : α → α} (slot : α → Slot) (hf : ∀ x, slot (f x) = (slot x).rewrite w)
    (hfree : ∀ x, (slot x).fault? = none) (ho : ∀ x, o (f x) = o x) (a : α) :
    Visits w (fun x => [slot x]) o (Stoppable.change f a) a where
  stopped _ := rfl
  fault := by
    rw [stop?, List.findSome?_singleton, hfree]
    rfl
  slots := by
    rw [Slot.rewriteBefore_cons (hfree a), ← hf]
    rfl
  outline := ho a

theorem both (hm : Visits w s o m a) (hk : Visits w s' o' k b) :
    Visits w (fun p => s p.1 ++ s' p.2) (Prod.map o o') (Stoppable.both m k) (a, b) := by
  have hrun (stop : Option Fault) : (Stoppable.both m k).run stop =
      (((m.run stop).1, (k.run (m.run stop).2).1), (k.run (m.run stop).2).2) := rfl
  have hstopped (fault : Fault) :
      (Stoppable.both m k).run (some fault) = ((a, b), some fault) := by
    rw [hrun, hm.stopped, hk.stopped]
  cases hstop : stop? (s a) with
  | none =>
    have hfresh : (Stoppable.both m k).run none =
        (((m.run none).1, (k.run none).1), (k.run none).2) := by
      rw [hrun, hm.fault, hstop]
    refine ⟨hstopped, ?_, ?_, ?_⟩ <;> rw [hfresh]
    · rw [Slot.stop?_append, hstop, Option.none_or, ← hk.fault]
    · rw [hm.slots, hk.slots, Slot.rewriteBefore_append_of_none hstop]
    · exact Prod.ext hm.outline hk.outline
  | some fault =>
    have hhalted : (Stoppable.both m k).run none = (((m.run none).1, b), some fault) := by
      rw [hrun, hm.fault, hstop, hk.stopped]
    refine ⟨hstopped, ?_, ?_, ?_⟩ <;> rw [hhalted]
    · rw [Slot.stop?_append, hstop, Option.some_or]
    · rw [hm.slots, Slot.rewriteBefore_append_of_some hstop]
    · exact Prod.ext hm.outline rfl

/-- Work on a part of a value, with all its slots. -/
theorem map {f : α → β} (hm : Visits w s o m a) (hs : ∀ x, s' (f x) = s x)
    (ho : ∀ x, o' (f x) = f (o x)) :
    Visits w s' o' (m >>= fun x => Pure.pure (f x)) (f a) := by
  have hrun (stop : Option Fault) : (m >>= fun x => (Pure.pure (f x) : Stoppable β)).run stop =
      (f (m.run stop).1, (m.run stop).2) := rfl
  constructor
  · intro fault
    rw [hrun, hm.stopped]
  · rw [hrun, hs, hm.fault]
  · rw [hrun, hs, hs, hm.slots]
  · rw [hrun, ho, ho, hm.outline]

/-- Work on the elements of a list in turn. -/
theorem mapM {l : List α} {work : α → Stoppable α} (h : ∀ a ∈ l, Visits w s o (work a) a) :
    Visits w (List.flatMap s) (List.map o) (l.mapM work) l := by
  induction l with
  | nil => exact Visits.pure rfl
  | cons a l ih =>
    obtain ⟨ha, hl⟩ := List.forall_mem_cons.mp h
    rw [List.mapM_cons]
    refine (ha.both (ih hl)).map (f := fun p => p.1 :: p.2) ?_ ?_
    · exact fun _ => List.flatMap_cons
    · exact fun _ => rfl

theorem renameOption {rename : α → Stoppable α} (h : ∀ a, Visits w s o (rename a) a)
    (x : Option α) :
    Visits w (fun x => x.toList.flatMap s) (Option.map o) (GoSource.renameOption rename x) x := by
  cases x with
  | none => exact Visits.pure rfl
  | some a => exact (h a).map (f := some) (fun _ => by simp) (fun _ => rfl)

end Visits

end Stoppable

open Stoppable (Visits)

section Rename

variable (r : Renaming)

theorem visits_package (name : String) :
    Visits r.rewriting (fun name => [.package name]) (fun _ => "")
      (Stoppable.change r.name name) name :=
  Visits.change .package (fun _ => rfl) (fun _ => rfl) (fun _ => rfl) name

theorem visits_code (text : String) :
    Visits r.rewriting (fun text => [.code text]) (fun _ => "")
      (Stoppable.change r.code text) text :=
  Visits.change .code (fun _ => rfl) (fun _ => rfl) (fun _ => rfl) text

theorem Import.rename_visits (i : Import) :
    Visits r.rewriting (fun i => slotsOf i.parts) Rewriting.blank.entry (i.rename r) i := by
  refine Visits.change .entry (fun _ => rfl) (fun _ => rfl) ?_ i
  intro i
  simp only [Renaming.rewriting, Rewriting.ofAlias, Rewriting.blank]
  split <;> rfl

theorem TypeExpr.rename_visits (t : TypeExpr) :
    Visits r.rewriting (fun t => slotsOf t.parts) (TypeExpr.rewrite .blank) (t.rename r) t := by
  have fields : ∀ fs : List Field,
      (∀ f ∈ fs, Visits r.rewriting (fun t => slotsOf t.parts) (TypeExpr.rewrite .blank)
        (f.type.rename r) f.type) →
      Visits r.rewriting (List.flatMap fun f => slotsOf f.parts)
        (List.map (Field.rewrite .blank)) (fs.mapM (Field.rename r)) fs := by
    intro fs h
    apply Visits.mapM
    rintro ⟨name, tag, comment, annotations, type⟩ hf
    exact Visits.map (f := fun type => Field.mk name tag comment annotations type) (h _ hf)
      (fun _ => rfl) (fun _ => rfl)
  induction t using TypeExpr.induction with
  | named type =>
    exact Visits.map (f := fun package => TypeExpr.named { type with package })
      (visits_package r type.package) (fun _ => rfl) (fun _ => rfl)
  | array element length ellipsis ih =>
    exact Visits.map (f := fun element => TypeExpr.array element length ellipsis) ih
      (fun _ => rfl) (fun _ => rfl)
  | map key value hk hv =>
    refine (hk.both hv).map (f := fun p => TypeExpr.map p.1 p.2) ?_ ?_
    · exact fun _ => slotsOf_append ..
    · exact fun _ => rfl
  | struct fs ih =>
    rw [TypeExpr.rename, Field.renameAll_eq]
    refine (fields fs ih).map ?_ ?_
    · simp [TypeExpr.parts, Node.ownSlots]
    · simp [TypeExpr.rewrite]
  | interface fs ih =>
    rw [TypeExpr.rename, Field.renameAll_eq]
    refine (fields fs ih).map ?_ ?_
    · simp [TypeExpr.parts, Node.ownSlots]
    · simp [TypeExpr.rewrite]
  | func s hp hr =>
    obtain ⟨params, results, variadic⟩ := s
    rw [TypeExpr.rename, Signature.rename_eq]
    refine ((fields _ hp).both (fields _ hr)).map
      (f := fun p => TypeExpr.func ⟨p.1, p.2, variadic⟩) ?_ ?_
    · simp [TypeExpr.parts, Node.ownSlots]
    · simp [TypeExpr.rewrite]
  | foreign kind data => exact ⟨fun _ => rfl, rfl, rfl, rfl⟩

theorem Field.rename_visits (f : Field) :
    Visits r.rewriting (fun f => slotsOf f.parts) (Field.rewrite .blank) (f.rename r) f := by
  obtain ⟨name, tag, comment, annotations, type⟩ := f
  exact Visits.map (f := fun type => Field.mk name tag comment annotations type)
    (type.rename_visits r) (fun _ => rfl) (fun _ => rfl)

theorem Signature.rename_visits (s : Signature) :
    Visits r.rewriting (fun s => slotsOf s.parts) (Signature.rewrite .blank) (s.rename r) s := by
  obtain ⟨params, results, variadic⟩ := s
  have hfields (fs : List Field) := Visits.mapM (l := fs) fun f _ => f.rename_visits r
  rw [Signature.rename_eq]
  refine ((hfields params).both (hfields results)).map
    (f := fun p => Signature.mk p.1 p.2 variadic) ?_ ?_
  · simp
  · simp

theorem Const.rename_visits (c : Const) :
    Visits r.rewriting (fun c => slotsOf c.parts) (Const.rewrite .blank) (c.rename r) c := by
  have htype := Visits.renameOption (TypeExpr.rename_visits r) c.type
  refine (htype.both (visits_code r c.value)).map
    (f := fun p => { c with type := p.1, value := p.2 }) ?_ ?_
  · simp [Const.parts, Node.ownSlots]
  · exact fun _ => rfl

theorem Var.rename_visits (v : Var) :
    Visits r.rewriting (fun v => slotsOf v.parts) (Var.rewrite .blank) (v.rename r) v := by
  have htype := Visits.renameOption (TypeExpr.rename_visits r) v.type
  refine (htype.both (visits_code r v.value)).map
    (f := fun p => { v with type := p.1, value := p.2 }) ?_ ?_
  · simp [Var.parts, Node.ownSlots]
  · exact fun _ => rfl

theorem TypeDecl.rename_visits (t : TypeDecl) :
    Visits r.rewriting (fun t => slotsOf t.parts) (TypeDecl.rewrite .blank) (t.rename r) t :=
  Visits.map (f := fun type => { t with type }) (t.type.rename_visits r) (fun _ => rfl)
    (fun _ => rfl)

theorem FuncDecl.rename_visits (f : FuncDecl) :
    Visits r.rewriting (fun f => slotsOf f.parts) (FuncDecl.rewrite .blank) (f.rename r) f := by
  have hreceiver := Visits.renameOption (Field.rename_visits r) f.receiver
  have hrest := (f.signature.rename_visits r).both (visits_code r f.content)
  refine (hreceiver.both hrest).map
    (f := fun p => { f with receiver := p.1, signature := p.2.1, content := p.2.2 }) ?_ ?_
  · simp [FuncDecl.parts, TypeExpr.parts, Node.ownSlots]
  · exact fun _ => rfl

theorem Group.rename_visits {α : Type} (node : Group α → Node) {parts : α → List Node}
    {rename : α → Stoppable α} {outline : α → α} (hnode : ∀ g, (node g).ownSlots = [])
    (h : ∀ a, Visits r.rewriting (fun a => slotsOf (parts a)) outline (rename a) a)
    (g : Group α) :
    Visits r.rewriting (fun g => slotsOf (g.parts node parts)) (Group.mapItems outline)
      (g.rename rename) g := by
  refine (Visits.mapM (l := g.items) fun a _ => h a).map
    (f := fun items => { g with items }) ?_ ?_
  · simp [Group.parts, hnode]
  · exact fun _ => rfl

theorem File.rename_visits (f : File) :
    Visits r.rewriting (fun f => slotsOf f.parts) (File.rewrite .blank) (f.rename r) f := by
  have hi := Visits.mapM (l := f.imports) fun g _ =>
    Group.rename_visits r .importGroup (fun _ => rfl) (Import.rename_visits r) g
  have hc := Visits.mapM (l := f.consts) fun g _ =>
    Group.rename_visits r .constGroup (fun _ => rfl) (Const.rename_visits r) g
  have hv := Visits.mapM (l := f.vars) fun g _ =>
    Group.rename_visits r .varGroup (fun _ => rfl) (Var.rename_visits r) g
  have ht := Visits.mapM (l := f.types) fun g _ =>
    Group.rename_visits r .typeGroup (fun _ => rfl) (TypeDecl.rename_visits r) g
  have hf := Visits.mapM (l := f.funcs) fun g _ => g.rename_visits r
  refine ((visits_code r f.content).both (hi.both (hc.both (hv.both (ht.both hf))))).map
    (f := fun p => { f with
      content := p.1, imports := p.2.1, consts := p.2.2.1, vars := p.2.2.2.1,
      types := p.2.2.2.2.1, funcs := p.2.2.2.2.2 }) ?_ ?_
  · simp [File.parts, Node.ownSlots]
  · exact fun _ => rfl

/-- A renaming rewrites the slots of a node one after another, up to its first foreign type,
and keeps everything else. -/
theorem Node.rename_visits (n : Node) :
    Visits r.rewriting Node.slots Node.outline (n.rename r) n := by
  cases n with
  | type t => exact Visits.map (t.rename_visits r) (fun _ => rfl) (fun _ => rfl)
  | field f => exact Visits.map (f.rename_visits r) (fun _ => rfl) (fun _ => rfl)
  | const c => exact Visits.map (c.rename_visits r) (fun _ => rfl) (fun _ => rfl)
  | var v => exact Visits.map (v.rename_visits r) (fun _ => rfl) (fun _ => rfl)
  | typeDecl t => exact Visits.map (t.rename_visits r) (fun _ => rfl) (fun _ => rfl)
  | func f => exact Visits.map (f.rename_visits r) (fun _ => rfl) (fun _ => rfl)
  | importDecl i => exact Visits.map (i.rename_visits r) (fun _ => rfl) (fun _ => rfl)
  | constGroup g =>
    exact Visits.map (Group.rename_visits r .constGroup (fun _ => rfl) (Const.rename_visits r) g)
      (fun _ => rfl) (fun _ => rfl)
  | varGroup g =>
    exact Visits.map (Group.rename_visits r .varGroup (fun _ => rfl) (Var.rename_visits r) g)
      (fun _ => rfl) (fun _ => rfl)
  | typeGroup g =>
    exact Visits.map (Group.rename_visits r .typeGroup (fun _ => rfl) (TypeDecl.rename_visits r) g)
      (fun _ => rfl) (fun _ => rfl)
  | importGroup g =>
    exact Visits.map (Group.rename_visits r .importGroup (fun _ => rfl) (Import.rename_visits r) g)
      (fun _ => rfl) (fun _ => rfl)
  | file f => exact Visits.map (f.rename_visits r) (fun _ => rfl) (fun _ => rfl)

end Rename

section Collect

/-- What a collection looks at in a slot. -/
def Slot.mentions : Slot → List Mention
  | package name => if name.isEmpty then [] else [.package name]
  | code text => [.code text]
  | entry _ => []
  | foreign kind => [.foreign kind]

theorem Node.ownMentions_eq_slots (n : Node) :
    n.ownMentions = n.ownSlots.flatMap Slot.mentions := by
  cases n with
  | type t =>
    cases t with
    | named t =>
      cases h : t.package.isEmpty <;>
        simp [ownMentions, ownSlots, Slot.mentions, NamedType.isQualified, h]
    | _ => rfl
  | _ => rfl

/-- A collection looks at the slots of a node in the order in which a renaming visits them. -/
theorem Node.mentions_eq_slots {n : Node} (h : n.isImport = false) :
    n.mentions = n.slots.flatMap Slot.mentions := by
  rw [mentions_eq_parts h, slots, slotsOf, List.flatMap_assoc]
  exact List.flatMap_congr fun p _ => p.ownMentions_eq_slots

/-- A slot that can be looked into adds the imports that it uses. -/
theorem collect_slot {imports : List Import} {slot : Slot} (h : slot.fault? = none)
    (ms : List Mention) (found : ImportSet) :
    collect imports (slot.mentions ++ ms) found =
      collect imports ms (found.insertAll (imports.filter slot.uses)) := by
  cases slot with
  | package name =>
    cases hname : name.isEmpty with
    | true =>
      have huses : (Slot.package name).uses = fun _ => false := by
        funext i
        simp [Slot.uses, hname]
      simp [Slot.mentions, hname, huses, ImportSet.insertAll]
    | false =>
      have huses : (Slot.package name).uses = (Mention.package name).refersTo := by
        funext i
        simp [Slot.uses, Mention.refersTo, hname]
      simp [Slot.mentions, hname, huses, collect]
  | code text => rfl
  | entry i =>
    have huses : (Slot.entry i).uses = fun _ => false := rfl
    simp [Slot.mentions, huses, ImportSet.insertAll]
  | foreign kind => cases h

/-- A collection stops at the first foreign type and keeps what it found before. -/
theorem collect_slots {imports : List Import} {before after : List Slot} {kind : String}
    (h : ∀ slot ∈ before, slot.fault? = none) (found : ImportSet) :
    collect imports ((before ++ .foreign kind :: after).flatMap Slot.mentions) found =
      (found.insertAll (before.flatMap fun slot => imports.filter slot.uses),
        some (.onPart "Spec" (.foreignType kind))) := by
  induction before generalizing found with
  | nil => rfl
  | cons slot before ih =>
    obtain ⟨hslot, hbefore⟩ := List.forall_mem_cons.mp h
    rw [List.cons_append, List.flatMap_cons, collect_slot hslot, ih hbefore, List.flatMap_cons,
      ImportSet.insertAll_append]

end Collect

/-- Imports hold no foreign types. -/
theorem Node.isImport_eq_false_of_hasForeign {n : Node} (h : n.HasForeign) :
    n.isImport = false := by
  obtain ⟨kind, data, hmem⟩ := h
  cases n with
  | importDecl i => simp [parts, Import.parts] at hmem
  | importGroup g => simp [parts, Group.parts, Import.parts] at hmem
  | _ => rfl

/-- The slots of a node with a foreign type, cut at the first one. -/
theorem Node.exists_slots_of_hasForeign {n : Node} (h : n.HasForeign) :
    ∃ before kind after, n.slots = before ++ .foreign kind :: after ∧
      ∀ slot ∈ before, slot.fault? = none := by
  obtain ⟨kind, data, hmem⟩ := h
  have hslot : .foreign kind ∈ n.slots := List.mem_flatMap.mpr ⟨_, hmem, by simp [ownSlots]⟩
  have hstop : (stop? n.slots).isSome = true := by
    rw [stop?, List.findSome?_isSome_iff]
    exact ⟨_, hslot, rfl⟩
  obtain ⟨fault, hfault⟩ := Option.isSome_iff_exists.mp hstop
  obtain ⟨before, slot, after, hslots, hslot, hbefore⟩ := List.findSome?_eq_some_iff.mp hfault
  cases slot with
  | foreign kind => exact ⟨before, kind, after, hslots, hbefore⟩
  | _ => cases hslot

/-- Collecting and renaming stop at the same place of a node with a foreign type, its first one
in the order of the slots, and with the same fault, which names that type. The renaming has
then rewritten the slots before it, and has changed neither a later slot nor anything else;
the collection has gained the imports that the slots before it use and that were not there,
each once and in the order of their first use. -/
theorem Node.stops_at_first_foreign {n : Node} (h : n.HasForeign) (f : File) (found : ImportSet)
    (r : Renaming) :
    ∃ before kind after, n.slots = before ++ .foreign kind :: after ∧
      (∀ other, .foreign other ∉ before) ∧
      (n.applyRenaming r).2 = some (.invariant [.part "Spec"] (.foreignType kind)) ∧
      (n.collectImports f found).2 = some (.invariant [.part "Spec"] (.foreignType kind)) ∧
      (Violation.foreignType kind).message = "invalid type " ++ kind ∧
      (n.applyRenaming r).1.slots =
        before.map (Slot.rewrite r.rewriting) ++ .foreign kind :: after ∧
      (n.applyRenaming r).1.outline = n.outline ∧
      (n.collectImports f found).1.entries = found.entries ++
        ((before.flatMap fun slot => f.allImports.filter slot.uses).eraseDupsBy
          Import.same).filter fun i => !found.contains i := by
  obtain ⟨before, kind, after, hslots, hbefore⟩ := exists_slots_of_hasForeign h
  have hstop : stop? before = none := List.findSome?_eq_none_iff.mpr hbefore
  have hvisits := n.rename_visits r
  have hcollect : n.collectImports f found =
      (found.insertAll (before.flatMap fun slot => f.allImports.filter slot.uses),
        some (.onPart "Spec" (.foreignType kind))) := by
    rw [collectImports, mentions_eq_slots (isImport_eq_false_of_hasForeign h), hslots,
      collect_slots hbefore]
  refine ⟨before, kind, after, hslots, ?_, ?_, ?_, ?_, ?_, hvisits.outline, ?_⟩
  · intro other hmem
    cases hbefore _ hmem
  · rw [applyRenaming, hvisits.fault, hslots, Slot.stop?_append, hstop]
    rfl
  · rw [hcollect]
    rfl
  · rfl
  · rw [applyRenaming, hvisits.slots, hslots, Slot.rewriteBefore_append_of_none hstop,
      Slot.rewriteBefore_of_none hstop]
    rfl
  · rw [hcollect]
    exact ImportSet.entries_insertAll ..

/-- A file whose only foreign type is the value type of a map, between other uses of one of
its imports. -/
def File.mocked : File where
  name := "f.go"
  package := "p"
  content := "x.A"
  imports := [{ items := [{ path := "a/x" }, { path := "b/z" }, { path := "c/w" }] }]
  consts := [{ items := [
    { name := "c", type := some (.named ⟨"x", "T", true⟩), value := "x.B" }] }]
  vars := [{ items := [{
    name := "v"
    type := some (.map (.named ⟨"z", "K", false⟩) (.foreign "MockSpec" ""))
    value := "x.C + w.D" }] }]
  funcs := [{ name := "F", signature := ⟨[], [], false⟩, content := "x.E()" }]

theorem File.hasForeign_mocked : (Node.file File.mocked).HasForeign :=
  ⟨"MockSpec", "", by simp [File.mocked, Node.parts, File.parts, Group.parts, Import.parts,
    Const.parts, Var.parts, FuncDecl.parts, TypeExpr.parts]⟩

/-- What stands before the foreign type is renamed and collected, and what stands after it
is neither. -/
theorem Node.stops_at_first_foreign_mocked :
    let r : Renaming := ⟨"x", "y", by decide, by decide⟩
    ((Node.file File.mocked).applyRenaming r).1.slots =
      [.code "y.A", .entry { localName := "y", path := "a/x" }, .entry { path := "b/z" },
        .entry { path := "c/w" }, .package "y", .code "y.B", .package "z", .foreign "MockSpec",
        .code "x.C + w.D", .code "x.E()"] ∧
    ((Node.file File.mocked).collectImports File.mocked {}).1.entries =
      [{ path := "a/x" }, { path := "b/z" }] := by
  intro r
  obtain ⟨before, kind, after, hslots, hfree, -, -, -, hrenamed, -, hentries⟩ :=
    Node.stops_at_first_foreign File.hasForeign_mocked File.mocked {} r
  have hbefore : ∀ slot ∈ before, slot.fault?.isNone = true := by
    intro slot hslot
    rw [Option.isNone_iff_eq_none, Slot.fault?_eq_none_iff]
    rintro other rfl
    exact hfree other hslot
  have hstop : ∀ slot ∈ (Slot.foreign kind :: after).head?, slot.fault?.isNone = false := by
    simp [Slot.fault?]
  obtain ⟨htake, hdrop⟩ := takeWhile_append_of_head hbefore hstop
  rw [← hslots] at htake hdrop
  rw [← htake] at hrenamed hentries
  rw [← hdrop] at hrenamed
  rw [hrenamed, hentries]
  decide +kernel

end GoSource
