import GoSource.Proofs.Validate.Rules

/-!
# Where the fault of a type lies

The path of a fault leads from the type that was validated through elements, keys, fields,
parameters and results to one type or field below it, and ends with a field of that one. In
every list that the path enters, what stands before the place has passed. That the fields
after the place would pass too is not said.
-/

namespace GoSource

/-- The fields that a type holds under the name that a path gives to their list. -/
def TypeExpr.members (list : String) : TypeExpr → List Field
  | .struct fields => if list = "Fields" then fields else []
  | .interface members => if list = "Fields" then members else []
  | .func s => if list = "Params" then s.params else if list = "Results" then s.results else []
  | _ => []

namespace Node

/-- The type or field right below this one to which a segment leads. -/
def child? : Node → Segment → Option Node
  | type (.array element _ _), .part "Value" => some (type element)
  | type (.map key _), .part "Key" => some (type key)
  | type (.map _ value), .part "Value" => some (type value)
  | type t, .item list index => (t.members list)[index]?.map field
  | field f, .part "Spec" => some (type f.type)
  | _, _ => none

/-- The type or field to which a path leads; the empty path leads to the node itself. -/
def descendant? (n : Node) (path : List Segment) : Option Node := path.foldlM child? n

/-- The fields by which a fault can name what is wrong with a type or a field. -/
def ownFields : Node → List Segment
  | type (.named _) => [.part "TypeName", .part "PackageName"]
  | type (.array ..) => [.part "Length", .part "IsEllipsis"]
  | type (.func _) => [.part "IsVariadic", .part "Results"]
  | type (.foreign ..) => [.part "Spec"]
  | field f => .part "Name" :: .part "Spec" ::
      (List.range f.annotations.length).map (.item "Annotations")
  | _ => []

end Node

namespace Fault

/-- A rule is broken below the node. The path leads to a type or field that exists and then
names a field of it, and wherever it enters a list the fields before that place pass. -/
def LiesIn (fault : Fault) (n : Node) : Prop :=
  ∃ steps blamed violation m, fault = .invariant (steps ++ [blamed]) violation ∧
    n.descendant? steps = some m ∧ blamed ∈ m.ownFields ∧
    ∀ before list index after t, steps = before ++ .item list index :: after →
      n.descendant? before = some (.type t) →
      ∀ f ∈ (t.members list).take index, f.validate = .ok ()

variable {fault : Fault} {n m : Node} {segment : Segment}

theorem liesIn_own {violation : Violation} (h : segment ∈ n.ownFields) :
    (Fault.invariant [segment] violation).LiesIn n :=
  ⟨[], segment, violation, n, rfl, rfl, h, by simp⟩

/-- A fault of something below the node lies in the node as well, one step further away. -/
theorem LiesIn.within (h : fault.LiesIn m) (hchild : n.child? segment = some m)
    (hearlier : ∀ t list index, n = .type t → segment = .item list index →
      ∀ f ∈ (t.members list).take index, f.validate = .ok ()) :
    (fault.within segment).LiesIn n := by
  obtain ⟨steps, blamed, violation, k, rfl, hsteps, hblamed, hpass⟩ := h
  have hfollow (path : List Segment) :
      n.descendant? (segment :: path) = m.descendant? path := by
    rw [Node.descendant?, List.foldlM_cons, hchild]
    rfl
  refine ⟨segment :: steps, blamed, violation, k, rfl, ?_, hblamed, ?_⟩
  · rw [hfollow, hsteps]
  · intro before list index after t hcut hbefore
    -- The list is entered by the first step, or by one of those that were there before.
    rcases List.cons_eq_append_iff.mp hcut with ⟨rfl, hfirst⟩ | ⟨rest, rfl, hrest⟩
    · obtain ⟨hsegment, -⟩ := List.cons.inj hfirst
      exact hearlier t list index (Option.some.inj hbefore) hsegment.symm
    · exact hpass rest list index after t hrest (by rw [← hbefore, hfollow])

theorem LiesIn.withinPart {name : String} (h : fault.LiesIn m)
    (hchild : n.child? (.part name) = some m) : (fault.within (.part name)).LiesIn n :=
  h.within hchild fun _ _ _ _ hitem => nomatch hitem

end Fault

namespace Verdict

/-- Whatever fault the verdict names lies in the node. -/
def Locates (v : Verdict) (n : Node) : Prop := ∀ fault, v = .error fault → fault.LiesIn n

namespace Locates

variable {v w : Verdict} {n m : Node} {segment : Segment}

theorem ok : Locates (.ok ()) n := fun _ h => nomatch h

theorem error {fault : Fault} (h : fault.LiesIn n) : Locates (.error fault) n := by
  rintro _ ⟨⟩
  exact h

theorem require {condition : Bool} {fault : Fault} (h : fault.LiesIn n) :
    (Verdict.require condition fault).Locates n := by
  cases condition with
  | true => exact ok
  | false => exact error h

/-- The second check is made only if the first has passed. -/
theorem bind (hv : v.Locates n) (hw : v = .ok () → w.Locates n) :
    Locates (v >>= fun _ => w) n := by
  cases v with
  | ok => exact hw rfl
  | error fault => exact error (hv fault rfl)

theorem within (hv : v.Locates m) (hchild : n.child? segment = some m)
    (hearlier : ∀ t list index, n = .type t → segment = .item list index →
      ∀ f ∈ (t.members list).take index, f.validate = .ok ()) :
    (Verdict.within segment v).Locates n := by
  cases v with
  | ok => exact ok
  | error fault => exact error ((hv fault rfl).within hchild hearlier)

theorem withinPart {name : String} (hv : v.Locates m)
    (hchild : n.child? (.part name) = some m) : (Verdict.within (.part name) v).Locates n := by
  cases v with
  | ok => exact ok
  | error fault => exact error ((hv fault rfl).withinPart hchild)

end Locates

end Verdict

open Verdict (Locates)

section Rules

theorem optionalName_locates {n : Node} {part : String} (h : .part part ∈ n.ownFields)
    (value : String) : (optionalName part value).Locates n :=
  .require (Fault.liesIn_own h)

theorem requireName_locates {n : Node} {part : String} (h : .part part ∈ n.ownFields)
    (value : String) : (requireName part value).Locates n :=
  .bind (.require (Fault.liesIn_own h)) fun _ => optionalName_locates h value

theorem checkLength_locates (element : TypeExpr) (length : Int) (ellipsis : Bool) :
    (checkLength length ellipsis).Locates (.type (.array element length ellipsis)) := by
  refine .bind (.require ?_) fun _ => .require ?_
  · exact Fault.liesIn_own (by simp [Node.ownFields])
  · exact Fault.liesIn_own (by simp [Node.ownFields])

/-- The annotation that is blamed is one of those of the field. -/
theorem Annotations.validateFrom_locates {f : Field} {index : Nat} {as : Annotations}
    (h : index + as.length ≤ f.annotations.length) :
    (Annotations.validateFrom index as).Locates (.field f) := by
  induction as generalizing index with
  | nil => exact .ok
  | cons a as ih =>
    rw [List.length_cons] at h
    rw [Annotations.validateFrom]
    split
    · refine .error (Fault.liesIn_own ?_)
      simp only [Node.ownFields, List.mem_cons, List.mem_map, List.mem_range]
      exact .inr (.inr ⟨index, by omega, rfl⟩)
    · exact ih (by omega)

/-- What the place of a field asks of it is blamed on the field. -/
theorem Place.rule_locates (place : Place) (f : Field) : (place.rule f).Locates (.field f) := by
  have hspec (violation : Violation) : (Fault.onPart "Spec" violation).LiesIn (.field f) :=
    Fault.liesIn_own (by simp [Node.ownFields])
  have hname (violation : Violation) : (Fault.onPart "Name" violation).LiesIn (.field f) :=
    Fault.liesIn_own (by simp [Node.ownFields])
  cases place with
  | structField => exact .require (hspec _)
  | interfaceMember =>
    rw [Place.rule]
    split
    · exact .require (hspec _)
    · exact .ok
    · exact .error (hname _)
    · exact .error (hspec _)
    · exact .error (hspec _)
  | param => exact .ok
  | result => exact .ok

end Rules

section Fields

theorem Field.validate_locates {f : Field} (h : f.type.validate.Locates (.type f.type)) :
    f.validate.Locates (.field f) := by
  obtain ⟨name, tag, comment, annotations, type⟩ := f
  rw [Field.validate]
  refine .bind (optionalName_locates (by simp [Node.ownFields]) name) fun _ => ?_
  refine .bind (Annotations.validateFrom_locates (by simp)) fun _ => ?_
  exact h.withinPart rfl

/-- The fields of one place, from some point on: when a fault is met, all before it have
passed. -/
theorem Field.validateAll_locates_after {t : TypeExpr} {place : Place} {fs : List Field}
    (passed : List Field) (hmembers : t.members place.list = passed ++ fs)
    (hpassed : ∀ f ∈ passed, f.validate = .ok ())
    (h : ∀ f ∈ fs, f.validate.Locates (.field f)) :
    (Field.validateAll place passed.length fs).Locates (.type t) := by
  induction fs generalizing passed with
  | nil => exact .ok
  | cons f fs ih =>
    rw [Field.validateAll]
    have hf : Locates (do place.rule f; f.validate) (.field f) :=
      .bind (place.rule_locates f) fun _ => h f (by simp)
    refine .bind (hf.within ?_ ?_) fun hok => ?_
    · simp [Node.child?, hmembers]
    · rintro _ _ _ ⟨⟩ ⟨⟩
      rw [hmembers, List.take_left]
      exact hpassed
    · have hvalid : f.validate = .ok () := (Verdict.bind_eq_ok.mp (Verdict.within_eq_ok.mp hok)).2
      have hrest := ih (passed ++ [f]) (by simp [hmembers])
        (by simpa [or_imp, forall_and] using ⟨hpassed, hvalid⟩)
        fun g hg => h g (List.mem_cons_of_mem _ hg)
      rwa [List.length_append] at hrest

theorem Field.validateAll_locates {t : TypeExpr} {place : Place} {fs : List Field}
    (hmembers : t.members place.list = fs)
    (h : ∀ f ∈ fs, f.type.validate.Locates (.type f.type)) :
    (Field.validateAll place 0 fs).Locates (.type t) :=
  Field.validateAll_locates_after [] hmembers (by simp)
    fun f hf => Field.validate_locates (h f hf)

/-- The last parameter is blamed once all parameters have passed. -/
theorem checkVariadic_locates {s : Signature} (h : ∀ f ∈ s.params, f.validate = .ok ()) :
    (checkVariadic s.params).Locates (.type (.func s)) := by
  have hblamed {last : Field} (hlast : s.params.getLast? = some last) (violation : Violation) :
      ((Fault.onPart "Spec" violation).within (.item "Params" (s.params.length - 1))).LiesIn
        (.type (.func s)) := by
    have hspec : (Fault.onPart "Spec" violation).LiesIn (.field last) :=
      Fault.liesIn_own (by simp [Node.ownFields])
    refine hspec.within ?_ ?_
    · rw [List.getLast?_eq_getElem?] at hlast
      simp [Node.child?, TypeExpr.members, hlast]
    · rintro _ _ _ ⟨⟩ ⟨⟩ f hf
      exact h f (List.mem_of_mem_take hf)
  unfold checkVariadic
  split
  · exact .error (Fault.liesIn_own (by simp [Node.ownFields]))
  · rename_i last hlast
    simp only
    split
    · exact .require (hblamed hlast _)
    · exact .error (hblamed hlast _)

theorem checkResults_locates (s : Signature) :
    (checkResults s.results).Locates (.type (.func s)) :=
  .require (Fault.liesIn_own (by simp [Node.ownFields]))

end Fields

/-- Whatever rule a type breaks, the fault lies in the type. -/
theorem TypeExpr.validate_locates (t : TypeExpr) : t.validate.Locates (.type t) := by
  induction t using TypeExpr.induction with
  | named type =>
    refine .bind (requireName_locates ?_ type.name) fun _ => optionalName_locates ?_ type.package
    · simp [Node.ownFields]
    · simp [Node.ownFields]
  | array element length ellipsis ih =>
    exact .bind (checkLength_locates element length ellipsis) fun _ => ih.withinPart rfl
  | map key value hk hv => exact .bind (hk.withinPart rfl) fun _ => hv.withinPart rfl
  | struct fs ih => exact Field.validateAll_locates (by simp [TypeExpr.members, Place.list]) ih
  | interface fs ih => exact Field.validateAll_locates (by simp [TypeExpr.members, Place.list]) ih
  | func s hp hr =>
    obtain ⟨params, results, variadic⟩ := s
    rw [TypeExpr.validate, Signature.validate]
    refine .bind ?_ fun hparams => .bind ?_ fun _ => ?_
    · exact Field.validateAll_locates (by simp [TypeExpr.members, Place.list]) hp
    · exact Field.validateAll_locates (by simp [TypeExpr.members, Place.list]) hr
    · have hresults := checkResults_locates ⟨params, results, variadic⟩
      dsimp only
      split
      · have hvalid : ∀ f ∈ params, f.validate = .ok () := fun f hf =>
          (Field.validateAll_eq_ok.mp hparams f hf).2
        exact .bind (checkVariadic_locates (s := ⟨params, results, variadic⟩) hvalid)
          fun _ => hresults
      · exact hresults
  | foreign kind data => exact .error (Fault.liesIn_own (by simp [Node.ownFields]))

/-- What is wrong with a type does not depend on how free text is judged. It is always a broken
rule, never a text or an argument, and its path leads to a part that exists. -/
theorem Node.validate_type_liesIn (t : TypeExpr) (checker : Checker) :
    (∀ other, (Node.type t).validate other = (Node.type t).validate checker) ∧
      ∀ fault, (Node.type t).validate checker = .error fault → fault.LiesIn (.type t) :=
  ⟨fun _ => rfl, t.validate_locates⟩

/-- A struct whose second field takes a map of arrays of a negative length. -/
def TypeExpr.lookup : TypeExpr :=
  .struct [
    ⟨"Name", "", "", [], .named ⟨"", "string", false⟩⟩,
    ⟨"Find", "", "", [], .func ⟨
      [⟨"key", "", "", [], .named ⟨"", "string", false⟩⟩,
        ⟨"in", "", "", [], .map (.named ⟨"", "string", false⟩)
          (.array (.named ⟨"", "int", false⟩) (-1) false)⟩],
      [], false⟩⟩]

/-- The path leads to the array, and stops at its length. -/
theorem Node.validate_lookup_liesIn :
    (Node.type TypeExpr.lookup).validate .standard = .error (.invariant
      [.item "Fields" 1, .part "Spec", .item "Params" 1, .part "Spec", .part "Value",
        .part "Length"] (.negativeLength (-1))) ∧
    ∃ n, (Node.type TypeExpr.lookup).descendant?
        [.item "Fields" 1, .part "Spec", .item "Params" 1, .part "Spec", .part "Value"] = some n ∧
      .part "Length" ∈ n.ownFields := by
  have hfault : (Node.type TypeExpr.lookup).validate .standard = .error (.invariant
      [.item "Fields" 1, .part "Spec", .item "Params" 1, .part "Spec", .part "Value",
        .part "Length"] (.negativeLength (-1))) := by decide +kernel
  obtain ⟨steps, blamed, violation, n, hpath, hn, hblamed, -⟩ :=
    (Node.validate_type_liesIn TypeExpr.lookup .standard).2 _ hfault
  obtain ⟨hpath, -⟩ := Fault.invariant.inj hpath
  have hsteps := congrArg List.dropLast hpath
  have hlast := congrArg List.getLast? hpath
  rw [List.dropLast_concat] at hsteps
  rw [List.getLast?_concat] at hlast
  rw [← hsteps] at hn
  rw [← Option.some.inj hlast] at hblamed
  exact ⟨hfault, n, hn, hblamed⟩

end GoSource
