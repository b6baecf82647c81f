import GoSource.Proofs.Check.Phase

/-!
# Nested delimiters

Token lists whose delimiters are balanced and properly nested, as trees: a token that is
no delimiter, or a pair of delimiters with what stands inside, and then what follows. They
are the lists that leave no delimiter open and close none that was not opened. Every token
of a tree has a place, the delimiters around it; a judgement that only looks at places is
read off the tree.
-/

namespace GoSource

/-- Openers and closers. -/
def Kind.isDelimiter : Kind → Bool
  | opening _ | closing _ => true
  | _ => false

theorem Nesting.feed_plain {t : Token} (h : t.kind.isDelimiter = false) (n : Nesting) :
    n.feed t = .ok n := by
  unfold Nesting.feed
  cases hk : t.kind <;> simp_all [Kind.isDelimiter]

theorem Nesting.feed_opening {t : Token} {pair : Delimiter} (h : t.kind = .opening pair)
    (n : Nesting) : n.feed t = .ok (n.push ⟨pair, t.start⟩) := by
  rw [Nesting.feed, h]

/-- A closer takes off the opener that was put on top. -/
theorem Nesting.feed_push {t : Token} {o : Opened} (h : t.kind = .closing o.pair) (n : Nesting) :
    (n.push o).feed t = .ok n := by
  rw [Nesting.feed, h]
  by_cases hbrace : o.pair = .brace <;> simp [Nesting.push, hbrace]

/-- A closer that is taken has its opener on top. -/
theorem Nesting.feed_closing {n n' : Nesting} {t : Token} {pair : Delimiter}
    (h : t.kind = .closing pair) (hfeed : n.feed t = .ok n') :
    ∃ o, o.pair = pair ∧ n.opened = o :: n'.opened ∧
      n'.braces = if pair = .brace then n.braces - 1 else n.braces := by
  rw [Nesting.feed, h] at hfeed
  cases hopened : n.opened with
  | nil => simp [hopened] at hfeed
  | cons o outer =>
    simp only [hopened] at hfeed
    split at hfeed
    · rename_i hpair
      cases hfeed
      exact ⟨o, hpair, rfl, rfl⟩
    · cases hfeed

/-- Tokens, by their kinds, in which delimiters come in properly nested pairs. -/
inductive Nested where
  | done
  | token (kind : Kind) (plain : kind.isDelimiter = false) (next : Nested)
  | group (pair : Delimiter) (inside next : Nested)

/-- A token, by its kind, and the delimiters around it, innermost first. -/
structure Placed where
  kind : Kind
  around : List Delimiter

namespace Nested

/-- The kinds of the tokens in order. -/
def kinds : Nested → List Kind
  | done => []
  | token kind _ next => kind :: next.kinds
  | group pair inside next => .opening pair :: inside.kinds ++ .closing pair :: next.kinds

/-- The tokens in order, each with its place, if the whole stands inside `around`. A pair of
delimiters is around what stands between them and not around itself. -/
def placedIn (around : List Delimiter) : Nested → List Placed
  | done => []
  | token kind _ next => ⟨kind, around⟩ :: next.placedIn around
  | group pair inside next =>
    ⟨.opening pair, around⟩ :: inside.placedIn (pair :: around) ++
      ⟨.closing pair, around⟩ :: next.placedIn around

/-- The tokens in order, each with its place. -/
def placed (n : Nested) : List Placed := n.placedIn []

/-- The tokens outside all delimiters, outermost delimiters included. -/
def outermost (n : Nested) : List Kind :=
  (n.placed.filter fun t => t.around.isEmpty).map (·.kind)

theorem map_kind_placedIn (around : List Delimiter) (n : Nested) :
    (n.placedIn around).map (·.kind) = n.kinds := by
  induction n generalizing around with
  | done => rfl
  | token kind plain next ih => simp [placedIn, kinds, ih]
  | group pair inside next hi hn => simp [placedIn, kinds, hi, hn]

theorem mem_kinds_iff {n : Nested} {kind : Kind} :
    kind ∈ n.kinds ↔ ∃ t ∈ n.placed, t.kind = kind := by
  rw [← map_kind_placedIn [] n, List.mem_map]
  rfl

theorem mem_outermost_iff {n : Nested} {kind : Kind} :
    kind ∈ n.outermost ↔ ∃ t ∈ n.placed, t.around = [] ∧ t.kind = kind := by
  simp [outermost, and_assoc]

/-- What stands inside some delimiters stands outside none of them. -/
theorem around_ne_nil {around : List Delimiter} (h : around ≠ []) {n : Nested} {t : Placed}
    (ht : t ∈ n.placedIn around) : t.around ≠ [] := by
  induction n generalizing around with
  | done => cases ht
  | token kind plain next ih =>
    rcases List.mem_cons.mp ht with rfl | ht
    · exact h
    · exact ih h ht
  | group pair inside next hi hn =>
    rcases List.mem_append.mp ht with ht | ht
    · rcases List.mem_cons.mp ht with rfl | ht
      · exact h
      · exact hi (List.cons_ne_nil _ _) ht
    · rcases List.mem_cons.mp ht with rfl | ht
      · exact h
      · exact hn h ht

@[simp] theorem outermost_done : done.outermost = [] := rfl

@[simp] theorem outermost_token (kind : Kind) (plain : kind.isDelimiter = false) (next : Nested) :
    (token kind plain next).outermost = kind :: next.outermost := by
  simp [outermost, placed, placedIn]

@[simp] theorem outermost_group (pair : Delimiter) (inside next : Nested) :
    (group pair inside next).outermost = .opening pair :: .closing pair :: next.outermost := by
  have hinside : (inside.placedIn [pair]).filter (fun t => t.around.isEmpty) = [] := by
    rw [List.filter_eq_nil_iff]
    intro t ht
    simpa using around_ne_nil (List.cons_ne_nil _ _) ht
  simp [outermost, placed, placedIn, hinside]

end Nested

section Stack

variable {σ : Type}

/-- A machine that follows the open delimiters, at the places that `reached` holds of: a
token that is no delimiter is taken if `allowed` and changes nothing, an opener goes on top,
and its closer takes it off. -/
structure FollowsStack (step : σ → Kind → Option σ) (state : List Delimiter → σ)
    (reached : List Delimiter → Prop) (allowed : Placed → Prop) : Prop where
  token : ∀ {opened kind s}, reached opened → kind.isDelimiter = false →
    (step (state opened) kind = some s ↔ allowed ⟨kind, opened⟩ ∧ s = state opened)
  delimiter : ∀ {opened kind}, kind.isDelimiter = true → allowed ⟨kind, opened⟩
  reached_cons : ∀ {opened} pair, reached opened → reached (pair :: opened)
  opener : ∀ {opened} pair, reached opened →
    step (state opened) (.opening pair) = some (state (pair :: opened))
  closer : ∀ {opened} pair, reached opened →
    step (state (pair :: opened)) (.closing pair) = some (state opened)

/-- A machine that follows the stack passes over a tree if every token of it is allowed at
its place, and is then where it was before. -/
theorem FollowsStack.foldlM_kinds {step : σ → Kind → Option σ} {state : List Delimiter → σ}
    {reached : List Delimiter → Prop} {allowed : Placed → Prop}
    (h : FollowsStack step state reached allowed) (n : Nested) (opened : List Delimiter)
    (hopened : reached opened) (rest : List Kind) (final : σ) :
    (n.kinds ++ rest).foldlM step (state opened) = some final ↔
      (∀ t ∈ n.placedIn opened, allowed t) ∧ rest.foldlM step (state opened) = some final := by
  induction n generalizing opened rest with
  | done => simp [Nested.kinds, Nested.placedIn]
  | token kind plain next ih =>
    simp only [Nested.kinds, Nested.placedIn, List.cons_append, List.foldlM_cons,
      Option.bind_eq_bind, Option.bind_eq_some_iff, h.token hopened plain, List.forall_mem_cons]
    constructor
    · rintro ⟨s, ⟨hallowed, rfl⟩, hrun⟩
      obtain ⟨hnext, hrest⟩ := (ih opened hopened rest).mp hrun
      exact ⟨⟨hallowed, hnext⟩, hrest⟩
    · rintro ⟨⟨hallowed, hnext⟩, hrest⟩
      exact ⟨_, ⟨hallowed, rfl⟩, (ih opened hopened rest).mpr ⟨hnext, hrest⟩⟩
  | group pair inside next hi hn =>
    have hopener : allowed ⟨.opening pair, opened⟩ := h.delimiter rfl
    have hcloser : allowed ⟨.closing pair, opened⟩ := h.delimiter rfl
    simp only [Nested.kinds, Nested.placedIn, List.cons_append, List.append_assoc,
      List.foldlM_cons, h.opener pair hopened, Option.bind_eq_bind, Option.bind_some,
      hi _ (h.reached_cons pair hopened), h.closer pair hopened, hn _ hopened, List.forall_mem_cons,
      List.forall_mem_append, hopener, hcloser, true_and, and_assoc]

/-- The open delimiters after tokens of these kinds. -/
def feedAll (opened : List Delimiter) (kinds : List Kind) : Option (List Delimiter) :=
  kinds.foldlM feedDelimiters opened

@[simp] theorem feedAll_cons (opened : List Delimiter) (kind : Kind) (kinds : List Kind) :
    feedAll opened (kind :: kinds) =
      (feedDelimiters opened kind).bind fun next => feedAll next kinds := rfl

/-- What a machine takes, the stack of open delimiters takes as well, if it does so in every
step. -/
theorem feedAll_of_foldlM {step : σ → Kind → Option σ} {stack : σ → List Delimiter}
    (hstep : ∀ {s kind next}, step s kind = some next →
      feedDelimiters (stack s) kind = some (stack next))
    {s final : σ} {kinds : List Kind} (h : kinds.foldlM step s = some final) :
    feedAll (stack s) kinds = some (stack final) := by
  induction kinds generalizing s with
  | nil =>
    obtain rfl := Option.some.inj h
    rfl
  | cons kind kinds ih =>
    rw [List.foldlM_cons, Option.bind_eq_bind, Option.bind_eq_some_iff] at h
    obtain ⟨next, hnext, hrun⟩ := h
    rw [feedAll_cons, hstep hnext, Option.bind_some, ih hrun]

theorem feedDelimiters_plain {kind : Kind} (h : kind.isDelimiter = false)
    (opened : List Delimiter) : feedDelimiters opened kind = some opened := by
  cases kind with
  | opening pair => cases h
  | closing pair => cases h
  | _ => rfl

theorem followsStack_feedDelimiters :
    FollowsStack feedDelimiters id (fun _ => True) (fun _ => True) where
  token _ hk := by simp [feedDelimiters_plain hk, eq_comm]
  delimiter _ := trivial
  reached_cons _ _ := trivial
  opener _ _ := rfl
  closer _ _ := by simp [feedDelimiters]

/-- Token lists that close the open delimiters, innermost first, with trees between the
closers and after the last one. -/
inductive Closes : List Delimiter → List Kind → Prop
  | last (n : Nested) : Closes [] n.kinds
  | closer (n : Nested) {pair : Delimiter} {opened : List Delimiter} {kinds : List Kind} :
      Closes opened kinds → Closes (pair :: opened) (n.kinds ++ .closing pair :: kinds)

theorem Closes.token {opened : List Delimiter} {kinds : List Kind} (h : Closes opened kinds)
    {kind : Kind} (plain : kind.isDelimiter = false) : Closes opened (kind :: kinds) := by
  cases h with
  | last n => exact .last (.token kind plain n)
  | closer n h => exact .closer (.token kind plain n) h

theorem Closes.opener {pair : Delimiter} {opened : List Delimiter} {kinds : List Kind}
    (h : Closes (pair :: opened) kinds) : Closes opened (.opening pair :: kinds) := by
  cases h with
  | closer inside h =>
    cases h with
    | last n => exact .last (.group pair inside n)
    | @closer n outer opened kinds h =>
      have hgroup : Closes (outer :: opened) _ := .closer (.group pair inside n) h
      rwa [Nested.kinds, List.append_assoc] at hgroup

/-- Tokens that leave nothing open close what was open before them. -/
theorem closes_of_feedAll {opened : List Delimiter} {kinds : List Kind}
    (h : feedAll opened kinds = some []) : Closes opened kinds := by
  induction kinds generalizing opened with
  | nil =>
    obtain rfl := Option.some.inj h
    exact .last .done
  | cons kind kinds ih =>
    rw [feedAll_cons, Option.bind_eq_some_iff] at h
    obtain ⟨next, hstep, hrun⟩ := h
    cases hk : kind.isDelimiter with
    | false =>
      rw [feedDelimiters_plain hk] at hstep
      obtain rfl := Option.some.inj hstep
      exact (ih hrun).token hk
    | true =>
      cases kind with
      | opening pair =>
        obtain rfl := Option.some.inj hstep
        exact (ih hrun).opener
      | closing pair =>
        cases opened with
        | nil => cases hstep
        | cons top below =>
          simp only [feedDelimiters] at hstep
          split at hstep
          · rename_i htop
            obtain rfl := Option.some.inj hstep
            exact htop ▸ .closer .done (ih hrun)
          · cases hstep
      | _ => cases hk

/-- The stack of open delimiters goes from empty to empty over the token lists of trees and
over no others. -/
theorem feedAll_eq_nil_iff {kinds : List Kind} :
    feedAll [] kinds = some [] ↔ ∃ n : Nested, n.kinds = kinds := by
  constructor
  · intro h
    cases closes_of_feedAll h with
    | last n => exact ⟨n, rfl⟩
  · rintro ⟨n, rfl⟩
    have h := followsStack_feedDelimiters.foldlM_kinds n [] trivial [] []
    rw [List.append_nil] at h
    exact h.mpr ⟨fun _ _ => trivial, rfl⟩

end Stack

end GoSource
