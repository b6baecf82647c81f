import GoSource.Proofs.Check.Nested

/-!
# The grammar of an expression

A text passes as an expression exactly if its tokens nest, no statement stands outside its
braces, and its outermost tokens may follow each other. What stands inside delimiters is
not looked at more closely, so this is no grammar of the expressions of the language.
-/

namespace GoSource

/-- Whether a token can stand at its place in an expression, whatever comes before it. -/
structure Placed.FitsExpression (t : Placed) : Prop where
  /-- Outside braces nothing belongs to a statement. -/
  noStatement : .brace ∉ t.around →
    t.kind.isStatementKeyword = false ∧ t.kind.isAssignment = false ∧ t.kind ≠ .semicolon
  /-- Outside all delimiters nothing is listed. -/
  noList : t.around = [] → t.kind ≠ .comma

theorem Placed.fitsExpression_iff {t : Placed} :
    t.FitsExpression ↔
      (.brace ∉ t.around → t.kind.isStatementKeyword = false ∧ t.kind.isAssignment = false ∧
        t.kind ≠ .semicolon) ∧
      (t.around = [] → t.kind ≠ .comma) :=
  ⟨fun h => ⟨h.noStatement, h.noList⟩, fun h => ⟨h.1, h.2⟩⟩

instance (t : Placed) : Decidable t.FitsExpression := decidable_of_iff _ t.fitsExpression_iff.symm

namespace Expression

/-- Whether a token may follow another at the outermost level: no operand after an operand,
no operator that needs an operand on its left after an operator, and after a point only a
name or a parenthesis. -/
structure MayFollow (previous kind : Kind) : Prop where
  operand : ¬ (previous.isOperand = true ∧ kind.isOperand = true)
  operator : ¬ (previous.isOperator = true ∧ kind.isBinaryOnly = true)
  selector : previous = .dot → kind = .ident ∨ kind = .opening .paren

/-- The trees of expressions. -/
structure IsExpression (n : Nested) : Prop where
  nonempty : n.kinds ≠ []
  fits : ∀ t ∈ n.placed, t.FitsExpression
  /-- An expression does not end where it has to go on. -/
  complete : ∀ kind ∈ n.kinds.getLast?,
    kind.isOperator = false ∧ kind ≠ .dot ∧ kind ≠ .comma ∧ kind ≠ .colon
  first : ∀ kind ∈ n.outermost.head?, kind.isBinaryOnly = false ∧ kind ≠ .dot
  follows : n.outermost.IsChain fun previous kind =>
    (∀ pair, kind ≠ .closing pair) → MayFollow previous kind

/-- Where a check of an expression stands between two tokens, without their places. -/
structure Position where
  opened : List Delimiter := []
  /-- The last token at the outermost level. -/
  previous : Option Kind := none

namespace Position

/-- The position after a token of some kind, if it may stand there. -/
def step (s : Position) (kind : Kind) : Option Position :=
  if Placed.FitsExpression ⟨kind, s.opened⟩ ∧
      (s.opened = [] → misplaced? s.previous kind = none) then
    (feedDelimiters s.opened kind).map fun opened =>
      ⟨opened, if s.opened = [] ∨ opened = [] then some kind else s.previous⟩
  else none

/-- The position after tokens of these kinds. -/
def run (s : Position) (kinds : List Kind) : Option Position := kinds.foldlM step s

@[simp] theorem run_nil (s : Position) : s.run [] = some s := rfl

@[simp] theorem run_cons (s : Position) (kind : Kind) (kinds : List Kind) :
    s.run (kind :: kinds) = (s.step kind).bind (·.run kinds) := rfl

end Position

section Simulation

/-- The position of a state. -/
def State.position (s : State) : Position := ⟨s.nesting.opened.map (·.pair), s.previous⟩

theorem inBraces_iff {n : Nesting} (h : Counted n) :
    n.inBraces = true ↔ .brace ∈ n.opened.map (·.pair) := by
  rw [Nesting.inBraces, decide_eq_true_iff, h, List.countP_pos_iff]
  simp

theorem ite_some_eq_none_iff {α : Type} {p : Prop} [Decidable p] {a : α} {o : Option α} :
    (if p then some a else o) = none ↔ ¬ p ∧ o = none := by
  by_cases h : p <;> simp [h]

/-- The rules for a token, taken in order, are those of its place and of what it follows. -/
theorem refused?_eq_none_iff {s : State} (h : Counted s.nesting) {kind : Kind} :
    refused? s kind = none ↔
      Placed.FitsExpression ⟨kind, s.position.opened⟩ ∧
        (s.position.opened = [] → misplaced? s.position.previous kind = none) := by
  have hbraces : s.nesting.inBraces = true ↔ .brace ∈ s.position.opened := inBraces_iff h
  have htop : s.nesting.isTop = true ↔ s.position.opened = [] := by
    simp [Nesting.isTop, State.position]
  rw [Placed.fitsExpression_iff, ← hbraces, ← htop]
  simp only [refused?, ite_some_eq_none_iff]
  cases s.nesting.inBraces <;> cases s.nesting.isTop <;>
    simp [State.position, and_assoc]

theorem State.step_toOption {s : State} (h : Counted s.nesting) (t : Token) :
    (s.step t).toOption.map State.position = s.position.step t.kind := by
  have hfeed := s.nesting.feed_toOption t
  unfold State.step Position.step
  cases hrefused : refused? s t.kind with
  | some expected =>
    rw [if_neg fun hfits => by simp [(refused?_eq_none_iff h).mpr hfits] at hrefused]
    rfl
  | none =>
    rw [if_pos ((refused?_eq_none_iff h).mp hrefused)]
    change _ = (feedDelimiters (s.nesting.opened.map (·.pair)) t.kind).map _
    rw [← hfeed]
    cases s.nesting.feed t with
    | error d => rfl
    | ok n =>
      simp only [bind, Except.bind, pure, Except.pure, Except.toOption, Option.map_some]
      simp [State.position, Nesting.isTop]

theorem foldlM_step_toOption {s : State} (h : Counted s.nesting) (ts : List Token) :
    (ts.foldlM State.step s).toOption.map State.position =
      s.position.run (ts.map Token.kind) := by
  induction ts generalizing s with
  | nil => rfl
  | cons t ts ih =>
    have hstep := State.step_toOption h t
    rw [List.foldlM_cons, List.map_cons, Position.run_cons, ← hstep]
    cases hs : s.step t with
    | error d => rfl
    | ok s' => exact ih (counted_feed h (step_eq_ok hs).2)

end Simulation

section Tree

@[simp] theorem fitsExpression_opening (pair : Delimiter) (around : List Delimiter) :
    Placed.FitsExpression ⟨.opening pair, around⟩ :=
  ⟨fun _ => ⟨rfl, rfl, nofun⟩, fun _ => nofun⟩

@[simp] theorem fitsExpression_closing (pair : Delimiter) (around : List Delimiter) :
    Placed.FitsExpression ⟨.closing pair, around⟩ :=
  ⟨fun _ => ⟨rfl, rfl, nofun⟩, fun _ => nofun⟩

/-- Inside delimiters a check follows the stack and remembers the outermost token before. -/
theorem followsStack_step (previous : Option Kind) :
    FollowsStack Position.step (fun opened => ⟨opened, previous⟩) (· ≠ [])
      Placed.FitsExpression where
  token {opened kind s} hopened hk := by
    by_cases hfits : Placed.FitsExpression ⟨kind, opened⟩
    · simp [Position.step, hfits, hopened, feedDelimiters_plain hk, eq_comm]
    · simp [Position.step, hfits]
  delimiter {opened kind} hk := by
    cases kind with
    | opening pair => exact fitsExpression_opening pair opened
    | closing pair => exact fitsExpression_closing pair opened
    | _ => cases hk
  reached_cons _ _ := List.cons_ne_nil _ _
  opener pair hopened := by simp [Position.step, hopened, feedDelimiters]
  closer pair hopened := by simp [Position.step, hopened, feedDelimiters]

/-- A token at the outermost level is taken if it can stand there and follow the one before. -/
theorem run_token_iff {kind : Kind} (plain : kind.isDelimiter = false) (previous : Option Kind)
    (rest : List Kind) (final : Position) :
    (Position.mk [] previous).run (kind :: rest) = some final ↔
      (Placed.FitsExpression ⟨kind, []⟩ ∧ misplaced? previous kind = none) ∧
        (Position.mk [] (some kind)).run rest = some final := by
  by_cases hfits : Placed.FitsExpression ⟨kind, []⟩ ∧ misplaced? previous kind = none
  · simp [Position.step, hfits, feedDelimiters_plain plain]
  · have hstep : (Position.mk [] previous).step kind = none := by
      rw [Position.step, if_neg fun h => hfits ⟨h.1, h.2 rfl⟩]
    simp only [Position.run_cons, hstep, hfits, Option.bind_none, false_and, reduceCtorEq]

/-- A pair of delimiters at the outermost level is taken if its opener can follow the token
before and everything inside can stand there; what comes next follows the closer. -/
theorem run_group_iff (pair : Delimiter) (inside : Nested) (previous : Option Kind)
    (rest : List Kind) (final : Position) :
    (Position.mk [] previous).run (.opening pair :: inside.kinds ++ .closing pair :: rest) =
        some final ↔
      misplaced? previous (.opening pair) = none ∧
        (∀ t ∈ inside.placedIn [pair], t.FitsExpression) ∧
        (Position.mk [] (some (.closing pair))).run rest = some final := by
  have hinside := (followsStack_step (some (.opening pair))).foldlM_kinds inside [pair]
    (List.cons_ne_nil _ _) (.closing pair :: rest) final
  have hcloser : (Position.mk [pair] (some (.opening pair))).step (.closing pair) =
      some ⟨[], some (.closing pair)⟩ := by
    simp [Position.step, feedDelimiters]
  change (Position.mk [pair] _).run _ = _ ↔ _ ∧ (Position.mk [pair] _).run _ = _ at hinside
  rw [Position.run_cons, hcloser, Option.bind_some] at hinside
  by_cases hplace : misplaced? previous (.opening pair) = none
  · have hopener : (Position.mk [] previous).step (.opening pair) =
        some ⟨[pair], some (.opening pair)⟩ := by
      simp [Position.step, hplace, feedDelimiters]
    rw [List.cons_append, Position.run_cons, hopener, Option.bind_some, hinside, hplace]
    simp
  · have hopener : (Position.mk [] previous).step (.opening pair) = none := by
      simp [Position.step, hplace]
    simp [hopener, hplace]

/-- The kinds may follow each other, the first of them after `previous`. A closer is free,
since it follows its own opener. -/
def InSequence : Option Kind → List Kind → Prop
  | _, [] => True
  | previous, kind :: kinds =>
    ((∀ pair, kind ≠ .closing pair) → misplaced? previous kind = none) ∧
      InSequence (some kind) kinds

theorem inSequence_group {previous : Option Kind} {pair : Delimiter} {kinds : List Kind} :
    InSequence previous (.opening pair :: .closing pair :: kinds) ↔
      misplaced? previous (.opening pair) = none ∧ InSequence (some (.closing pair)) kinds := by
  simp [InSequence]

/-- A check passes over a tree if every token of it can stand at its place and the outermost
ones may follow each other. -/
theorem exists_run_iff (n : Nested) (previous : Option Kind) :
    (∃ last, (Position.mk [] previous).run n.kinds = some ⟨[], last⟩) ↔
      (∀ t ∈ n.placed, t.FitsExpression) ∧ InSequence previous n.outermost := by
  induction n generalizing previous with
  | done => simp [Nested.kinds, Nested.placed, Nested.placedIn, InSequence]
  | token kind plain next ih =>
    have hcloser : ∀ pair, kind ≠ .closing pair := by
      rintro pair rfl
      cases plain
    have hplaced : (Nested.token kind plain next).placed = ⟨kind, []⟩ :: next.placed := rfl
    simp only [Nested.kinds, run_token_iff plain, exists_and_left, ih, hplaced,
      List.forall_mem_cons, Nested.outermost_token, InSequence, hcloser, ne_eq, not_false_eq_true,
      implies_true, forall_const]
    exact and_and_and_comm
  | group pair inside next hi hn =>
    have hplaced : (Nested.group pair inside next).placed =
        ⟨.opening pair, []⟩ :: inside.placedIn [pair] ++ ⟨.closing pair, []⟩ :: next.placed := rfl
    simp only [Nested.kinds, run_group_iff, exists_and_left, hn, Nested.outermost_group,
      inSequence_group]
    rw [hplaced, List.forall_mem_append, List.forall_mem_cons, List.forall_mem_cons]
    constructor
    · rintro ⟨hplace, hinside, hnext, hsequence⟩
      exact ⟨⟨⟨fitsExpression_opening .., hinside⟩, fitsExpression_closing .., hnext⟩, hplace,
        hsequence⟩
    · rintro ⟨⟨⟨-, hinside⟩, -, hnext⟩, hplace, hsequence⟩
      exact ⟨hplace, hinside, hnext, hsequence⟩

/-- A step of a check is a step of the stack of open delimiters. -/
theorem feedDelimiters_of_step {s next : Position} {kind : Kind} (h : s.step kind = some next) :
    feedDelimiters s.opened kind = some next.opened := by
  unfold Position.step at h
  split at h
  · obtain ⟨opened, hfeed, rfl⟩ := Option.map_eq_some_iff.mp h
    exact hfeed
  · cases h

end Tree

section Sequence

theorem misplaced?_none_eq_none_iff {kind : Kind} :
    misplaced? none kind = none ↔ kind.isBinaryOnly = false ∧ kind ≠ .dot := by
  simp [misplaced?]

theorem misplaced?_some_eq_none_iff {previous kind : Kind} :
    misplaced? (some previous) kind = none ↔ MayFollow previous kind := by
  simp only [misplaced?, ite_some_eq_none_iff, Bool.and_eq_true, and_true]
  constructor
  · rintro ⟨hoperand, hoperator, hselector⟩
    refine ⟨hoperand, hoperator, fun hdot => ?_⟩
    simpa [hdot, or_iff_not_imp_left] using hselector
  · rintro ⟨hoperand, hoperator, hselector⟩
    refine ⟨hoperand, hoperator, ?_⟩
    simpa [or_iff_not_imp_left] using hselector

theorem inSequence_some_iff {previous : Kind} {kinds : List Kind} :
    InSequence (some previous) kinds ↔
      (previous :: kinds).IsChain fun previous kind =>
        (∀ pair, kind ≠ .closing pair) → MayFollow previous kind := by
  induction kinds generalizing previous with
  | nil => simp [InSequence]
  | cons kind kinds ih =>
    rw [InSequence, ih, misplaced?_some_eq_none_iff, List.isChain_cons_cons]

theorem inSequence_none_iff {kinds : List Kind} :
    InSequence none kinds ↔
      (∀ kind ∈ kinds.head?, kind.isBinaryOnly = false ∧ kind ≠ .dot) ∧
      kinds.IsChain fun previous kind =>
        (∀ pair, kind ≠ .closing pair) → MayFollow previous kind := by
  cases kinds with
  | nil => simp [InSequence]
  | cons kind kinds =>
    rw [InSequence, inSequence_some_iff, misplaced?_none_eq_none_iff]
    cases kind with
    | closing pair => simp [Kind.isBinaryOnly]
    | _ => simp

end Sequence

section Tokens

theorem wantsOperand_eq_false_iff {kind : Kind} :
    wantsOperand kind = false ↔
      kind.isOperator = false ∧ kind ≠ .dot ∧ kind ≠ .comma ∧ kind ≠ .colon := by
  simp [wantsOperand, and_assoc]

/-- Some last token that can end an expression, by kinds. -/
theorem exists_getLast?_iff {ts : List Token} :
    (∃ t, ts.getLast? = some t ∧ wantsOperand t.kind = false) ↔
      ts.map Token.kind ≠ [] ∧ ∀ kind ∈ (ts.map Token.kind).getLast?,
        kind.isOperator = false ∧ kind ≠ .dot ∧ kind ≠ .comma ∧ kind ≠ .colon := by
  simp only [← wantsOperand_eq_false_iff, List.getLast?_map, ne_eq,
    ← List.getLast?_eq_none_iff]
  cases ts.getLast? <;> simp

theorem finish_eq_ok_iff {n : Nesting} : n.finish = .ok () ↔ n.opened.map (·.pair) = [] := by
  unfold Nesting.finish
  cases n.opened <;> simp

/-- Tokens pass as an expression if there are any, the last of them can end it, and the check
of the whole leaves no delimiter open. -/
theorem checkTokens_eq_ok_iff (size : Nat) (ts : List Token) :
    checkTokens size ts = .ok () ↔
      (∃ t, ts.getLast? = some t ∧ wantsOperand t.kind = false) ∧
        ∃ last, (Position.mk [] none).run (ts.map Token.kind) = some ⟨[], last⟩ := by
  have hrun := foldlM_step_toOption (s := {}) rfl ts
  change _ = (Position.mk [] none).run _ at hrun
  rw [← hrun, checkTokens]
  cases ts.getLast? with
  | none => simp
  | some t =>
    cases ts.foldlM State.step {} with
    | error d => simp [bind, Except.bind, Except.toOption]
    | ok s =>
      have hposition : (∃ last, s.position = ⟨[], last⟩) ↔ s.nesting.finish = .ok () := by
        simp [finish_eq_ok_iff, State.position]
      simp only [Except.toOption, Option.map_some, Option.some.injEq, hposition, exists_eq_left',
        bind, Except.bind]
      cases s.nesting.finish <;> cases wantsOperand t.kind <;> simp

end Tokens

/-- A text passes as an expression exactly if it can be read to its end and its tokens, less
the semicolon that the end of the text inserts, are those of an expression. -/
theorem check_iff_expressionGrammar (src : String) :
    check src = .ok () ↔
      ∃ tokens, tokenize src = .ok tokens ∧ ∃ n : Nested,
        n.kinds = (dropInserted tokens).map Token.kind ∧ IsExpression n := by
  unfold check
  cases tokenize src with
  | error d => simp [bind, Except.bind]
  | ok tokens =>
    simp only [bind, Except.bind, checkTokens_eq_ok_iff, Except.ok.injEq, exists_eq_left']
    rw [exists_getLast?_iff]
    generalize (dropInserted tokens).map Token.kind = kinds
    constructor
    · rintro ⟨⟨hne, hcomplete⟩, last, hrun⟩
      obtain ⟨n, rfl⟩ := feedAll_eq_nil_iff.mp (feedAll_of_foldlM feedDelimiters_of_step hrun)
      obtain ⟨hfits, hsequence⟩ := (exists_run_iff n none).mp ⟨last, hrun⟩
      obtain ⟨hfirst, hfollows⟩ := inSequence_none_iff.mp hsequence
      exact ⟨n, rfl, hne, hfits, hcomplete, hfirst, hfollows⟩
    · rintro ⟨n, rfl, hne, hfits, hcomplete, hfirst, hfollows⟩
      exact ⟨⟨hne, hcomplete⟩,
        (exists_run_iff n none).mpr ⟨hfits, inSequence_none_iff.mpr ⟨hfirst, hfollows⟩⟩⟩

end Expression

end GoSource
