import GoSource.Proofs.Check.ExpressionGrammar
import GoSource.Proofs.Check.Location

/-!
# Balanced delimiters

The nesting that every check carries along accepts the token lists whose delimiters form a
balanced word, and no others. What it keeps beside the open delimiters, the number of open
braces, is their number at every place. A closer that fails spoils every continuation, and
what is blamed at the end is the innermost opener that was left open.
-/

namespace GoSource

/-- The words of delimiters that are balanced and properly nested. -/
inductive Balanced : List Kind → Prop
  | empty : Balanced []
  | pair (pair : Delimiter) {word : List Kind} (h : Balanced word) :
      Balanced (.opening pair :: word ++ [.closing pair])
  | append {first second : List Kind} (h : Balanced first) (h' : Balanced second) :
      Balanced (first ++ second)

/-- The word of the delimiters among some tokens. -/
def delimiters (ts : List Token) : List Kind := (ts.map Token.kind).filter Kind.isDelimiter

/-- The nesting after tokens that start outside all delimiters. -/
def Nesting.after (ts : List Token) : Except Diagnostic Nesting := ts.foldlM Nesting.feed {}

/-- An opener is closed among the tokens after it: what stands between it and its closer is
balanced. -/
def Token.ClosedIn (t : Token) (after : List Token) : Prop :=
  ∃ inside closer rest pair, after = inside ++ closer :: rest ∧ Balanced (delimiters inside) ∧
    t.kind = .opening pair ∧ closer.kind = .closing pair

section Words

variable {ts us : List Token} {t : Token}

@[simp] theorem delimiters_append (ts us : List Token) :
    delimiters (ts ++ us) = delimiters ts ++ delimiters us := by
  simp [delimiters]

theorem delimiters_plain (h : t.kind.isDelimiter = false) : delimiters [t] = [] := by
  simp [delimiters, h]

theorem delimiters_pair {closer : Token} {pair : Delimiter} (ht : t.kind = .opening pair)
    (hcloser : closer.kind = .closing pair) :
    delimiters (t :: ts ++ [closer]) = .opening pair :: delimiters ts ++ [.closing pair] := by
  simp [delimiters, List.filter_cons, ht, hcloser, Kind.isDelimiter]

/-- The tokens of a tree have balanced delimiters. -/
theorem Nested.balanced (n : Nested) : Balanced (n.kinds.filter Kind.isDelimiter) := by
  induction n with
  | done => exact .empty
  | token kind plain next ih => rwa [kinds, List.filter_cons_of_neg (by simp [plain])]
  | group pair inside next hinside hnext =>
    have hgroup := (Balanced.pair pair hinside).append hnext
    simpa [kinds, List.filter_cons, Kind.isDelimiter] using hgroup

end Words

section Runs

variable {n n' : Nesting} {ts : List Token} {t : Token} {d : Diagnostic}

/-- Tokens that are no delimiters are passed over. -/
theorem foldlM_feed_filter (n : Nesting) (ts : List Token) :
    (ts.filter (·.kind.isDelimiter)).foldlM Nesting.feed n = ts.foldlM Nesting.feed n := by
  induction ts generalizing n with
  | nil => rfl
  | cons t ts ih =>
    cases hk : t.kind.isDelimiter with
    | false =>
      rw [List.filter_cons_of_neg (by simp [hk]), foldlM_cons_of_ok (Nesting.feed_plain hk n), ih]
    | true =>
      rw [List.filter_cons_of_pos (by simpa using hk), List.foldlM_cons, List.foldlM_cons]
      cases n.feed t with
      | error d => rfl
      | ok next => exact ih next

/-- Delimiters that form a balanced word leave the nesting as it was. -/
theorem Balanced.foldlM_map_kind {word : List Kind} (h : Balanced word)
    (hts : ts.map Token.kind = word) (n : Nesting) : ts.foldlM Nesting.feed n = .ok n := by
  induction h generalizing ts n with
  | empty =>
    obtain rfl := List.map_eq_nil_iff.mp hts
    rfl
  | pair pair _ ih =>
    obtain ⟨us, vs, rfl, hus, hvs⟩ := List.map_eq_append_iff.mp hts
    obtain ⟨opener, inside, rfl, hopener, hinside⟩ := List.map_eq_cons_iff.mp hus
    obtain ⟨closer, rest, rfl, hcloser, hrest⟩ := List.map_eq_cons_iff.mp hvs
    obtain rfl := List.map_eq_nil_iff.mp hrest
    rw [List.cons_append, foldlM_cons_of_ok (n.feed_opening hopener),
      foldlM_append_of_ok (ih hinside _), foldlM_cons_of_ok (n.feed_push hcloser)]
    rfl
  | append _ _ ih ih' =>
    obtain ⟨us, vs, rfl, hus, hvs⟩ := List.map_eq_append_iff.mp hts
    rw [foldlM_append_of_ok (ih hus n), ih' hvs n]

theorem Balanced.foldlM_feed (h : Balanced (delimiters ts)) (n : Nesting) :
    ts.foldlM Nesting.feed n = .ok n := by
  rw [← foldlM_feed_filter]
  exact h.foldlM_map_kind List.filter_map.symm n

theorem foldlM_feed_toOption (n : Nesting) (ts : List Token) :
    (ts.foldlM Nesting.feed n).toOption.map (fun n => n.opened.map (·.pair)) =
      feedAll (n.opened.map (·.pair)) (ts.map Token.kind) := by
  induction ts generalizing n with
  | nil => rfl
  | cons t ts ih =>
    rw [List.foldlM_cons, List.map_cons, feedAll_cons, ← Nesting.feed_toOption]
    cases n.feed t with
    | error d => rfl
    | ok next => exact ih next

/-- The token lists with balanced delimiters are those of trees. -/
theorem balanced_iff_nested :
    Balanced (delimiters ts) ↔ ∃ n : Nested, n.kinds = ts.map Token.kind := by
  constructor
  · intro h
    have hstack := foldlM_feed_toOption {} ts
    rw [h.foldlM_feed] at hstack
    exact feedAll_eq_nil_iff.mp hstack.symm
  · rintro ⟨n, hn⟩
    rw [delimiters, ← hn]
    exact n.balanced

/-- A run that fails does so at the first token that is not taken. -/
theorem exists_failing_token (h : ts.foldlM Nesting.feed n = .error d) :
    ∃ before t after next, ts = before ++ t :: after ∧
      before.foldlM Nesting.feed n = .ok next ∧ next.feed t = .error d := by
  induction ts generalizing n with
  | nil => cases h
  | cons t ts ih =>
    rcases foldlM_cons_eq_error_iff.mp h with hfail | ⟨next, hfeed, hrun⟩
    · exact ⟨[], t, ts, n, rfl, rfl, hfail⟩
    · obtain ⟨before, u, after, last, rfl, hbefore, hfail⟩ := ih hrun
      refine ⟨t :: before, u, after, last, rfl, ?_, hfail⟩
      rw [foldlM_cons_of_ok hfeed, hbefore]

/-- What a token that fails follows cannot be mended by what comes after it. -/
theorem not_balanced_of_feed (hbefore : Nesting.after ts = .ok n) (hfail : n.feed t = .error d)
    (more : List Token) : ¬ Balanced (delimiters (ts ++ t :: more)) := by
  intro h
  have hrun := h.foldlM_feed {}
  rw [foldlM_append_of_ok hbefore, List.foldlM_cons, hfail] at hrun
  cases hrun

end Runs

section Tracking

variable {n n' : Nesting} {ts us : List Token} {t : Token} {d : Diagnostic}

/-- The delimiters that some tokens leave open, innermost first: each was opened by a token
with balanced delimiters behind it, up to the opener of the next one further in. -/
def LeavesOpen : List Opened → List Token → Prop
  | [], ts => Balanced (delimiters ts)
  | o :: outer, ts => ∃ before t after, ts = before ++ t :: after ∧ t.Opens o ∧
      Balanced (delimiters after) ∧ LeavesOpen outer before

theorem LeavesOpen.append {opened : List Opened} (h : LeavesOpen opened ts)
    (hus : Balanced (delimiters us)) : LeavesOpen opened (ts ++ us) := by
  cases opened with
  | nil =>
    rw [LeavesOpen, delimiters_append]
    exact Balanced.append h hus
  | cons o outer =>
    obtain ⟨before, t, after, rfl, hopens, hafter, hbefore⟩ := h
    refine ⟨before, t, after ++ us, by simp, hopens, ?_, hbefore⟩
    rw [delimiters_append]
    exact hafter.append hus

/-- What a nesting says about the tokens that led to it. -/
structure Nesting.Tracks (n : Nesting) (ts : List Token) : Prop where
  counted : Expression.Counted n
  leavesOpen : LeavesOpen n.opened ts

/-- One token keeps the account. -/
theorem Nesting.Tracks.feed (h : n.Tracks ts) (hfeed : n.feed t = .ok n') :
    n'.Tracks (ts ++ [t]) := by
  refine ⟨Expression.counted_feed h.counted hfeed, ?_⟩
  cases hk : t.kind with
  | opening pair =>
    rw [n.feed_opening hk] at hfeed
    cases hfeed
    exact ⟨ts, t, [], rfl, ⟨hk, rfl⟩, .empty, h.leavesOpen⟩
  | closing pair =>
    obtain ⟨o, hpair, hopened, -⟩ := Nesting.feed_closing hk hfeed
    have hopen := h.leavesOpen
    rw [hopened] at hopen
    -- The closer and its opener are a pair around the balanced tokens between them.
    obtain ⟨before, opener, inside, rfl, hopens, hinside, hbefore⟩ := hopen
    rw [List.append_assoc]
    refine hbefore.append ?_
    rw [delimiters_pair (hopens.1.trans (congrArg _ hpair)) hk]
    exact .pair pair hinside
  | _ =>
    have hplain : t.kind.isDelimiter = false := by rw [hk]; rfl
    rw [Nesting.feed_plain hplain] at hfeed
    cases hfeed
    refine h.leavesOpen.append ?_
    rw [delimiters_plain hplain]
    exact .empty

/-- A run keeps the account. -/
theorem Nesting.Tracks.foldlM (h : n.Tracks ts) (hrun : us.foldlM Nesting.feed n = .ok n') :
    n'.Tracks (ts ++ us) := by
  induction us generalizing n ts with
  | nil =>
    cases hrun
    rwa [List.append_nil]
  | cons t us ih =>
    obtain ⟨next, hfeed, hrun⟩ := foldlM_cons_eq_ok_iff.mp hrun
    rw [List.append_cons]
    exact ih (h.feed hfeed) hrun

theorem Nesting.tracks_after (h : Nesting.after ts = .ok n) : n.Tracks ts := by
  have hstart : Nesting.Tracks {} [] := ⟨rfl, .empty⟩
  exact hstart.foldlM h

/-- A brace that is closed was counted. -/
theorem Nesting.Tracks.braces_closed (h : n.Tracks ts) (hk : t.kind = .closing .brace)
    (hfeed : n.feed t = .ok n') : n.braces = n'.braces + 1 := by
  obtain ⟨o, hpair, hopened, hbraces⟩ := Nesting.feed_closing hk hfeed
  have hcounted := h.counted
  rw [Expression.Counted, hopened, List.countP_cons_of_pos (by simpa using hpair)] at hcounted
  rw [if_pos rfl] at hbraces
  omega

end Tracking

section Unclosed

variable {before after : List Token} {t : Token}

/-- No token of a balanced list closes an opener before it. -/
theorem not_closedIn_of_balanced (h : Balanced (delimiters after)) : ¬ t.ClosedIn after := by
  rintro ⟨inside, closer, rest, pair, rfl, hinside, -, hcloser⟩
  have hrun := h.foldlM_feed {}
  have hfail : Nesting.feed {} closer = .error ⟨.unmatched pair, closer.start⟩ := by
    rw [Nesting.feed, hcloser]
  rw [foldlM_append_of_ok (hinside.foldlM_feed {}), List.foldlM_cons, hfail] at hrun
  cases hrun

/-- Every opener of a balanced list is closed in it. -/
theorem closedIn_of_balanced {pair : Delimiter} (ht : t.kind = .opening pair)
    (h : Balanced (delimiters (before ++ t :: after))) : t.ClosedIn after := by
  have hstack := foldlM_feed_toOption {} (before ++ t :: after)
  rw [h.foldlM_feed, List.map_append, List.map_cons, ht, feedAll, List.foldlM_append] at hstack
  obtain ⟨opened, -, hrest⟩ := Option.bind_eq_some_iff.mp hstack.symm
  -- What follows the opener closes it before anything further out.
  have hcloses : Closes (pair :: opened) (after.map Token.kind) := closes_of_feedAll hrest
  generalize hkinds : after.map Token.kind = kinds at hcloses
  cases hcloses with
  | closer n _ =>
    obtain ⟨inside, rest, rfl, hinside, hrest⟩ := List.map_eq_append_iff.mp hkinds
    obtain ⟨closer, rest, rfl, hcloser, -⟩ := List.map_eq_cons_iff.mp hrest
    exact ⟨inside, closer, rest, pair, rfl, balanced_iff_nested.mpr ⟨n, hinside.symm⟩, ht, hcloser⟩

end Unclosed

/-- Tokens fed one after another to a nesting that starts empty. After every prefix that is
taken the number kept is that of the open braces, so that a brace is known to be open exactly
if one is and closing it takes one off. All tokens are taken and nothing is left open exactly
if the delimiters are balanced. A token that is not taken is a closer that no continuation
makes balanced, and where only something is left open, the opener that is blamed is not closed
and every later one is. -/
theorem Nesting.after_iff_balanced (ts : List Token) :
    (∀ before n, before <+: ts → Nesting.after before = .ok n →
      n.braces = n.opened.countP (·.pair = .brace) ∧
      (n.inBraces = true ↔ ∃ o ∈ n.opened, o.pair = .brace) ∧
      ∀ t n', t.kind = .closing .brace → n.feed t = .ok n' → n.braces = n'.braces + 1) ∧
    ((∃ n, Nesting.after ts = .ok n ∧ n.finish = .ok ()) ↔ Balanced (delimiters ts)) ∧
    (∀ d, Nesting.after ts = .error d → ∃ before t after, ts = before ++ t :: after ∧
      (∃ n, Nesting.after before = .ok n ∧ n.feed t = .error d) ∧
      (∃ pair, t.kind = .closing pair ∧ d = ⟨.unmatched pair, t.start⟩) ∧
      ∀ more, ¬ Balanced (delimiters (before ++ t :: more))) ∧
    (∀ n d, Nesting.after ts = .ok n → n.finish = .error d →
      ∃ before t after, ts = before ++ t :: after ∧
        (∃ pair, t.kind = .opening pair ∧ d = ⟨.unclosed pair, t.start⟩) ∧
        ¬ t.ClosedIn after ∧
        ∀ inner u rest, after = inner ++ u :: rest → (∃ pair, u.kind = .opening pair) →
          u.ClosedIn rest) := by
  refine ⟨fun before n _ hbefore => ?_, ⟨?_, fun h => ?_⟩, fun d hfail => ?_,
    fun n d hrun hfail => ?_⟩
  · have htracks := Nesting.tracks_after hbefore
    refine ⟨htracks.counted, ?_, fun t n' hk hfeed => htracks.braces_closed hk hfeed⟩
    rw [Expression.inBraces_iff htracks.counted, List.mem_map]
  · rintro ⟨n, hrun, hfinish⟩
    have hopen := (Nesting.tracks_after hrun).leavesOpen
    rw [List.map_eq_nil_iff.mp (Expression.finish_eq_ok_iff.mp hfinish)] at hopen
    exact hopen
  · exact ⟨{}, h.foldlM_feed {}, rfl⟩
  · obtain ⟨before, t, after, n, rfl, hbefore, hfeed⟩ := exists_failing_token hfail
    exact ⟨before, t, after, rfl, ⟨n, hbefore, hfeed⟩, Nesting.feed_eq_error hfeed,
      not_balanced_of_feed hbefore hfeed⟩
  · have hopen := (Nesting.tracks_after hrun).leavesOpen
    obtain ⟨o, outer, hopened, rfl⟩ := Nesting.finish_eq_error hfail
    rw [hopened] at hopen
    obtain ⟨before, t, after, rfl, ⟨hkind, hstart⟩, hafter, -⟩ := hopen
    refine ⟨before, t, after, rfl, ⟨o.pair, hkind, by rw [hstart]⟩,
      not_closedIn_of_balanced hafter, ?_⟩
    rintro inner u rest rfl ⟨pair, hu⟩
    exact closedIn_of_balanced hu hafter

/-- A brace, a parenthesis inside it, and a closer further on. -/
def openedTwice (closer : Token) : List Token :=
  [.written ⟨.opening .brace, 0, "\x7b"⟩, .written ⟨.opening .paren, 1, "("⟩, closer]

/-- A closing brace crosses the parenthesis. Without it both openers are left, and the inner one
is blamed. -/
theorem Nesting.after_iff_balanced_crossed :
    (Nesting.after (openedTwice (.written ⟨.closing .brace, 2, "\x7d"⟩)) =
        .error ⟨.unmatched .brace, 2⟩ ∧
      ¬ Balanced (delimiters (openedTwice (.written ⟨.closing .brace, 2, "\x7d"⟩)))) ∧
    ∃ before t after, openedTwice (.inserted 2) = before ++ t :: after ∧
      (∃ pair, t.kind = .opening pair ∧
        (⟨.unclosed .paren, 1⟩ : Diagnostic) = ⟨.unclosed pair, t.start⟩) ∧
      ¬ t.ClosedIn after ∧
      ∀ inner u rest, after = inner ++ u :: rest → (∃ pair, u.kind = .opening pair) →
        u.ClosedIn rest := by
  have hcrossed : Nesting.after (openedTwice (.written ⟨.closing .brace, 2, "\x7d"⟩)) =
      .error ⟨.unmatched .brace, 2⟩ := rfl
  refine ⟨⟨hcrossed, fun h => ?_⟩, ?_⟩
  · obtain ⟨n, hrun, -⟩ := (Nesting.after_iff_balanced _).2.1.mpr h
    rw [hcrossed] at hrun
    cases hrun
  · exact (Nesting.after_iff_balanced (openedTwice (.inserted 2))).2.2.2
      ⟨[⟨.paren, 1⟩, ⟨.brace, 0⟩], 1⟩ _ rfl rfl

end GoSource
