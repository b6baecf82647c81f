import GoSource.Proofs.Check.Phase
import GoSource.Proofs.Token.Standing

/-!
# Where diagnostics point

A check that fails blames a token, a delimiter that was opened and not closed, or the end of
the text. Tokens stand in the source, so the place that is reported shows what the problem
says. Told here are the checks of expressions and of files.
-/

namespace GoSource

section Blame

variable {src : String} {t : Token} {d : Diagnostic}

/-- The diagnostics about a token. -/
inductive Token.Blamed (t : Token) : Diagnostic → Prop where
  | unexpected (expected : String) : Blamed t (t.unexpected expected)
  | unmatched {pair : Delimiter} (h : t.kind = .closing pair) : Blamed t ⟨.unmatched pair, t.start⟩
  | unclosed {pair : Delimiter} (h : t.kind = .opening pair) : Blamed t ⟨.unclosed pair, t.start⟩

/-- The token opened the delimiter. -/
def Token.Opens (t : Token) (o : Opened) : Prop := t.kind = .opening o.pair ∧ t.start = o.offset

theorem Token.Opens.blamed {o : Opened} (h : t.Opens o) :
    t.Blamed ⟨.unclosed o.pair, o.offset⟩ := by
  rw [← h.2]
  exact .unclosed h.1

theorem Token.Blamed.offset_eq (h : t.Blamed d) : d.offset = t.start := by cases h <;> rfl

theorem Token.StandsIn.boundary (h : t.StandsIn src) :
    String.Pos.Raw.IsValid src ⟨t.start⟩ ∧ t.start ≤ src.utf8ByteSize := by
  cases t with
  | written l =>
    have hplace : StandsAt src l.start l.text := h.place
    exact ⟨hplace.boundary.1, (Nat.le_add_right _ _).trans hplace.boundary.2⟩
  | inserted place => exact LineBreaksAt.boundary h

/-- The place of a token shows what a diagnostic says about it. -/
theorem Token.Blamed.pointsInto (h : t.Blamed d) (ht : t.StandsIn src) : d.PointsInto src := by
  have hbounds := ht.boundary
  rw [← h.offset_eq] at hbounds
  refine ⟨hbounds.1, hbounds.2, ?_⟩
  cases h with
  | unexpected expected =>
    cases t with
    | written l => exact .inl ⟨ht.nonempty, ht.place⟩
    | inserted place => exact .inr ⟨rfl, ht⟩
  | @unmatched pair hkind =>
    cases t with
    | written l =>
      show StandsAt src l.start (String.singleton pair.closer)
      rw [← ht.closer pair hkind]
      exact ht.place
    | inserted place => cases hkind
  | @unclosed pair hkind =>
    cases t with
    | written l =>
      show StandsAt src l.start (String.singleton pair.opener)
      rw [← ht.opener pair hkind]
      exact ht.place
    | inserted place => cases hkind

/-- The end of the text is where it goes on no further. -/
theorem pointsInto_end (src expected : String) :
    Diagnostic.PointsInto ⟨.endOfInput expected, src.utf8ByteSize⟩ src := by
  have hvalid := isValid_append src ""
  rw [String.append_empty] at hvalid
  exact ⟨hvalid, Nat.le_refl _, rfl⟩

end Blame

section Steps

variable {n n' : Nesting} {t : Token} {d : Diagnostic}

/-- Only a closer can fail, and it is blamed itself. -/
theorem Nesting.feed_eq_error (h : n.feed t = .error d) :
    ∃ pair, t.kind = .closing pair ∧ d = ⟨.unmatched pair, t.start⟩ := by
  unfold Nesting.feed at h
  split at h
  · cases h
  · rename_i hkind
    split at h
    · split at h
      · cases h
      · cases h
        exact ⟨_, hkind, rfl⟩
    · cases h
      exact ⟨_, hkind, rfl⟩
  · cases h

theorem Nesting.blamed_of_feed (h : n.feed t = .error d) : t.Blamed d := by
  obtain ⟨pair, hkind, rfl⟩ := Nesting.feed_eq_error h
  exact .unmatched hkind

theorem Nesting.opened_of_feed (h : n.feed t = .ok n') {o : Opened} (ho : o ∈ n'.opened) :
    o ∈ n.opened ∨ t.Opens o := by
  unfold Nesting.feed at h
  split at h
  · rename_i hkind
    cases h
    rcases List.mem_cons.mp ho with rfl | ho
    · exact .inr ⟨hkind, rfl⟩
    · exact .inl ho
  · split at h
    · rename_i hopened
      split at h
      · cases h
        exact .inl (hopened ▸ List.mem_cons_of_mem _ ho)
      · cases h
    · cases h
  · cases h
    exact .inl ho

theorem Nesting.finish_eq_error (h : n.finish = .error d) :
    ∃ o rest, n.opened = o :: rest ∧ d = ⟨.unclosed o.pair, o.offset⟩ := by
  unfold Nesting.finish at h
  split at h
  · cases h
  · rename_i o rest hopened
    cases h
    exact ⟨o, rest, hopened, rfl⟩

variable {σ : Type} {step : σ → Token → Except Diagnostic σ} {ts : List Token} {s s' : σ}

/-- A run whose steps fail at their token fails at a token. -/
theorem exists_blamed_of_foldlM
    (hstep : ∀ {s t d}, step s t = .error d → Token.Blamed t d)
    (h : ts.foldlM step s = .error d) : ∃ t ∈ ts, t.Blamed d := by
  induction ts generalizing s with
  | nil => cases h
  | cons t ts ih =>
    rcases foldlM_cons_eq_error_iff.mp h with hfail | ⟨next, -, hrun⟩
    · exact ⟨t, List.mem_cons_self, hstep hfail⟩
    · obtain ⟨u, hu, hblamed⟩ := ih hrun
      exact ⟨u, List.mem_cons_of_mem _ hu, hblamed⟩

/-- What is open after a run was open before it or was opened by a token of it. -/
theorem opened_of_foldlM (nesting : σ → Nesting)
    (hstep : ∀ {s t s'}, step s t = .ok s' →
      ∀ o ∈ (nesting s').opened, o ∈ (nesting s).opened ∨ Token.Opens t o)
    (h : ts.foldlM step s = .ok s') {o : Opened} (ho : o ∈ (nesting s').opened) :
    o ∈ (nesting s).opened ∨ ∃ t ∈ ts, t.Opens o := by
  induction ts generalizing s with
  | nil =>
    cases h
    exact .inl ho
  | cons t ts ih =>
    obtain ⟨next, hnext, hrun⟩ := foldlM_cons_eq_ok_iff.mp h
    rcases ih hrun with hmem | ⟨u, hu, hopens⟩
    · rcases hstep hnext o hmem with hbefore | hopens
      · exact .inl hbefore
      · exact .inr ⟨t, List.mem_cons_self, hopens⟩
    · exact .inr ⟨u, List.mem_cons_of_mem _ hu, hopens⟩

end Steps

namespace Expression

theorem blamed_of_step {s : State} {t : Token} {d : Diagnostic} (h : s.step t = .error d) :
    t.Blamed d := by
  unfold State.step at h
  split at h
  · cases h
    exact .unexpected _
  · cases hfeed : s.nesting.feed t with
    | error e =>
      rw [hfeed] at h
      cases h
      exact Nesting.blamed_of_feed hfeed
    | ok n =>
      rw [hfeed] at h
      cases h

theorem opened_of_step {s s' : State} {t : Token} (h : s.step t = .ok s') (o : Opened)
    (ho : o ∈ s'.nesting.opened) : o ∈ s.nesting.opened ∨ t.Opens o :=
  Nesting.opened_of_feed (step_eq_ok h).2 ho

/-- A check of tokens fails because there are none, at one of them, or at their end. -/
theorem checkTokens_eq_error {size : Nat} {ts : List Token} {d : Diagnostic}
    (h : checkTokens size ts = .error d) :
    d = ⟨.empty, 0⟩ ∨ (∃ t ∈ ts, t.Blamed d) ∨ ∃ expected, d = ⟨.endOfInput expected, size⟩ := by
  unfold checkTokens at h
  split at h
  · cases h
    exact .inl rfl
  · cases hfold : ts.foldlM State.step {} with
    | error e =>
      rw [hfold] at h
      cases h
      exact .inr (.inl (exists_blamed_of_foldlM blamed_of_step hfold))
    | ok s =>
      rw [hfold] at h
      cases hfinish : s.nesting.finish with
      | error e =>
        simp only [bind, Except.bind, hfinish] at h
        cases h
        obtain ⟨o, rest, hopened, rfl⟩ := Nesting.finish_eq_error hfinish
        have ho : o ∈ s.nesting.opened := by simp [hopened]
        rcases opened_of_foldlM State.nesting opened_of_step hfold ho with
          hbefore | ⟨t, ht, hopens⟩
        · cases hbefore
        · exact .inr (.inl ⟨t, ht, hopens.blamed⟩)
      | ok u =>
        simp only [bind, Except.bind, hfinish] at h
        split at h
        · cases h
          exact .inr (.inr ⟨_, rfl⟩)
        · cases h

theorem pointsInto_of_check {src : String} {d : Diagnostic} (h : check src = .error d) :
    d.PointsInto src := by
  cases htokens : tokenize src with
  | error e =>
    simp only [check, htokens] at h
    cases h
    exact pointsInto_of_stopped (tokenize_eq_error htokens)
  | ok ts =>
    simp only [check, htokens] at h
    rcases checkTokens_eq_error h with rfl | ⟨t, ht, hblamed⟩ | ⟨expected, rfl⟩
    · have hvalid := isValid_append "" src
      rw [String.empty_append] at hvalid
      exact ⟨hvalid, Nat.zero_le _, rfl⟩
    · refine hblamed.pointsInto ?_
      obtain ⟨first, tail, rfl, hfirst, rfl | rfl⟩ := exists_standing htokens
      · rw [List.append_nil] at ht
        exact hfirst t (mem_of_mem_dropInserted ht)
      · rw [dropInserted_concat] at ht
        exact hfirst t ht
    · exact pointsInto_end src expected

end Expression

namespace SourceFile

/-- The delimiters that are open in a state. -/
def State.nesting : State → Nesting
  | inside _ nesting _ => nesting
  | _ => {}

theorem State.expect_eq_error {next : State} {kind : Kind} {expected : String} {t : Token}
    {d : Diagnostic} (h : expect next kind expected t = .error d) : t.Blamed d := by
  unfold expect at h
  split at h
  · cases h
  · cases h
    exact .unexpected expected

theorem blamed_of_step {s : State} {t : Token} {d : Diagnostic} (h : s.step t = .error d) :
    t.Blamed d := by
  cases s with
  | packageClause => exact State.expect_eq_error h
  | packageName => exact State.expect_eq_error h
  | packageEnd => exact State.expect_eq_error h
  | outside pastImports =>
    simp only [State.step] at h
    split at h
    · cases h
      exact .unexpected _
    · split at h
      · cases h
      · split at h
        · cases h
          exact .unexpected _
        · cases h
  | inside pastImports nesting started =>
    simp only [State.step] at h
    split at h
    · cases h
      exact .unexpected _
    · split at h
      · split at h
        · cases h
        · cases h
          exact .unexpected _
      · cases hfeed : nesting.feed t with
        | error e =>
          rw [hfeed] at h
          cases h
          exact Nesting.blamed_of_feed hfeed
        | ok n =>
          rw [hfeed] at h
          cases h

section Steps

variable {s s' : State} {t : Token}

theorem State.expect_eq_ok {next : State} {kind : Kind} {expected : String}
    (h : expect next kind expected t = .ok s') : t.kind = kind ∧ s' = next := by
  unfold expect at h
  split at h
  · rename_i hkind
    cases h
    exact ⟨hkind, rfl⟩
  · cases h

theorem step_outside_eq_ok {pastImports : Bool} (h : (State.outside pastImports).step t = .ok s') :
    t.kind.startsDeclaration = true ∧ ∃ past, s' = .inside past {} false := by
  simp only [State.step] at h
  split at h
  · cases h
  · rename_i hstarts
    refine ⟨by simpa using hstarts, ?_⟩
    split at h
    · cases h
      exact ⟨_, rfl⟩
    · split at h
      · cases h
      · cases h
        exact ⟨_, rfl⟩

/-- Inside a declaration a token ends it or is fed to the delimiters. -/
theorem step_inside_eq_ok {pastImports started : Bool} {nesting : Nesting}
    (h : (State.inside pastImports nesting started).step t = .ok s') :
    (t.kind ≠ .keyword .kwPackage ∧ t.kind ≠ .keyword .kwImport) ∧
      ((t.kind = .semicolon ∧ s' = .outside pastImports) ∨
        ∃ next, nesting.feed t = .ok next ∧ s' = .inside pastImports next true) := by
  simp only [State.step] at h
  split at h
  · cases h
  · rename_i hplain
    refine ⟨by simpa [not_or] using hplain, ?_⟩
    split at h
    · rename_i hsemicolon
      split at h
      · cases h
        exact .inl ⟨hsemicolon.1, rfl⟩
      · cases h
    · cases hfeed : nesting.feed t with
      | error e =>
        rw [hfeed] at h
        cases h
      | ok next =>
        rw [hfeed] at h
        cases h
        exact .inr ⟨next, rfl, rfl⟩

theorem opened_of_step (h : s.step t = .ok s') (o : Opened) (ho : o ∈ s'.nesting.opened) :
    o ∈ s.nesting.opened ∨ t.Opens o := by
  cases s with
  | packageClause | packageName | packageEnd =>
    obtain ⟨-, rfl⟩ := State.expect_eq_ok h
    cases ho
  | outside pastImports =>
    obtain ⟨-, past, rfl⟩ := step_outside_eq_ok h
    cases ho
  | inside pastImports nesting started =>
    obtain ⟨-, ⟨-, rfl⟩ | ⟨next, hfeed, rfl⟩⟩ := step_inside_eq_ok h
    · cases ho
    · exact Nesting.opened_of_feed hfeed ho

theorem endsStatement_of_startsDeclaration {kind : Kind} (h : kind.startsDeclaration = true) :
    kind.endsStatement = false := by
  cases kind with
  | keyword word => cases word <;> first | rfl | cases h
  | _ => cases h

/-- A semicolon that is inserted here may stand here. -/
def State.TakesSemicolon (s : State) : Prop := ∀ place, ∃ s', s.step (.inserted place) = .ok s'

/-- Where a token has ended a statement, a semicolon may stand. -/
theorem takesSemicolon_of_step (h : s.step t = .ok s') (hends : t.kind.endsStatement = true) :
    s'.TakesSemicolon := by
  intro place
  cases s with
  | packageClause =>
    obtain ⟨hkind, rfl⟩ := State.expect_eq_ok h
    rw [hkind] at hends
    cases hends
  | packageName =>
    obtain ⟨-, rfl⟩ := State.expect_eq_ok h
    exact ⟨_, rfl⟩
  | packageEnd =>
    obtain ⟨hkind, rfl⟩ := State.expect_eq_ok h
    rw [hkind] at hends
    cases hends
  | outside pastImports =>
    obtain ⟨hstarts, -⟩ := step_outside_eq_ok h
    rw [endsStatement_of_startsDeclaration hstarts] at hends
    cases hends
  | inside pastImports nesting started =>
    obtain ⟨-, ⟨hkind, -⟩ | ⟨next, -, rfl⟩⟩ := step_inside_eq_ok h
    · rw [hkind] at hends
      cases hends
    · cases htop : next.isTop with
      | true => exact ⟨.outside pastImports, by simp [State.step, Token.kind, htop]⟩
      | false =>
        refine ⟨.inside pastImports next true, ?_⟩
        simp [State.step, Token.kind, htop, Nesting.feed, bind, Except.bind, pure, Except.pure]

end Steps

section Runs

variable {src : String} {d : Diagnostic}

/-- No inserted semicolon is refused: a run that fails does so at a token that is written. -/
theorem exists_written_of_foldlM {finish : Option Nat} {pending : Bool} {ls : List Lexeme}
    {s : State} (hpending : pending = true → s.TakesSemicolon)
    (h : (insertSemicolons finish pending ls).foldlM State.step s = .error d) :
    ∃ l, .written l ∈ insertSemicolons finish pending ls ∧ Token.Blamed (.written l) d := by
  induction ls generalizing pending s with
  | nil =>
    cases pending with
    | false => cases h
    | true =>
      cases finish with
      | none => cases h
      | some place =>
        obtain ⟨s', hs'⟩ := hpending rfl place
        simp [insertSemicolons, hs', bind, Except.bind, pure, Except.pure] at h
  | cons l ls ih =>
    cases hl : l.kind.isTrivia with
    | false =>
      rw [insertSemicolons_token hl] at h ⊢
      rcases foldlM_cons_eq_error_iff.mp h with hfail | ⟨s', hstep, hrun⟩
      · exact ⟨l, List.mem_cons_self, blamed_of_step hfail⟩
      · obtain ⟨m, hm, hblamed⟩ := ih (takesSemicolon_of_step hstep) hrun
        exact ⟨m, List.mem_cons_of_mem _ hm, hblamed⟩
    | true =>
      rw [insertSemicolons_trivia hl] at h ⊢
      cases pending with
      | false =>
        obtain ⟨m, hm, hblamed⟩ := ih hpending h
        exact ⟨m, List.mem_append_right _ hm, hblamed⟩
      | true =>
        cases hbreak : l.lineBreak? with
        | none =>
          rw [hbreak] at h
          obtain ⟨m, hm, hblamed⟩ := ih hpending h
          exact ⟨m, List.mem_append_right _ hm, hblamed⟩
        | some place =>
          -- The semicolon that was due is taken, and none is due after it.
          obtain ⟨s', hs'⟩ := hpending rfl place
          rw [hbreak] at h
          change (Token.inserted place :: insertSemicolons finish false ls).foldlM State.step s =
            .error d at h
          rw [foldlM_cons_of_ok hs'] at h
          have hnone : false = true → s'.TakesSemicolon := by simp
          obtain ⟨m, hm, hblamed⟩ := ih hnone h
          exact ⟨m, List.mem_append_right _ hm, hblamed⟩

theorem State.finish_eq_error {size : Nat} {s : State} (h : s.finish size = .error d) :
    (∃ o rest, s.nesting.opened = o :: rest ∧ d = ⟨.unclosed o.pair, o.offset⟩) ∨
      ∃ expected, d = ⟨.endOfInput expected, size⟩ := by
  cases s with
  | packageClause | packageName | packageEnd =>
    cases h
    exact .inr ⟨_, rfl⟩
  | outside pastImports => cases h
  | inside pastImports nesting started =>
    simp only [State.finish] at h
    cases hfinish : nesting.finish with
    | error e =>
      rw [hfinish] at h
      cases h
      exact .inl (Nesting.finish_eq_error hfinish)
    | ok u =>
      rw [hfinish] at h
      cases h
      exact .inr ⟨_, rfl⟩

/-- A run over tokens fails at one of them, leaves something open, or stops before the end of a
declaration. -/
theorem foldlM_finish_eq_error {size : Nat} {s : State} {ts : List Token}
    (h : (ts.foldlM State.step s >>= State.finish size) = .error d) :
    ts.foldlM State.step s = .error d ∨
      (∃ s' o rest, ts.foldlM State.step s = .ok s' ∧ s'.nesting.opened = o :: rest ∧
        d = ⟨.unclosed o.pair, o.offset⟩) ∨
      ∃ expected, d = ⟨.endOfInput expected, size⟩ := by
  cases hfold : ts.foldlM State.step s with
  | error e =>
    rw [hfold] at h
    cases h
    exact .inl rfl
  | ok s' =>
    rw [hfold] at h
    rcases State.finish_eq_error h with ⟨o, rest, hopened, hd⟩ | hd
    · exact .inr (.inl ⟨s', o, rest, rfl, hopened, hd⟩)
    · exact .inr (.inr hd)

theorem pointsInto_of_check (h : check src = .error d) : d.PointsInto src := by
  cases htokens : tokenize src with
  | error e =>
    simp only [check, htokens] at h
    cases h
    exact pointsInto_of_stopped (tokenize_eq_error htokens)
  | ok ts =>
    simp only [check, htokens] at h
    rcases foldlM_finish_eq_error h with hfold | ⟨s, o, rest, hfold, hopened, rfl⟩ | ⟨expected, rfl⟩
    · have hts := (tokenize_eq_ok htokens).1
      rw [hts] at hfold
      have hnone : false = true → State.packageClause.TakesSemicolon := by simp
      obtain ⟨l, hl, hblamed⟩ := exists_written_of_foldlM hnone hfold
      rw [← hts] at hl
      exact hblamed.pointsInto (standsIn_of_written htokens hl)
    · have ho : o ∈ s.nesting.opened := by simp [hopened]
      rcases opened_of_foldlM State.nesting opened_of_step hfold ho with
        hbefore | ⟨t, ht, hopens⟩
      · cases hbefore
      · cases t with
        | written l => exact hopens.blamed.pointsInto (standsIn_of_written htokens ht)
        | inserted place => cases hopens.1
    · exact pointsInto_end src expected

end Runs

end SourceFile

end GoSource
