import GoSource.Proofs.Check.Location
import GoSource.Proofs.Check.Nested
import GoSource.Proofs.Token.Joining

/-!
# Where diagnostics of function bodies point

A body is judged inside a function that is written around it, and its diagnostics count from
its own start. They point into the body and the brace that closes it, with one exception: the
brace that opens the function lies before the body, so where it alone is left open, its
diagnostic has no place and is reported at the start.
-/

namespace GoSource

namespace SourceFile

/-- Read together with the brace that closes a body, the text has delimiters that match one
another, so that brace is taken and the one that opens the body is not. Nothing else stops the
reading before its end. -/
def LeavesBodyOpen (src : String) : Prop :=
  ∃ tokens, tokenize (src ++ bodyClosing) = .ok tokens ∧
    (∀ t ∈ tokens, t.kind ≠ .keyword .kwPackage ∧ t.kind ≠ .keyword .kwImport) ∧
    ∃ n : Nested, n.kinds = tokens.map Token.kind

section Inside

variable {pastImports : Bool} {nesting : Nesting} {t : Token} {ts : List Token} {s : State}

/-- Inside delimiters of a declaration only the delimiters matter. -/
theorem step_inside (pastImports : Bool)
    (hplain : t.kind ≠ .keyword .kwPackage ∧ t.kind ≠ .keyword .kwImport)
    (hopen : nesting.opened ≠ []) {next : Nesting} (hfeed : nesting.feed t = .ok next) :
    (State.inside pastImports nesting true).step t = .ok (.inside pastImports next true) := by
  have htop : nesting.isTop = false := by simpa [Nesting.isTop] using hopen
  simp [State.step, hplain, htop, hfeed, bind, Except.bind, pure, Except.pure]

/-- Delimiters that match one another leave the check where it was. -/
theorem foldlM_nested (n : Nested) (hts : ts.map Token.kind = n.kinds)
    (hplain : ∀ t ∈ ts, t.kind ≠ .keyword .kwPackage ∧ t.kind ≠ .keyword .kwImport)
    (hopen : nesting.opened ≠ []) :
    ts.foldlM State.step (.inside pastImports nesting true) =
      .ok (.inside pastImports nesting true) := by
  induction n generalizing ts nesting with
  | done =>
    obtain rfl := List.map_eq_nil_iff.mp hts
    rfl
  | token kind plain next ih =>
    obtain ⟨t, us, rfl, hkind, hus⟩ := List.map_eq_cons_iff.mp hts
    rw [List.forall_mem_cons] at hplain
    have hfeed := nesting.feed_plain (hkind ▸ plain)
    rw [foldlM_cons_of_ok (step_inside _ hplain.1 hopen hfeed), ih hus hplain.2 hopen]
  | group pair inside next hinside hnext =>
    obtain ⟨us, vs, rfl, hus, hvs⟩ := List.map_eq_append_iff.mp hts
    obtain ⟨opener, ws, rfl, hopener, hws⟩ := List.map_eq_cons_iff.mp hus
    obtain ⟨closer, xs, rfl, hcloser, hxs⟩ := List.map_eq_cons_iff.mp hvs
    rw [List.forall_mem_append, List.forall_mem_cons, List.forall_mem_cons] at hplain
    obtain ⟨⟨hplainOpener, hplainInside⟩, hplainCloser, hplainNext⟩ := hplain
    have hopener := step_inside pastImports hplainOpener hopen (nesting.feed_opening hopener)
    have hcloser := step_inside pastImports hplainCloser (List.cons_ne_nil _ _)
      (nesting.feed_push (o := ⟨pair, opener.start⟩) hcloser)
    rw [List.cons_append, foldlM_cons_of_ok hopener,
      foldlM_append_of_ok (hinside hws hplainInside (List.cons_ne_nil _ _)),
      foldlM_cons_of_ok hcloser, hnext hxs hplainNext hopen]

/-- A step inside a declaration that leaves a delimiter open feeds its token to those above it. -/
theorem step_above {above : List Opened} {w : Opened} {braces : Nat}
    (h : (State.inside pastImports ⟨above ++ [w], braces⟩ true).step t = .ok s)
    (hw : w ∈ s.nesting.opened) :
    (t.kind ≠ .keyword .kwPackage ∧ t.kind ≠ .keyword .kwImport) ∧
      ∃ above' braces', s = .inside pastImports ⟨above' ++ [w], braces'⟩ true ∧
        feedDelimiters (above.map (·.pair)) t.kind = some (above'.map (·.pair)) ∧
        ∀ o ∈ above', o ∈ above ∨ t.Opens o := by
  obtain ⟨hplain, ⟨-, rfl⟩ | ⟨next, hfeed, rfl⟩⟩ := step_inside_eq_ok h
  · cases hw
  refine ⟨hplain, ?_⟩
  cases hk : t.kind with
  | opening pair =>
    rw [Nesting.feed, hk] at hfeed
    cases hfeed
    refine ⟨⟨pair, t.start⟩ :: above, _, rfl, rfl, fun o ho => ?_⟩
    rcases List.mem_cons.mp ho with rfl | ho
    · exact .inr ⟨hk, rfl⟩
    · exact .inl ho
  | closing pair =>
    rw [Nesting.feed, hk] at hfeed
    cases above with
    | nil =>
      simp only [List.nil_append] at hfeed
      split at hfeed
      · cases hfeed
        cases hw
      · cases hfeed
    | cons o above =>
      simp only [List.cons_append] at hfeed
      split at hfeed
      · rename_i hpair
        cases hfeed
        refine ⟨above, _, rfl, by simp [feedDelimiters, hpair], fun o' ho' => ?_⟩
        exact .inl (List.mem_cons_of_mem _ ho')
      · cases hfeed
  | _ =>
    have hdelimiter : t.kind.isDelimiter = false := by rw [hk]; rfl
    rw [Nesting.feed_plain hdelimiter] at hfeed
    cases hfeed
    rw [← hk]
    exact ⟨above, braces, rfl, feedDelimiters_plain hdelimiter _, fun o ho => .inl ho⟩

/-- A delimiter that is innermost after a run, and that no token of the run could have opened,
was not closed by it: the delimiters of the run match one another. -/
theorem feedAll_of_foldlM_inside {above : List Opened} {w : Opened} {braces : Nat}
    (h : ts.foldlM State.step (.inside pastImports ⟨above ++ [w], braces⟩ true) = .ok s)
    (hw : s.nesting.opened.head? = some w) (hts : ∀ t ∈ ts, t.start ≠ w.offset)
    (habove : ∀ o ∈ above, o.offset ≠ w.offset) :
    (∀ t ∈ ts, t.kind ≠ .keyword .kwPackage ∧ t.kind ≠ .keyword .kwImport) ∧
      feedAll (above.map (·.pair)) (ts.map Token.kind) = some [] := by
  induction ts generalizing above braces with
  | nil =>
    cases h
    cases above with
    | nil => exact ⟨nofun, rfl⟩
    | cons o above =>
      obtain rfl : o = w := by simpa [State.nesting] using hw
      exact absurd rfl (habove o List.mem_cons_self)
  | cons t ts ih =>
    rw [List.forall_mem_cons] at hts
    obtain ⟨s', hstep, hrun⟩ := foldlM_cons_eq_ok_iff.mp h
    have hkept : w ∈ s'.nesting.opened := by
      rcases opened_of_foldlM State.nesting opened_of_step hrun (List.mem_of_mem_head? hw) with
        hkept | ⟨u, hu, hopens⟩
      · exact hkept
      · exact absurd hopens.2 (hts.2 u hu)
    obtain ⟨hplain, above', braces', rfl, hfeed, hopened⟩ := step_above hstep hkept
    have habove' : ∀ o ∈ above', o.offset ≠ w.offset := by
      intro o ho
      rcases hopened o ho with ho | hopens
      · exact habove o ho
      · rw [← hopens.2]
        exact hts.1
    obtain ⟨hplains, hfeeds⟩ := ih hrun hts.2 habove'
    refine ⟨List.forall_mem_cons.mpr ⟨hplain, hplains⟩, ?_⟩
    rw [List.map_cons, feedAll_cons, hfeed, Option.bind_some, hfeeds]

end Inside

section Wrapped

variable {src : String} {d : Diagnostic} {us : List Token}

/-- The tokens before a body, in front of the line end that nothing has to follow. -/
def openingTokens : List Token :=
  [.written ⟨.keyword .kwPackage, 0, "package"⟩, .written ⟨.ident, 8, "p"⟩, .inserted 9,
   .written ⟨.keyword .kwFunc, 10, "func"⟩, .written ⟨.ident, 15, "_"⟩,
   .written ⟨.opening .paren, 16, "("⟩, .written ⟨.closing .paren, 17, ")"⟩,
   .written ⟨.opening .brace, 19, "\x7b"⟩]

/-- Where the check of a file stands at the start of a body: the brace is open. -/
def bodyState : State := .inside true ⟨[⟨.brace, 19⟩], 1⟩ true

theorem foldlM_openingTokens : openingTokens.foldlM State.step .packageClause = .ok bodyState := by
  decide

theorem scan_wrapped (src : String) :
    scan (bodyOpening ++ src ++ bodyClosing) =
      ⟨openingTokens ++ (scan (src ++ bodyClosing)).items.map (Token.shift bodyOpening.utf8ByteSize),
        (scan (src ++ bodyClosing)).stopped.map (Diagnostic.shift bodyOpening.utf8ByteSize)⟩ := by
  have hhead : scan "package p\nfunc _() \x7b" = ⟨openingTokens, none⟩ := by decide +kernel
  have hstopped : (lex "package p\nfunc _() \x7b").stopped = none :=
    congrArg Reading.stopped hhead
  have hline := scan_line hstopped (src ++ bodyClosing)
  rw [hhead, ← String.append_assoc] at hline
  exact hline

/-- The tokens of a body and of the brace after it are judged from the start of the body on. -/
theorem check_wrapped_of_ok (h : tokenize (src ++ bodyClosing) = .ok us) :
    check (bodyOpening ++ src ++ bodyClosing) =
      ((us.map (Token.shift bodyOpening.utf8ByteSize)).foldlM State.step bodyState >>=
        State.finish (bodyOpening ++ src ++ bodyClosing).utf8ByteSize) := by
  obtain ⟨hus, hstopped⟩ := tokenize_eq_ok h
  have hitems : (scan (src ++ bodyClosing)).items = us := by
    simp only [scan, hstopped, hus]
    rfl
  have hnone : (scan (src ++ bodyClosing)).stopped = none := hstopped
  have htokens : tokenize (bodyOpening ++ src ++ bodyClosing) =
      .ok (openingTokens ++ us.map (Token.shift bodyOpening.utf8ByteSize)) := by
    rw [tokenize, scan_wrapped, hitems, hnone]
    rfl
  rw [check, htokens]
  show (_ >>= State.finish _) = _
  rw [foldlM_append_of_ok foldlM_openingTokens]

theorem check_wrapped_of_error (h : tokenize (src ++ bodyClosing) = .error d) :
    check (bodyOpening ++ src ++ bodyClosing) = .error (d.shift bodyOpening.utf8ByteSize) := by
  have hstopped : (scan (src ++ bodyClosing)).stopped = some d := tokenize_eq_error h
  have htokens : tokenize (bodyOpening ++ src ++ bodyClosing) =
      .error (d.shift bodyOpening.utf8ByteSize) := by
    rw [tokenize, scan_wrapped, hstopped]
    rfl
  rw [check, htokens]
  rfl

theorem map_kind_shift (size : Nat) (ts : List Token) :
    (ts.map (Token.shift size)).map Token.kind = ts.map Token.kind := by
  simp

theorem size_bodyOpening : bodyOpening.utf8ByteSize = 21 := by decide +kernel

/-- Where only the brace that opens the body is left open, that brace is blamed. -/
theorem checkBody_of_leavesBodyOpen (h : LeavesBodyOpen src) :
    checkBody src = .error ⟨.unclosed .brace, 0⟩ := by
  obtain ⟨us, htokens, hplain, n, hn⟩ := h
  have hkinds : (us.map (Token.shift bodyOpening.utf8ByteSize)).map Token.kind = n.kinds := by
    rw [map_kind_shift, hn]
  have hplain' : ∀ t ∈ us.map (Token.shift bodyOpening.utf8ByteSize),
      t.kind ≠ .keyword .kwPackage ∧ t.kind ≠ .keyword .kwImport := by
    simpa using hplain
  have hrun : (us.map (Token.shift bodyOpening.utf8ByteSize)).foldlM State.step bodyState =
      .ok bodyState := foldlM_nested n hkinds hplain' (List.cons_ne_nil _ _)
  rw [checkBody, check_wrapped_of_ok htokens, hrun]
  rw [size_bodyOpening]
  rfl

/-- Every other diagnostic of a body lies behind the brace that opens it. -/
theorem offset_of_check_wrapped (h : check (bodyOpening ++ src ++ bodyClosing) = .error d)
    (hclosed : ¬ LeavesBodyOpen src) : bodyOpening.utf8ByteSize ≤ d.offset := by
  cases htokens : tokenize (src ++ bodyClosing) with
  | error e =>
    rw [check_wrapped_of_error htokens] at h
    cases h
    exact Nat.le_add_left _ _
  | ok us =>
    rw [check_wrapped_of_ok htokens] at h
    have hshifted : ∀ t ∈ us.map (Token.shift bodyOpening.utf8ByteSize),
        bodyOpening.utf8ByteSize ≤ t.start := by
      rw [List.forall_mem_map]
      intro t ht
      rw [Token.start_shift]
      exact Nat.le_add_left _ _
    rcases foldlM_finish_eq_error h with hfold | ⟨s, o, rest, hfold, hopened, rfl⟩ | ⟨expected, rfl⟩
    · obtain ⟨t, ht, hblamed⟩ := exists_blamed_of_foldlM blamed_of_step hfold
      rw [hblamed.offset_eq]
      exact hshifted t ht
    · have ho : o ∈ s.nesting.opened := by simp [hopened]
      rcases opened_of_foldlM State.nesting opened_of_step hfold ho with hbefore | ⟨t, ht, hopens⟩
      · -- The brace that opens the body is innermost at the end, so the rest matches.
        obtain rfl : o = ⟨.brace, 19⟩ := List.mem_singleton.mp hbefore
        have hafter : ∀ t ∈ us.map (Token.shift bodyOpening.utf8ByteSize), t.start ≠ 19 := by
          intro t ht
          have hstart := hshifted t ht
          rw [size_bodyOpening] at hstart
          omega
        have hinnermost : s.nesting.opened.head? = some ⟨.brace, 19⟩ := by rw [hopened]; rfl
        have hrun : (us.map (Token.shift bodyOpening.utf8ByteSize)).foldlM State.step
            (.inside true ⟨[] ++ [⟨.brace, 19⟩], 1⟩ true) = .ok s := hfold
        obtain ⟨hplain, hfeed⟩ := feedAll_of_foldlM_inside hrun hinnermost hafter nofun
        rw [map_kind_shift] at hfeed
        exact absurd ⟨us, htokens, by simpa using hplain, feedAll_eq_nil_iff.mp hfeed⟩ hclosed
      · rw [← hopens.2]
        exact hshifted t ht
    · show bodyOpening.utf8ByteSize ≤ (bodyOpening ++ src ++ bodyClosing).utf8ByteSize
      simp only [String.utf8ByteSize_append]
      omega

theorem pointsInto_of_checkBody (h : checkBody src = .error d) (hclosed : ¬ LeavesBodyOpen src) :
    d.PointsInto (src ++ bodyClosing) := by
  cases hcheck : check (bodyOpening ++ src ++ bodyClosing) with
  | ok u =>
    rw [checkBody, hcheck] at h
    cases h
  | error e =>
    rw [checkBody, hcheck] at h
    cases h
    have hinto := pointsInto_of_check hcheck
    rw [String.append_assoc] at hinto
    exact hinto.beyond (offset_of_check_wrapped hcheck hclosed)

end Wrapped

end SourceFile

/-- Where the check of an expression or of a file fails, the source shows what the diagnostic
says at the place that it gives. So does a body with the brace that closes it, unless the brace
that opens the body is all that is left open; that brace is reported at the start. -/
theorem diagnostics_pointInto (src : String) :
    (∀ d, Expression.check src = .error d → d.PointsInto src) ∧
    (∀ d, SourceFile.check src = .error d → d.PointsInto src) ∧
    (SourceFile.LeavesBodyOpen src → SourceFile.checkBody src = .error ⟨.unclosed .brace, 0⟩) ∧
    (¬ SourceFile.LeavesBodyOpen src → ∀ d, SourceFile.checkBody src = .error d →
      d.PointsInto (src ++ SourceFile.bodyClosing)) :=
  ⟨fun _ h => Expression.pointsInto_of_check h, fun _ h => SourceFile.pointsInto_of_check h,
    SourceFile.checkBody_of_leavesBodyOpen,
    fun hclosed _ h => SourceFile.pointsInto_of_checkBody h hclosed⟩

example : SourceFile.checkBody "é \x7b" = .error ⟨.unclosed .brace, 0⟩ ∧
    SourceFile.checkBody "é (" = .error ⟨.unmatched .brace, 5⟩ := by decide +kernel

end GoSource
