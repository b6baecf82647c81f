import GoSource.Check.Checker
import GoSource.Proofs.Token.Joining

/-!
# The judgement on a file, by kinds of tokens

Where a check of a file stands depends on the kinds of the tokens alone; offsets
serve diagnostics only. A text that passes as an expression keeps the check inside
its declaration, and ends the line that it stands on.
-/

namespace GoSource

section Runs

variable {σ α ε : Type} {f : σ → α → Except ε σ} {s s' : σ} {a : α} {as : List α} {e : ε}

/-- A run goes on from where its first step leads. -/
theorem foldlM_cons_of_ok (h : f s a = .ok s') (as : List α) :
    (a :: as).foldlM f s = as.foldlM f s' := by
  rw [List.foldlM_cons, h]
  rfl

theorem foldlM_append_of_ok (h : as.foldlM f s = .ok s') (bs : List α) :
    (as ++ bs).foldlM f s = bs.foldlM f s' := by
  rw [List.foldlM_append, h]
  rfl

theorem foldlM_cons_eq_ok_iff :
    (a :: as).foldlM f s = .ok s' ↔ ∃ next, f s a = .ok next ∧ as.foldlM f next = .ok s' := by
  rw [List.foldlM_cons]
  cases f s a <;> simp [bind, Except.bind]

theorem foldlM_cons_eq_error_iff :
    (a :: as).foldlM f s = .error e ↔
      f s a = .error e ∨ ∃ next, f s a = .ok next ∧ as.foldlM f next = .error e := by
  rw [List.foldlM_cons]
  cases f s a <;> simp [bind, Except.bind]

end Runs

/-- The open delimiters after a token, innermost first. -/
def feedDelimiters (opened : List Delimiter) : Kind → Option (List Delimiter)
  | .opening pair => some (pair :: opened)
  | .closing pair =>
    match opened with
    | top :: rest => if top = pair then some rest else none
    | [] => none
  | _ => some opened

/-- Where a check of a file stands between two tokens, without their places. -/
inductive Phase where
  | packageClause
  | packageName
  | packageEnd
  | outside (pastImports : Bool)
  | inside (pastImports : Bool) (opened : List Delimiter) (started : Bool)
deriving DecidableEq, Repr

namespace Phase

/-- The phase after a token of some kind, if it may stand there. -/
def step : Phase → Kind → Option Phase
  | packageClause, kind => if kind = .keyword .kwPackage then some packageName else none
  | packageName, kind => if kind = .ident then some packageEnd else none
  | packageEnd, kind => if kind = .semicolon then some (outside false) else none
  | outside pastImports, kind =>
    if !kind.startsDeclaration then none
    else if kind ≠ .keyword .kwImport then some (inside true [] false)
    else if pastImports then none
    else some (inside false [] false)
  | inside pastImports opened started, kind =>
    if kind = .keyword .kwPackage ∨ kind = .keyword .kwImport then none
    else if kind = .semicolon ∧ opened = [] then
      if started then some (outside pastImports) else none
    else (feedDelimiters opened kind).map (inside pastImports · true)

/-- The phase after tokens of these kinds. -/
def run (s : Phase) (kinds : List Kind) : Option Phase := kinds.foldlM step s

@[simp] theorem run_nil (s : Phase) : s.run [] = some s := rfl

@[simp] theorem run_cons (s : Phase) (kind : Kind) (kinds : List Kind) :
    s.run (kind :: kinds) = (s.step kind).bind (·.run kinds) := by
  simp [run, List.foldlM_cons]

theorem run_append (s : Phase) (ks ls : List Kind) :
    s.run (ks ++ ls) = (s.run ks).bind (·.run ls) := by
  simp [run, List.foldlM_append]

/-- The phase at the end of a text; `pending` says that the last token before the text
ends a statement. -/
def scan (s : Phase) (pending : Bool) (cs : List Char) : Option Phase :=
  (kindsFrom pending cs).bind s.run

end Phase

namespace SourceFile

/-- The phase of a state. -/
def State.phase : State → Phase
  | packageClause => .packageClause
  | packageName => .packageName
  | packageEnd => .packageEnd
  | outside pastImports => .outside pastImports
  | inside pastImports nesting started =>
    .inside pastImports (nesting.opened.map (·.pair)) started

end SourceFile

theorem Nesting.feed_toOption (n : Nesting) (t : Token) :
    (n.feed t).toOption.map (fun n => n.opened.map (·.pair)) =
      feedDelimiters (n.opened.map (·.pair)) t.kind := by
  unfold Nesting.feed feedDelimiters
  cases t.kind with
  | closing pair =>
    cases hopened : n.opened with
    | nil => rfl
    | cons o rest => by_cases hpair : o.pair = pair <;> simp [hpair, Except.toOption]
  | _ => rfl

namespace SourceFile

theorem State.step_toOption (s : State) (t : Token) :
    (s.step t).toOption.map State.phase = s.phase.step t.kind := by
  cases s with
  | packageClause => simp only [step, expect, phase, Phase.step]; split <;> rfl
  | packageName => simp only [step, expect, phase, Phase.step]; split <;> rfl
  | packageEnd => simp only [step, expect, phase, Phase.step]; split <;> rfl
  | outside pastImports =>
    simp only [step, phase, Phase.step]
    split
    · rfl
    · split
      · rfl
      · split <;> rfl
  | inside pastImports nesting started =>
    have hfeed := nesting.feed_toOption t
    have htop : nesting.isTop = true ↔ nesting.opened.map (·.pair) = [] := by
      simp [Nesting.isTop]
    simp only [step, phase, Phase.step, htop, ← hfeed]
    split
    · rfl
    · split
      · split <;> rfl
      · cases nesting.feed t <;> rfl

theorem foldlM_step_toOption (s : State) (ts : List Token) :
    (ts.foldlM State.step s).toOption.map State.phase = s.phase.run (ts.map Token.kind) := by
  induction ts generalizing s with
  | nil => rfl
  | cons t ts ih =>
    have hstep := s.step_toOption t
    rw [List.foldlM_cons, List.map_cons, Phase.run_cons, ← hstep]
    cases s.step t with
    | error d => rfl
    | ok s' => exact ih s'

theorem State.finish_eq_ok_iff (size : Nat) (s : State) :
    s.finish size = .ok () ↔ ∃ pastImports, s.phase = .outside pastImports := by
  cases s with
  | inside pastImports nesting started =>
    cases h : nesting.finish <;> simp [finish, phase, h, bind, Except.bind]
  | _ => simp [finish, phase]

/-- A file passes if its tokens lead from the package clause to the end of a declaration. -/
theorem check_eq_ok_iff (src : String) :
    check src = .ok () ↔
      ∃ pastImports, Phase.packageClause.scan false src.toList = some (.outside pastImports) := by
  rw [Phase.scan, kindsFrom_toList, check]
  cases tokenize src with
  | error d => simp [Except.toOption, bind, Except.bind]
  | ok ts =>
    have hrun := foldlM_step_toOption .packageClause ts
    change _ = Phase.packageClause.run _ at hrun
    simp only [Except.toOption, Option.map_some, Option.bind_some, ← hrun, checkTokens, bind,
      Except.bind]
    cases ts.foldlM State.step .packageClause with
    | error d => simp
    | ok s => simpa using s.finish_eq_ok_iff src.utf8ByteSize

end SourceFile

/-- Where a check stands once a line of a declaration has ended: the line ends the
declaration unless something is open. -/
def Phase.lineEnd (pastImports : Bool) (opened : List Delimiter) : Phase :=
  if opened = [] then .outside pastImports else .inside pastImports opened true

theorem Phase.step_semicolon (pastImports : Bool) (opened : List Delimiter) :
    (Phase.inside pastImports opened true).step .semicolon =
      some (lineEnd pastImports opened) := by
  cases opened <;> simp [step, lineEnd, feedDelimiters]

namespace Expression

/-- A place lies inside a brace only if something is open. -/
def Counted (n : Nesting) : Prop := n.braces = n.opened.countP (·.pair = .brace)

theorem counted_feed {n n' : Nesting} {t : Token} (h : Counted n) (hfeed : n.feed t = .ok n') :
    Counted n' := by
  cases hk : t.kind with
  | opening pair =>
    simp only [Nesting.feed, hk] at hfeed
    obtain rfl := Except.ok.inj hfeed
    by_cases hp : pair = .brace <;> simp_all [Counted, Nesting.push]
  | closing pair =>
    cases hopened : n.opened with
    | nil => simp [Nesting.feed, hk, hopened] at hfeed
    | cons o rest =>
      simp only [Nesting.feed, hk, hopened] at hfeed
      split at hfeed
      · obtain rfl := Except.ok.inj hfeed
        by_cases hp : pair = .brace <;> simp_all [Counted]
      · cases hfeed
  | _ =>
    simp only [Nesting.feed, hk] at hfeed
    exact Except.ok.inj hfeed ▸ h

theorem feedDelimiters_append {opened opened' : List Delimiter} {kind : Kind}
    (h : feedDelimiters opened kind = some opened') (base : List Delimiter) :
    feedDelimiters (opened ++ base) kind = some (opened' ++ base) := by
  cases kind with
  | closing pair =>
    cases opened with
    | nil => cases h
    | cons top rest =>
      simp only [feedDelimiters, List.cons_append] at h ⊢
      split at h
      · obtain rfl := Option.some.inj h
        rw [if_pos ‹_›]
      · cases h
  | _ =>
    obtain rfl := Option.some.inj h
    rfl

/-- A step of an expression looks at the token and then feeds it to the delimiters. -/
theorem step_eq_ok {s s' : State} {t : Token} (h : s.step t = .ok s') :
    refused? s t.kind = none ∧ s.nesting.feed t = .ok s'.nesting := by
  unfold State.step at h
  split at h
  · cases h
  · rename_i hrefused
    refine ⟨hrefused, ?_⟩
    cases hfeed : s.nesting.feed t with
    | error d =>
      rw [hfeed] at h
      cases h
    | ok n =>
      rw [hfeed] at h
      obtain rfl := Except.ok.inj h
      rfl

/-- A semicolon stands in an expression only where something is open. -/
theorem opened_ne_nil_of_semicolon {s : State} (hcounted : Counted s.nesting)
    (h : refused? s .semicolon = none) : s.nesting.opened ≠ [] := by
  intro hnil
  have hbraces : s.nesting.inBraces = false := by
    rw [Counted, hnil] at hcounted
    simp [Nesting.inBraces, hcounted]
  simp [refused?, hbraces, Kind.isStatementKeyword, Kind.isAssignment, Symbol.isAssignment] at h

/-- A token that an expression takes, taken inside a declaration. -/
theorem phase_step {s s' : State} {t : Token} (hcounted : Counted s.nesting)
    (hplain : t.kind ≠ .keyword .kwPackage ∧ t.kind ≠ .keyword .kwImport)
    (h : s.step t = .ok s') (pastImports : Bool) (base : List Delimiter) :
    (Phase.inside pastImports (s.nesting.opened.map (·.pair) ++ base) true).step t.kind =
      some (.inside pastImports (s'.nesting.opened.map (·.pair) ++ base) true) := by
  obtain ⟨hrefused, hfeed⟩ := step_eq_ok h
  have hdelimiters := s.nesting.feed_toOption t
  rw [hfeed] at hdelimiters
  have hsemicolon : ¬ (t.kind = .semicolon ∧ s.nesting.opened.map (·.pair) ++ base = []) := by
    rintro ⟨hk, hnil⟩
    rw [hk] at hrefused
    simp [opened_ne_nil_of_semicolon hcounted hrefused] at hnil
  rw [Phase.step, if_neg (by simp [hplain]), if_neg hsemicolon,
    feedDelimiters_append hdelimiters.symm base]
  rfl

/-- The tokens of an expression, taken inside a declaration. -/
theorem phase_run {s s' : State} {ts : List Token} (hcounted : Counted s.nesting)
    (hplain : ∀ t ∈ ts, t.kind ≠ .keyword .kwPackage ∧ t.kind ≠ .keyword .kwImport)
    (h : ts.foldlM State.step s = .ok s') (pastImports : Bool) (base : List Delimiter) :
    (Phase.inside pastImports (s.nesting.opened.map (·.pair) ++ base) true).run
        (ts.map Token.kind) =
      some (.inside pastImports (s'.nesting.opened.map (·.pair) ++ base) true) := by
  induction ts generalizing s with
  | nil =>
    obtain rfl := Except.ok.inj h
    rfl
  | cons t ts ih =>
    obtain ⟨s₁, hstep, hrun⟩ := foldlM_cons_eq_ok_iff.mp h
    have hcounted₁ := counted_feed hcounted (step_eq_ok hstep).2
    rw [List.map_cons, Phase.run_cons,
      phase_step hcounted (hplain t (by simp)) hstep pastImports base, Option.bind_some]
    exact ih hcounted₁ (fun u hu => hplain u (List.mem_cons_of_mem _ hu)) hrun

/-- What lets a text end a line of a declaration: no token belongs to the head of a file,
and the last token that is written ends a statement. -/
structure FitsLine (src : String) : Prop where
  plain : ∀ ts, tokenize src = .ok ts →
    ∀ t ∈ ts, t.kind ≠ .keyword .kwPackage ∧ t.kind ≠ .keyword .kwImport
  ends : ∀ ts, tokenize src = .ok ts →
    ∀ t, (ts.filter (!·.isInserted)).getLast? = some t → t.kind.endsStatement = true

/-- Whether a text fits a line, by its tokens. -/
def fitsLine (src : String) : Bool :=
  match tokenize src with
  | .error _ => true
  | .ok ts =>
    ts.all (fun t => t.kind != .keyword .kwPackage && t.kind != .keyword .kwImport) &&
      (ts.filter (!·.isInserted)).getLast?.all (·.kind.endsStatement)

theorem fitsLine_iff {src : String} : fitsLine src = true ↔ FitsLine src := by
  unfold fitsLine
  cases htokens : tokenize src with
  | error d => simpa using ⟨fun ts h => by simp [htokens] at h, fun ts h => by simp [htokens] at h⟩
  | ok ts =>
    constructor
    · intro h
      obtain ⟨plain, ends⟩ := Bool.and_eq_true_iff.mp h
      refine ⟨fun us hus => ?_, fun us hus => ?_⟩ <;>
        obtain rfl := Except.ok.inj (htokens.symm.trans hus)
      · simpa using plain
      · simpa [Option.all_eq_true] using ends
    · rintro ⟨plain, ends⟩
      have hplain := plain ts htokens
      have hends := ends ts htokens
      simp_all [Option.all_eq_true]

instance (src : String) : Decidable (FitsLine src) := decidable_of_iff _ fitsLine_iff

section LastToken

variable {ts before : List Token} {l : Lexeme} {place : Nat}

theorem dropInserted_concat (ts : List Token) (place : Nat) :
    dropInserted (ts ++ [.inserted place]) = ts := by
  simp [dropInserted]

theorem mem_of_mem_dropInserted {t : Token} (ht : t ∈ dropInserted ts) : t ∈ ts := by
  unfold dropInserted at ht
  split at ht
  · exact (List.dropLast_sublist ts).subset ht
  · exact ht

/-- The semicolon that is left out of an expression follows its last token. -/
theorem dropInserted_last
    (hts : ts = before ++ .written l :: if l.kind.endsStatement then [.inserted place] else []) :
    dropInserted ts = before ++ [.written l] := by
  cases hends : l.kind.endsStatement <;> simp [hts, hends, dropInserted]

theorem getLast?_written
    (hts : ts = before ++ .written l :: if l.kind.endsStatement then [.inserted place] else []) :
    (ts.filter (!·.isInserted)).getLast? = some (.written l) := by
  cases hends : l.kind.endsStatement <;> simp [hts, hends, Token.isInserted]

end LastToken

/-- Inside a declaration a check passes over the tokens of an expression if none of them opens
a clause. -/
theorem run_dropInserted {src : String} {ts : List Token} (hcheck : check src = .ok ())
    (htokens : tokenize src = .ok ts)
    (hplain : ∀ t ∈ dropInserted ts,
      t.kind ≠ .keyword .kwPackage ∧ t.kind ≠ .keyword .kwImport)
    (pastImports : Bool) (opened : List Delimiter) :
    (Phase.inside pastImports opened true).run ((dropInserted ts).map Token.kind) =
      some (.inside pastImports opened true) := by
  simp only [check, htokens, bind, Except.bind, checkTokens] at hcheck
  split at hcheck
  · cases hcheck
  · cases hfold : (dropInserted ts).foldlM State.step {} with
    | error d => simp [hfold] at hcheck
    | ok s =>
      have hclosed : s.nesting.opened = [] := by
        cases hopened : s.nesting.opened with
        | nil => rfl
        | cons o rest => simp [hfold, Nesting.finish, hopened] at hcheck
      have hrun := phase_run (s := {}) (by simp [Counted]) hplain hfold pastImports opened
      simpa only [List.map_nil, List.nil_append, hclosed] using hrun

/-- A text that passes as an expression has tokens, the last of them written or inserted after
one that is. -/
theorem exists_tokens {src : String} (hcheck : check src = .ok ()) :
    ∃ ts before l place, tokenize src = .ok ts ∧ ts = before ++ .written l ::
      if l.kind.endsStatement then [.inserted place] else [] := by
  cases htokens : tokenize src with
  | error d =>
    simp only [check, htokens] at hcheck
    cases hcheck
  | ok ts =>
    have hne : ts ≠ [] := by
      rintro rfl
      simp only [check, htokens] at hcheck
      cases hcheck
    obtain ⟨before, l, place, hts⟩ := exists_last_token htokens hne
    exact ⟨ts, before, l, place, rfl, hts⟩

/-- Where a check inside a declaration stands after an expression: the line has ended if the
last token ends a statement. -/
theorem run_tokens {src : String} {ts before : List Token} {l : Lexeme} {place : Nat}
    (hcheck : check src = .ok ()) (htokens : tokenize src = .ok ts)
    (hts : ts = before ++ .written l :: if l.kind.endsStatement then [.inserted place] else [])
    (hplain : ∀ t ∈ ts, t.kind ≠ .keyword .kwPackage ∧ t.kind ≠ .keyword .kwImport)
    (pastImports : Bool) (opened : List Delimiter) :
    (Phase.inside pastImports opened true).run (ts.map Token.kind) =
      some (if l.kind.endsStatement then .lineEnd pastImports opened
        else .inside pastImports opened true) := by
  have hrun := run_dropInserted hcheck htokens
  rw [dropInserted_last hts] at hrun
  rw [hts, List.append_cons] at hplain ⊢
  rw [List.map_append, Phase.run_append,
    hrun (fun t ht => hplain t (List.mem_append_left _ ht)) pastImports opened]
  cases l.kind.endsStatement <;> simp [Token.kind, Phase.step_semicolon]

/-- A text that passes as an expression and fits a line ends the line of a declaration. -/
theorem exists_kinds {src : String} (hcheck : check src = .ok ()) (hfits : FitsLine src) :
    ∃ ks, kindsFrom false src.toList = some ks ∧ ∀ pastImports opened,
      (Phase.inside pastImports opened true).run ks = some (.lineEnd pastImports opened) := by
  obtain ⟨ts, before, l, place, htokens, hts⟩ := exists_tokens hcheck
  have hends : l.kind.endsStatement = true :=
    hfits.ends ts htokens (.written l) (getLast?_written hts)
  refine ⟨ts.map Token.kind, kindsFrom_of_tokenize htokens, fun pastImports opened => ?_⟩
  rw [run_tokens hcheck htokens hts (hfits.plain ts htokens), if_pos hends]

end Expression

end GoSource
