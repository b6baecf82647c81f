import GoSource.Proofs.Check.Nested

/-!
# The grammar of a source file

A text passes as a file exactly if its tokens are a package clause and declarations,
imports first. Of a declaration only its extent is in the grammar: the keyword at its head,
a body in which delimiters nest, and the semicolon that ends it. Whether the body means
anything is not looked at.
-/

namespace GoSource

/-- A declaration by its extent. -/
structure Declaration where
  head : Keyword
  body : Nested
  declares : head ∈ [.kwImport, .kwConst, .kwVar, .kwType, .kwFunc]
  nonempty : body.kinds ≠ []
  /-- A package clause or an import at no depth. -/
  plain : ∀ kind ∈ body.kinds, kind ≠ .keyword .kwPackage ∧ kind ≠ .keyword .kwImport
  /-- The declaration ends at its first semicolon outside all delimiters. -/
  undivided : .semicolon ∉ body.outermost

def Declaration.kinds (d : Declaration) : List Kind :=
  .keyword d.head :: d.body.kinds ++ [.semicolon]

theorem Keyword.startsDeclaration_iff {word : Keyword} :
    word.startsDeclaration = true ↔ word ∈ [.kwImport, .kwConst, .kwVar, .kwType, .kwFunc] := by
  cases word <;> decide

section Body

/-- The open delimiters after a token of a declaration's body, if it can be one. -/
def feedBody (opened : List Delimiter) (kind : Kind) : Option (List Delimiter) :=
  if kind = .keyword .kwPackage ∨ kind = .keyword .kwImport then none
  else if kind = .semicolon ∧ opened = [] then none
  else feedDelimiters opened kind

/-- Whether a token can stand at its place in a declaration's body. -/
structure Placed.FitsBody (t : Placed) : Prop where
  plain : t.kind ≠ .keyword .kwPackage ∧ t.kind ≠ .keyword .kwImport
  undivided : t.around = [] → t.kind ≠ .semicolon

theorem feedBody_eq_some_iff {opened next : List Delimiter} {kind : Kind} :
    feedBody opened kind = some next ↔
      Placed.FitsBody ⟨kind, opened⟩ ∧ feedDelimiters opened kind = some next := by
  unfold feedBody
  constructor
  · intro h
    split at h
    · cases h
    · rename_i hplain
      split at h
      · cases h
      · rename_i hsemicolon
        exact ⟨⟨not_or.mp hplain, fun ho hk => hsemicolon ⟨hk, ho⟩⟩, h⟩
  · rintro ⟨⟨hplain, hundivided⟩, h⟩
    rw [if_neg (not_or.mpr hplain), if_neg fun hs => hundivided hs.2 hs.1, h]

theorem followsStack_feedBody :
    FollowsStack feedBody id (fun _ => True) Placed.FitsBody where
  token _ hk := by simp [feedBody_eq_some_iff, feedDelimiters_plain hk, eq_comm]
  delimiter {opened kind} hk := by
    have hne : ∀ other : Kind, other.isDelimiter = false → kind ≠ other := by
      rintro other hother rfl
      rw [hk] at hother
      cases hother
    exact ⟨⟨hne _ rfl, hne _ rfl⟩, fun _ => hne _ rfl⟩
  reached_cons _ _ := trivial
  opener _ _ := by simp [feedBody, feedDelimiters]
  closer _ _ := by simp [feedBody, feedDelimiters]

/-- The token lists of bodies: trees without a package clause or an import at any depth and
without a semicolon outside all delimiters. -/
theorem foldlM_feedBody_iff {kinds : List Kind} :
    kinds.foldlM feedBody [] = some [] ↔
      ∃ n : Nested, n.kinds = kinds ∧
        (∀ kind ∈ n.kinds, kind ≠ .keyword .kwPackage ∧ kind ≠ .keyword .kwImport) ∧
        .semicolon ∉ n.outermost := by
  have hfits (n : Nested) : n.kinds.foldlM feedBody [] = some [] ↔ ∀ t ∈ n.placed, t.FitsBody := by
    have h := followsStack_feedBody.foldlM_kinds n [] trivial [] []
    rw [List.append_nil] at h
    exact h.trans (and_iff_left rfl)
  constructor
  · intro h
    have hstack : feedAll (id []) kinds = some (id []) :=
      feedAll_of_foldlM (fun hstep => (feedBody_eq_some_iff.mp hstep).2) h
    obtain ⟨n, rfl⟩ := feedAll_eq_nil_iff.mp hstack
    have ht := (hfits n).mp h
    refine ⟨n, rfl, ?_, ?_⟩
    · intro kind hk
      obtain ⟨t, hmem, rfl⟩ := Nested.mem_kinds_iff.mp hk
      exact (ht t hmem).plain
    · intro hk
      obtain ⟨t, hmem, haround, hkind⟩ := Nested.mem_outermost_iff.mp hk
      exact (ht t hmem).undivided haround hkind
  · rintro ⟨n, rfl, hplain, hundivided⟩
    refine (hfits n).mpr fun t ht => ⟨hplain _ (Nested.mem_kinds_iff.mpr ⟨t, ht, rfl⟩), ?_⟩
    exact fun haround hkind => hundivided (Nested.mem_outermost_iff.mpr ⟨t, ht, haround, hkind⟩)

end Body

namespace Phase

/-- Inside a declaration a token ends it or goes on with its body. -/
theorem step_inside_eq_some_iff {pastImports started : Bool} {opened : List Delimiter}
    {kind : Kind} {next : Phase} :
    (inside pastImports opened started).step kind = some next ↔
      (kind = .semicolon ∧ opened = [] ∧ started = true ∧ next = .outside pastImports) ∨
      ∃ opened', feedBody opened kind = some opened' ∧ next = .inside pastImports opened' true := by
  simp only [step, feedBody]
  split
  · rename_i hplain
    rcases hplain with rfl | rfl <;> simp
  · split
    · rename_i hsemicolon
      cases started <;> simp [hsemicolon, eq_comm]
    · rename_i hsemicolon
      have hend : ¬ (kind = .semicolon ∧ opened = [] ∧ started = true ∧
          next = .outside pastImports) := fun h => hsemicolon ⟨h.1, h.2.1⟩
      rw [or_iff_right hend, Option.map_eq_some_iff]
      exact exists_congr fun _ => and_congr_right fun _ => eq_comm

/-- The declaration that a run is in goes up to a semicolon, with a body before it. -/
theorem exists_body {pastImports started last : Bool} {opened : List Delimiter}
    {kinds : List Kind} (h : (inside pastImports opened started).run kinds = some (.outside last)) :
    ∃ body rest, kinds = body ++ .semicolon :: rest ∧ body.foldlM feedBody opened = some [] ∧
      (started = true ∨ body ≠ []) ∧ (outside pastImports).run rest = some (.outside last) := by
  induction kinds generalizing opened started with
  | nil => cases h
  | cons kind kinds ih =>
    rw [run_cons, Option.bind_eq_some_iff] at h
    obtain ⟨next, hstep, hrun⟩ := h
    rcases step_inside_eq_some_iff.mp hstep with ⟨rfl, rfl, rfl, rfl⟩ | ⟨opened', hfeed, rfl⟩
    · exact ⟨[], kinds, rfl, rfl, .inl rfl, hrun⟩
    · obtain ⟨body, rest, rfl, hbody, -, hrest⟩ := ih hrun
      refine ⟨kind :: body, rest, rfl, ?_, .inr (List.cons_ne_nil _ _), hrest⟩
      rw [List.foldlM_cons, hfeed]
      exact hbody

/-- A body and the semicolon after it end a declaration. -/
theorem run_body {pastImports started : Bool} {opened : List Delimiter} {body : List Kind}
    (h : body.foldlM feedBody opened = some []) (hne : started = true ∨ body ≠ [])
    (rest : List Kind) :
    (inside pastImports opened started).run (body ++ .semicolon :: rest) =
      (outside pastImports).run rest := by
  induction body generalizing opened started with
  | nil =>
    obtain rfl := Option.some.inj h
    obtain rfl : started = true := by simpa using hne
    rw [List.nil_append, run_cons, step_inside_eq_some_iff.mpr (.inl ⟨rfl, rfl, rfl, rfl⟩),
      Option.bind_some]
  | cons kind body ih =>
    rw [List.foldlM_cons, Option.bind_eq_bind, Option.bind_eq_some_iff] at h
    obtain ⟨opened', hfeed, hrun⟩ := h
    rw [List.cons_append, run_cons, step_inside_eq_some_iff.mpr (.inr ⟨opened', hfeed, rfl⟩),
      Option.bind_some, ih hrun (.inl rfl)]

/-- Between declarations only the head of one can stand, and an import only before all
declarations of other sorts. -/
theorem step_outside_eq_some_iff {pastImports : Bool} {kind : Kind} {next : Phase} :
    (outside pastImports).step kind = some next ↔
      ∃ head : Keyword, kind = .keyword head ∧ head.startsDeclaration = true ∧
        (head = .kwImport → pastImports = false) ∧
        next = .inside (head != .kwImport) [] false := by
  cases kind with
  | keyword word =>
    simp only [step, Kind.startsDeclaration, Kind.keyword.injEq, exists_eq_left']
    by_cases himport : word = .kwImport
    · cases pastImports <;> simp [himport, Keyword.startsDeclaration, eq_comm]
    · have hother : (word != .kwImport) = true := bne_iff_ne.mpr himport
      by_cases hstarts : word.startsDeclaration = true <;> simp [himport, hstarts, hother, eq_comm]
  | _ => simp [step, Kind.startsDeclaration]

/-- A declaration read between two others. -/
theorem run_declaration {pastImports : Bool} {d : Declaration}
    (himport : d.head = .kwImport → pastImports = false) (rest : List Kind) :
    (outside pastImports).run (d.kinds ++ rest) = (outside (d.head != .kwImport)).run rest := by
  have hdeclares := Keyword.startsDeclaration_iff.mpr d.declares
  have hhead := step_outside_eq_some_iff.mpr ⟨d.head, rfl, hdeclares, himport, rfl⟩
  have hbody := foldlM_feedBody_iff.mpr ⟨d.body, rfl, d.plain, d.undivided⟩
  rw [Declaration.kinds, List.append_assoc, List.cons_append, run_cons, hhead, Option.bind_some,
    List.singleton_append, run_body hbody (.inr d.nonempty)]

/-- What leads from the end of one declaration to the end of another is a list of
declarations of which the imports come first, and has no imports once they are past. -/
theorem exists_declarations {pastImports last : Bool} {kinds : List Kind}
    (h : (outside pastImports).run kinds = some (.outside last)) :
    ∃ ds : List Declaration, kinds = ds.flatMap Declaration.kinds ∧
      (ds.Pairwise fun d e => e.head = .kwImport → d.head = .kwImport) ∧
      (pastImports = true → ∀ d ∈ ds, d.head ≠ .kwImport) := by
  induction hsize : kinds.length using Nat.strongRecOn generalizing kinds pastImports with
  | ind size ih =>
    cases kinds with
    | nil => exact ⟨[], rfl, .nil, by simp⟩
    | cons kind kinds =>
      rw [run_cons, Option.bind_eq_some_iff] at h
      obtain ⟨next, hstep, hrun⟩ := h
      obtain ⟨head, rfl, hdeclares, himport, rfl⟩ := step_outside_eq_some_iff.mp hstep
      obtain ⟨body, rest, rfl, hbody, hne, hrest⟩ := exists_body hrun
      obtain ⟨n, rfl, hplain, hundivided⟩ := foldlM_feedBody_iff.mp hbody
      have hlt : rest.length < size := by
        simp only [List.length_cons, List.length_append] at hsize
        omega
      obtain ⟨ds, rfl, hfirst, hpast⟩ := ih rest.length hlt hrest rfl
      have hothers : head ≠ .kwImport → ∀ d ∈ ds, d.head ≠ .kwImport :=
        fun hhead => hpast (by simpa using hhead)
      rw [Keyword.startsDeclaration_iff] at hdeclares
      refine ⟨⟨head, n, hdeclares, by simpa using hne, hplain, hundivided⟩ :: ds, ?_, ?_, ?_⟩
      · simp [Declaration.kinds]
      · refine List.pairwise_cons.mpr ⟨fun e he heimport => ?_, hfirst⟩
        by_contra hhead
        exact hothers hhead e he heimport
      · intro hpastImports
        have hhead : head ≠ .kwImport := by
          intro heq
          rw [himport heq] at hpastImports
          cases hpastImports
        exact List.forall_mem_cons.mpr ⟨hhead, hothers hhead⟩

/-- Declarations of which the imports come first, read one after another. -/
theorem exists_run_declarations {pastImports : Bool} {ds : List Declaration}
    (hfirst : ds.Pairwise fun d e => e.head = .kwImport → d.head = .kwImport)
    (hpast : pastImports = true → ∀ d ∈ ds, d.head ≠ .kwImport) :
    ∃ last, (outside pastImports).run (ds.flatMap Declaration.kinds) = some (.outside last) := by
  induction ds generalizing pastImports with
  | nil => exact ⟨pastImports, rfl⟩
  | cons d ds ih =>
    obtain ⟨hhead, hfirst⟩ := List.pairwise_cons.mp hfirst
    have himport : d.head = .kwImport → pastImports = false := by
      intro heq
      by_contra hpastImports
      exact hpast (Bool.of_not_eq_false hpastImports) d (by simp) heq
    rw [List.flatMap_cons, run_declaration himport]
    refine ih hfirst fun hother e he heimport => ?_
    simp [hhead e he heimport] at hother

/-- A run through a place where one kind of token is due. -/
theorem run_due_iff {s next final : Phase} {due : Kind}
    (hstep : ∀ kind, s.step kind = if kind = due then some next else none) (hne : s ≠ final)
    (kinds : List Kind) :
    s.run kinds = some final ↔ ∃ rest, kinds = due :: rest ∧ next.run rest = some final := by
  cases kinds with
  | nil => simp [hne]
  | cons kind kinds =>
    rw [run_cons, hstep]
    by_cases hk : kind = due <;> simp [hk]

/-- A file starts with its package clause. -/
theorem run_packageClause_iff {kinds : List Kind} {last : Bool} :
    packageClause.run kinds = some (.outside last) ↔
      ∃ rest, kinds = [.keyword .kwPackage, .ident, .semicolon] ++ rest ∧
        (outside false).run rest = some (.outside last) := by
  have hkeyword := run_due_iff (fun _ => rfl) (by simp : packageClause ≠ .outside last)
  have hname := run_due_iff (fun _ => rfl) (by simp : packageName ≠ .outside last)
  have hend := run_due_iff (fun _ => rfl) (by simp : packageEnd ≠ .outside last)
  simp only [hkeyword, hname, hend]
  constructor
  · rintro ⟨_, rfl, _, rfl, rest, rfl, h⟩
    exact ⟨rest, rfl, h⟩
  · rintro ⟨rest, rfl, h⟩
    exact ⟨_, rfl, _, rfl, rest, rfl, h⟩

end Phase

/-- A text passes as a source file exactly if it can be read to its end and its tokens are
a package clause, that is the keyword, a name and a semicolon, and then any number of
declarations, of which those that are imports come before all others. -/
theorem SourceFile.check_iff_fileGrammar (src : String) :
    SourceFile.check src = .ok () ↔
      ∃ tokens, tokenize src = .ok tokens ∧ ∃ declarations : List Declaration,
        tokens.map Token.kind = [.keyword .kwPackage, .ident, .semicolon] ++
          declarations.flatMap Declaration.kinds ∧
        declarations.Pairwise fun d e => e.head = .kwImport → d.head = .kwImport := by
  rw [check_eq_ok_iff, Phase.scan, kindsFrom_toList]
  cases htokens : tokenize src with
  | error d => simp [Except.toOption]
  | ok ts =>
    simp only [Except.toOption, Option.map_some, Option.bind_some, Phase.run_packageClause_iff,
      Except.ok.injEq, exists_eq_left']
    constructor
    · rintro ⟨last, rest, hkinds, hrun⟩
      obtain ⟨ds, rfl, hfirst, -⟩ := Phase.exists_declarations hrun
      exact ⟨ds, hkinds, hfirst⟩
    · rintro ⟨ds, hkinds, hfirst⟩
      have hnone : false = true → ∀ d ∈ ds, d.head ≠ .kwImport :=
        fun hpast => absurd hpast Bool.false_ne_true
      obtain ⟨last, hrun⟩ := Phase.exists_run_declarations hfirst hnone
      exact ⟨last, _, hkinds, hrun⟩

end GoSource
