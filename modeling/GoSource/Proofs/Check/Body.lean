import GoSource.Proofs.Check.FileGrammar
import GoSource.Proofs.Check.Reading

/-!
# Function bodies

A text is judged as a function body inside a file of its own. The verdict is the same in
every file and under every name of the function. It is no judgement on the text alone: a
text passes as well if it closes the function and opens a last block for the brace that
follows. The grammar of the texts that pass tells the two apart.
-/

namespace GoSource

/-- The verdict on a function body is the verdict on any file that passes, has its last line
ended, and goes on with a function of that body. -/
theorem SourceFile.check_function_iff_checkBody {file name : String}
    (hlast : file.toList.getLast? = some '\n') (hfile : check file = .ok ())
    (hname : isIdentifier name = true) (hkeyword : Keyword.ofSpelling? name.toList = none)
    (src : String) :
    check (file ++ "func " ++ name ++ "() \x7b\n" ++ src ++ "\n\x7d\n") = .ok () ↔
      checkBody src = .ok () := by
  obtain ⟨pastImports, hscan⟩ := (check_eq_ok_iff file).mp hfile
  obtain ⟨ks, hks, hrun⟩ := Option.bind_eq_some_iff.mp hscan
  have hbefore : Reaches Anything ⟨.packageClause, false⟩ file.toList
      ⟨.outside pastImports, false⟩ := by
    simpa [hlast] using Reaches.text hks hrun
  have hopening := hbefore.trans (reaches_funcOpening hname hkeyword pastImports)
  have htext : (file ++ "func " ++ name ++ "() \x7b\n" ++ src ++ "\n\x7d\n").toList =
      file.toList ++ ("func ".toList ++ (name.toList ++ "() \x7b\n".toList)) ++
        (src.toList ++ '\n' :: ['\x7d', '\n']) := by
    simp only [String.toList_append, List.append_assoc]
    rfl
  have hstart := hopening (src.toList ++ '\n' :: ['\x7d', '\n']) trivial
  simp only [Config.scan] at hstart
  rw [check_eq_ok_iff, checkBody_eq_ok_iff, htext, hstart]

/-- A body that holds a function literal, in a file that has an import before it. -/
theorem SourceFile.check_function_after_import :
    "package m\nimport \"fmt\"\n".toList.getLast? = some '\n' ∧
    check "package m\nimport \"fmt\"\n" = .ok () ∧
    isIdentifier "main" = true ∧ Keyword.ofSpelling? "main".toList = none ∧
    checkBody "f := func() \x7b // )\n\x7d" = .ok () ∧
    check ("package m\nimport \"fmt\"\n" ++ "func " ++ "main" ++ "() \x7b\n" ++
      "f := func() \x7b // )\n\x7d" ++ "\n\x7d\n") = .ok () := by
  have hlast : "package m\nimport \"fmt\"\n".toList.getLast? = some '\n' := by decide
  have hfile : check "package m\nimport \"fmt\"\n" = .ok () := by decide +kernel
  have hname : isIdentifier "main" = true := by decide +kernel
  have hkeyword : Keyword.ofSpelling? "main".toList = none := by decide
  have hbody : checkBody "f := func() \x7b // )\n\x7d" = .ok () := by decide +kernel
  exact ⟨hlast, hfile, hname, hkeyword, hbody,
    (check_function_iff_checkBody hlast hfile hname hkeyword _).mpr hbody⟩

section PastImports

/-- A check that has passed the imports of its file. -/
def Phase.PastImports : Phase → Prop
  | outside pastImports => pastImports = true
  | inside pastImports _ _ => pastImports = true
  | _ => False

theorem Phase.PastImports.step {s next : Phase} {kind : Kind} (h : s.PastImports)
    (hstep : s.step kind = some next) :
    next.PastImports ∧ kind ≠ .keyword .kwPackage ∧ kind ≠ .keyword .kwImport := by
  cases s with
  | packageClause | packageName | packageEnd => cases h
  | outside pastImports =>
    obtain ⟨head, rfl, hdeclares, himport, rfl⟩ := step_outside_eq_some_iff.mp hstep
    have hhead : head ≠ .kwImport := by
      intro heq
      have hfalse : pastImports = false := himport heq
      rw [show pastImports = true from h] at hfalse
      cases hfalse
    refine ⟨bne_iff_ne.mpr hhead, ?_, by simpa using hhead⟩
    rintro ⟨⟩
    cases hdeclares
  | inside pastImports opened started =>
    rcases step_inside_eq_some_iff.mp hstep with ⟨rfl, -, -, rfl⟩ | ⟨opened', hfeed, rfl⟩
    · exact ⟨h, by simp⟩
    · exact ⟨h, (feedBody_eq_some_iff.mp hfeed).1.plain⟩

/-- Past the imports no token opens a package clause or an import. -/
theorem Phase.PastImports.run {s final : Phase} {kinds : List Kind} (h : s.PastImports)
    (hrun : s.run kinds = some final) :
    ∀ kind ∈ kinds, kind ≠ .keyword .kwPackage ∧ kind ≠ .keyword .kwImport := by
  induction kinds generalizing s with
  | nil => simp
  | cons kind kinds ih =>
    rw [Phase.run_cons, Option.bind_eq_some_iff] at hrun
    obtain ⟨next, hstep, hrun⟩ := hrun
    obtain ⟨hnext, hkind⟩ := h.step hstep
    exact List.forall_mem_cons.mpr ⟨hkind, ih hnext hrun⟩

end PastImports

section Blocks

theorem Nested.eq_done_of_kinds {n : Nested} (h : n.kinds = []) : n = .done := by
  cases n with
  | done => rfl
  | token | group => cases h

/-- A tree that ends in a closer ends in a pair of delimiters outside all others. -/
theorem Nested.exists_last_group {n : Nested} {pair : Delimiter} {kinds : List Kind}
    (h : n.kinds = kinds ++ [.closing pair]) :
    ∃ front inside : Nested, kinds = front.kinds ++ .opening pair :: inside.kinds ∧
      n.outermost = front.outermost ++ [.opening pair, .closing pair] := by
  induction n generalizing kinds with
  | done => simp [Nested.kinds] at h
  | token kind plain next ih =>
    rcases kinds with _ | ⟨first, kinds⟩
    · obtain ⟨rfl, -⟩ := List.cons.inj h
      cases plain
    · obtain ⟨rfl, hnext⟩ := List.cons.inj h
      obtain ⟨front, inside, rfl, houtermost⟩ := ih hnext
      exact ⟨.token kind plain front, inside, rfl, by simp [houtermost]⟩
  | group other block next _ ih =>
    rcases next.kinds.eq_nil_or_concat' with hnil | ⟨init, last, hlast⟩
    · obtain rfl := Nested.eq_done_of_kinds hnil
      obtain ⟨rfl, hpair⟩ := List.append_inj' h rfl
      obtain rfl : other = pair := by simpa [Nested.kinds] using hpair
      exact ⟨.done, block, rfl, by simp⟩
    · rw [Nested.kinds, hlast, ← List.cons_append, ← List.append_assoc] at h
      obtain ⟨rfl, hpair⟩ := List.append_inj' h rfl
      obtain ⟨front, inside, rfl, houtermost⟩ := ih (by rw [hlast, hpair])
      exact ⟨.group other block front, inside, by simp [Nested.kinds], by simp [houtermost]⟩

/-- A tree is passed over at any place where each of its tokens can stand. -/
theorem foldlM_feedBody_kinds {n : Nested} {opened : List Delimiter}
    (h : ∀ t ∈ n.placedIn opened, t.FitsBody) (rest : List Kind) :
    (n.kinds ++ rest).foldlM feedBody opened = rest.foldlM feedBody opened := by
  ext final
  exact (followsStack_feedBody.foldlM_kinds n opened trivial rest final).trans (and_iff_right h)

/-- Inside delimiters the tokens of a tree can stand if none opens a clause. -/
theorem fitsBody_inside {n : Nested} {opened : List Delimiter} (hopened : opened ≠ [])
    (hplain : ∀ kind ∈ n.kinds, kind ≠ .keyword .kwPackage ∧ kind ≠ .keyword .kwImport) :
    ∀ t ∈ n.placedIn opened, t.FitsBody := by
  intro t ht
  have hkind : t.kind ∈ n.kinds := by
    rw [← Nested.map_kind_placedIn opened n]
    exact List.mem_map_of_mem ht
  exact ⟨hplain _ hkind, fun htop => absurd htop (Nested.around_ne_nil hopened ht)⟩

/-- A block that is open when a declaration goes on ends at its brace, and the declaration
goes on from there. -/
theorem foldlM_feedBody_brace_iff {kinds : List Kind} :
    kinds.foldlM feedBody [.brace] = some [] ↔
      ∃ (first : Nested) (tail : List Kind), kinds = first.kinds ++ .closing .brace :: tail ∧
        (∀ kind ∈ first.kinds, kind ≠ .keyword .kwPackage ∧ kind ≠ .keyword .kwImport) ∧
        tail.foldlM feedBody [] = some [] := by
  have hclose (tail : List Kind) :
      (Kind.closing .brace :: tail).foldlM feedBody [.brace] = tail.foldlM feedBody [] := rfl
  constructor
  · intro h
    have hstack : feedAll (id [.brace]) kinds = some (id []) :=
      feedAll_of_foldlM (fun hstep => (feedBody_eq_some_iff.mp hstep).2) h
    cases closes_of_feedAll hstack with
    | @closer first _ _ tail _ =>
      obtain ⟨hfits, htail⟩ := (followsStack_feedBody.foldlM_kinds first [.brace] trivial _ _).mp h
      refine ⟨first, tail, rfl, fun kind hkind => ?_, htail⟩
      rw [← Nested.map_kind_placedIn [.brace] first] at hkind
      obtain ⟨t, ht, rfl⟩ := List.mem_map.mp hkind
      exact (hfits t ht).plain
  · rintro ⟨first, tail, rfl, hplain, htail⟩
    rw [foldlM_feedBody_kinds (fitsBody_inside (List.cons_ne_nil _ _) hplain), hclose, htail]

/-- A declaration's body may end in a block. -/
theorem foldlM_feedBody_last_block {front last : Nested} (hundivided : .semicolon ∉ front.outermost)
    (hfront : ∀ kind ∈ front.kinds, kind ≠ .keyword .kwPackage ∧ kind ≠ .keyword .kwImport)
    (hlast : ∀ kind ∈ last.kinds, kind ≠ .keyword .kwPackage ∧ kind ≠ .keyword .kwImport) :
    (front.kinds ++ .opening .brace :: last.kinds ++ [Kind.closing .brace]).foldlM feedBody [] =
      some [] := by
  have hstart := foldlM_feedBody_iff.mpr ⟨front, rfl, hfront, hundivided⟩
  have hblock : (last.kinds ++ [Kind.closing .brace]).foldlM feedBody [.brace] = some [] :=
    foldlM_feedBody_brace_iff.mpr ⟨last, [], rfl, hlast, rfl⟩
  rw [List.append_assoc, List.foldlM_append, hstart]
  exact hblock

/-- The end of a declaration's body that is a brace is the end of a block. -/
theorem exists_last_block {kinds : List Kind}
    (h : (kinds ++ [Kind.closing .brace]).foldlM feedBody [] = some []) :
    ∃ front last : Nested, kinds = front.kinds ++ .opening .brace :: last.kinds ∧
      .semicolon ∉ front.outermost := by
  obtain ⟨n, hn, -, hundivided⟩ := foldlM_feedBody_iff.mp h
  obtain ⟨front, last, rfl, houtermost⟩ := Nested.exists_last_group hn
  rw [houtermost] at hundivided
  exact ⟨front, last, rfl, fun hmem => hundivided (List.mem_append_left _ hmem)⟩

/-- A declaration that has a brace before its semicolon has a block there. -/
theorem Declaration.exists_last_block {d : Declaration} {kinds : List Kind}
    (h : d.kinds = kinds ++ [.closing .brace, .semicolon]) :
    ∃ front last : Nested,
      kinds = .keyword d.head :: front.kinds ++ .opening .brace :: last.kinds ∧
      .semicolon ∉ front.outermost := by
  rw [Declaration.kinds, List.append_cons kinds] at h
  obtain ⟨hbefore, -⟩ := List.append_inj' h rfl
  rcases kinds with _ | ⟨head, kinds⟩
  · simp [d.nonempty] at hbefore
  · obtain ⟨rfl, hkinds⟩ := List.cons.inj hbefore
    have hbody := foldlM_feedBody_iff.mpr ⟨d.body, hkinds, d.plain, d.undivided⟩
    obtain ⟨front, last, rfl, hundivided⟩ := GoSource.exists_last_block hbody
    exact ⟨front, last, rfl, hundivided⟩

/-- The declaration that a head, what comes before a block, and the block make. -/
theorem Declaration.exists_of_last_block {head : Keyword} {front last : Nested}
    (hdeclares : head.startsDeclaration = true) (hundivided : .semicolon ∉ front.outermost)
    (hfront : ∀ kind ∈ front.kinds, kind ≠ .keyword .kwPackage ∧ kind ≠ .keyword .kwImport)
    (hlast : ∀ kind ∈ last.kinds, kind ≠ .keyword .kwPackage ∧ kind ≠ .keyword .kwImport) :
    ∃ d : Declaration, d.head = head ∧
      d.kinds = .keyword head :: front.kinds ++ .opening .brace :: last.kinds ++
        [.closing .brace, .semicolon] := by
  obtain ⟨n, hn, hplain, hn_undivided⟩ :=
    foldlM_feedBody_iff.mp (foldlM_feedBody_last_block hundivided hfront hlast)
  have hnonempty : n.kinds ≠ [] := by simp [hn]
  have hhead := Keyword.startsDeclaration_iff.mp hdeclares
  refine ⟨⟨head, n, hhead, hnonempty, hplain, hn_undivided⟩, rfl, ?_⟩
  simp [Declaration.kinds, hn]

end Blocks

/-- The tokens from the end of one block of a file to the start of another, neither of them
inside delimiters. -/
inductive BetweenBlocks : List Kind → Prop
  /-- Both blocks belong to one declaration. -/
  | same {between : Nested} (undivided : .semicolon ∉ between.outermost) :
      BetweenBlocks between.kinds
  /-- The declaration of the first block ends, others may follow, and one starts that the
  second block belongs to. -/
  | next {rest front : Nested} {declarations : List Declaration} {head : Keyword}
      (ends : .semicolon ∉ rest.outermost) (declares : head.startsDeclaration = true)
      (starts : .semicolon ∉ front.outermost) :
      BetweenBlocks (rest.kinds ++ .semicolon ::
        (declarations.flatMap Declaration.kinds ++ .keyword head :: front.kinds))

/-- The tokens of a text that passes as a function body, by their kinds. -/
inductive IsBody : List Kind → Prop
  /-- The function is closed after the text. -/
  | closed (n : Nested) : IsBody n.kinds
  /-- The text closes the function, and what is closed after the text is another block. -/
  | reopened {first last : Nested} {between : List Kind} (h : BetweenBlocks between) :
      IsBody (first.kinds ++ .closing .brace :: (between ++ .opening .brace :: last.kinds))

/-- What leads from inside a function to the end of a file and ends in a brace is a text
that passes as a body, and that brace. -/
theorem isBody_of_run {kinds : List Kind} {pastImports : Bool}
    (h : (Phase.inside true [.brace] true).run (kinds ++ [.closing .brace, .semicolon]) =
      some (.outside pastImports)) : IsBody kinds := by
  obtain ⟨body, rest, hkinds, hbody, -, hrest⟩ := Phase.exists_body h
  obtain ⟨first, tail, rfl, -, htail⟩ := foldlM_feedBody_brace_iff.mp hbody
  obtain ⟨ds, rfl, -, -⟩ := Phase.exists_declarations hrest
  -- The brace after the text ends a block of the last declaration.
  rcases ds.eq_nil_or_concat' with rfl | ⟨ds, d, rfl⟩
  · rw [List.append_cons] at hkinds
    obtain ⟨hlast, -⟩ := List.append_inj' hkinds rfl
    rcases tail.eq_nil_or_concat' with rfl | ⟨tail, last, rfl⟩
    · obtain ⟨rfl, -⟩ := List.append_inj' hlast rfl
      exact .closed first
    · rw [← List.cons_append, ← List.append_assoc] at hlast
      obtain ⟨rfl, hbrace⟩ := List.append_inj' hlast rfl
      rw [← hbrace] at htail
      obtain ⟨between, last, rfl, hundivided⟩ := exists_last_block htail
      exact .reopened (.same hundivided)
  · obtain ⟨n, rfl, -, hends⟩ := foldlM_feedBody_iff.mp htail
    have hjoined : kinds ++ [.closing .brace, .semicolon] =
        (first.kinds ++ .closing .brace :: n.kinds ++ .semicolon ::
          ds.flatMap Declaration.kinds) ++ d.kinds := by
      simpa using hkinds
    have hlength : 2 ≤ d.kinds.length := by simp [Declaration.kinds]
    obtain ⟨init, hinit⟩ := List.suffix_of_suffix_length_le ⟨kinds, hjoined⟩ ⟨_, rfl⟩ hlength
    rw [← hinit, ← List.append_assoc] at hjoined
    obtain ⟨front, last, rfl, hstarts⟩ := d.exists_last_block hinit.symm
    obtain rfl := List.append_cancel_right hjoined
    have hreopened : IsBody (first.kinds ++ .closing .brace ::
        (n.kinds ++ .semicolon ::
          (ds.flatMap Declaration.kinds ++ .keyword d.head :: front.kinds) ++
          .opening .brace :: last.kinds)) :=
      .reopened (.next hends (Keyword.startsDeclaration_iff.mpr d.declares) hstarts)
    simpa using hreopened

/-- Declarations none of which is an import can follow a function. -/
theorem exists_run_others {ds : List Declaration} (hothers : ∀ d ∈ ds, d.head ≠ .kwImport) :
    ∃ last, (Phase.outside true).run (ds.flatMap Declaration.kinds) = some (.outside last) := by
  have hfirst : ds.Pairwise fun d e => e.head = .kwImport → d.head = .kwImport :=
    List.pairwise_of_forall_mem_list fun _ _ e he himport => absurd himport (hothers e he)
  exact Phase.exists_run_declarations hfirst fun _ => hothers

theorem run_of_isBody {kinds : List Kind} (h : IsBody kinds)
    (hplain : ∀ kind ∈ kinds, kind ≠ .keyword .kwPackage ∧ kind ≠ .keyword .kwImport) :
    ∃ pastImports, (Phase.inside true [.brace] true).run (kinds ++ [.closing .brace, .semicolon]) =
      some (.outside pastImports) := by
  -- The function is left at a brace, and what follows its declaration is read as declarations.
  have hleave {body : List Kind} (hbody : body.foldlM feedBody [.brace] = some [])
      (after : List Kind) : (Phase.inside true [.brace] true).run (body ++ .semicolon :: after) =
        (Phase.outside true).run after := Phase.run_body hbody (.inl rfl) after
  cases h with
  | closed n =>
    have hbody := foldlM_feedBody_brace_iff.mpr ⟨n, [], rfl, hplain, rfl⟩
    exact ⟨true, by simpa using hleave hbody []⟩
  | @reopened first last between hbetween =>
    simp only [List.forall_mem_append, List.forall_mem_cons] at hplain
    obtain ⟨hfirst, -, hbetweenPlain, -, hlast⟩ := hplain
    cases hbetween with
    | @same between hundivided =>
      have hblock := foldlM_feedBody_last_block hundivided hbetweenPlain hlast
      have hbody := foldlM_feedBody_brace_iff.mpr ⟨first, _, rfl, hfirst, hblock⟩
      exact ⟨true, by simpa using hleave hbody []⟩
    | @next rest front ds head hends hdeclares hstarts =>
      simp only [List.forall_mem_append, List.forall_mem_cons] at hbetweenPlain
      obtain ⟨hrest, -, hds, hhead, hfront⟩ := hbetweenPlain
      have hbody := foldlM_feedBody_brace_iff.mpr
        ⟨first, _, rfl, hfirst, foldlM_feedBody_iff.mpr ⟨rest, rfl, hrest, hends⟩⟩
      obtain ⟨d, rfl, hd⟩ := Declaration.exists_of_last_block hdeclares hstarts hfront hlast
      have hothers : ∀ e ∈ ds ++ [d], .keyword e.head ≠ Kind.keyword .kwImport := by
        refine List.forall_mem_append.mpr ⟨fun e he => ?_, List.forall_mem_singleton.mpr hhead.2⟩
        exact (hds _ (List.mem_flatMap.mpr ⟨e, he, by simp [Declaration.kinds]⟩)).2
      obtain ⟨final, hrun⟩ := exists_run_others fun e he heq => hothers e he (by rw [heq])
      have hall := (hleave hbody _).trans hrun
      exact ⟨final, by simpa [hd] using hall⟩

/-- A text passes as a function body exactly if it can be read to its end, no token of it
opens a package clause or an import, and either its delimiters nest, so that the brace of the
function is closed after it, or it closes that brace itself, goes on as a file may, and opens
the block that is closed after it. -/
theorem SourceFile.checkBody_iff_bodyGrammar (src : String) :
    checkBody src = .ok () ↔
      ∃ tokens, tokenize src = .ok tokens ∧
        (∀ t ∈ tokens, t.kind ≠ .keyword .kwPackage ∧ t.kind ≠ .keyword .kwImport) ∧
        IsBody (tokens.map Token.kind) := by
  rw [checkBody_eq_ok_iff_run, kindsFrom_toList]
  cases tokenize src with
  | error d => simp [Except.toOption]
  | ok tokens =>
    simp only [Except.toOption, Option.map_some, Option.some.injEq, exists_eq_left',
      Except.ok.injEq]
    constructor
    · rintro ⟨pastImports, hrun⟩
      have hpast : (Phase.inside true [.brace] true).PastImports := rfl
      have hplain := hpast.run hrun
      refine ⟨fun t ht => hplain _ ?_, isBody_of_run hrun⟩
      exact List.mem_append_left _ (List.mem_map_of_mem ht)
    · rintro ⟨hplain, hbody⟩
      exact run_of_isBody hbody (List.forall_mem_map.mpr hplain)

/-- A text whose delimiters do not nest passes as a function body: it closes the function and
opens another. -/
theorem SourceFile.checkBody_reopening :
    checkBody "\x7d\nfunc _() \x7b" = .ok () ∧
    ∃ tokens, tokenize "\x7d\nfunc _() \x7b" = .ok tokens ∧
      ¬ ∃ n : Nested, n.kinds = tokens.map Token.kind := by
  have htokens : tokenize "\x7d\nfunc _() \x7b" =
      .ok [.written ⟨.closing .brace, 0, "\x7d"⟩, .inserted 1,
        .written ⟨.keyword .kwFunc, 2, "func"⟩, .written ⟨.ident, 7, "_"⟩,
        .written ⟨.opening .paren, 8, "("⟩, .written ⟨.closing .paren, 9, ")"⟩,
        .written ⟨.opening .brace, 11, "\x7b"⟩] := by decide +kernel
  refine ⟨by decide +kernel, _, htokens, ?_⟩
  rw [← feedAll_eq_nil_iff]
  decide

end GoSource
