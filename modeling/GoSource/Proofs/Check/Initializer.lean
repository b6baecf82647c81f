import GoSource.Proofs.Check.Body

/-!
# Expressions in declarations and bodies

What the check of expressions lets through is written as it is into a declaration or a body,
and is judged there once more. The two verdicts differ in two ways only: a function literal
may hold the keyword of a package clause or an import, and the last token may leave the line
of a declaration open.
-/

namespace GoSource

/-- The start of a variable's declaration in a file of its own, up to its value. -/
theorem reaches_varOpening :
    Reaches Anything ⟨.packageClause, false⟩ "package p\nvar x = ".toList
      ⟨.inside true [] true, false⟩ := by
  have hname : Reaches Anything ⟨.inside true [] false, false⟩
      ("x".toList ++ ([' '] ++ ['=', ' '])) ⟨.inside true [] true, false⟩ :=
    (Reaches.name (by decide) (by decide) rfl).append_sign (by decide)
      ((Reaches.space _).trans (Reaches.assign rfl))
  have hvar : Reaches Anything ⟨.outside false, false⟩
      ("var".toList ++ ([' '] ++ ("x".toList ++ ([' '] ++ ['=', ' ']))))
      ⟨.inside true [] true, false⟩ :=
    (Reaches.keyword .kwVar rfl).append_sign (by decide) ((Reaches.space _).trans hname)
  exact reaches_packageClause.trans hvar

/-- The start of an assignment to nothing, up to its value. -/
theorem reaches_blankAssignment (pastImports : Bool) (opened : List Delimiter) (started : Bool) :
    Reaches Anything ⟨.inside pastImports opened started, false⟩ "_ = ".toList
      ⟨.inside pastImports opened true, false⟩ := by
  have hblank : Reaches Apart ⟨.inside pastImports opened started, false⟩ "_".toList
      ⟨.inside pastImports opened true, true⟩ := Reaches.name (by decide) (by decide) rfl
  exact hblank.append_sign (by decide) ((Reaches.space _).trans (Reaches.assign rfl))

namespace SourceFile

/-- A text as the value of a variable, by the kinds of its tokens. -/
theorem check_var_iff_run {value : String} {ks : List Kind}
    (hks : kindsFrom false value.toList = some ks) :
    check ("package p\nvar x = " ++ value ++ "\n") = .ok () ↔
      ∃ pastImports, (Phase.inside true [] true).run ks = some (.outside pastImports) := by
  have htext : ("package p\nvar x = " ++ value ++ "\n").toList =
      "package p\nvar x = ".toList ++ (value.toList ++ '\n' :: []) := by
    rw [String.toList_append, String.toList_append, List.append_assoc]
    rfl
  have hopening := reaches_varOpening (value.toList ++ '\n' :: []) trivial
  simp only [Config.scan] at hopening
  rw [check_eq_ok_iff, htext, hopening, Phase.scan_line hks]
  simp [Phase.scan]

/-- A text passes as a body if it does so as a value assigned there. -/
theorem checkBody_blankAssignment_iff (value : String) :
    checkBody ("_ = " ++ value) = .ok () ↔ checkBody value = .ok () := by
  have hopening := reaches_blankAssignment true [.brace] true
    (value.toList ++ '\n' :: ['\x7d', '\n']) trivial
  simp only [Config.scan] at hopening
  rw [checkBody_eq_ok_iff, checkBody_eq_ok_iff, String.toList_append, List.append_assoc, hopening]

end SourceFile

namespace Expression

section Placed

variable {value : String} {ts before : List Token} {l : Lexeme} {place : Nat}

/-- An expression as the value of a variable: it has to end the line of the declaration. -/
theorem check_var_iff (hcheck : check value = .ok ()) (htokens : tokenize value = .ok ts)
    (hts : ts = before ++ .written l :: if l.kind.endsStatement then [.inserted place] else []) :
    SourceFile.check ("package p\nvar x = " ++ value ++ "\n") = .ok () ↔
      (∀ t ∈ ts, t.kind ≠ .keyword .kwPackage ∧ t.kind ≠ .keyword .kwImport) ∧
        l.kind.endsStatement = true := by
  have hrun := run_tokens hcheck htokens hts
  rw [SourceFile.check_var_iff_run (kindsFrom_of_tokenize htokens)]
  constructor
  · rintro ⟨pastImports, h⟩
    have hpast : (Phase.inside true [] true).PastImports := rfl
    have hplain : ∀ t ∈ ts, _ := List.forall_mem_map.mp (hpast.run h)
    refine ⟨hplain, ?_⟩
    by_contra hends
    rw [hrun hplain, if_neg hends] at h
    cases h
  · rintro ⟨hplain, hends⟩
    refine ⟨true, ?_⟩
    rw [hrun hplain, if_pos hends]
    rfl

/-- An expression as a value assigned in a function body, where the brace that follows ends
its statement. -/
theorem checkBody_assigned_iff (hcheck : check value = .ok ()) (htokens : tokenize value = .ok ts)
    (hts : ts = before ++ .written l :: if l.kind.endsStatement then [.inserted place] else []) :
    SourceFile.checkBody ("_ = " ++ value) = .ok () ↔
      ∀ t ∈ ts, t.kind ≠ .keyword .kwPackage ∧ t.kind ≠ .keyword .kwImport := by
  rw [SourceFile.checkBody_blankAssignment_iff, SourceFile.checkBody_eq_ok_iff_run,
    kindsFrom_of_tokenize htokens]
  simp only [Option.some.injEq, exists_eq_left']
  constructor
  · rintro ⟨pastImports, h⟩
    have hpast : (Phase.inside true [.brace] true).PastImports := rfl
    have hplain := hpast.run h
    exact fun t ht => hplain _ (List.mem_append_left _ (List.mem_map_of_mem ht))
  · intro hplain
    refine ⟨true, ?_⟩
    rw [Phase.run_append, run_tokens hcheck htokens hts hplain]
    split <;> rfl

end Placed

/-- A text that passes as an expression passes as the value of a variable exactly if no token
of it opens a package clause or an import and the last token that is written ends a statement.
As a value that is assigned in a function body it passes exactly if no token of it opens a
package clause or an import. -/
theorem check_in_declaration {value : String} (hcheck : check value = .ok ()) :
    ∃ ts, tokenize value = .ok ts ∧
      (SourceFile.check ("package p\nvar x = " ++ value ++ "\n") = .ok () ↔
        (∀ t ∈ ts, t.kind ≠ .keyword .kwPackage ∧ t.kind ≠ .keyword .kwImport) ∧
        ∃ last, (ts.filter (!·.isInserted)).getLast? = some last ∧
          last.kind.endsStatement = true) ∧
      (SourceFile.checkBody ("_ = " ++ value) = .ok () ↔
        ∀ t ∈ ts, t.kind ≠ .keyword .kwPackage ∧ t.kind ≠ .keyword .kwImport) := by
  obtain ⟨ts, before, l, place, htokens, hts⟩ := exists_tokens hcheck
  refine ⟨ts, htokens, ?_, checkBody_assigned_iff hcheck htokens hts⟩
  rw [check_var_iff hcheck htokens hts, getLast?_written hts]
  simp only [Option.some.injEq, exists_eq_left']
  rfl

/-- A value that ends in dots leaves the line of a declaration open, and a function literal may
hold a keyword that no declaration and no body can. -/
theorem check_in_declaration_gaps :
    check "x..." = .ok () ∧
    SourceFile.check ("package p\nvar x = " ++ "x..." ++ "\n") ≠ .ok () ∧
    SourceFile.checkBody ("_ = " ++ "x...") = .ok () ∧
    check "func() \x7bimport\x7d" = .ok () ∧
    SourceFile.checkBody ("_ = " ++ "func() \x7bimport\x7d") ≠ .ok () := by
  have hdots : check "x..." = .ok () := by decide +kernel
  have hliteral : check "func() \x7bimport\x7d" = .ok () := by decide +kernel
  have hdotTokens : tokenize "x..." =
      .ok [.written ⟨.ident, 0, "x"⟩, .written ⟨.symbol .ellipsis, 1, "..."⟩] := by decide +kernel
  have hliteralTokens : tokenize "func() \x7bimport\x7d" =
      .ok [.written ⟨.keyword .kwFunc, 0, "func"⟩, .written ⟨.opening .paren, 4, "("⟩,
        .written ⟨.closing .paren, 5, ")"⟩, .written ⟨.opening .brace, 7, "\x7b"⟩,
        .written ⟨.keyword .kwImport, 8, "import"⟩, .written ⟨.closing .brace, 14, "\x7d"⟩,
        .inserted 15] := by decide +kernel
  obtain ⟨ts, hts, hvar, hassigned⟩ := check_in_declaration hdots
  obtain ⟨us, hus, -, hbody⟩ := check_in_declaration hliteral
  obtain rfl := Except.ok.inj (hts.symm.trans hdotTokens)
  obtain rfl := Except.ok.inj (hus.symm.trans hliteralTokens)
  refine ⟨hdots, ?_, hassigned.mpr (by decide), hliteral, ?_⟩
  · rw [ne_eq, hvar]
    simp [Token.isInserted, Token.kind, Kind.endsStatement]
  · rw [ne_eq, hbody]
    decide

end Expression

end GoSource
