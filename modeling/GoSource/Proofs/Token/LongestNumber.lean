import GoSource.Proofs.Token.Coverage
import GoSource.Proofs.Token.NumberPattern
import GoSource.Proofs.Token.Respelling

/-!
# Numbers are read by the longest match

A number at the head of a text is read as far as any of the declared patterns reaches. What is
read has the form that its pattern says. Nothing is read only where a hexadecimal mantissa has a
point and no exponent follows; the shorter integer before the point is then not taken either.
-/

namespace GoSource.Number

open RegularExpression (char)

section Decimal

variable {cs w : List Char}

theorem longest_letter (c : Char) :
    Longest (optional (char c)).matches' fun cs => if cs.head? = some c then 1 else 0 where
  le_length cs := by
    cases cs with
    | nil => simp
    | cons d cs =>
      rw [List.length_cons]
      split <;> omega
  mem cs := by
    split
    · rename_i h
      obtain ⟨rest, rfl⟩ := List.head?_eq_some_iff.mp h
      exact .inr rfl
    · exact .inl rfl
  longest {cs w} hw hhead := by
    rcases mem_optional.mp hw with rfl | hw
    · exact Nat.zero_le _
    · obtain rfl := mem_char.mp hw
      obtain ⟨rest, rfl⟩ := hhead
      simp

theorem readDecimal_eq (cs : List Char) :
    readDecimal cs =
      if (cs.drop (scaled decimalPart (isMark 'e' 'E') cs)).head? = some 'i' then
        (.imaginary, scaled decimalPart (isMark 'e' 'E') cs + 1)
      else if scaled decimalPart (isMark 'e' 'E') cs = run decimalPart cs then
        (.int, scaled decimalPart (isMark 'e' 'E') cs)
      else (.float, scaled decimalPart (isMark 'e' 'E') cs) := by
  simp only [readDecimal, fraction_eq_pointed]
  rfl

/-- A decimal number is read as far as it goes, its imaginary unit included. -/
theorem longest_readDecimal :
    Longest (decimalPattern * optional (char 'i')).matches' fun cs => (readDecimal cs).2 := by
  have hletter : 'i' ∉ letters decimalPattern := by decide
  have hsize : (fun cs => (readDecimal cs).2) = fun cs =>
      scaled decimalPart (isMark 'e' 'E') cs +
        if (cs.drop (scaled decimalPart (isMark 'e' 'E') cs)).head? = some 'i' then 1 else 0 := by
    funext cs
    rw [readDecimal_eq]
    split
    · rfl
    · split <;> rfl
  rw [hsize]
  refine longest_decimal.mul (longest_letter 'i') fun c v hv w hw hc => ?_
  rcases mem_optional.mp hv with hv | hv
  · cases hv
  · rw [(List.cons.inj (mem_char.mp hv)).1] at hc
    exact hletter (mem_letters hw hc)

theorem mem_decimalPattern :
    w ∈ decimalPattern.matches' ↔
      ∃ ds f e, w = ds ++ f ++ e ∧ (∀ c ∈ ds, c ∈ decimalParts) ∧
        f ∈ (optional (pointPattern decimalParts)).matches' ∧
        e ∈ (optional (exponentPattern ['e', 'E'])).matches' := by
  simp only [decimalPattern, mantissaPattern, mem_mul, mem_anyOf]
  constructor
  · rintro ⟨_, ⟨ds, hds, f, hf, rfl⟩, e, he, rfl⟩
    exact ⟨ds, f, e, rfl, hds, hf, he⟩
  · rintro ⟨ds, f, e, rfl, hds, hf, he⟩
    exact ⟨_, ⟨ds, hds, f, hf, rfl⟩, e, he, rfl⟩

/-- A decimal number that starts with a digit. -/
def digitFirst : RegularExpression Char :=
  oneOf digits * anyOf decimalParts * optional (pointPattern decimalParts) *
    optional (exponentPattern ['e', 'E'])

/-- A decimal number that starts with a point. -/
def pointFirst : RegularExpression Char :=
  char '.' * oneOf digits * anyOf decimalParts * optional (exponentPattern ['e', 'E'])

theorem mem_digitFirst :
    w ∈ digitFirst.matches' ↔
      ∃ d ∈ digits, ∃ ds f e, w = d :: ds ++ f ++ e ∧ (∀ c ∈ ds, c ∈ decimalParts) ∧
        f ∈ (optional (pointPattern decimalParts)).matches' ∧
        e ∈ (optional (exponentPattern ['e', 'E'])).matches' := by
  simp only [digitFirst, mem_mul, mem_oneOf, mem_anyOf]
  constructor
  · rintro ⟨_, ⟨_, ⟨_, ⟨d, hd, rfl⟩, ds, hds, rfl⟩, f, hf, rfl⟩, e, he, rfl⟩
    exact ⟨d, hd, ds, f, e, rfl, hds, hf, he⟩
  · rintro ⟨d, hd, ds, f, e, rfl, hds, hf, he⟩
    exact ⟨_, ⟨_, ⟨[d], ⟨d, hd, rfl⟩, ds, hds, rfl⟩, f, hf, rfl⟩, e, he, rfl⟩

theorem mem_pointFirst :
    w ∈ pointFirst.matches' ↔
      ∃ d ∈ digits, ∃ ds e, w = '.' :: d :: ds ++ e ∧ (∀ c ∈ ds, c ∈ decimalParts) ∧
        e ∈ (optional (exponentPattern ['e', 'E'])).matches' := by
  simp only [pointFirst, mem_mul, mem_char, mem_oneOf, mem_anyOf]
  constructor
  · rintro ⟨_, ⟨_, ⟨_, rfl, _, ⟨d, hd, rfl⟩, rfl⟩, ds, hds, rfl⟩, e, he, rfl⟩
    exact ⟨d, hd, ds, e, rfl, hds, he⟩
  · rintro ⟨d, hd, ds, e, rfl, hds, he⟩
    exact ⟨_, ⟨_, ⟨_, rfl, _, ⟨d, hd, rfl⟩, rfl⟩, ds, hds, rfl⟩, e, he, rfl⟩

theorem starts_eq_isDigit {c : Char} (hc : c ≠ '.') (cs : List Char) :
    starts (c :: cs) = c.isDigit := by
  simp [starts, hc]

/-- No number starts with the mark of an exponent. -/
theorem starts_of_exponent {e : List Char}
    (he : e ∈ (optional (exponentPattern ['e', 'E'])).matches') :
    starts e = false ∧ starts ('.' :: e) = false := by
  have hmarks : ∀ c ∈ ['e', 'E'], c.isDigit = false ∧ c ≠ '.' :=
    List.all_iff_forall_prop.mp (by decide)
  cases e with
  | nil => decide
  | cons c e =>
    obtain ⟨hdigit, hpoint⟩ := hmarks c (head_mem_of_exponent he)
    exact ⟨by rw [starts_eq_isDigit hpoint, hdigit], hdigit⟩

/-- Decimal numbers by their first characters. -/
theorem mem_decimal_cases (hw : w ∈ decimalPattern.matches') (hstarts : starts w = true) :
    w ∈ digitFirst.matches' ∨ w ∈ pointFirst.matches' := by
  obtain ⟨ds, f, e, rfl, hds, hf, he⟩ := mem_decimalPattern.mp hw
  obtain ⟨hmark, hpointMark⟩ := starts_of_exponent he
  cases ds with
  | cons d ds =>
    obtain ⟨hd, hds⟩ := List.forall_mem_cons.mp hds
    have hpoint : d ≠ '.' := by
      rintro rfl
      exact absurd hd (by decide)
    rw [List.cons_append, List.cons_append, starts_eq_isDigit hpoint] at hstarts
    exact .inl (mem_digitFirst.mpr ⟨d, (isDigit_iff d).mp hstarts, ds, f, e, rfl, hds, hf, he⟩)
  | nil =>
    rcases mem_optional.mp hf with rfl | hf
    · rw [List.append_nil, List.nil_append, hmark] at hstarts
      cases hstarts
    · obtain ⟨fs, rfl, hfs⟩ := mem_pointPattern.mp hf
      cases fs with
      | nil =>
        rw [List.nil_append, List.singleton_append, hpointMark] at hstarts
        cases hstarts
      | cons d fs =>
        obtain ⟨-, hfs⟩ := List.forall_mem_cons.mp hfs
        exact .inr (mem_pointFirst.mpr ⟨d, (isDigit_iff d).mp hstarts, fs, e, rfl, hfs, he⟩)

/-- What is read of a decimal number starts as the text does. -/
theorem starts_take_scaled (h : starts cs = true) :
    starts (cs.take (scaled decimalPart (isMark 'e' 'E') cs)) = true := by
  have hlong {w : List Char} (hw : w ∈ decimalPattern.matches') (hhead : w <+: cs) :=
    longest_decimal.longest hw hhead
  generalize scaled decimalPart (isMark 'e' 'E') cs = n at hlong
  cases cs with
  | nil => cases h
  | cons c cs =>
    by_cases hpoint : c = '.'
    · subst hpoint
      cases cs with
      | nil => cases h
      | cons d cs =>
        have hd : d ∈ decimalParts := mem_decimalParts d ((isDigit_iff d).mp h)
        have hmem : ['.', d] ∈ decimalPattern.matches' := by
          refine mem_decimalPattern.mpr ⟨[], ['.', d], [], rfl, by simp, ?_, .inl rfl⟩
          exact .inr (mem_pointPattern.mpr ⟨[d], rfl, by simpa using hd⟩)
        have hn := hlong hmem ⟨cs, rfl⟩
        obtain ⟨n, rfl⟩ := Nat.exists_eq_add_of_le hn
        rw [List.length_cons, List.length_singleton, Nat.add_comm]
        exact h
    · rw [starts_eq_isDigit hpoint] at h
      have hmem : [c] ∈ decimalPattern.matches' := by
        refine mem_decimalPattern.mpr ⟨[c], [], [], rfl, ?_, .inl rfl, .inl rfl⟩
        simpa using mem_decimalParts c ((isDigit_iff c).mp h)
      have hn := hlong hmem ⟨cs, rfl⟩
      obtain ⟨n, rfl⟩ := Nat.exists_eq_add_of_le hn
      rw [List.length_singleton, Nat.add_comm, List.take_succ_cons, starts_eq_isDigit hpoint, h]

theorem mem_int_of_digits (hw : ∀ c ∈ w, c ∈ decimalParts) (hstarts : starts w = true) :
    w ∈ intPattern.matches' := by
  have hdigits : ∀ d ∈ digits, d = '0' ∨ d ∈ "123456789".toList :=
    List.all_iff_forall_prop.mp (by decide)
  cases w with
  | nil => cases hstarts
  | cons d ds =>
    obtain ⟨hd, hds⟩ := List.forall_mem_cons.mp hw
    have hpoint : d ≠ '.' := by
      rintro rfl
      exact absurd hd (by decide)
    rw [starts_eq_isDigit hpoint, isDigit_iff] at hstarts
    rcases hdigits d hstarts with rfl | hd
    · exact .inl (.inr (mem_mul.mpr ⟨['0'], rfl, ds, mem_anyOf.mpr hds, rfl⟩))
    · exact .inr (mem_mul.mpr ⟨[d], mem_oneOf.mpr ⟨d, hd, rfl⟩, ds, mem_anyOf.mpr hds, rfl⟩)

/-- A decimal number that is not all digits is a float. -/
theorem mem_float_of_decimal (hw : w ∈ digitFirst.matches' ∨ w ∈ pointFirst.matches')
    (hnot : ¬ ∀ c ∈ w, c ∈ decimalParts) : w ∈ floatPattern.matches' := by
  rcases hw with hw | hw
  · obtain ⟨d, hd, ds, f, e, rfl, hds, hf, he⟩ := mem_digitFirst.mp hw
    have hfirst : d :: ds ∈ (oneOf digits * anyOf decimalParts).matches' :=
      mem_mul.mpr ⟨[d], mem_oneOf.mpr ⟨d, hd, rfl⟩, ds, mem_anyOf.mpr hds, rfl⟩
    rcases mem_optional.mp hf with rfl | hf
    · rcases mem_optional.mp he with rfl | he
      · refine absurd ?_ hnot
        rw [List.append_nil, List.append_nil]
        exact List.forall_mem_cons.mpr ⟨mem_decimalParts d hd, hds⟩
      · rw [List.append_nil]
        exact .inl (.inl (.inr (mem_mul.mpr ⟨_, hfirst, e, he, rfl⟩)))
    · obtain ⟨fs, rfl, hfs⟩ := mem_pointPattern.mp hf
      refine .inl (.inl (.inl (mem_mul.mpr ⟨_, ?_, e, he, rfl⟩)))
      rw [List.append_cons]
      exact mem_mul.mpr ⟨_, mem_mul.mpr ⟨_, hfirst, ['.'], rfl, rfl⟩, fs, mem_anyOf.mpr hfs, rfl⟩
  · exact .inl (.inr hw)

/-- A decimal number has the form that it is read as. -/
theorem readDecimal_mem (h : starts cs = true) :
    cs.take (readDecimal cs).2 ∈ (pattern (readDecimal cs).1).matches' := by
  have hrun := longest_run decimalPart_iff
  have hstarts := starts_take_scaled h
  have hcases := mem_decimal_cases (longest_decimal.mem cs) hstarts
  rw [readDecimal_eq]
  split
  · rename_i hunit
    obtain ⟨rest, hrest⟩ := List.head?_eq_some_iff.mp hunit
    rw [List.take_add, hrest]
    exact mem_mul.mpr ⟨_, mem_add.mpr hcases, ['i'], rfl, rfl⟩
  · split
    · rename_i hwhole
      rw [hwhole] at hstarts ⊢
      exact mem_int_of_digits (mem_anyOf.mp (hrun.mem cs)) hstarts
    · rename_i hwhole
      refine mem_float_of_decimal hcases fun hall => hwhole ?_
      -- A text of digits is not longer than the digits that the number starts with.
      have hle := hrun.longest (mem_anyOf.mpr hall) (List.take_prefix _ _)
      rw [List.length_take_of_le (longest_decimal.le_length cs)] at hle
      have hge : run decimalPart cs ≤ scaled decimalPart (isMark 'e' 'E') cs := by
        rw [scaled, mantissa]
        omega
      omega

end Decimal

section Based

variable {cs w : List Char}

theorem mem_basedPattern {marks parts : List Char} :
    w ∈ (basedPattern marks parts).matches' ↔
      ∃ c ∈ marks, ∃ ds, w = '0' :: c :: ds ∧ ds ≠ [] ∧ ∀ d ∈ ds, d ∈ parts := by
  simp only [basedPattern, mem_mul, mem_char, mem_oneOf, mem_someOf]
  constructor
  · rintro ⟨_, ⟨_, rfl, _, ⟨c, hc, rfl⟩, rfl⟩, ds, hds, rfl⟩
    exact ⟨c, hc, ds, rfl, hds⟩
  · rintro ⟨c, hc, ds, rfl, hds⟩
    exact ⟨_, ⟨_, rfl, _, ⟨c, hc, rfl⟩, rfl⟩, ds, hds, rfl⟩

theorem mem_hexFloatPattern :
    w ∈ hexFloatPattern.matches' ↔
      ∃ c ∈ ['x', 'X'], ∃ u ∈ (mantissaPattern hexParts).matches',
        ∃ e ∈ (exponentPattern ['p', 'P']).matches', w = '0' :: c :: (u ++ e) := by
  simp only [hexFloatPattern, mantissaPattern, mem_mul, mem_char, mem_oneOf, mem_anyOf,
    mem_optional, mem_pointPattern]
  constructor
  · rintro ⟨_, ⟨_, ⟨_, ⟨_, ⟨_, rfl, _, ⟨c, hc, rfl⟩, rfl⟩, ds, hds, rfl⟩, point, hpoint, rfl⟩,
      fs, hfs, rfl⟩, e, he, rfl⟩
    rcases hpoint with rfl | rfl
    · refine ⟨c, hc, ds ++ fs, ⟨ds ++ fs, ?_, [], .inl rfl, by simp⟩, e, he, by simp⟩
      exact List.forall_mem_append.mpr ⟨hds, hfs⟩
    · exact ⟨c, hc, ds ++ '.' :: fs, ⟨ds, hds, '.' :: fs, .inr ⟨fs, rfl, hfs⟩, rfl⟩, e, he,
        by simp⟩
  · rintro ⟨c, hc, _, ⟨ds, hds, f, hf, rfl⟩, e, he, rfl⟩
    rcases hf with rfl | ⟨fs, rfl, hfs⟩
    · exact ⟨_, ⟨_, ⟨_, ⟨_, ⟨_, rfl, _, ⟨c, hc, rfl⟩, rfl⟩, ds, hds, rfl⟩, [], .inl rfl, rfl⟩, [],
        by simp, rfl⟩, e, he, by simp⟩
    · exact ⟨_, ⟨_, ⟨_, ⟨_, ⟨_, rfl, _, ⟨c, hc, rfl⟩, rfl⟩, ds, hds, rfl⟩, ['.'], .inr rfl, rfl⟩,
        fs, hfs, rfl⟩, e, he, by simp⟩

/-- A number whose base is marked, and the single zero before what is no digit of it. -/
theorem readBased_mem {marks parts : List Char} {digit : Char → Bool}
    (hdigit : ∀ c, digit c = true ↔ c ∈ parts) {c : Char} (hc : c ∈ marks)
    (hint : ∀ w ∈ (basedPattern marks parts).matches', w ∈ intPattern.matches')
    (cs : List Char) :
    ('0' :: c :: cs).take (readBased digit cs).2 ∈
      (pattern (readBased digit cs).1).matches' := by
  have hrun := longest_run hdigit
  simp only [readBased]
  split
  · exact mem_int_of_digits (w := ['0'])
      (List.all_iff_forall_prop.mp (by decide)) (by decide)
  · rename_i hsome
    rw [Nat.add_comm]
    exact hint _ (mem_basedPattern.mpr
      ⟨c, hc, _, rfl, take_run_ne_nil hsome, mem_anyOf.mp (hrun.mem cs)⟩)

theorem length_le_readBased {parts : List Char} {digit : Char → Bool}
    (hdigit : ∀ c, digit c = true ↔ c ∈ parts) {ds : List Char} (hne : ds ≠ [])
    (hds : ∀ d ∈ ds, d ∈ parts) (hhead : ds <+: cs) :
    ds.length + 2 ≤ (readBased digit cs).2 := by
  have hlong := (longest_run hdigit).longest (mem_anyOf.mpr hds) hhead
  have hpos := List.length_pos_of_ne_nil hne
  have hsome : run digit cs ≠ 0 := by omega
  simp only [readBased, if_neg hsome]
  omega

theorem one_le_readBased (digit : Char → Bool) (cs : List Char) :
    1 ≤ (readBased digit cs).2 := by
  simp only [readBased]
  split <;> simp only <;> omega

end Based

section Hex

variable {cs w : List Char}

/-- With its exponent a mantissa is a float; without it only a mantissa of digits is a number. -/
theorem readHex_eq (cs : List Char) :
    readHex cs =
      if exponent (isMark 'p' 'P') (cs.drop (mantissa hexPart cs)) ≠ 0 then
        some (.float, scaled hexPart (isMark 'p' 'P') cs + 2)
      else if (cs.drop (run hexPart cs)).head? = some '.' then none
      else some (readBased hexPart cs) := by
  by_cases hpoint : (cs.drop (run hexPart cs)).head? = some '.'
  · obtain ⟨rest, hrest⟩ := List.head?_eq_some_iff.mp hpoint
    have hmantissa : mantissa hexPart cs = run hexPart cs + (run hexPart rest + 1) := by
      rw [mantissa, hrest, pointed, Nat.add_comm 1]
    have hdrop : cs.drop (mantissa hexPart cs) = rest.drop (run hexPart rest) := by
      rw [hmantissa, ← List.drop_drop, hrest, List.drop_succ_cons]
    rw [readHex_point hrest, scaled, hdrop, hmantissa, if_pos hpoint, ite_not]
    split
    · rfl
    · congr 2
      omega
  · have hmantissa : mantissa hexPart cs = run hexPart cs := by
      rw [mantissa, pointed]
      · rfl
      · intro rest hrest
        exact hpoint (by rw [hrest]; rfl)
    rw [readHex_plain hpoint, scaled, hmantissa, if_neg hpoint, ite_not]
    split
    · rfl
    · congr 2
      omega

theorem mark_of_mantissa {c : Char} {v : List Char}
    (hv : c :: v ∈ (exponentPattern ['p', 'P']).matches') :
    ∀ w ∈ (mantissaPattern hexParts).matches', c ∉ w := by
  have hmarks : ∀ c ∈ ['p', 'P'], c ∉ letters (mantissaPattern hexParts) :=
    List.all_iff_forall_prop.mp (by decide)
  intro w hw hc
  exact hmarks c (head_mem_of_exponent (.inr hv)) (mem_letters hw hc)

/-- A hexadecimal float at the head of the text is found, and all of it. -/
theorem length_le_scaled {u e : List Char} (hu : u ∈ (mantissaPattern hexParts).matches')
    (he : e ∈ (exponentPattern ['p', 'P']).matches') (hhead : u ++ e <+: cs) :
    exponent (isMark 'p' 'P') (cs.drop (mantissa hexPart cs)) ≠ 0 ∧
      (u ++ e).length ≤ scaled hexPart (isMark 'p' 'P') cs := by
  have hne : e ≠ [] := by
    obtain ⟨c, -, sign, ds, rfl, -⟩ := mem_exponentPattern.mp he
    exact List.cons_ne_nil _ _
  obtain ⟨hsize, hrest⟩ := (longest_mantissa hexPart_iff (by decide)).cut
    (fun c v hv => mark_of_mantissa hv) hu he hne hhead
  have hlong := (longest_exponent 'p' 'P').longest (.inr he) hrest
  have hpos := List.length_pos_of_ne_nil hne
  rw [List.length_append, scaled]
  omega

/-- An exponent that is there makes a float. -/
theorem mem_hexFloat_of_exponent {c : Char} (hc : c ∈ ['x', 'X'])
    (h : exponent (isMark 'p' 'P') (cs.drop (mantissa hexPart cs)) ≠ 0) :
    ('0' :: c :: cs).take (scaled hexPart (isMark 'p' 'P') cs + 2) ∈
      hexFloatPattern.matches' := by
  have hmantissa := (longest_mantissa hexPart_iff (by decide)).mem cs
  have hexponent := (longest_exponent 'p' 'P').mem (cs.drop (mantissa hexPart cs))
  have hle := (longest_exponent 'p' 'P').le_length (cs.drop (mantissa hexPart cs))
  rcases mem_optional.mp hexponent with hnil | hexponent
  · have hlength := congrArg List.length hnil
    rw [List.length_take_of_le hle] at hlength
    exact absurd hlength h
  · refine mem_hexFloatPattern.mpr ⟨c, hc, _, hmantissa, _, hexponent, ?_⟩
    rw [List.take_succ_cons, List.take_succ_cons, scaled, List.take_add]

end Hex

section Read

variable {cs w : List Char}

/-- A hexadecimal mantissa with a point, and no exponent that would make it a float. -/
structure Truncated (cs : List Char) : Prop where
  point : ∃ w, w <+: cs ∧
    w ∈ (char '0' * oneOf ['x', 'X'] * anyOf hexParts * char '.').matches'
  noFloat : ∀ w, w <+: cs → w ∉ hexFloatPattern.matches'

theorem mem_point :
    w ∈ (char '0' * oneOf ['x', 'X'] * anyOf hexParts * char '.').matches' ↔
      ∃ c ∈ ['x', 'X'], ∃ ds, w = '0' :: c :: ds ++ ['.'] ∧ ∀ d ∈ ds, d ∈ hexParts := by
  simp only [mem_mul, mem_char, mem_oneOf, mem_anyOf]
  constructor
  · rintro ⟨_, ⟨_, ⟨_, rfl, _, ⟨c, hc, rfl⟩, rfl⟩, ds, hds, rfl⟩, _, rfl, rfl⟩
    exact ⟨c, hc, ds, rfl, hds⟩
  · rintro ⟨c, hc, ds, rfl, hds⟩
    exact ⟨_, ⟨_, ⟨_, rfl, _, ⟨c, hc, rfl⟩, rfl⟩, ds, hds, rfl⟩, _, rfl, rfl⟩

/-- A text is read as no number if its hexadecimal mantissa is not completed. -/
theorem truncated_of_readHex {c : Char} (hc : c ∈ ['x', 'X']) (h : readHex cs = none) :
    Truncated ('0' :: c :: cs) := by
  rw [readHex_eq] at h
  split at h
  · cases h
  · rename_i hpower
    split at h
    · rename_i hpoint
      obtain ⟨rest, hrest⟩ := List.head?_eq_some_iff.mp hpoint
      have hdigits := (longest_run hexPart_iff).mem cs
      constructor
      · refine ⟨_, ?_, mem_point.mpr ⟨c, hc, _, rfl, mem_anyOf.mp hdigits⟩⟩
        refine ⟨rest, ?_⟩
        have hsplit := List.take_append_drop (run hexPart cs) cs
        rw [hrest] at hsplit
        simpa using hsplit
      · intro w hhead hw
        obtain ⟨d, hd, u, hu, e, he, rfl⟩ := mem_hexFloatPattern.mp hw
        obtain ⟨-, hhead⟩ := List.cons_prefix_cons.mp hhead
        obtain ⟨-, hhead⟩ := List.cons_prefix_cons.mp hhead
        exact hpower (length_le_scaled hu he hhead).1
    · cases h

theorem Truncated.exists_readHex (h : Truncated cs) :
    ∃ c ∈ ['x', 'X'], ∃ rest, cs = '0' :: c :: rest ∧ readHex rest = none := by
  obtain ⟨w, ⟨rest, rfl⟩, hw⟩ := h.point
  obtain ⟨c, hc, ds, rfl, hds⟩ := mem_point.mp hw
  have hpoint : '.' ∉ hexParts := by decide
  have hrun : run hexPart (ds ++ '.' :: rest) = ds.length :=
    (longest_run hexPart_iff).stops (fun w hw hc => hpoint (mem_anyOf.mp hw _ hc))
      (mem_anyOf.mpr hds) rest
  have hcs : '0' :: c :: ds ++ ['.'] ++ rest = '0' :: c :: (ds ++ '.' :: rest) := by simp
  refine ⟨c, hc, ds ++ '.' :: rest, hcs, ?_⟩
  have hpower : ¬ exponent (isMark 'p' 'P')
      ((ds ++ '.' :: rest).drop (mantissa hexPart (ds ++ '.' :: rest))) ≠ 0 := by
    intro hpower
    refine h.noFloat _ ?_ (mem_hexFloat_of_exponent hc hpower)
    rw [hcs]
    exact List.take_prefix _ _
  rw [readHex_eq, if_neg hpower, hrun, List.drop_left]
  rfl

/-- Only a hexadecimal mantissa that is not completed is no number. -/
theorem read_eq_none_iff : read cs = none ↔ Truncated cs := by
  constructor
  · intro h
    unfold read at h
    split at h
    · rename_i c cs
      split at h
      · rename_i hc
        exact truncated_of_readHex (isMark_iff.mp hc) h
      · split at h
        · cases h
        · split at h <;> cases h
    · cases h
  · intro h
    obtain ⟨c, hc, rest, rfl, hread⟩ := h.exists_readHex
    rw [read, if_pos (isMark_iff.mpr hc), hread]

theorem mem_decimal_of_first (h : w ∈ digitFirst.matches' ∨ w ∈ pointFirst.matches') :
    w ∈ decimalPattern.matches' := by
  rcases h with h | h
  · obtain ⟨d, hd, ds, f, e, rfl, hds, hf, he⟩ := mem_digitFirst.mp h
    exact mem_decimalPattern.mpr
      ⟨d :: ds, f, e, rfl, List.forall_mem_cons.mpr ⟨mem_decimalParts d hd, hds⟩, hf, he⟩
  · obtain ⟨d, hd, ds, e, rfl, hds, he⟩ := mem_pointFirst.mp h
    have hpoint : '.' :: d :: ds ∈ (pointPattern decimalParts).matches' :=
      mem_pointPattern.mpr ⟨d :: ds, rfl, List.forall_mem_cons.mpr ⟨mem_decimalParts d hd, hds⟩⟩
    exact mem_decimalPattern.mpr ⟨[], '.' :: d :: ds, e, rfl, by simp, .inr hpoint, he⟩

/-- Integers without a mark are decimal numbers. -/
theorem mem_digitFirst_of_int
    (h : w ∈ (char '0' * anyOf decimalParts).matches' ∨
      w ∈ (oneOf "123456789".toList * anyOf decimalParts).matches') :
    w ∈ digitFirst.matches' := by
  have hdigits : ∀ d ∈ "123456789".toList, d ∈ digits := List.all_iff_forall_prop.mp (by decide)
  obtain ⟨d, hd, ds, hds, rfl⟩ : ∃ d ∈ digits, ∃ ds ∈ (anyOf decimalParts).matches',
      w = d :: ds := by
    rcases h with h | h
    · obtain ⟨_, rfl, ds, hds, rfl⟩ := mem_mul.mp h
      exact ⟨'0', by decide, ds, hds, rfl⟩
    · obtain ⟨u, hu, ds, hds, rfl⟩ := mem_mul.mp h
      obtain ⟨d, hd, rfl⟩ := mem_oneOf.mp hu
      exact ⟨d, hdigits d hd, ds, hds, rfl⟩
  exact mem_digitFirst.mpr ⟨d, hd, ds, [], [], by simp, mem_anyOf.mp hds, .inl rfl, .inl rfl⟩

/-- Floats without a mark are decimal numbers. -/
theorem mem_first_of_float
    (h : w ∈ (oneOf digits * anyOf decimalParts * char '.' * anyOf decimalParts *
        optional (exponentPattern ['e', 'E']) +
      oneOf digits * anyOf decimalParts * exponentPattern ['e', 'E'] + pointFirst).matches') :
    w ∈ digitFirst.matches' ∨ w ∈ pointFirst.matches' := by
  rw [mem_add, mem_add] at h
  rcases h with (h | h) | h
  · simp only [mem_mul, mem_char, mem_oneOf, mem_anyOf] at h
    obtain ⟨_, ⟨_, ⟨_, ⟨_, ⟨d, hd, rfl⟩, ds, hds, rfl⟩, _, rfl, rfl⟩, fs, hfs, rfl⟩, e, he,
      rfl⟩ := h
    have hpoint : '.' :: fs ∈ (pointPattern decimalParts).matches' :=
      mem_pointPattern.mpr ⟨fs, rfl, hfs⟩
    exact .inl (mem_digitFirst.mpr ⟨d, hd, ds, '.' :: fs, e, by simp, hds, .inr hpoint, he⟩)
  · simp only [mem_mul, mem_oneOf, mem_anyOf] at h
    obtain ⟨_, ⟨_, ⟨d, hd, rfl⟩, ds, hds, rfl⟩, e, he, rfl⟩ := h
    exact .inl (mem_digitFirst.mpr ⟨d, hd, ds, [], e, by simp, hds, .inl rfl, .inr he⟩)
  · exact .inr h

/-- Every number is a decimal one, an integer with a base that is marked, or a hexadecimal
float. -/
theorem mem_pattern_cases {form : Literal} (h : w ∈ (pattern form).matches') :
    w ∈ (decimalPattern * optional (char 'i')).matches' ∨
      w ∈ (basedPattern ['x', 'X'] hexParts).matches' ∨
      w ∈ (basedPattern ['b', 'B'] binaryParts).matches' ∨
      w ∈ (basedPattern ['o', 'O'] octalParts).matches' ∨ w ∈ hexFloatPattern.matches' := by
  have hdecimal {v : List Char} (hv : v ∈ digitFirst.matches' ∨ v ∈ pointFirst.matches')
      {unit : List Char} (hunit : unit ∈ (optional (char 'i')).matches') :
      v ++ unit ∈ (decimalPattern * optional (char 'i')).matches' :=
    mem_mul.mpr ⟨v, mem_decimal_of_first hv, unit, hunit, rfl⟩
  cases form with
  | int =>
    rcases h with (((h | h) | h) | h) | h
    · exact .inr (.inl h)
    · exact .inr (.inr (.inl h))
    · exact .inr (.inr (.inr (.inl h)))
    · rw [← List.append_nil w]
      exact .inl (hdecimal (.inl (mem_digitFirst_of_int (.inl h))) (.inl rfl))
    · rw [← List.append_nil w]
      exact .inl (hdecimal (.inl (mem_digitFirst_of_int (.inr h))) (.inl rfl))
  | float =>
    rcases h with h | h
    · rw [← List.append_nil w]
      exact .inl (hdecimal (mem_first_of_float h) (.inl rfl))
    · exact .inr (.inr (.inr (.inr h)))
  | imaginary =>
    obtain ⟨v, hv, unit, hunit, rfl⟩ := mem_mul.mp h
    exact .inl (hdecimal hv (.inr hunit))
  | rune => exact absurd h (Language.notMem_zero w)
  | string => exact absurd h (Language.notMem_zero w)

/-- Of a zero before a mark only the zero is decimal. -/
theorem readDecimal_zero {c : Char} (hc : c ∉ letters (decimalPattern * optional (char 'i')))
    (cs : List Char) : (readDecimal ('0' :: c :: cs)).2 = 1 := by
  have hzero : ['0'] ∈ (decimalPattern * optional (char 'i')).matches' := by decide
  exact longest_readDecimal.stops (fun w hw hmem => hc (mem_letters hw hmem)) hzero cs

/-- The number at the head of a text is of the form that is read, and no head of the text that
is a number of any form is longer. -/
structure IsLongestNumber (cs : List Char) (form : Literal) (n : Nat) : Prop where
  mem : cs.take n ∈ (pattern form).matches'
  longest : ∀ {other w}, w ∈ (pattern other).matches' → w <+: cs → w.length ≤ n

/-- The marks of bases, with the digits of integers. -/
def bases : List (List Char × List Char) :=
  [(['x', 'X'], hexParts), (['b', 'B'], binaryParts), (['o', 'O'], octalParts)]

/-- To be longest, a number has to be as long as the decimal number at the head of the text, and
behind the mark of a base as long as an integer or a float of that base. -/
theorem length_le_of_mem_pattern {n : Nat} (hdecimal : (readDecimal cs).2 ≤ n)
    (hbased : ∀ {c rest}, cs = '0' :: c :: rest → ∀ base ∈ bases, c ∈ base.1 → ∀ {ds}, ds ≠ [] →
      (∀ d ∈ ds, d ∈ base.2) → ds <+: rest → ds.length + 2 ≤ n)
    (hfloat : ∀ {c rest}, cs = '0' :: c :: rest → c ∈ ['x', 'X'] →
      ∀ {u e}, u ∈ (mantissaPattern hexParts).matches' →
        e ∈ (exponentPattern ['p', 'P']).matches' → u ++ e <+: rest → (u ++ e).length + 2 ≤ n)
    {form : Literal} (hw : w ∈ (pattern form).matches') (hhead : w <+: cs) : w.length ≤ n := by
  have hmarked : ∀ base ∈ bases, w ∈ (basedPattern base.1 base.2).matches' → w.length ≤ n := by
    intro base hbase hw
    obtain ⟨c, hc, ds, rfl, hne, hds⟩ := mem_basedPattern.mp hw
    obtain ⟨rest, rfl⟩ := hhead
    exact hbased rfl base hbase hc hne hds (List.prefix_append _ _)
  rcases mem_pattern_cases hw with hw | hw | hw | hw | hw
  · exact (longest_readDecimal.longest hw hhead).trans hdecimal
  · exact hmarked (['x', 'X'], hexParts) (by simp [bases]) hw
  · exact hmarked (['b', 'B'], binaryParts) (by simp [bases]) hw
  · exact hmarked (['o', 'O'], octalParts) (by simp [bases]) hw
  · obtain ⟨c, hc, u, hu, e, he, rfl⟩ := mem_hexFloatPattern.mp hw
    obtain ⟨rest, rfl⟩ := hhead
    exact hfloat rfl hc hu he (List.prefix_append _ _)

theorem isLongestNumber_hex {c : Char} (hc : c ∈ ['x', 'X']) {form : Literal} {n : Nat}
    (h : readHex cs = some (form, n)) : IsLongestNumber ('0' :: c :: cs) form n := by
  have hletters : ∀ c ∈ ['x', 'X'], c ∉ letters (decimalPattern * optional (char 'i')) :=
    List.all_iff_forall_prop.mp (by decide)
  have hbases : ∀ c ∈ ['x', 'X'], ∀ base ∈ bases, c ∈ base.1 → base.2 = hexParts :=
    List.all_iff_forall_prop.mp (by decide)
  rw [readHex_eq] at h
  constructor
  · split at h
    · rename_i hpower
      cases h
      exact .inr (mem_hexFloat_of_exponent hc hpower)
    · split at h
      · cases h
      · have hmem := readBased_mem hexPart_iff hc
          (fun w hw => .inl (.inl (.inl (.inl hw)))) cs
        rwa [Option.some.inj h] at hmem
  · intro other w hw hhead
    have hrun : run hexPart cs ≤ scaled hexPart (isMark 'p' 'P') cs := by
      rw [scaled, mantissa]
      omega
    refine length_le_of_mem_pattern ?_ ?_ ?_ hw hhead
    · rw [readDecimal_zero (hletters c hc)]
      split at h
      · cases h
        omega
      · split at h
        · cases h
        · have hone := one_le_readBased hexPart cs
          rwa [Option.some.inj h] at hone
    · intro d rest hcs base hbase hd ds hne hds hhead
      cases hcs
      rw [hbases c hc base hbase hd] at hds
      split at h
      · cases h
        have := (longest_run hexPart_iff).longest (mem_anyOf.mpr hds) hhead
        omega
      · split at h
        · cases h
        · have hbased := length_le_readBased hexPart_iff hne hds hhead
          rwa [Option.some.inj h] at hbased
    · intro d rest hcs hd u e hu he hhead
      cases hcs
      obtain ⟨hpower, hlength⟩ := length_le_scaled hu he hhead
      rw [if_pos hpower] at h
      cases h
      omega

/-- An integer of a base that has no floats. -/
theorem isLongestNumber_based {marks parts : List Char} {digit : Char → Bool} {c : Char}
    (hdigit : ∀ c, digit c = true ↔ c ∈ parts) (hc : c ∈ marks)
    (hletters : c ∉ letters (decimalPattern * optional (char 'i'))) (hhex : c ∉ ['x', 'X'])
    (hbases : ∀ base ∈ bases, c ∈ base.1 → base.2 = parts)
    (hint : ∀ w ∈ (basedPattern marks parts).matches', w ∈ intPattern.matches')
    (cs : List Char) :
    IsLongestNumber ('0' :: c :: cs) (readBased digit cs).1 (readBased digit cs).2 := by
  constructor
  · exact readBased_mem hdigit hc hint cs
  · intro other w hw hhead
    refine length_le_of_mem_pattern ?_ ?_ ?_ hw hhead
    · rw [readDecimal_zero hletters]
      exact one_le_readBased digit cs
    · intro d rest hcs base hbase hd ds hne hds hhead
      cases hcs
      rw [hbases base hbase hd] at hds
      exact length_le_readBased hdigit hne hds hhead
    · intro d rest hcs hd
      cases hcs
      exact absurd hd hhex

/-- A number without the mark of a base. -/
theorem isLongestNumber_decimal (hstarts : starts cs = true)
    (hmark : ∀ c rest, cs = '0' :: c :: rest → ∀ base ∈ bases, c ∉ base.1) :
    IsLongestNumber cs (readDecimal cs).1 (readDecimal cs).2 := by
  constructor
  · exact readDecimal_mem hstarts
  · intro other w hw hhead
    refine length_le_of_mem_pattern (Nat.le_refl _) ?_ ?_ hw hhead
    · intro c rest hcs base hbase hc
      exact absurd hc (hmark c rest hcs base hbase)
    · intro c rest hcs hc
      exact absurd hc (hmark c rest hcs (['x', 'X'], hexParts) (by simp [bases]))

theorem nil_notMem_pattern (form : Literal) : [] ∉ (pattern form).matches' := by
  cases form <;> decide

/-- A number is read as far as any pattern reaches. -/
theorem read_isLongestNumber (hstarts : starts cs = true) {form : Literal} {n : Nat}
    (h : read cs = some (form, n)) : IsLongestNumber cs form n := by
  unfold read at h
  split at h
  · rename_i c rest
    split at h
    · rename_i hx
      exact isLongestNumber_hex (isMark_iff.mp hx) h
    · rename_i hx
      split at h
      · rename_i hb
        have hplain : ∀ c ∈ ['b', 'B'], c ∉ letters (decimalPattern * optional (char 'i')) ∧
            c ∉ ['x', 'X'] ∧ ∀ base ∈ bases, c ∈ base.1 → base.2 = binaryParts :=
          List.all_iff_forall_prop.mp (by decide)
        obtain ⟨hletters, hhex, hbases⟩ := hplain c (isMark_iff.mp hb)
        have hlongest := isLongestNumber_based binaryPart_iff (isMark_iff.mp hb) hletters hhex
          hbases (fun w hw => .inl (.inl (.inl (.inr hw)))) rest
        rwa [Option.some.inj h] at hlongest
      · rename_i hb
        split at h
        · rename_i ho
          have hplain : ∀ c ∈ ['o', 'O'], c ∉ letters (decimalPattern * optional (char 'i')) ∧
              c ∉ ['x', 'X'] ∧ ∀ base ∈ bases, c ∈ base.1 → base.2 = octalParts :=
            List.all_iff_forall_prop.mp (by decide)
          obtain ⟨hletters, hhex, hbases⟩ := hplain c (isMark_iff.mp ho)
          have hlongest := isLongestNumber_based octalPart_iff (isMark_iff.mp ho) hletters hhex
            hbases (fun w hw => .inl (.inl (.inr hw))) rest
          rwa [Option.some.inj h] at hlongest
        · rename_i ho
          have hnone : ∀ base ∈ bases, c ∉ base.1 := by
            simp only [bases, List.forall_mem_cons, ← isMark_iff]
            exact ⟨hx, hb, ho, by simp⟩
          have hlongest := isLongestNumber_decimal hstarts fun d rest' hcs => by
            cases hcs
            exact hnone
          rwa [Option.some.inj h] at hlongest
  · rename_i hcs
    have hlongest := isLongestNumber_decimal hstarts fun c rest heq => absurd heq (hcs c rest)
    rwa [Option.some.inj h] at hlongest

end Read

end GoSource.Number

namespace GoSource

theorem Number.starts_of_digit {cs : List Char} {d : Char} (hd : d.isDigit = true)
    (h : [d] <+: cs ∨ ['.', d] <+: cs) : Number.starts cs = true := by
  rcases h with ⟨rest, rfl⟩ | ⟨rest, rfl⟩
  · have hpoint : d ≠ '.' := by
      rintro rfl
      cases hd
    rw [List.singleton_append, Number.starts_eq_isDigit hpoint, hd]
  · exact hd

/-- Where a token starts with a digit, or with a point and a digit, the longest head of the
rest that is a number by one of the patterns is read, as a literal of the form of its pattern.
The exception is a hexadecimal mantissa with a point, none of whose continuations in the text
is a float: there the reading stops with an invalid token. -/
theorem lex_number {before rest : String}
    (hstart : TokenStarts (before ++ rest) before.utf8ByteSize) {d : Char}
    (hd : d.isDigit = true) (hnumber : [d] <+: rest.toList ∨ ['.', d] <+: rest.toList) :
    (Number.Truncated rest.toList →
      (lex (before ++ rest)).stopped = some ⟨.invalidToken, before.utf8ByteSize⟩) ∧
    (¬ Number.Truncated rest.toList →
      ∃ form text, ⟨.literal form, before.utf8ByteSize, text⟩ ∈ (lex (before ++ rest)).items ∧
        text.toList ∈ (Number.pattern form).matches' ∧ text.toList <+: rest.toList ∧
        ∀ other w, w ∈ (Number.pattern other).matches' → w <+: rest.toList →
          w.length ≤ text.length) := by
  have hstarts := Number.starts_of_digit hd hnumber
  obtain ⟨c, cs, hrest, hread⟩ := hstart.exists_read
  rw [hrest] at hstarts ⊢
  rw [← Number.read_eq_none_iff]
  cases hnum : Number.read (c :: cs) with
  | none =>
    refine ⟨fun _ => ?_, fun hsome => absurd rfl hsome⟩
    rw [(ReadAs.noNumber hstarts hnum).eq] at hread
    rcases hread with ⟨kind, n, hok, -⟩ | ⟨problem, herror, hstopped⟩
    · cases hok
    · cases herror
      exact hstopped
  | some found =>
    obtain ⟨form, n⟩ := found
    have hlongest := Number.read_isLongestNumber hstarts hnum
    refine ⟨nofun, fun _ => ?_⟩
    rw [(ReadAs.number hstarts hnum).eq] at hread
    rcases hread with ⟨kind, m, hok, hitem⟩ | ⟨problem, herror, -⟩
    · cases hok
      cases n with
      | zero => exact absurd hlongest.mem (Number.nil_notMem_pattern form)
      | succ n =>
        refine ⟨form, _, hitem, ?_⟩
        rw [String.toList_ofList, String.length_ofList]
        refine ⟨hlongest.mem, List.take_prefix (n + 1) (c :: cs), fun other w hw hhead => ?_⟩
        have hle := hlongest.longest hw hhead
        have hsize := Number.read_le hnum
        rw [List.length_cons, List.length_take]
        rw [List.length_cons] at hsize
        omega
    · cases herror

/-- An imaginary number with a point, an exponent and its unit is one token. After it a
hexadecimal mantissa lacks the digits of its exponent, and not even its zero is read. -/
theorem lex_number_imaginary_truncated :
    TokenStarts ("x+" ++ "1.e5i*0x1.8p") "x+".utf8ByteSize ∧
    ¬ Number.Truncated "1.e5i*0x1.8p".toList ∧
    (∃ form text, ⟨.literal form, "x+".utf8ByteSize, text⟩ ∈ (lex ("x+" ++ "1.e5i*0x1.8p")).items ∧
      text.toList ∈ (Number.pattern form).matches' ∧ text.toList <+: "1.e5i*0x1.8p".toList ∧
      ∀ other w, w ∈ (Number.pattern other).matches' → w <+: "1.e5i*0x1.8p".toList →
        w.length ≤ text.length) ∧
    TokenStarts ("x+1.e5i*" ++ "0x1.8p") "x+1.e5i*".utf8ByteSize ∧
    Number.Truncated "0x1.8p".toList ∧
    (lex ("x+1.e5i*" ++ "0x1.8p")).stopped =
      some ⟨.invalidToken, "x+1.e5i*".utf8ByteSize⟩ := by
  have hfirst : TokenStarts ("x+" ++ "1.e5i*0x1.8p") "x+".utf8ByteSize := .inl (by decide +kernel)
  have hsecond : TokenStarts ("x+1.e5i*" ++ "0x1.8p") "x+1.e5i*".utf8ByteSize :=
    .inr ⟨⟨.invalidToken, 8⟩, by decide +kernel, by decide +kernel⟩
  have hread : ¬ Number.Truncated "1.e5i*0x1.8p".toList := by
    rw [← Number.read_eq_none_iff]
    decide +kernel
  have htruncated : Number.Truncated "0x1.8p".toList := by
    rw [← Number.read_eq_none_iff]
    decide +kernel
  exact ⟨hfirst, hread,
    (lex_number hfirst (d := '1') (by decide) (.inl (by decide))).2 hread,
    hsecond, htruncated,
    (lex_number hsecond (d := '0') (by decide) (.inl (by decide))).1 htruncated⟩

example : ((lex "1.e5i 1e+ 0b2 0o8 0xp1 09.5").items.map fun l => (l.kind, l.text)) =
    [(.literal .imaginary, "1.e5i"), (.literal .int, "1"), (.ident, "e"), (.symbol .plus, "+"),
      (.literal .int, "0"), (.ident, "b2"), (.literal .int, "0"), (.ident, "o8"),
      (.literal .float, "0xp1"), (.literal .float, "09.5")] := by decide +kernel

end GoSource
