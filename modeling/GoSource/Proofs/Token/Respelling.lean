import GoSource.Proofs.Check.Reading
import GoSource.Proofs.Token.Joining
import GoSource.Proofs.Token.Respelled

/-!
# Tokens of a text with another name in it

Putting one name for another as a qualifier changes no kind of token and no place where a
line ends a statement, as long as neither name is a keyword and no number draws one of
them in. Strings, comments and runes may hold the name; where they end is not changed.
Offsets are not compared, since the names may differ in length.
-/

namespace GoSource

open Qualifier (isBoundary)
open Text (isLineBreak)

variable {old new : List Char} {b : Bool} {c : Char} {cs cs' : List Char} {n n' : Nat}

/-- Stretches of the two texts after which they go on alike, with line breaks in both or in
none. -/
structure Abreast (old new : List Char) (n n' : Nat) (cs cs' : List Char) : Prop where
  rest : ∃ b, Respelled old new b (cs.drop n) (cs'.drop n')
  breaks : (cs'.take n').any isLineBreak = (cs.take n).any isLineBreak

theorem isLineBreak_eq_false_of_isNamePart (h : isNamePart c = true) : isLineBreak c = false := by
  have hfeed := ne_of_isNamePart (d := '\n') h (by decide)
  have hreturn := ne_of_isNamePart (d := '\r') h (by decide)
  simp [isLineBreak, hfeed, hreturn]

namespace Abreast

theorem zero (h : Respelled old new b cs cs') : Abreast old new 0 0 cs cs' := ⟨⟨b, h⟩, rfl⟩

theorem of_agree (h : Agree old new n cs cs') : Abreast old new n n cs cs' :=
  ⟨⟨false, h.rest⟩, by rw [h.head]⟩

theorem cons (h : Abreast old new n n' cs cs') :
    Abreast old new (n + 1) (n' + 1) (c :: cs) (c :: cs') :=
  ⟨by simpa using h.rest, by simp [h.breaks]⟩

/-- The two names are passed over. -/
theorem names (hold : IsName old) (hnew : IsName new) (h : Abreast old new n n' cs cs') :
    Abreast old new (n + old.length) (n' + new.length) (old ++ cs) (new ++ cs') := by
  have solid : ∀ {w : List Char}, IsName w → w.any isLineBreak = false := by
    intro w hw
    rw [List.any_eq_false]
    intro d hd
    simp [isLineBreak_eq_false_of_isNamePart (hw.isNamePart hd)]
  rw [Nat.add_comm n, Nat.add_comm n']
  refine ⟨?_, ?_⟩
  · simpa using h.rest
  · simp [List.take_append, solid hold, solid hnew, h.breaks, List.take_of_length_le]

end Abreast

section Closing

variable (hold : IsName old) (hnew : IsName new)
include hold hnew

/-- Characters of a class that holds all names. -/
theorem takeWhile_abreast {p : Char → Bool} (hp : ∀ d, isNamePart d = true → p d = true)
    (h : Respelled old new b cs cs') :
    Abreast old new (cs.takeWhile p).length (cs'.takeWhile p).length cs cs' := by
  induction h with
  | nil b => exact .zero (.nil b)
  | @char b d cs cs' h ih =>
    cases hd : p d with
    | true =>
      rw [List.takeWhile_cons_of_pos hd, List.takeWhile_cons_of_pos hd]
      exact ih.cons
    | false =>
      have hd : ¬ p d = true := by simp [hd]
      rw [List.takeWhile_cons_of_neg hd, List.takeWhile_cons_of_neg hd]
      exact .zero (b := false) (.char h)
  | @use cs cs' rest rest' hcs hcs' hend h ih =>
    have pass : ∀ {w : List Char}, IsName w → ∀ ds : List Char,
        ((w ++ ds).takeWhile p).length = (ds.takeWhile p).length + w.length := by
      intro w hw ds
      rw [List.takeWhile_append_of_pos fun d hd => hp d (hw.isNamePart hd), List.length_append,
        Nat.add_comm]
    subst hcs
    subst hcs'
    rw [pass hold, pass hnew]
    exact ih.names hold hnew

/-- A search that passes over names passes over both of them. -/
theorem close_names {close : List Char → Option Nat} {rest rest' : List Char}
    (pass : ∀ {w : List Char}, (∀ d ∈ w, isNamePart d = true) → ∀ ds,
      close (w ++ ds) = (close ds).map (· + w.length))
    (ih : ∀ {m : Nat}, close rest = some m →
      ∃ m', close rest' = some m' ∧ Abreast old new m m' rest rest')
    (h : close (old ++ rest) = some n) :
    ∃ n', close (new ++ rest') = some n' ∧ Abreast old new n n' (old ++ rest) (new ++ rest') := by
  rw [pass fun d hd => hold.isNamePart hd] at h
  obtain ⟨m, hm, rfl⟩ := Option.map_eq_some_iff.mp h
  obtain ⟨m', hm', habreast⟩ := ih hm
  rw [pass fun d hd => hnew.isNamePart hd, hm']
  exact ⟨_, rfl, habreast.names hold hnew⟩

omit hold hnew in
theorem closeRaw?_word {w : List Char} (hw : ∀ d ∈ w, isNamePart d = true) (rest : List Char) :
    closeRaw? (w ++ rest) = (closeRaw? rest).map (· + w.length) := by
  induction w with
  | nil => simp
  | cons d w ih =>
    have hd := ne_of_isNamePart (d := '\x60') (hw d (by simp)) (by decide)
    rw [List.cons_append, closeRaw?, if_neg hd, ih fun e he => hw e (List.mem_cons_of_mem _ he),
      Option.map_map]
    congr 1

theorem closeRaw?_respelled (h : Respelled old new b cs cs') (hclose : closeRaw? cs = some n) :
    ∃ n', closeRaw? cs' = some n' ∧ Abreast old new n n' cs cs' := by
  induction h generalizing n with
  | nil b => cases hclose
  | @char b d cs cs' h ih =>
    rw [closeRaw?] at hclose ⊢
    by_cases hd : d = '\x60'
    · rw [if_pos hd] at hclose ⊢
      cases hclose
      exact ⟨1, rfl, .cons (.zero h)⟩
    · rw [if_neg hd] at hclose ⊢
      obtain ⟨m, hm, rfl⟩ := Option.map_eq_some_iff.mp hclose
      obtain ⟨m', hm', habreast⟩ := ih hm
      exact ⟨m' + 1, by rw [hm']; rfl, habreast.cons⟩
  | @use cs cs' rest rest' hcs hcs' hend h ih =>
    subst hcs
    subst hcs'
    exact close_names hold hnew closeRaw?_word ih hclose

omit hold hnew in
theorem closeComment?_cons (h : ¬ (c = '*' ∧ cs.head? = some '/')) :
    closeComment? (c :: cs) = (closeComment? cs).map (· + 1) := by
  rw [closeComment?]
  intro rest hc hcs
  subst hcs
  exact h ⟨hc, rfl⟩

omit hold hnew in
theorem closeComment?_skip {w : List Char} (hw : '*' ∉ w) (rest : List Char) :
    closeComment? (w ++ rest) = (closeComment? rest).map (· + w.length) := by
  induction w with
  | nil => simp
  | cons d w ih =>
    obtain ⟨hd, hw⟩ := List.ne_and_not_mem_of_not_mem_cons hw
    rw [List.cons_append, closeComment?_cons fun h => hd h.1.symm, ih hw, Option.map_map]
    congr 1

omit hold hnew in
theorem closeComment?_word {w : List Char} (hw : ∀ d ∈ w, isNamePart d = true) (rest : List Char) :
    closeComment? (w ++ rest) = (closeComment? rest).map (· + w.length) :=
  closeComment?_skip (fun hstar => absurd (hw '*' hstar) (by decide)) rest

theorem closeComment?_respelled (h : Respelled old new b cs cs')
    (hclose : closeComment? cs = some n) :
    ∃ n', closeComment? cs' = some n' ∧ Abreast old new n n' cs cs' := by
  induction h generalizing n with
  | nil b => cases hclose
  | @char b d cs cs' h ih =>
    have hslash := h.head?_iff hold hnew (c := '/') (by decide)
    by_cases hd : d = '*' ∧ cs.head? = some '/'
    · obtain ⟨rfl, hhead⟩ := hd
      obtain ⟨ds, rfl⟩ := List.head?_eq_some_iff.mp hhead
      obtain ⟨ds', rfl, hds⟩ := h.cons_of_not_isNameStart hold (by decide)
      cases hclose
      exact ⟨2, rfl, .cons (.cons (.zero hds))⟩
    · rw [closeComment?_cons hd] at hclose
      obtain ⟨m, hm, rfl⟩ := Option.map_eq_some_iff.mp hclose
      obtain ⟨m', hm', habreast⟩ := ih hm
      rw [closeComment?_cons (by rwa [hslash]), hm']
      exact ⟨m' + 1, rfl, habreast.cons⟩
  | @use cs cs' rest rest' hcs hcs' hend h ih =>
    subst hcs
    subst hcs'
    exact close_names hold hnew closeComment?_word ih hclose

omit hold hnew in
theorem closeQuote?_cons {quote : Char} (hc : c ≠ '\\') :
    closeQuote? quote (c :: cs) =
      if c = quote then some 1
      else if isLineBreak c then none else (closeQuote? quote cs).map (· + 1) := by
  rw [closeQuote?]
  · simp [hc]
  · intro d ds heq
    exact absurd heq hc

omit hold hnew in
theorem closeQuote?_word {quote : Char} (hquote : isNamePart quote = false) {w : List Char}
    (hw : ∀ d ∈ w, isNamePart d = true) (rest : List Char) :
    closeQuote? quote (w ++ rest) = (closeQuote? quote rest).map (· + w.length) := by
  induction w with
  | nil => simp
  | cons d w ih =>
    have hpart := hw d (by simp)
    have hslash := ne_of_isNamePart (d := '\\') hpart (by decide)
    rw [List.cons_append, closeQuote?_cons hslash, if_neg (ne_of_isNamePart hpart hquote),
      if_neg (by simp [isLineBreak_eq_false_of_isNamePart hpart]),
      ih fun e he => hw e (List.mem_cons_of_mem _ he), Option.map_map]
    congr 1

theorem closeQuote?_respelled {quote : Char} (hquote : isNamePart quote = false)
    (hslash : quote ≠ '\\') (h : Respelled old new b cs cs')
    (hclose : closeQuote? quote cs = some n) :
    ∃ n', closeQuote? quote cs' = some n' ∧ Abreast old new n n' cs cs' := by
  -- An escape takes two characters at once, so the induction is on the length.
  induction hlength : cs.length using Nat.strongRecOn generalizing b cs cs' n with
  | ind length ih =>
    subst hlength
    cases h with
    | nil => cases hclose
    | @char _ d cs cs' h =>
      by_cases hd : d = '\\'
      · subst hd
        cases cs with
        | nil => simp [closeQuote?, hslash.symm] at hclose
        | cons e ds =>
          obtain ⟨ds', rfl, hds⟩ := Respelled.false_cons h
          rw [closeQuote?] at hclose ⊢
          by_cases he : isLineBreak e = true
          · rw [if_pos he] at hclose
            cases hclose
          · rw [if_neg he] at hclose ⊢
            obtain ⟨m, hm, rfl⟩ := Option.map_eq_some_iff.mp hclose
            have hshorter : ds.length < ('\\' :: e :: ds).length := by
              simp only [List.length_cons]
              omega
            obtain ⟨m', hm', habreast⟩ := ih ds.length hshorter hds hm rfl
            rw [hm']
            exact ⟨m' + 2, rfl, habreast.cons.cons⟩
      · rw [closeQuote?_cons hd] at hclose ⊢
        by_cases hend : d = quote
        · rw [if_pos hend] at hclose ⊢
          cases hclose
          exact ⟨1, rfl, .cons (.zero h)⟩
        · rw [if_neg hend] at hclose ⊢
          by_cases hbreak : isLineBreak d = true
          · rw [if_pos hbreak] at hclose
            cases hclose
          · rw [if_neg hbreak] at hclose ⊢
            obtain ⟨m, hm, rfl⟩ := Option.map_eq_some_iff.mp hclose
            obtain ⟨m', hm', habreast⟩ := ih cs.length (by simp) h hm rfl
            rw [hm']
            exact ⟨m' + 1, rfl, habreast.cons⟩
    | @use _ _ rest rest' hcs hcs' hend h =>
      subst hcs
      subst hcs'
      have hshorter : rest.length < (old ++ rest).length := by
        cases old with
        | nil => exact hold.elim
        | cons d old => simp only [List.cons_append, List.length_cons, List.length_append]; omega
      exact close_names hold hnew (closeQuote?_word hquote)
        (fun hm => ih _ hshorter h hm rfl) hclose

omit hold hnew in
theorem closeQuote?_pos {quote : Char} (h : closeQuote? quote cs = some n) : 0 < n := by
  fun_induction closeQuote? quote cs generalizing n with
  | case1 => cases h
  | case2 => cases h
  | case3 d ds hd ih =>
    obtain ⟨m, -, rfl⟩ := Option.map_eq_some_iff.mp h
    omega
  | case4 => cases h; omega
  | case5 => cases h
  | case6 d ds hds hquote hbreak ih =>
    obtain ⟨m, -, rfl⟩ := Option.map_eq_some_iff.mp h
    omega

omit hold hnew in
/-- Something stands between the quotes unless the second one follows at once. -/
theorem two_le_closeQuote?_iff {quote : Char} (hslash : quote ≠ '\\')
    (h : closeQuote? quote cs = some n) : 2 ≤ n ↔ cs.head? ≠ some quote := by
  cases cs with
  | nil => cases h
  | cons d ds =>
    by_cases hd : d = '\\'
    · subst hd
      have hhead : ('\\' :: ds).head? ≠ some quote := by simpa using hslash.symm
      refine iff_of_true ?_ hhead
      cases ds with
      | nil => simp [closeQuote?, hslash.symm] at h
      | cons e ds =>
        rw [closeQuote?] at h
        split at h
        · cases h
        · obtain ⟨m, -, rfl⟩ := Option.map_eq_some_iff.mp h
          omega
    · rw [closeQuote?_cons hd] at h
      split at h
      · cases h
        simp_all
      · rename_i hquote
        refine iff_of_true ?_ (by simpa using hquote)
        split at h
        · cases h
        · obtain ⟨m, hm, rfl⟩ := Option.map_eq_some_iff.mp h
          have := closeQuote?_pos hm
          omega

end Closing

section Symbols

variable (hold : IsName old) (hnew : IsName new)
include hold hnew

/-- A word without letters is found in both texts or in none. -/
theorem isPrefixOf_respelled {w : List Char} (hw : ∀ d ∈ w, isNameStart d = false)
    (h : Respelled old new b cs cs') :
    w.isPrefixOf cs' = w.isPrefixOf cs ∧
      (w.isPrefixOf cs = true → Abreast old new w.length w.length cs cs') := by
  induction w generalizing b cs cs' with
  | nil => exact ⟨by simp, fun _ => .zero h⟩
  | cons d w ih =>
    have hd := hw d (by simp)
    by_cases hhead : cs.head? = some d
    · obtain ⟨ds, rfl⟩ := List.head?_eq_some_iff.mp hhead
      obtain ⟨ds', rfl, hds⟩ := h.cons_of_not_isNameStart hold hd
      obtain ⟨hsame, habreast⟩ := ih (fun e he => hw e (List.mem_cons_of_mem _ he)) hds
      simp only [List.isPrefixOf, BEq.rfl, Bool.true_and]
      exact ⟨hsame, fun hstands => (habreast hstands).cons⟩
    · have hnone : ∀ {ds : List Char}, ds.head? ≠ some d → (d :: w).isPrefixOf ds = false := by
        intro ds hds
        cases ds with
        | nil => rfl
        | cons e ds =>
          have he : (d == e) = false := by simpa using fun heq => hds (by simp [heq])
          simp [List.isPrefixOf, he]
      rw [hnone hhead, hnone (fun hhead' => hhead ((h.head?_iff hold hnew hd).mp hhead'))]
      exact ⟨rfl, fun hstands => nomatch hstands⟩

omit hold hnew in
theorem Symbol.isNameStart_of_mem_spelling (s : Symbol) :
    ∀ d ∈ s.spelling.toList, isNameStart d = false := by
  have hall : s.spelling.toList.all (fun d => !isNameStart d) = true := by
    cases s <;> decide
  intro d hd
  simpa using List.all_eq_true.mp hall d hd

theorem Symbol.longest?_respelled (h : Respelled old new b cs cs') :
    Symbol.longest? cs' = Symbol.longest? cs ∧ ∀ s, Symbol.longest? cs = some s →
      Abreast old new s.spelling.length s.spelling.length cs cs' := by
  have hsame := fun s : Symbol =>
    isPrefixOf_respelled hold hnew s.isNameStart_of_mem_spelling h
  refine ⟨?_, fun s hs => ?_⟩
  · unfold Symbol.longest?
    congr 1
    funext s
    exact (hsame s).1
  · have hstands := List.find?_some (p := fun s : Symbol => s.spelling.toList.isPrefixOf cs) hs
    rw [← String.length_toList]
    exact (hsame s).2 hstands

end Symbols

section Lexemes

/-- A literal that is a number. -/
def Kind.isNumber : Kind → Bool
  | literal .int | literal .float | literal .imaginary => true
  | _ => false

/-- A number with an underscore right after the sign of its exponent. -/
def Overreaches (kind : Kind) (text : List Char) : Prop := kind.isNumber = true ∧ Loose text

instance (kind : Kind) (text : List Char) : Decidable (Overreaches kind text) :=
  inferInstanceAs (Decidable (_ ∧ _))

theorem Number.isNumber_of_read {form : Literal} (h : Number.read cs = some (form, n)) :
    (Kind.literal form).isNumber = true := by
  have given : ∀ {r : Literal × Nat}, (Kind.literal r.1).isNumber = true →
      some r = some (form, n) → (Kind.literal form).isNumber = true := by
    intro r hr heq
    cases heq
    exact hr
  have hdecimal : ∀ ds, (Kind.literal (readDecimal ds).1).isNumber = true := by
    intro ds
    unfold readDecimal
    simp only
    split
    · rfl
    · split <;> rfl
  have hbased : ∀ digit ds, (Kind.literal (readBased digit ds).1).isNumber = true := by
    intro digit ds
    unfold readBased
    simp only
    split <;> rfl
  have hhex : ∀ {ds}, readHex ds = some (form, n) → (Kind.literal form).isNumber = true := by
    intro ds hread
    by_cases hpoint : (ds.drop (run hexPart ds)).head? = some '.'
    · obtain ⟨rest, hrest⟩ := List.head?_eq_some_iff.mp hpoint
      rw [readHex_point hrest] at hread
      split at hread <;> cases hread
      rfl
    · rw [readHex_plain hpoint] at hread
      split at hread
      · exact given (hbased hexPart ds) hread
      · cases hread
        rfl
  unfold read at h
  split at h
  · split at h
    · exact hhex h
    · split at h
      · exact given (hbased _ _) h
      · split at h
        · exact given (hbased _ _) h
        · exact given (hdecimal _) h
  · exact given (hdecimal _) h

/-- A number starts in both texts or in none. -/
theorem Number.starts_respelled (h : Respelled old new (isBoundary c) cs cs') :
    Number.starts (c :: cs') = Number.starts (c :: cs) := by
  by_cases hc : c = '.'
  · subst hc
    have hpoint : isBoundary '.' = false := by decide
    rw [hpoint] at h
    cases h <;> rfl
  · have hdigit : ∀ ds, Number.starts (c :: ds) = c.isDigit := by
      intro ds
      simp [Number.starts, hc]
    rw [hdigit, hdigit]

/-- A word is the same in both texts: no use of a name begins inside of it. -/
theorem word_respelled (h : Respelled old new (isBoundary c) cs cs') (hc : isNameStart c = true) :
    ∃ n', readLexeme c cs' = .ok (wordKind (c :: cs.takeWhile isNamePart), n') ∧
      Abreast old new ((cs.takeWhile isNamePart).length + 1) (n' + 1) (c :: cs) (c :: cs') := by
  rw [isBoundary_eq_false_of_isNamePart (isNamePart_of_isNameStart hc)] at h
  obtain ⟨hword, hagree⟩ := takeWhile_respelled solid_isNamePart h
  have hread : ReadAs c cs' _ := .word hc
  rw [hword] at hread
  exact ⟨_, hread.eq, .of_agree hagree.cons⟩

variable (hold : IsName old) (hnew : IsName new)
include hold hnew

/-- A number is read as the same number in both texts. -/
theorem readNumber_respelled {form : Literal} (h : Respelled old new false (c :: cs) (c :: cs'))
    (hread : Number.read (c :: cs) = some (form, n))
    (htight : old.head? = some '_' → ¬ Loose (c :: cs.take (n - 1)))
    (htight' : new.head? = some '_' → ∀ form' n', Number.read (c :: cs') = some (form', n') →
      ¬ Loose (c :: cs'.take (n' - 1))) :
    Number.read (c :: cs') = some (form, n) ∧
      Abreast old new (n - 1 + 1) (n - 1 + 1) (c :: cs) (c :: cs') := by
  have whole : ∀ {ds : List Char} {k : Nat}, Loose ((c :: ds).take k) →
      Loose (c :: ds.take (k - 1)) := by
    intro ds k hloose
    obtain ⟨k, rfl⟩ := Nat.exists_eq_succ_of_ne_zero hloose.ne_zero
    exact hloose
  obtain ⟨heq, hagree⟩ | ⟨hu, form', n', heq, hloose⟩ | ⟨hu, form', n', heq, hloose⟩ :=
    Number.read_respelled hold hnew h
  · refine ⟨heq.trans hread, ?_⟩
    have hagree := hagree form n hread
    cases n with
    | zero =>
      obtain ⟨ds, hds, hrest⟩ := h.false_cons
      obtain rfl := (List.cons.inj hds).2
      exact .cons (.zero hrest)
    | succ n => exact .of_agree hagree
  · obtain ⟨rfl, rfl⟩ := Prod.mk.inj (Option.some.inj (hread.symm.trans heq))
    exact absurd (whole hloose) (htight hu)
  · exact absurd (whole hloose) (htight' hu form' n' heq)

/-- A number, unless it has drawn in a name. -/
theorem number_respelled {form : Literal} (h : Respelled old new (isBoundary c) cs cs')
    (hstarts : Number.starts (c :: cs) = true) (hread : Number.read (c :: cs) = some (form, n))
    (htight : old.head? = some '_' → ¬ Overreaches (.literal form) (c :: cs.take (n - 1)))
    (htight' : new.head? = some '_' → ∀ kind' n', readLexeme c cs' = .ok (kind', n') →
      ¬ Overreaches kind' (c :: cs'.take n')) :
    ∃ n', readLexeme c cs' = .ok (.literal form, n') ∧
      Abreast old new (n - 1 + 1) (n' + 1) (c :: cs) (c :: cs') := by
  have hstarts' : Number.starts (c :: cs') = true := (Number.starts_respelled h).trans hstarts
  have hform := Number.isNumber_of_read hread
  obtain ⟨hread', habreast⟩ := readNumber_respelled hold hnew (.char h) hread
    (fun hu hloose => htight hu ⟨hform, hloose⟩)
    (fun hu form' m' hm' hloose => htight' hu _ _ (ReadAs.number hstarts' hm').eq
      ⟨Number.isNumber_of_read hm', hloose⟩)
  exact ⟨n - 1, (ReadAs.number hstarts' hread').eq, habreast⟩

/-- A carriage return takes in the line feed that follows it in both texts or in none. -/
theorem carriageReturn_respelled (h : Respelled old new b cs cs') (hc : c = '\r') :
    ∃ n', readLexeme c cs' = .ok (.newline, n') ∧
      Abreast old new ((if cs.head? = some '\n' then 1 else 0) + 1) (n' + 1)
        (c :: cs) (c :: cs') := by
  have hfeed := h.head?_iff hold hnew (c := '\n') (by decide)
  refine ⟨_, (ReadAs.carriageReturn hc).eq, ?_⟩
  simp only [hfeed]
  split
  · rename_i hhead
    obtain ⟨ds, rfl⟩ := List.head?_eq_some_iff.mp hhead
    obtain ⟨ds', rfl, hds⟩ := h.cons_of_not_isNameStart hold (by decide)
    exact .cons (.cons (.zero hds))
  · exact .cons (.zero h)

/-- A line comment goes on over names. -/
theorem lineComment_respelled (h : Respelled old new b cs cs')
    (hc : c = '/' ∧ cs.head? = some '/') :
    ∃ n', readLexeme c cs' = .ok (.lineComment, n') ∧
      Abreast old new ((cs.takeWhile fun d => !isLineBreak d).length + 1) (n' + 1)
        (c :: cs) (c :: cs') := by
  have hslash := (h.head?_iff hold hnew (by decide)).mpr hc.2
  have habreast := takeWhile_abreast hold hnew (p := fun d => !isLineBreak d)
    (fun d hd => by simp [isLineBreak_eq_false_of_isNamePart hd]) h
  exact ⟨_, (ReadAs.lineComment ⟨hc.1, hslash⟩).eq, habreast.cons⟩

/-- A block comment is closed by the same mark. -/
theorem blockComment_respelled (h : Respelled old new b cs cs')
    (hc : c = '/' ∧ cs.head? = some '*') (hclose : closeComment? cs.tail = some n) :
    ∃ n', readLexeme c cs' = .ok (.blockComment, n') ∧
      Abreast old new (n + 1 + 1) (n' + 1) (c :: cs) (c :: cs') := by
  obtain ⟨ds, rfl⟩ := List.head?_eq_some_iff.mp hc.2
  obtain ⟨ds', rfl, hds⟩ := h.cons_of_not_isNameStart hold (by decide)
  obtain ⟨m, hm, habreast⟩ := closeComment?_respelled hold hnew hds hclose
  have hread : ReadAs c ('*' :: ds') _ := .blockComment ⟨hc.1, rfl⟩ hm
  exact ⟨m + 1, hread.eq, habreast.cons.cons⟩

/-- A rune is closed by the same quote, and so not empty in the other text either. -/
theorem rune_respelled (h : Respelled old new b cs cs') (hc : c = '\'')
    (hclose : closeQuote? c cs = some (n + 2)) :
    ∃ n', readLexeme c cs' = .ok (.literal .rune, n') ∧
      Abreast old new (n + 2 + 1) (n' + 1) (c :: cs) (c :: cs') := by
  have hslash : c ≠ '\\' := by
    rw [hc]
    decide
  obtain ⟨m, hm, habreast⟩ := closeQuote?_respelled hold hnew (by rw [hc]; decide) hslash h hclose
  have hhead : cs'.head? = some c ↔ cs.head? = some c :=
    h.head?_iff hold hnew (by rw [hc]; decide)
  have hfull : 2 ≤ m := by
    rw [two_le_closeQuote?_iff hslash hm, ne_eq, hhead, ← ne_eq,
      ← two_le_closeQuote?_iff hslash hclose]
    omega
  obtain ⟨k, rfl⟩ := Nat.exists_eq_add_of_le' hfull
  exact ⟨k + 2, (ReadAs.rune hc hm).eq, habreast.cons⟩

theorem string_respelled (h : Respelled old new b cs cs') (hc : c = '"')
    (hclose : closeQuote? c cs = some n) :
    ∃ n', readLexeme c cs' = .ok (.literal .string, n') ∧
      Abreast old new (n + 1) (n' + 1) (c :: cs) (c :: cs') := by
  obtain ⟨m, hm, habreast⟩ := closeQuote?_respelled hold hnew (by rw [hc]; decide)
    (by rw [hc]; decide) h hclose
  exact ⟨m, (ReadAs.string hc hm).eq, habreast.cons⟩

theorem rawString_respelled (h : Respelled old new b cs cs') (hc : c = '\x60')
    (hclose : closeRaw? cs = some n) :
    ∃ n', readLexeme c cs' = .ok (.rawString, n') ∧
      Abreast old new (n + 1) (n' + 1) (c :: cs) (c :: cs') := by
  obtain ⟨m, hm, habreast⟩ := closeRaw?_respelled hold hnew h hclose
  exact ⟨m, (ReadAs.rawString hc hm).eq, habreast.cons⟩

theorem symbol_respelled {mark : Symbol} (h : Respelled old new (isBoundary c) cs cs')
    (hsign : IsSign c cs) (hmark : Symbol.longest? (c :: cs) = some mark) :
    ∃ n', readLexeme c cs' = .ok (.symbol mark, n') ∧
      Abreast old new (mark.spelling.length - 1 + 1) (n' + 1) (c :: cs) (c :: cs') := by
  obtain ⟨hmark', habreast⟩ := Symbol.longest?_respelled hold hnew (.char (b := false) h)
  have hsign' : IsSign c cs' := hsign.congr (h.head?_iff hold hnew (by decide))
    (h.head?_iff hold hnew (by decide)) (Number.starts_respelled h)
  have hlength : mark.spelling.length - 1 + 1 = mark.spelling.length := by cases mark <;> rfl
  refine ⟨_, (ReadAs.symbol hsign' (hmark'.trans hmark)).eq, ?_⟩
  rw [hlength]
  exact habreast mark hmark

/-- Where a lexeme starts with the same character in both texts, it is of the same kind, and
the texts go on alike after it. -/
theorem readLexeme_respelled {kind : Kind} (h : Respelled old new (isBoundary c) cs cs')
    (hread : readLexeme c cs = .ok (kind, n))
    (htight : old.head? = some '_' → ¬ Overreaches kind (c :: cs.take n))
    (htight' : new.head? = some '_' → ∀ kind' n', readLexeme c cs' = .ok (kind', n') →
      ¬ Overreaches kind' (c :: cs'.take n')) :
    ∃ n', readLexeme c cs' = .ok (kind, n') ∧
      Abreast old new (n + 1) (n' + 1) (c :: cs) (c :: cs') := by
  have hbare : Abreast old new 1 1 (c :: cs) (c :: cs') := .cons (.zero h)
  cases readLexeme_eq_iff.mp hread with
  | lineFeed hc => exact ⟨0, (ReadAs.lineFeed hc).eq, hbare⟩
  | carriageReturn hc => exact carriageReturn_respelled hold hnew h hc
  | lineComment hc => exact lineComment_respelled hold hnew h hc
  | blockComment hc hclose => exact blockComment_respelled hold hnew h hc hclose
  | word hc => exact word_respelled h hc
  | number hstarts hnumber =>
    exact number_respelled hold hnew h hstarts hnumber htight htight'
  | rune hc hclose => exact rune_respelled hold hnew h hc hclose
  | string hc hclose => exact string_respelled hold hnew h hc hclose
  | rawString hc hclose => exact rawString_respelled hold hnew h hc hclose
  | opening hc => exact ⟨0, (ReadAs.opening hc).eq, hbare⟩
  | closing hc => exact ⟨0, (ReadAs.closing hc).eq, hbare⟩
  | symbol hsign hmark => exact symbol_respelled hold hnew h hsign hmark

variable (hkeyword : Keyword.ofSpelling? old = none) (hkeyword' : Keyword.ofSpelling? new = none)
include hkeyword hkeyword'

/-- Where a lexeme starts in the first text, one of the same kind starts in the second. -/
theorem exists_readLexeme_respelled {kind : Kind} (h : Respelled old new b (c :: cs) cs')
    (hs : isSkipped c = false) (hread : readLexeme c cs = .ok (kind, n))
    (htight : old.head? = some '_' → ¬ Overreaches kind (c :: cs.take n))
    (htight' : new.head? = some '_' → ∀ c' ds kind' n', cs' = c' :: ds → isSkipped c' = false →
      readLexeme c' ds = .ok (kind', n') → ¬ Overreaches kind' (c' :: ds.take n')) :
    ∃ c' ds n', cs' = c' :: ds ∧ isSkipped c' = false ∧ readLexeme c' ds = .ok (kind, n') ∧
      Abreast old new (n + 1) (n' + 1) (c :: cs) (c' :: ds) := by
  cases h with
  | @char _ _ _ ds h =>
    obtain ⟨n', hread', habreast⟩ := readLexeme_respelled hold hnew h hread htight
      fun hu kind' n' => htight' hu c ds kind' n' rfl hs
    exact ⟨c, ds, n', rfl, hs, hread', habreast⟩
  | @use _ _ rest rest' hcs hcs' hend h =>
    cases old with
    | nil => exact hold.elim
    | cons d w =>
      cases new with
      | nil => exact hnew.elim
      | cons d' w' =>
        obtain ⟨rfl, rfl⟩ := List.cons.inj hcs
        have hend' : Apart rest' := by
          intro e he
          exact hend e (h.head?_eq ▸ he)
        have hname := readLexeme_word hold hend
        have hname' := readLexeme_word hnew hend'
        rw [wordKind, hkeyword] at hname
        rw [wordKind, hkeyword'] at hname'
        cases hread.symm.trans hname
        have hs' := isSkipped_eq_false_of_isNameStart hnew.1
        have habreast := (Abreast.zero h).names hold hnew
        exact ⟨d', w' ++ rest', w'.length, hcs', hs', hname', by simpa using habreast⟩

end Lexemes

section Texts

/-- What the insertion of semicolons looks at in a lexeme. -/
def Lexeme.shape (l : Lexeme) : Kind × Bool := (l.kind, l.text.toList.any isLineBreak)

/-- What a grammar looks at in a token. -/
def Token.mark (t : Token) : Kind × Bool := (t.kind, t.isInserted)

theorem Token.kinds_of_marks {ts ts' : List Token} (h : ts'.map Token.mark = ts.map Token.mark) :
    ts'.map Token.kind = ts.map Token.kind := by
  simpa [Token.mark, Function.comp_def] using congrArg (List.map Prod.fst) h

/-- No number of the text draws in a name that is put right after the sign of its exponent;
only an underscore could. -/
def Tight (name : List Char) (src : String) : Prop :=
  name.head? = some '_' → ∀ l ∈ (lex src).items, ¬ Overreaches l.kind l.text.toList

instance (name : List Char) (src : String) : Decidable (Tight name src) :=
  inferInstanceAs (Decidable (_ → _))

theorem insertSemicolons_shape {ls ls' : List Lexeme}
    (h : ls'.map Lexeme.shape = ls.map Lexeme.shape) (finish finish' : Nat) (pending : Bool) :
    (insertSemicolons (some finish') pending ls').map Token.mark =
      (insertSemicolons (some finish) pending ls).map Token.mark := by
  induction ls generalizing ls' pending with
  | nil =>
    obtain rfl := List.map_eq_nil_iff.mp h
    cases pending <;> rfl
  | cons l ls ih =>
    obtain ⟨l', ls', rfl, hl, hls⟩ := List.map_eq_cons_iff.mp h
    obtain ⟨hkind, hbreak⟩ := Prod.mk.inj hl
    rw [← Lexeme.isSome_lineBreak?, ← Lexeme.isSome_lineBreak?] at hbreak
    cases hk : l.kind.isTrivia with
    | false =>
      rw [insertSemicolons_token hk, insertSemicolons_token (by rw [hkind, hk]), hkind]
      exact congrArg₂ List.cons (congrArg (·, false) hkind) (ih hls l.kind.endsStatement)
    | true =>
      have hmarks : ∀ place? : Option Nat, (place?.toList.map Token.inserted).map Token.mark =
          if place?.isSome then [(.semicolon, true)] else [] := by
        intro place?
        cases place? <;> rfl
      have hnone : l'.lineBreak?.isNone = l.lineBreak?.isNone := by
        rw [← Option.not_isSome, ← Option.not_isSome, hbreak]
      rw [insertSemicolons_trivia hk, insertSemicolons_trivia (by rw [hkind, hk]), List.map_append,
        List.map_append, hmarks, hmarks, hnone, ih hls]
      cases pending with
      | false => rfl
      | true => simp only [if_true, hbreak]

variable (hold : IsName old) (hnew : IsName new)
  (hkeyword : Keyword.ofSpelling? old = none) (hkeyword' : Keyword.ofSpelling? new = none)
include hold hnew hkeyword hkeyword'

/-- A text that can be read is read alike with the other name. -/
theorem lexFrom_respelled {offset offset' : Nat} (h : Respelled old new b cs cs')
    (hstopped : (lexFrom offset cs).stopped = none)
    (htight : old.head? = some '_' →
      ∀ l ∈ (lexFrom offset cs).items, ¬ Overreaches l.kind l.text.toList)
    (htight' : new.head? = some '_' →
      ∀ l ∈ (lexFrom offset' cs').items, ¬ Overreaches l.kind l.text.toList) :
    (lexFrom offset' cs').stopped = none ∧
      (lexFrom offset' cs').items.map Lexeme.shape =
        (lexFrom offset cs).items.map Lexeme.shape := by
  fun_induction lexFrom offset cs generalizing b cs' offset' with
  | case1 offset =>
    obtain rfl := h.nil_left hold
    simp [lexFrom]
  | case2 offset c cs hs ih =>
    have hc : isNameStart c = false := by
      by_contra hstart
      rw [isSkipped_eq_false_of_isNameStart (Bool.of_not_eq_false hstart)] at hs
      cases hs
    obtain ⟨ds, rfl, hds⟩ := h.cons_of_not_isNameStart hold hc
    rw [lexFrom, if_pos hs] at htight' ⊢
    exact ih hds hstopped htight htight'
  | case3 offset c cs hs problem hread => cases hstopped
  | case4 offset c cs hs kind n hread text =>
    rename_i ih
    have hs : isSkipped c = false := by simpa using hs
    have first : ∀ {c : Char} {cs : List Char} {kind : Kind} {offset n : Nat},
        isSkipped c = false → readLexeme c cs = .ok (kind, n) →
        (∀ l ∈ (lexFrom offset (c :: cs)).items, ¬ Overreaches l.kind l.text.toList) →
        ¬ Overreaches kind (c :: cs.take n) := by
      intro c cs kind offset n hs hread hall
      rw [lexFrom_lexeme hs hread] at hall
      simpa using hall _ List.mem_cons_self
    obtain ⟨c', ds, n', rfl, hs', hread', habreast⟩ :=
      exists_readLexeme_respelled hold hnew hkeyword hkeyword' h hs hread
        (fun hu => by simpa [text] using htight hu _ List.mem_cons_self)
        (fun hu c' ds kind' n' heq hs' hread' => first hs' hread' (heq ▸ htight' hu))
    obtain ⟨⟨b, hrest⟩, hbreaks⟩ := habreast
    rw [lexFrom_lexeme hs' hread'] at htight' ⊢
    obtain ⟨hnone, hshape⟩ := ih hrest hstopped
      (fun hu l hl => htight hu l (List.mem_cons_of_mem _ hl))
      (fun hu l hl => htight' hu l (List.mem_cons_of_mem _ hl))
    refine ⟨hnone, congrArg₂ List.cons ?_ hshape⟩
    simpa [Lexeme.shape, text] using hbreaks

/-- A text that can be read keeps the marks of its tokens. -/
theorem tokenize_respelled {src src' : String} {ts : List Token}
    (h : Respelled old new true src.toList src'.toList) (htokens : tokenize src = .ok ts)
    (htight : Tight old src) (htight' : Tight new src') :
    ∃ ts', tokenize src' = .ok ts' ∧ ts'.map Token.mark = ts.map Token.mark := by
  cases hstopped : (lex src).stopped with
  | some d => simp [tokenize, scan, hstopped, Reading.toExcept] at htokens
  | none =>
    obtain ⟨hstopped', hshape⟩ :=
      lexFrom_respelled hold hnew hkeyword hkeyword' h hstopped htight htight'
    have hscan : ∀ {s : String}, (lex s).stopped = none →
        tokenize s = .ok (insertSemicolons (some s.utf8ByteSize) false (lex s).items) := by
      intro s hs
      simp [tokenize, scan, hs, Reading.toExcept]
    rw [hscan hstopped] at htokens
    cases htokens
    exact ⟨_, hscan hstopped', insertSemicolons_shape hshape _ _ false⟩

end Texts

end GoSource
