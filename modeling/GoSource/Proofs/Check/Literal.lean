import GoSource.Model.Decl
import GoSource.Proofs.Check.Phase
import GoSource.Proofs.Token.Padding
import GoSource.Proofs.Token.Standing

/-!
# Texts that are one literal

A text is classified by the one token that is written in it. Such a text can stand as an
expression, and padding it with blanks and line breaks does not change its class, so it does
not change the type that it gives to a declaration either.
-/

namespace GoSource

section Classification

variable {src : String} {ts : List Token} {t : Token}

theorem filter_written (ts : List Token) :
    ts.filter (!·.isInserted) = (ts.filterMap Token.lexeme?).map .written := by
  induction ts with
  | nil => rfl
  | cons t ts ih =>
    cases t with
    | written l =>
      rw [List.filter_cons_of_pos rfl, ih]
      rfl
    | inserted place =>
      rw [List.filter_cons_of_neg Bool.false_ne_true, ih]
      rfl

/-- What is written in a text, as tokens and as lexemes. -/
theorem written?_lex (src : String) :
    (lex src).written? =
      (tokenize src).toOption.map fun ts => (ts.filter (!·.isInserted)).map Token.kind := by
  cases h : tokenize src with
  | error d =>
    rw [Reading.written?, tokenize_eq_error h]
    rfl
  | ok ts =>
    obtain ⟨rfl, hstopped⟩ := tokenize_eq_ok h
    simp only [Reading.written?, hstopped, Except.toOption, Option.map_some, filter_written,
      filterMap_insertSemicolons, List.filter_map, List.map_map]
    rfl

/-- The class of a text whose written tokens have the given kinds. -/
def Literal.ofKinds? : List Kind → Option Literal
  | [kind] => kind.literal?
  | _ => none

theorem Literal.ofText?_eq (src : String) :
    Literal.ofText? src = (lex src).written?.bind Literal.ofKinds? := by
  rw [written?_lex, Literal.ofText?]
  cases tokenize src with
  | error d => rfl
  | ok ts =>
    simp only [Except.toOption, Option.map_some, Option.bind_some]
    generalize ts.filter (!·.isInserted) = written
    cases written with
    | nil => rfl
    | cons t rest => cases rest <;> rfl

theorem Kind.literal?_eq_some_iff {kind : Kind} {form : Literal} :
    kind.literal? = some form ↔
      kind = .literal form ∨ kind = .rawString ∧ form = .string := by
  cases kind <;> simp [Kind.literal?, eq_comm]

theorem Literal.ofText?_eq_some_iff {form : Literal} :
    Literal.ofText? src = some form ↔
      ∃ ts t, tokenize src = .ok ts ∧ ts.filter (!·.isInserted) = [t] ∧
        t.kind.literal? = some form := by
  rw [Literal.ofText?]
  cases tokenize src with
  | error d => simp
  | ok ts =>
    simp only [Except.ok.injEq, exists_eq_left', exists_and_left]
    generalize ts.filter (!·.isInserted) = written
    cases written with
    | nil => simp
    | cons t rest => cases rest <;> simp

/-- If one token is written in a text, only a semicolon behind it may be inserted. -/
theorem tokenize_single (h : tokenize src = .ok ts) (hone : ts.filter (!·.isInserted) = [t]) :
    ∃ l place, t = .written l ∧
      ts = .written l :: if l.kind.endsStatement then [.inserted place] else [] := by
  have hne : ts ≠ [] := by
    rintro rfl
    cases hone
  obtain ⟨before, l, place, hts⟩ := exists_last_token h hne
  have hfirst : ts.takeWhile Token.isInserted = [] := by
    rw [(tokenize_eq_ok h).1, takeWhile_insertSemicolons]
    rfl
  have hlast := Expression.getLast?_written hts
  rw [hone] at hlast
  cases before with
  | nil => exact ⟨l, place, Option.some.inj hlast, hts⟩
  | cons b before =>
    -- Nothing is inserted before the first written token, so two would be written.
    have hb : b.isInserted = false := by
      rw [hts] at hfirst
      simpa [List.takeWhile_cons] using hfirst
    rw [hts, List.cons_append, List.filter_cons_of_pos (by simp [hb])] at hone
    have hnone := (List.cons.inj hone).2
    simp [Token.isInserted] at hnone

end Classification

theorem Expression.checkTokens_literal {l : Lexeme} {form : Literal}
    (h : l.kind.literal? = some form) (size : Nat) :
    Expression.checkTokens size [.written l] = .ok () := by
  obtain ⟨kind, start, text⟩ := l
  rcases Kind.literal?_eq_some_iff.mp h with rfl | ⟨rfl, -⟩ <;> rfl

/-- A text that is one literal can stand as an expression. -/
theorem Expression.check_literal {src : String} {form : Literal}
    (h : Literal.ofText? src = some form) : Expression.check src = .ok () := by
  obtain ⟨ts, t, htokens, hone, hform⟩ := Literal.ofText?_eq_some_iff.mp h
  obtain ⟨l, place, rfl, hts⟩ := tokenize_single htokens hone
  rw [Expression.check, htokens]
  show Expression.checkTokens src.utf8ByteSize (Expression.dropInserted ts) = .ok ()
  rw [Expression.dropInserted_last (show ts = [] ++ _ from hts)]
  exact Expression.checkTokens_literal hform _

section Padded

variable {first last : String} (hfirst : ∀ c ∈ first.toList, isSeparator c = true)
  (hlast : ∀ c ∈ last.toList, isSeparator c = true)

include hfirst hlast

theorem Literal.ofText?_padded (src : String) :
    Literal.ofText? (first ++ src ++ last) = Literal.ofText? src := by
  rw [Literal.ofText?_eq, Literal.ofText?_eq, written?_padded hfirst hlast]

theorem inferredType?_padded (value : String) :
    inferredType? (first ++ value ++ last) = inferredType? value := by
  rw [inferredType?, inferredType?, Literal.ofText?_padded hfirst hlast]

end Padded

/-- A text has a class if and only if it can be read and one literal is all that is written in
it; raw strings count as strings. It can then stand as an expression. Blanks and line breaks
around a text change neither its class nor the type that it gives to a constant or variable. -/
theorem Literal.ofText?_classifies (value : String) :
    (∀ form, Literal.ofText? value = some form ↔
      ∃ ts t, tokenize value = .ok ts ∧ ts.filter (!·.isInserted) = [t] ∧
        (t.kind = .literal form ∨ t.kind = .rawString ∧ form = .string)) ∧
    (∀ form, Literal.ofText? value = some form → Expression.check value = .ok ()) ∧
    ∀ first last : String, (∀ c ∈ first.toList, isSeparator c = true) →
      (∀ c ∈ last.toList, isSeparator c = true) →
      Literal.ofText? (first ++ value ++ last) = Literal.ofText? value ∧
      (∀ c : Const, c.value = value →
        Const.defaultType? { c with value := first ++ value ++ last } = c.defaultType?) ∧
      ∀ v : Var, v.value = value →
        Var.defaultType? { v with value := first ++ value ++ last } = v.defaultType? := by
  refine ⟨fun form => ?_, fun form h => Expression.check_literal h,
    fun first last hfirst hlast => ⟨?_, ?_, ?_⟩⟩
  · simp only [Literal.ofText?_eq_some_iff, Kind.literal?_eq_some_iff]
  · exact Literal.ofText?_padded hfirst hlast value
  · rintro c rfl
    rw [Const.defaultType?, Const.defaultType?, inferredType?_padded hfirst hlast]
  · rintro v rfl
    rw [Var.defaultType?, Var.defaultType?, inferredType?_padded hfirst hlast]

/-- The blank behind the value becomes part of its comment, and the semicolon that was inserted
at the end of the text is inserted at the line end. A string that is open stays so. -/
theorem Literal.ofText?_classifies_commented :
    (∀ c ∈ "\r\n\t".toList, isSeparator c = true) ∧ (∀ c ∈ " \n ".toList, isSeparator c = true) ∧
    Expression.check "0x1.8p1 // é" = .ok () ∧
    Literal.ofText? ("\r\n\t" ++ "0x1.8p1 // é" ++ " \n ") = some .float ∧
    Literal.ofText? ("\r\n\t" ++ "\"open" ++ " \n ") = none := by
  have hfirst : ∀ c ∈ "\r\n\t".toList, isSeparator c = true :=
    List.all_iff_forall_prop.mp (by decide)
  have hlast : ∀ c ∈ " \n ".toList, isSeparator c = true :=
    List.all_iff_forall_prop.mp (by decide)
  have hfloat : Literal.ofText? "0x1.8p1 // é" = some .float := by decide +kernel
  have hopen : Literal.ofText? "\"open" = none := by decide +kernel
  refine ⟨hfirst, hlast, (Literal.ofText?_classifies _).2.1 _ hfloat, ?_, ?_⟩
  · rw [((Literal.ofText?_classifies _).2.2 _ _ hfirst hlast).1, hfloat]
  · rw [((Literal.ofText?_classifies _).2.2 _ _ hfirst hlast).1, hopen]

end GoSource
