import GoSource.Text.Quoted
import Mathlib.Data.List.Basic
import Mathlib.Tactic.Common

/-!
# Undoing quotes

A literal is undone by taking its quotes away and decoding what follows a backslash. Import
paths and struct tags have one decoder each; both come back as they were. Literals that
were not written from a path or a tag are not looked at.
-/

namespace GoSource.Text

/-- The characters with the escapes among them undone, if `decode` knows them all. -/
def unescape (decode : Char → Option Char) : List Char → Option (List Char)
  | [] => some []
  | '\\' :: c :: cs => (decode c).bind fun d => (unescape decode cs).map (d :: ·)
  | c :: cs => if c = '\\' then none else (unescape decode cs).map (c :: ·)

/-- The text that a literal stands for: what is between its quotes, escapes undone. -/
def unquote (decode : Char → Option Char) (literal : String) : Option String :=
  (unescape decode literal.toList.tail.dropLast).map String.ofList

def decodePath (c : Char) : Option Char := if c = '"' ∨ c = '\\' then some c else none

def decodeTag (c : Char) : Option Char :=
  if c = '"' ∨ c = '\\' then some c
  else if c = 'n' then some '\n'
  else if c = 'r' then some '\r'
  else if c = 't' then some '\t'
  else none

/-- Characters other than the quote and the backslash may stand for themselves; what an escape
puts behind a backslash stands for what `decode` says. -/
def Undoes (decode : Char → Option Char) (escape : Char → List Char) : Prop :=
  ∀ c, (escape c = [c] ∧ c ≠ '"' ∧ c ≠ '\\') ∨ ∃ d, escape c = ['\\', d] ∧ decode d = some c

theorem undoes_path : Undoes decodePath escapePath := by
  intro c
  by_cases hc : c = '"' ∨ c = '\\'
  · exact .inr ⟨c, by simp [escapePath, hc], by simp [decodePath, hc]⟩
  · exact .inl ⟨by simp [escapePath, hc], not_or.mp hc⟩

theorem undoes_tag : Undoes decodeTag escapeTag := by
  intro c
  unfold escapeTag
  split
  · rename_i hc
    exact .inr ⟨c, rfl, if_pos hc⟩
  · rename_i hc
    split
    · rename_i hfeed
      exact .inr ⟨'n', rfl, by rw [hfeed]; rfl⟩
    · split
      · rename_i hreturn
        exact .inr ⟨'r', rfl, by rw [hreturn]; rfl⟩
      · split
        · rename_i htab
          exact .inr ⟨'t', rfl, by rw [htab]; rfl⟩
        · exact .inl ⟨rfl, not_or.mp hc⟩

section Undone

variable {decode : Char → Option Char} {escape : Char → List Char}

theorem unescape_flatMap (h : Undoes decode escape) (cs : List Char) :
    unescape decode (cs.flatMap escape) = some cs := by
  induction cs with
  | nil => rfl
  | cons c cs ih =>
    rw [List.flatMap_cons]
    rcases h c with ⟨hc, -, hslash⟩ | ⟨d, hd, hdecode⟩
    · simp [hc, unescape, hslash, ih]
    · simp [hd, unescape, hdecode, ih]

theorem unquote_quoteWith (h : Undoes decode escape) (s : String) :
    unquote decode (quoteWith escape s) = some s := by
  rw [unquote, quoteWith, String.toList_ofList, List.cons_append, List.tail_cons,
    List.dropLast_concat, unescape_flatMap h, Option.map_some, String.ofList_toList]

/-- No two texts have one literal. -/
theorem quoteWith_injective (h : Undoes decode escape) : Function.Injective (quoteWith escape) := by
  intro s t hst
  have hunquote := unquote_quoteWith h t
  rw [← hst, unquote_quoteWith h s] at hunquote
  exact Option.some.inj hunquote

/-- Escaped characters are told from what follows them by the quote that ends the literal. -/
theorem Undoes.flatMap_inj (h : Undoes decode escape) {a b rest rest' : List Char}
    (heq : a.flatMap escape ++ '"' :: rest = b.flatMap escape ++ '"' :: rest') :
    a = b ∧ rest = rest' := by
  induction a generalizing b with
  | nil =>
    cases b with
    | nil => simpa using heq
    | cons d b =>
      obtain ⟨hd, hquote, -⟩ | ⟨e, hd, -⟩ := h d
      · simp [hd, Ne.symm hquote] at heq
      · simp [hd] at heq
  | cons c a ih =>
    cases b with
    | nil =>
      obtain ⟨hc, hquote, -⟩ | ⟨e, hc, -⟩ := h c
      · simp [hc, hquote] at heq
      · simp [hc] at heq
    | cons d b =>
      obtain ⟨hc, -, hc'⟩ | ⟨e, hc, hce⟩ := h c <;>
        obtain ⟨hd, -, hd'⟩ | ⟨e', hd, hde⟩ := h d <;>
          simp only [List.flatMap_cons, hc, hd, List.cons_append, List.nil_append,
            List.cons.injEq] at heq
      · obtain ⟨rfl, heq⟩ := heq
        obtain ⟨rfl, hrest⟩ := ih heq
        exact ⟨rfl, hrest⟩
      · exact absurd heq.1 hc'
      · exact absurd heq.1.symm hd'
      · obtain ⟨-, rfl, heq⟩ := heq
        obtain ⟨rfl, hrest⟩ := ih heq
        obtain rfl : c = d := Option.some.inj (hce.symm.trans hde)
        exact ⟨rfl, hrest⟩

end Undone

end GoSource.Text
