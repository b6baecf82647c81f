import GoSource.Proofs.Check.Reading
import GoSource.Proofs.Token.Coverage

/-!
# The forms of lexemes

What the kind of a lexeme says about its text, what a problem says about the place where none
fits, and what a text of one lexeme is. The test for identifiers and the reading of words are
two definitions, and they agree on every text once keywords are counted as words.
-/

namespace GoSource

open Text (byteSize)

/-- The kinds of words. -/
def Kind.isWord : Kind → Bool
  | keyword _ | ident => true
  | _ => false

theorem isWord_wordKind (w : List Char) : (wordKind w).isWord = true := by
  unfold wordKind
  split <;> rfl

section Reading

variable {c : Char} {cs : List Char} {kind : Kind} {n : Nat}

/-- A delimiter is the one character that it is written as. -/
theorem delimiter_of_readLexeme (h : readLexeme c cs = .ok (kind, n)) {pair : Delimiter} :
    (kind = .opening pair → c = pair.opener ∧ n = 0) ∧
      (kind = .closing pair → c = pair.closer ∧ n = 0) := by
  cases readLexeme_eq_iff.mp h with
  | word _ =>
    have hword := isWord_wordKind (c :: cs.takeWhile isNamePart)
    constructor <;> intro hkind <;> rw [hkind] at hword <;> cases hword
  | opening hc =>
    constructor <;> intro hkind <;> cases hkind
    exact ⟨hc, rfl⟩
  | closing hc =>
    constructor <;> intro hkind <;> cases hkind
    exact ⟨hc, rfl⟩
  | lineFeed _ | carriageReturn _ | lineComment _ | blockComment _ _ | number _ _ | rune _ _
  | string _ _ | rawString _ _ | symbol _ _ =>
    constructor <;> intro hkind <;> cases hkind

/-- Where no lexeme fits, the text opens a comment, opens a string, or has no name. -/
theorem problem_of_readLexeme {problem : Problem} (h : readLexeme c cs = .error problem) :
    (problem = .unterminatedComment ∧ c = '/' ∧ cs.head? = some '*') ∨
    (problem = .unterminatedString ∧ (c = '"' ∨ c = '\x60')) ∨
    problem = .invalidToken := by
  cases readLexeme_eq_iff.mp h with
  | openComment hc _ => exact .inl ⟨rfl, hc⟩
  | openString hc _ => exact .inr (.inl ⟨rfl, .inl hc⟩)
  | openRawString hc _ => exact .inr (.inl ⟨rfl, .inr hc⟩)
  | noNumber _ _ | noRune _ _ | noSymbol _ _ => exact .inr (.inr rfl)

end Reading

section Alone

variable {s : String} {l : Lexeme}

/-- A lexeme that spans its source is read at the first character and takes all of it. -/
theorem exists_readLexeme_of_spans (hl : l ∈ (lex s).items) (hstart : l.start = 0)
    (hstop : l.stop = s.utf8ByteSize) :
    l.text = s ∧ ∃ c cs, s.toList = c :: cs ∧ isSkipped c = false ∧
      readLexeme c cs = .ok (l.kind, cs.length) := by
  obtain ⟨before, c, cs, n, hsrc, hskipped, hbefore, hread, htext⟩ := exists_readLexeme_at hl
  -- Nothing stands before the lexeme, and nothing after it.
  have hnone : before = [] := by
    by_contra hne
    have hpos := Text.byteSize_pos hne
    omega
  rw [hnone, List.nil_append] at hsrc
  rw [Lexeme.stop, hstart, Nat.zero_add, ← byteSize_toList, ← byteSize_toList, htext] at hstop
  have hsplit : (c :: cs.take n) ++ cs.drop n = s.toList ++ [] := by
    rw [cons_take_append_drop, hsrc, List.append_nil]
  obtain ⟨htake, hdrop⟩ := Text.append_inj_of_byteSize hsplit hstop
  have hn : n = cs.length := by
    have hle := readLexeme_le hread
    have hge := List.drop_eq_nil_iff.mp hdrop
    omega
  rw [htake] at htext
  exact ⟨String.toList_injective htext, c, cs, hsrc, hskipped, hn ▸ hread⟩

/-- A name is one lexeme, and its kind is that of a word. -/
theorem lex_identifier (h : isIdentifier s = true) :
    lex s = ⟨[⟨wordKind s.toList, 0, s⟩], none⟩ := by
  have hname := isName_iff.mp h
  cases hs : s.toList with
  | nil =>
    rw [hs] at hname
    cases hname
  | cons c cs =>
    rw [hs] at hname
    have hend : Apart [] := nofun
    have hread := readLexeme_word hname hend
    rw [List.append_nil] at hread
    rw [lex, hs, lexFrom_lexeme (isSkipped_eq_false_of_isNameStart hname.1) hread,
      List.take_length, List.drop_length, ← hs, String.ofList_toList, lexFrom]
    rfl

/-- A lexeme of the kind of a word is a name as far as it goes. -/
theorem isName_of_readLexeme {c : Char} {cs : List Char} {kind : Kind}
    (h : readLexeme c cs = .ok (kind, cs.length)) (hkind : kind.isWord = true) :
    IsName (c :: cs) := by
  generalize hn : cs.length = n at h
  cases readLexeme_eq_iff.mp h with
  | word hc =>
    have hall := (List.takeWhile_prefix isNamePart (l := cs)).eq_of_length hn.symm
    exact ⟨hc, List.takeWhile_eq_self_iff.mp hall⟩
  | lineFeed _ | carriageReturn _ | lineComment _ | blockComment _ _ | number _ _ | rune _ _
  | string _ _ | rawString _ _ | opening _ | closing _ | symbol _ _ => cases hkind

theorem isWord_iff {kind : Kind} :
    kind.isWord = true ↔ kind = .ident ∨ ∃ word ∈ Keyword.all, kind = .keyword word := by
  have hall (word : Keyword) : word ∈ Keyword.all := by cases word <;> decide
  cases kind <;> simp [Kind.isWord, hall]

theorem wordKind_eq_ident_iff :
    wordKind s.toList = .ident ↔ s ∉ Keyword.all.map Keyword.spelling := by
  have hspelling : Keyword.ofSpelling? s.toList = none ↔
      s ∉ Keyword.all.map Keyword.spelling := by
    simp [Keyword.ofSpelling?, String.toList_inj]
  rw [← hspelling, wordKind]
  cases Keyword.ofSpelling? s.toList <;> simp

end Alone

/-- A text is an identifier exactly if it is one lexeme that spans it and is an identifier or
one of the keywords. That lexeme is an identifier exactly if the text is not the spelling of a
keyword. -/
theorem isIdentifier_iff_lex_word (s : String) :
    (isIdentifier s = true ↔ ∃ l, lex s = ⟨[l], none⟩ ∧ l.start = 0 ∧ l.stop = s.utf8ByteSize ∧
      (l.kind = .ident ∨ ∃ word ∈ Keyword.all, l.kind = .keyword word)) ∧
    (isIdentifier s = true → ∃ kind, lex s = ⟨[⟨kind, 0, s⟩], none⟩ ∧
      (kind = .ident ↔ s ∉ Keyword.all.map Keyword.spelling)) := by
  refine ⟨⟨fun h => ?_, ?_⟩, fun h => ⟨_, lex_identifier h, wordKind_eq_ident_iff⟩⟩
  · exact ⟨_, lex_identifier h, rfl, Nat.zero_add _, isWord_iff.mp (isWord_wordKind _)⟩
  · intro ⟨l, hlex, hstart, hstop, hkind⟩
    have hl : l ∈ (lex s).items := by simp [hlex]
    obtain ⟨-, c, cs, hs, -, hread⟩ := exists_readLexeme_of_spans hl hstart hstop
    rw [isName_iff, hs]
    exact isName_of_readLexeme hread (isWord_iff.mpr hkind)

end GoSource
