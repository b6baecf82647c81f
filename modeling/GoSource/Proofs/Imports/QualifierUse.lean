import GoSource.Proofs.Text.CharacterClass

/-!
# Uses of names as qualifiers

Free text cut into pieces: single characters, and whole names that stand as
qualifiers. Searching for a name and putting another name for it are both read
off the pieces, and cutting the rewritten text gives the renamed pieces. The
cut does not depend on which name is looked for, as long as it is a name.
-/

namespace GoSource.Qualifier

/-- One character, or a name that stands as a qualifier. -/
inductive Piece where
  | char (c : Char)
  | use (name : List Char)
deriving DecidableEq

namespace Piece

/-- The text of a piece, every name changed by `f`. -/
def spell (f : List Char → List Char) : Piece → List Char
  | char c => [c]
  | use name => f name

def rename (f : List Char → List Char) : Piece → Piece
  | char c => char c
  | use name => use (f name)

end Piece

/-- Whether a name and a point after it, blanks aside, start the text. -/
def startsUse : List Char → Bool
  | [] => false
  | c :: cs => isNameStart c && (pointAfterBlanks? (cs.dropWhile isNamePart)).isSome

/-- The pieces of a text; `bounded` says that a qualifier may stand at its start. -/
def pieces (bounded : Bool) : List Char → List Piece
  | [] => []
  | c :: cs =>
    if bounded && startsUse (c :: cs) then
      .use (c :: cs.takeWhile isNamePart) :: pieces false (cs.dropWhile isNamePart)
    else .char c :: pieces (isBoundary c) cs
termination_by cs => cs.length
decreasing_by
  · have := (List.dropWhile_suffix isNamePart (l := cs)).length_le
    simp only [List.length_cons]
    omega
  · simp

@[simp] theorem pieces_nil (b : Bool) : pieces b [] = [] := by rw [pieces]

theorem pieces_use {c : Char} {cs : List Char} (h : startsUse (c :: cs) = true) :
    pieces true (c :: cs) =
      .use (c :: cs.takeWhile isNamePart) :: pieces false (cs.dropWhile isNamePart) := by
  rw [pieces]
  simp [h]

theorem pieces_char {b : Bool} {c : Char} {cs : List Char}
    (h : b = true → startsUse (c :: cs) = false) :
    pieces b (c :: cs) = .char c :: pieces (isBoundary c) cs := by
  rw [pieces]
  cases b <;> simp_all

@[simp] theorem pieces_false_cons (c : Char) (cs : List Char) :
    pieces false (c :: cs) = .char c :: pieces (isBoundary c) cs :=
  pieces_char (by simp)

/-- Without a qualifier at the start it does not matter whether one may stand there. -/
theorem pieces_true_eq_false {cs : List Char} (h : startsUse cs = false) :
    pieces true cs = pieces false cs := by
  cases cs with
  | nil => simp
  | cons c cs => rw [pieces_char (fun _ => h), pieces_false_cons]

/-- What follows a name up to its point is no part of the name. -/
theorem isNamePart_head_of_point {rest : List Char} (h : (pointAfterBlanks? rest).isSome = true) :
    ∀ c ∈ rest.head?, isNamePart c = false := by
  cases rest with
  | nil => simp
  | cons c cs =>
    intro d hd
    obtain rfl : c = d := by simpa using hd
    by_contra hc
    have hblank := isBlank_eq_false_of_isNamePart (Bool.of_not_eq_false hc)
    have hpoint := ne_of_isNamePart (d := '.') (Bool.of_not_eq_false hc) (by decide)
    simp [pointAfterBlanks?, hblank, hpoint] at h

/-- A name before a point, at a place where a qualifier may stand, is one piece. -/
theorem pieces_name_append {name rest : List Char} (hname : IsName name)
    (hpoint : (pointAfterBlanks? rest).isSome = true) :
    pieces true (name ++ rest) = .use name :: pieces false rest := by
  cases name with
  | nil => cases hname
  | cons c cs =>
    obtain ⟨htake, hdrop⟩ := takeWhile_append_of_head (p := isNamePart) hname.2
      (isNamePart_head_of_point hpoint)
    have hstarts : startsUse (c :: (cs ++ rest)) = true := by
      simp [startsUse, hname.1, hdrop, hpoint]
    rw [List.cons_append, pieces_use hstarts, htake, hdrop]

/-- Inside a word no qualifier starts. -/
theorem pieces_false_append {w : List Char} (hw : ∀ c ∈ w, isNamePart c = true)
    (rest : List Char) : pieces false (w ++ rest) = w.map .char ++ pieces false rest := by
  induction w with
  | nil => rfl
  | cons c cs ih =>
    have hb := isBoundary_eq_false_of_isNamePart (hw c (by simp))
    have hcs : ∀ d ∈ cs, isNamePart d = true := fun d hd => hw d (by simp [hd])
    rw [List.cons_append, pieces_false_cons, hb, ih hcs, List.map_cons, List.cons_append]

theorem startsUse_eq_false_of_not_isNameStart {c : Char} {cs : List Char}
    (h : isNameStart c = false) : startsUse (c :: cs) = false := by
  simp [startsUse, h]

/-- The blanks and the point after a qualifier are pieces of their own, and what
follows the point is not at a boundary. -/
theorem pieces_point {rest : List Char} {n : Nat} (h : pointAfterBlanks? rest = some n)
    (b : Bool) :
    pieces b rest = (rest.take n).map .char ++ pieces false (rest.drop n) := by
  induction rest generalizing n b with
  | nil => cases h
  | cons c cs ih =>
    simp only [pointAfterBlanks?] at h
    split at h
    · rename_i hc
      obtain rfl := Option.some.inj h
      subst hc
      have hstart : startsUse ('.' :: cs) = false :=
        startsUse_eq_false_of_not_isNameStart (by decide)
      have hb : isBoundary '.' = false := by decide
      rw [pieces_char (fun _ => hstart), hb]
      rfl
    · split at h
      · rename_i hblank
        obtain ⟨m, hm, rfl⟩ := Option.map_eq_some_iff.mp h
        have hstart : isNameStart c = false := by
          by_contra hs
          have := isBlank_eq_false_of_isNamePart
            (isNamePart_of_isNameStart (Bool.of_not_eq_false hs))
          simp [this] at hblank
        rw [pieces_char (fun _ => startsUse_eq_false_of_not_isNameStart hstart), ih hm]
        rfl
      · cases h

/-- A use of a name splits the text at the end of the name. -/
theorem useAt?_eq_some_iff {name cs : List Char} {n : Nat} :
    useAt? name cs = some n ↔ ∃ rest, cs = name ++ rest ∧ pointAfterBlanks? rest = some n := by
  unfold useAt?
  constructor
  · intro h
    split at h
    · rename_i hp
      obtain ⟨rest, rfl⟩ := List.isPrefixOf_iff_prefix.mp hp
      exact ⟨rest, rfl, by simpa using h⟩
    · cases h
  · rintro ⟨rest, rfl, h⟩
    rw [if_pos (List.isPrefixOf_iff_prefix.mpr (List.prefix_append name rest))]
    simpa using h

theorem isNamePart_of_mem_takeWhile {c : Char} {cs : List Char}
    (h : c ∈ cs.takeWhile isNamePart) : isNamePart c = true :=
  List.all_eq_true.mp List.all_takeWhile c h

/-- A text that starts with a qualifier starts with a name and goes on to a point. -/
theorem isName_of_startsUse {c : Char} {cs : List Char} (h : startsUse (c :: cs) = true) :
    IsName (c :: cs.takeWhile isNamePart) ∧
      (pointAfterBlanks? (cs.dropWhile isNamePart)).isSome = true := by
  simp only [startsUse, Bool.and_eq_true] at h
  exact ⟨⟨h.1, fun _ hd => isNamePart_of_mem_takeWhile hd⟩, h.2⟩

/-- A text that starts with a qualifier, split after it. -/
theorem exists_name_of_startsUse {cs : List Char} (h : startsUse cs = true) :
    ∃ name rest, cs = name ++ rest ∧ IsName name ∧ (pointAfterBlanks? rest).isSome = true := by
  cases cs with
  | nil => cases h
  | cons c cs =>
    obtain ⟨hname, hpoint⟩ := isName_of_startsUse h
    refine ⟨c :: cs.takeWhile isNamePart, cs.dropWhile isNamePart, ?_, hname, hpoint⟩
    rw [List.cons_append, List.takeWhile_append_dropWhile]

/-- Two names that start one text and are both followed by a point are the same. -/
theorem name_unique {name other rest tail : List Char} (hname : IsName name)
    (hother : IsName other) (hrest : (pointAfterBlanks? rest).isSome = true)
    (htail : (pointAfterBlanks? tail).isSome = true) (h : name ++ rest = other ++ tail) :
    name = other ∧ rest = tail := by
  have h₁ := takeWhile_append_of_head (p := isNamePart) (fun _ hc => hname.isNamePart hc)
    (isNamePart_head_of_point hrest)
  have h₂ := takeWhile_append_of_head (p := isNamePart) (fun _ hc => hother.isNamePart hc)
    (isNamePart_head_of_point htail)
  rw [h] at h₁
  exact ⟨h₁.1.symm.trans h₂.1, h₁.2.symm.trans h₂.2⟩

theorem startsUse_of_useAt? {name cs : List Char} (hname : IsName name)
    (h : (useAt? name cs).isSome = true) : startsUse cs = true := by
  obtain ⟨n, hn⟩ := Option.isSome_iff_exists.mp h
  obtain ⟨rest, rfl, hpoint⟩ := useAt?_eq_some_iff.mp hn
  have hsome : (pointAfterBlanks? rest).isSome = true := by simp [hpoint]
  cases name with
  | nil => cases hname
  | cons c cs =>
    have hdrop := (takeWhile_append_of_head (p := isNamePart) hname.2
      (isNamePart_head_of_point hsome)).2
    simp [startsUse, hname.1, hdrop, hsome]

/-- At a boundary a text either starts no use, or the use of one name and then goes
on as inside a word. -/
theorem pieces_true_cases (cs : List Char) :
    (startsUse cs = false ∧ pieces true cs = pieces false cs) ∨
    ∃ name rest, cs = name ++ rest ∧ IsName name ∧ (pointAfterBlanks? rest).isSome = true ∧
      pieces true cs = .use name :: pieces false rest ∧
      pieces false cs = name.map .char ++ pieces false rest := by
  cases h : startsUse cs with
  | false => exact .inl ⟨rfl, pieces_true_eq_false h⟩
  | true =>
    obtain ⟨name, rest, rfl, hname, hpoint⟩ := exists_name_of_startsUse h
    exact .inr ⟨name, rest, rfl, hname, hpoint, pieces_name_append hname hpoint,
      pieces_false_append (fun _ hc => hname.isNamePart hc) rest⟩

/-- The text of the pieces with every name changed by `f`. -/
def respell (f : List Char → List Char) (b : Bool) (cs : List Char) : List Char :=
  (pieces b cs).flatMap (Piece.spell f)

theorem flatMap_spell_map_char (f : List Char → List Char) (w : List Char) :
    (w.map Piece.char).flatMap (Piece.spell f) = w := by
  induction w with
  | nil => rfl
  | cons c cs ih => simp [Piece.spell, ih]

theorem respell_false_cons (f : List Char → List Char) (c : Char) (cs : List Char) :
    respell f false (c :: cs) = c :: respell f (isBoundary c) cs := by
  simp [respell, Piece.spell]

theorem respell_false_append (f : List Char → List Char) {w : List Char}
    (hw : ∀ c ∈ w, isNamePart c = true) (rest : List Char) :
    respell f false (w ++ rest) = w ++ respell f false rest := by
  simp only [respell, pieces_false_append hw, List.flatMap_append, flatMap_spell_map_char]

theorem respell_name_append (f : List Char → List Char) {name rest : List Char}
    (hname : IsName name) (hpoint : (pointAfterBlanks? rest).isSome = true) :
    respell f true (name ++ rest) = f name ++ respell f false rest := by
  simp [respell, pieces_name_append hname hpoint, Piece.spell]

theorem respell_point (f : List Char → List Char) {rest : List Char} {n : Nat}
    (h : pointAfterBlanks? rest = some n) (b : Bool) :
    respell f b rest = rest.take n ++ respell f false (rest.drop n) := by
  simp only [respell, pieces_point h b, List.flatMap_append, flatMap_spell_map_char]

/-- One name put for another. -/
def replaceName (old new name : List Char) : List Char := if name = old then new else name

theorem isName_replaceName {old new name : List Char} (hnew : IsName new) (h : IsName name) :
    IsName (replaceName old new name) := by
  unfold replaceName
  split <;> assumption

/-- If the text does not start with a use of `old`, its start need not be a boundary. -/
theorem respell_true_of_useAt?_eq_none {old new cs : List Char} (h : useAt? old cs = none) :
    respell (replaceName old new) true cs = respell (replaceName old new) false cs := by
  rcases pieces_true_cases cs with ⟨-, heq⟩ | ⟨name, rest, rfl, hname, hpoint, htrue, hfalse⟩
  · simp only [respell, heq]
  · have hne : name ≠ old := by
      rintro rfl
      obtain ⟨n, hn⟩ := Option.isSome_iff_exists.mp hpoint
      rw [useAt?_eq_some_iff.mpr ⟨rest, rfl, hn⟩] at h
      cases h
    simp only [respell, htrue, hfalse, List.flatMap_cons, List.flatMap_append,
      flatMap_spell_map_char, Piece.spell, replaceName, if_neg hne]

/-- Putting one name for another changes the names of the pieces and nothing else. -/
theorem substituteInside_eq_respell {old : List Char} (hold : IsName old) (new cs : List Char) :
    substituteInside old new cs = respell (replaceName old new) false cs := by
  fun_induction substituteInside old new cs with
  | case1 => simp [respell]
  | case2 c cs n h rest ih =>
    -- A boundary and a use of `old` after it.
    cases hb : isBoundary c with
    | false => simp [hb] at h
    | true =>
      simp only [hb] at h
      obtain ⟨tail, rfl, hpoint⟩ := useAt?_eq_some_iff.mp h
      have hrest : rest = tail := by simp [rest]
      rw [respell_false_cons, hb, respell_name_append _ hold (by simp [hpoint]),
        respell_point _ hpoint, ih, hrest]
      simp [replaceName]
  | case3 c cs h ih =>
    rw [respell_false_cons, ih]
    cases hb : isBoundary c with
    | false => rfl
    | true =>
      simp only [hb] at h
      rw [respell_true_of_useAt?_eq_none h]

theorem substituteChars_eq_respell {old : List Char} (hold : IsName old) (new cs : List Char) :
    substituteChars old new cs = respell (replaceName old new) true cs := by
  unfold substituteChars
  split
  · rename_i n h
    obtain ⟨rest, rfl, hpoint⟩ := useAt?_eq_some_iff.mp h
    rw [respell_name_append _ hold (by simp [hpoint]), respell_point _ hpoint]
    simp [replaceName, substituteInside_eq_respell hold]
  · rename_i h
    rw [respell_true_of_useAt?_eq_none h, substituteInside_eq_respell hold]

/-- A text that goes on to a point after a name uses that name at its start, and no other. -/
theorem isSome_useAt?_append_iff {name other rest : List Char} (hname : IsName name)
    (hother : IsName other) (hpoint : (pointAfterBlanks? rest).isSome = true) :
    (useAt? name (other ++ rest)).isSome = true ↔ name = other := by
  constructor
  · intro h
    obtain ⟨n, hn⟩ := Option.isSome_iff_exists.mp h
    obtain ⟨tail, heq, htail⟩ := useAt?_eq_some_iff.mp hn
    exact (name_unique hother hname hpoint (by simp [htail]) heq).1.symm
  · rintro rfl
    obtain ⟨n, hn⟩ := Option.isSome_iff_exists.mp hpoint
    simp [useAt?_eq_some_iff.mpr ⟨rest, rfl, hn⟩]

/-- At a boundary, a name is used if it is used at the start or further inside. -/
theorem use_mem_pieces_true_iff {name : List Char} (hname : IsName name) (cs : List Char) :
    .use name ∈ pieces true cs ↔
      (useAt? name cs).isSome = true ∨ .use name ∈ pieces false cs := by
  rcases pieces_true_cases cs with ⟨hstarts, heq⟩ | ⟨other, rest, rfl, hother, hpoint, htrue, hfalse⟩
  · have hnone : ¬ (useAt? name cs).isSome = true := by
      intro h
      rw [startsUse_of_useAt? hname h] at hstarts
      cases hstarts
    simp [heq, hnone]
  · simp [htrue, hfalse, isSome_useAt?_append_iff hname hother hpoint]

theorem usedInside_iff {name : List Char} (hname : IsName name) (cs : List Char) :
    usedInside name cs = true ↔ .use name ∈ pieces false cs := by
  induction cs with
  | nil => simp [usedInside]
  | cons c cs ih =>
    rw [pieces_false_cons, usedInside, Bool.or_eq_true, Bool.and_eq_true, ih]
    cases hb : isBoundary c with
    | false => simp
    | true => simp [use_mem_pieces_true_iff hname]

/-- A text refers to an identifier exactly if the identifier is one of its pieces. -/
theorem references_iff {text name : String} (hname : isIdentifier name = true) :
    references text name = true ↔ .use name.toList ∈ pieces true text.toList := by
  have hn := isName_iff.mp hname
  have hne : name.isEmpty = false := by
    by_contra he
    rw [String.isEmpty_iff.mp (Bool.of_not_eq_false he)] at hn
    exact hn
  rw [use_mem_pieces_true_iff hn, ← usedInside_iff hn]
  simp [references, hne]

theorem pointAfterBlanks?_name {name : List Char} (h : IsName name) (rest : List Char) :
    pointAfterBlanks? (name ++ rest) = none := by
  by_contra hsome
  cases name with
  | nil => exact h
  | cons c cs =>
    have hhead := isNamePart_head_of_point (Option.isSome_iff_ne_none.mpr hsome) c (by simp)
    rw [isNamePart_of_isNameStart h.1] at hhead
    cases hhead

theorem respell_char (f : List Char → List Char) {b : Bool} {c : Char} {cs : List Char}
    (h : b = true → startsUse (c :: cs) = false) :
    respell f b (c :: cs) = c :: respell f (isBoundary c) cs := by
  simp [respell, pieces_char h, Piece.spell]

section Respell

variable {f : List Char → List Char} (hf : ∀ name, IsName name → IsName (f name))
include hf

/-- Changing names keeps whether a point follows. -/
theorem pointAfterBlanks?_respell (b : Bool) (cs : List Char) :
    (pointAfterBlanks? (respell f b cs)).isSome = (pointAfterBlanks? cs).isSome := by
  induction cs generalizing b with
  | nil => simp [respell]
  | cons c cs ih =>
    by_cases huse : b = true ∧ startsUse (c :: cs) = true
    · obtain ⟨rfl, hstarts⟩ := huse
      obtain ⟨name, rest, heq, hname, hpoint⟩ := exists_name_of_startsUse hstarts
      rw [heq, respell_name_append f hname hpoint, pointAfterBlanks?_name hname,
        pointAfterBlanks?_name (hf name hname)]
    · rw [respell_char f (by simpa using huse)]
      simp only [pointAfterBlanks?]
      split
      · rfl
      · split
        · simp only [Option.isSome_map, ih]
        · rfl

/-- Changing names does not make a use of what was none. -/
theorem startsUse_respell (c : Char) (cs : List Char) :
    startsUse (c :: respell f (isBoundary c) cs) = startsUse (c :: cs) := by
  cases hc : isNameStart c with
  | false => simp [startsUse, hc]
  | true =>
    have hb := isBoundary_eq_false_of_isNamePart (isNamePart_of_isNameStart hc)
    have hw : ∀ d ∈ cs.takeWhile isNamePart, isNamePart d = true :=
      fun _ hd => isNamePart_of_mem_takeWhile hd
    have hhead : ∀ d ∈ (respell f false (cs.dropWhile isNamePart)).head?, isNamePart d = false := by
      cases hrest : cs.dropWhile isNamePart with
      | nil => simp [respell]
      | cons d ds =>
        have hd := List.head_dropWhile_not isNamePart (l := cs) (by simp [hrest])
        simp only [hrest, List.head_cons] at hd
        simpa [respell_false_cons] using hd
    have hdrop : (respell f false cs).dropWhile isNamePart =
        respell f false (cs.dropWhile isNamePart) := by
      conv_lhs => rw [← List.takeWhile_append_dropWhile (p := isNamePart) (l := cs)]
      rw [respell_false_append f hw, (takeWhile_append_of_head hw hhead).2]
    simp [startsUse, hc, hb, hdrop, pointAfterBlanks?_respell hf]

/-- Cutting the rewritten text gives the renamed pieces: a rewriting neither makes
nor hides a use. -/
theorem pieces_respell (b : Bool) (cs : List Char) :
    pieces b (respell f b cs) = (pieces b cs).map (Piece.rename f) := by
  fun_induction pieces b cs with
  | case1 b => simp [respell]
  | case2 b c cs h ih =>
    obtain ⟨rfl, hstarts⟩ := Bool.and_eq_true_iff.mp h
    obtain ⟨hname, hpoint⟩ := isName_of_startsUse hstarts
    have hsplit : respell f true (c :: cs) =
        f (c :: cs.takeWhile isNamePart) ++ respell f false (cs.dropWhile isNamePart) := by
      simp [respell, pieces_use hstarts, Piece.spell]
    rw [hsplit, pieces_name_append (hf _ hname) ((pointAfterBlanks?_respell hf _ _).trans hpoint),
      ih]
    rfl
  | case3 b c cs h ih =>
    have hstarts : b = true → startsUse (c :: cs) = false := by simpa using h
    rw [respell_char f hstarts, pieces_char (fun hb => (startsUse_respell hf c cs).trans (hstarts hb)),
      ih]
    rfl

end Respell

/-- The pieces of rewritten text, for identifiers. -/
theorem pieces_substitute {old new : String} (hold : isIdentifier old = true)
    (hnew : isIdentifier new = true) (text : String) :
    pieces true (substitute text old new).toList =
      (pieces true text.toList).map (Piece.rename (replaceName old.toList new.toList)) := by
  have hname : ∀ name, IsName name → IsName (replaceName old.toList new.toList name) :=
    fun _ h => isName_replaceName (isName_iff.mp hnew) h
  simp only [substitute, String.toList_ofList,
    substituteChars_eq_respell (isName_iff.mp hold), pieces_respell hname]

/-- After a rewriting a text refers to the new name if it referred to the old one,
and to every other name but the old one as before. -/
theorem references_substitute_iff {old new name : String} (hold : isIdentifier old = true)
    (hnew : isIdentifier new = true) (hname : isIdentifier name = true) (text : String) :
    references (substitute text old new) name = true ↔
      (name = new ∧ references text old = true) ∨ (name ≠ old ∧ references text name = true) := by
  rw [references_iff hname, references_iff hold, references_iff hname,
    pieces_substitute hold hnew, List.mem_map]
  constructor
  · rintro ⟨piece, hmem, heq⟩
    cases piece with
    | char c => cases heq
    | use other =>
      have heq : replaceName old.toList new.toList other = name.toList := by
        simpa [Piece.rename] using heq
      unfold replaceName at heq
      split at heq
      · rename_i hother
        exact .inl ⟨String.toList_injective heq.symm, hother ▸ hmem⟩
      · rename_i hother
        subst heq
        exact .inr ⟨fun h => hother (by rw [h]), hmem⟩
  · rintro (⟨rfl, hmem⟩ | ⟨hne, hmem⟩)
    · exact ⟨_, hmem, by simp [Piece.rename, replaceName]⟩
    · have hlist : name.toList ≠ old.toList := fun h => hne (String.toList_injective h)
      exact ⟨_, hmem, by simp [Piece.rename, replaceName, hlist]⟩

end GoSource.Qualifier
