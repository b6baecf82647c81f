import GoSource.Text.Blank

/-!
# Qualifiers in free text

Code refers to an import by writing its alias before a point. Free text is
searched for such uses without being read as tokens: a use starts the text or
follows a boundary character, and blanks may stand between alias and point.
-/

namespace GoSource.Qualifier

/-- Characters that can stand right before a qualifier. -/
def isBoundary (c : Char) : Bool :=
  [' ', '\t', '\n', '&', ';', ',', '!', '~', '^', '=', '+', '-', '*', '/', '(', ')', '[', ']',
    '\x7b', '\x7d'].contains c

/-- Number of characters up to and including a point that only blanks precede. -/
def pointAfterBlanks? : List Char → Option Nat
  | [] => none
  | c :: cs =>
    if c = '.' then some 1
    else if Text.isBlank c then (pointAfterBlanks? cs).map (· + 1)
    else none

/-- Number of characters between `name` at the head of the text and the end of
the point after it, if the text starts with such a use. -/
def useAt? (name cs : List Char) : Option Nat :=
  if name.isPrefixOf cs then pointAfterBlanks? (cs.drop name.length) else none

/-- Whether a use of `name` follows a boundary character. -/
def usedInside (name : List Char) : List Char → Bool
  | [] => false
  | c :: cs => (isBoundary c && (useAt? name cs).isSome) || usedInside name cs

/-- Whether `text` uses `name` as a qualifier; nothing uses the empty name. -/
def references (text name : String) : Bool :=
  !name.isEmpty &&
    ((useAt? name.toList text.toList).isSome || usedInside name.toList text.toList)

/-- Puts `new` for `old` in the uses that follow a boundary character, from left
to right; the search goes on after the point of a use. -/
def substituteInside (old new : List Char) : List Char → List Char
  | [] => []
  | c :: cs =>
    match if isBoundary c then useAt? old cs else none with
    | some n =>
      let rest := cs.drop old.length
      c :: new ++ rest.take n ++ substituteInside old new (rest.drop n)
    | none => c :: substituteInside old new cs
termination_by cs => cs.length
decreasing_by all_goals simp; try omega

/-- `substituteInside` for a text of which the start counts as a boundary. -/
def substituteChars (old new cs : List Char) : List Char :=
  match useAt? old cs with
  | some n =>
    let rest := cs.drop old.length
    new ++ rest.take n ++ substituteInside old new (rest.drop n)
  | none => substituteInside old new cs

/-- Puts `new`, as it is, for every use of `old` as a qualifier in `text`. -/
def substitute (text old new : String) : String :=
  String.ofList (substituteChars old.toList new.toList text.toList)

end GoSource.Qualifier
