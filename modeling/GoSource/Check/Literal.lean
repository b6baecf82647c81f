import GoSource.Token.Semicolon

/-!
# Literals

Texts that are one basic literal and nothing else.
-/

namespace GoSource

/-- The form of the one literal that a text consists of, comments and line ends
aside. A signed number is an expression and no literal. -/
def Literal.ofText? (src : String) : Option Literal :=
  match tokenize src with
  | .error _ => none
  | .ok tokens =>
    match tokens.filter (!·.isInserted) with
    | [t] => t.kind.literal?
    | _ => none

end GoSource
