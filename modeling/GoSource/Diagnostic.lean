import GoSource.Token.Kind

/-!
# Diagnostics

The problems that reading or judging a text can meet, each with the byte offset
at which it is reported, and their wording.
-/

namespace GoSource

/-- What is wrong with a text. -/
inductive Problem where
  | invalidToken
  | unterminatedComment
  | unterminatedString
  | empty
  | unexpected (found expected : String)
  | endOfInput (expected : String)
  | unclosed (pair : Delimiter)
  | unmatched (pair : Delimiter)
deriving DecidableEq, Repr

/-- The wording of a problem without its place. -/
def Problem.message : Problem → String
  | invalidToken => "invalid token"
  | unterminatedComment => "unterminated comment"
  | unterminatedString => "unterminated string literal"
  | empty => "empty input"
  | unexpected found expected => s!"unexpected `{found}`, expected {expected}"
  | endOfInput expected => s!"unexpected end of input, expected {expected}"
  | unclosed pair => s!"unclosed `{pair.opener}`"
  | unmatched pair => s!"unmatched `{pair.closer}`"

/-- A problem and the byte offset it is reported at. -/
structure Diagnostic where
  problem : Problem
  offset : Nat
deriving DecidableEq, Repr

namespace Diagnostic

def message (d : Diagnostic) : String :=
  s!"syntax error at offset {d.offset}: {d.problem.message}"

/-- The same problem seen from `size` bytes further on; nothing lies before zero. -/
def rebase (size : Nat) (d : Diagnostic) : Diagnostic :=
  { d with offset := d.offset - size }

end Diagnostic

end GoSource
