import GoSource.Check.Expression
import GoSource.Check.SourceFile

/-!
# Checkers

Validation of a tree hands its free text to a checker, which may be any three
judgements. The standard one uses the checks of this library.
-/

namespace GoSource

/-- Judgements on free text: an initializer, a function body, a whole file. -/
structure Checker where
  expression : String → Except Diagnostic Unit
  body : String → Except Diagnostic Unit
  file : String → Except Diagnostic Unit

/-- The checker that reads the text as Go tokens. -/
def Checker.standard : Checker where
  expression := Expression.check
  body := SourceFile.checkBody
  file := SourceFile.check

end GoSource
