import GoSource.Text.DecimalDigit
import GoSource.Text.Letter

/-!
# Names

Identifiers and the segments of import paths.
-/

namespace GoSource

/-- A letter or an underscore. -/
def isNameStart (c : Char) : Bool := c == '_' || Text.isLetter c

/-- A letter, an underscore or a decimal digit. -/
def isNamePart (c : Char) : Bool := isNameStart c || Text.isDecimalDigit c

/-- A name start followed by name parts up to the end of the text. -/
def isIdentifier (s : String) : Bool :=
  match s.toList with
  | [] => false
  | c :: cs => isNameStart c && cs.all isNamePart

/-- What follows the last slash of a path, slashes at its end left aside. -/
def lastSegment (path : String) : String :=
  String.ofList <|
    ((path.toList.reverse.dropWhile (· == '/')).takeWhile (· != '/')).reverse

end GoSource
