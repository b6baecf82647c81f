import GoSource.Token.Kind

/-!
# Number literals

How far a number at the head of a text reaches, and which of the three forms it
has. The longest reading wins. A hexadecimal mantissa with a point is the one
place where nothing shorter is accepted: without its binary exponent it is no
number at all.
-/

namespace GoSource.Number

/-- Every digit class takes the underscore, at any place and any number of times. -/
def decimalPart (c : Char) : Bool := c.isDigit || c == '_'

def binaryPart (c : Char) : Bool := c == '0' || c == '1' || c == '_'

def octalPart (c : Char) : Bool := ('0' ≤ c && c ≤ '7') || c == '_'

def hexPart (c : Char) : Bool :=
  c.isDigit || ('a' ≤ c && c ≤ 'f') || ('A' ≤ c && c ≤ 'F') || c == '_'

/-- Length of the longest head of `cs` in the class `p`. -/
def run (p : Char → Bool) (cs : List Char) : Nat := (cs.takeWhile p).length

/-- The two cases of a letter that marks a base or an exponent. -/
def isMark (lower upper c : Char) : Bool := c == lower || c == upper

/-- Length of an exponent at the head of the text: its mark, a sign if there is
one, and at least one digit or underscore. Zero if no exponent stands there. -/
def exponent (mark : Char → Bool) : List Char → Nat
  | [] => 0
  | c :: cs =>
    let sign := match cs with
      | s :: _ => if s = '+' ∨ s = '-' then 1 else 0
      | [] => 0
    let digits := run decimalPart (cs.drop sign)
    if mark c ∧ digits ≠ 0 then 1 + sign + digits else 0

/-- Length of a point and the digits after it, zero if there is no point. -/
def fraction : List Char → Nat
  | '.' :: cs => 1 + run decimalPart cs
  | _ => 0

/-- A decimal integer or float, made imaginary by an `i` right after it. -/
def readDecimal (cs : List Char) : Literal × Nat :=
  let whole := run decimalPart cs
  let mantissa := whole + fraction (cs.drop whole)
  let size := mantissa + exponent (isMark 'e' 'E') (cs.drop mantissa)
  if (cs.drop size).head? = some 'i' then (.imaginary, size + 1)
  else if size = whole then (.int, size)
  else (.float, size)

/-- An integer in a base marked by two characters, of which `cs` is what follows
them; without a digit only the leading zero is a number. -/
def readBased (digit : Char → Bool) (cs : List Char) : Literal × Nat :=
  let size := run digit cs
  if size = 0 then (.int, 1) else (.int, 2 + size)

/-- A hexadecimal integer or float, of which `cs` is what follows its mark. -/
def readHex (cs : List Char) : Option (Literal × Nat) :=
  let whole := run hexPart cs
  match cs.drop whole with
  | '.' :: rest =>
    let part := run hexPart rest
    let power := exponent (isMark 'p' 'P') (rest.drop part)
    if power = 0 then none else some (.float, 2 + whole + 1 + part + power)
  | rest =>
    let power := exponent (isMark 'p' 'P') rest
    if power = 0 then some (readBased hexPart cs) else some (.float, 2 + whole + power)

/-- The literal at the head of a text that starts like a number, with its number
of characters; `none` for a hexadecimal float without its exponent. -/
def read : List Char → Option (Literal × Nat)
  | '0' :: c :: cs =>
    if isMark 'x' 'X' c then readHex cs
    else if isMark 'b' 'B' c then some (readBased binaryPart cs)
    else if isMark 'o' 'O' c then some (readBased octalPart cs)
    else some (readDecimal ('0' :: c :: cs))
  | cs => some (readDecimal cs)

/-- A number starts with a digit, or with a point and a digit. -/
def starts : List Char → Bool
  | '.' :: c :: _ => c.isDigit
  | c :: _ => c.isDigit
  | [] => false

end GoSource.Number
