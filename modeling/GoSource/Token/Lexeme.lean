import GoSource.Diagnostic
import GoSource.Name
import GoSource.Text.CodePoint
import GoSource.Token.Number

/-!
# Lexemes

A lexeme is a kind and the stretch of text that has it. Reading goes from left to
right: blanks between lexemes are passed over, and at every other place the
longest lexeme is taken. The first place where none fits ends the reading.
-/

namespace GoSource

open Text (isLineBreak byteSize)

/-- A stretch of source text, the byte offset at which it starts, and its kind. -/
structure Lexeme where
  kind : Kind
  start : Nat
  text : String
deriving DecidableEq, Repr

/-- The byte offset right after the lexeme. -/
def Lexeme.stop (l : Lexeme) : Nat := l.start + l.text.utf8ByteSize

/-- What was read up to the end of a text, or up to the problem that stopped it. -/
structure Reading (α : Type) where
  items : List α
  stopped : Option Diagnostic
deriving DecidableEq, Repr

namespace Reading

def cons {α : Type} (a : α) (r : Reading α) : Reading α := { r with items := a :: r.items }

/-- Everything read, or the problem if there was one. -/
def toExcept {α : Type} (r : Reading α) : Except Diagnostic (List α) :=
  match r.stopped with
  | none => .ok r.items
  | some d => .error d

end Reading

/-- Characters between lexemes: space, tab, form feed and the byte order mark. -/
def isSkipped (c : Char) : Bool := c == ' ' || c == '\t' || c == '\x0c' || c == '\ufeff'

/-- Number of characters up to and including the first `*/`. -/
def closeComment? : List Char → Option Nat
  | '*' :: '/' :: _ => some 2
  | _ :: cs => (closeComment? cs).map (· + 1)
  | [] => none

/-- Number of characters up to and including the first `quote` that no backslash
escapes. A line break closes nothing, escaped or not. -/
def closeQuote? (quote : Char) : List Char → Option Nat
  | [] => none
  | '\\' :: c :: cs => if isLineBreak c then none else (closeQuote? quote cs).map (· + 2)
  | c :: cs =>
    if c = quote then some 1
    else if isLineBreak c || c == '\\' then none
    else (closeQuote? quote cs).map (· + 1)

/-- Number of characters up to and including the first back quote. -/
def closeRaw? : List Char → Option Nat
  | [] => none
  | c :: cs => if c = '\x60' then some 1 else (closeRaw? cs).map (· + 1)

/-- The lexeme that begins with `c` and goes on in `cs`: its kind and how many
characters of `cs` belong to it. -/
def readLexeme (c : Char) (cs : List Char) : Except Problem (Kind × Nat) :=
  if c = '\n' then .ok (.newline, 0)
  else if c = '\r' then .ok (.newline, if cs.head? = some '\n' then 1 else 0)
  else if c = '/' ∧ cs.head? = some '/' then
    .ok (.lineComment, (cs.takeWhile fun d => !isLineBreak d).length)
  else if c = '/' ∧ cs.head? = some '*' then
    match closeComment? cs.tail with
    | some n => .ok (.blockComment, n + 1)
    | none => .error .unterminatedComment
  else if isNameStart c then
    let rest := cs.takeWhile isNamePart
    match Keyword.ofSpelling? (c :: rest) with
    | some word => .ok (.keyword word, rest.length)
    | none => .ok (.ident, rest.length)
  else if Number.starts (c :: cs) then
    match Number.read (c :: cs) with
    | some (form, n) => .ok (.literal form, n - 1)
    | none => .error .invalidToken
  else if c = '\'' then
    match closeQuote? c cs with
    | some (n + 2) => .ok (.literal .rune, n + 2)
    | _ => .error .invalidToken
  else if c = '"' then
    match closeQuote? c cs with
    | some n => .ok (.literal .string, n)
    | none => .error .unterminatedString
  else if c = '\x60' then
    match closeRaw? cs with
    | some n => .ok (.rawString, n)
    | none => .error .unterminatedString
  else match Delimiter.all.find? (·.opener == c), Delimiter.all.find? (·.closer == c) with
    | some pair, _ => .ok (.opening pair, 0)
    | none, some pair => .ok (.closing pair, 0)
    | none, none =>
      match Symbol.longest? (c :: cs) with
      | some mark => .ok (.symbol mark, mark.spelling.length - 1)
      | none => .error .invalidToken

/-- The lexemes of a text whose first character has the byte offset `offset`. -/
def lexFrom (offset : Nat) : List Char → Reading Lexeme
  | [] => ⟨[], none⟩
  | c :: cs =>
    if isSkipped c then lexFrom (offset + c.utf8Size) cs
    else match readLexeme c cs with
      | .error problem => ⟨[], some ⟨problem, offset⟩⟩
      | .ok (kind, n) =>
        let text := c :: cs.take n
        (lexFrom (offset + byteSize text) (cs.drop n)).cons ⟨kind, offset, String.ofList text⟩
termination_by cs => cs.length
decreasing_by all_goals simp; try omega

/-- The lexemes of a source text, trivia included. -/
def lex (src : String) : Reading Lexeme := lexFrom 0 src.toList

end GoSource
