import GoSource.Token.Lexeme

/-!
# Tokens and inserted semicolons

The tokens of a text are its lexemes without trivia, together with a semicolon
after every lexeme that ends a statement and is the last of its line. A block
comment that holds a line break ends the line, as a line break does.
-/

namespace GoSource

/-- A token is written in the source or inserted at a byte offset. -/
inductive Token where
  | written (lexeme : Lexeme)
  | inserted (offset : Nat)
deriving DecidableEq, Repr

namespace Token

def kind : Token → Kind
  | written l => l.kind
  | inserted _ => .semicolon

def start : Token → Nat
  | written l => l.start
  | inserted offset => offset

def stop : Token → Nat
  | written l => l.stop
  | inserted offset => offset

def text : Token → String
  | written l => l.text
  | inserted _ => ""

def isInserted : Token → Bool
  | written _ => false
  | inserted _ => true

/-- How a diagnostic names the token: an inserted semicolon stands for its line end. -/
def shown : Token → String
  | written l => l.text
  | inserted _ => "newline"

end Token

/-- The byte offset of the first line break inside a lexeme. -/
def Lexeme.lineBreak? (l : Lexeme) : Option Nat :=
  let before := l.text.toList.takeWhile fun c => !Text.isLineBreak c
  if before.length < l.text.toList.length then some (l.start + Text.byteSize before) else none

/-- Inserts semicolons into lexemes. `pending` says that the last token ends a
statement, `finish` is where the source ends if it was read to its end. -/
def insertSemicolons (finish : Option Nat) (pending : Bool) : List Lexeme → List Token
  | [] => if pending then (finish.map Token.inserted).toList else []
  | l :: ls =>
    if l.kind.isTrivia then
      match pending, l.lineBreak? with
      | true, some offset => .inserted offset :: insertSemicolons finish false ls
      | _, _ => insertSemicolons finish pending ls
    else .written l :: insertSemicolons finish l.kind.endsStatement ls

/-- The tokens of a source text, up to its end or the first lexical problem. -/
def scan (src : String) : Reading Token :=
  let lexed := lex src
  let finish := if lexed.stopped.isNone then some src.utf8ByteSize else none
  ⟨insertSemicolons finish false lexed.items, lexed.stopped⟩

/-- All tokens of a source text, or its first lexical problem. -/
def tokenize (src : String) : Except Diagnostic (List Token) := (scan src).toExcept

end GoSource
