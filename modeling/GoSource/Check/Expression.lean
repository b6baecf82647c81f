import GoSource.Check.Nesting

/-!
# Expressions

A text can stand as an expression if its delimiters nest, if it holds no
statement outside braces, and if its outermost tokens do not put two operands or
two binary operators side by side. What stands inside delimiters is not looked
at more closely, so this admits more than the grammar of the language.
-/

namespace GoSource.Expression

/-- Where a check of an expression stands between two tokens. -/
structure State where
  nesting : Nesting := {}
  /-- The last token at the outermost level. -/
  previous : Option Kind := none
deriving DecidableEq, Repr

/-- Why `kind` may not follow `previous` at the outermost level: what was expected instead. -/
def misplaced? (previous : Option Kind) (kind : Kind) : Option String :=
  match previous with
  | none => if kind.isBinaryOnly || kind == .dot then some "an operand" else none
  | some p =>
    if p.isOperand && kind.isOperand then some "an operator"
    else if p.isOperator && kind.isBinaryOnly then some "an operand"
    else if p == .dot && !(kind == .ident || kind == .opening .paren) then some "a selector"
    else none

/-- Why a token may not stand in this state, the rules taken in order. -/
def refused? (s : State) (kind : Kind) : Option String :=
  if !s.nesting.inBraces && (kind.isStatementKeyword || kind.isAssignment) then
    some "an expression"
  else if !s.nesting.inBraces && kind == .semicolon then some "end of expression"
  else if s.nesting.isTop && kind == .comma then some "a single expression"
  else if s.nesting.isTop then misplaced? s.previous kind
  else none

/-- The state after a token. A token counts as outermost if it opens or closes an
outermost delimiter as well. -/
def State.step (s : State) (t : Token) : Except Diagnostic State :=
  match refused? s t.kind with
  | some expected => .error (t.unexpected expected)
  | none => do
    let nesting ← s.nesting.feed t
    pure ⟨nesting, if s.nesting.isTop || nesting.isTop then some t.kind else s.previous⟩

/-- Kinds after which an expression has to go on. -/
def wantsOperand (kind : Kind) : Bool :=
  kind.isOperator || kind == .dot || kind == .comma || kind == .colon

/-- The tokens without the semicolon that the end of the source inserts. -/
def dropInserted (tokens : List Token) : List Token :=
  match tokens.getLast? with
  | some (.inserted _) => tokens.dropLast
  | _ => tokens

/-- Judges the tokens of an expression in a text of `size` bytes. -/
def checkTokens (size : Nat) (tokens : List Token) : Except Diagnostic Unit :=
  match tokens.getLast? with
  | none => .error ⟨.empty, 0⟩
  | some last => do
    let s ← tokens.foldlM State.step {}
    s.nesting.finish
    if wantsOperand last.kind then .error ⟨.endOfInput "an operand", size⟩ else .ok ()

/-- Judges whether a text can stand as an expression. -/
def check (src : String) : Except Diagnostic Unit := do
  checkTokens src.utf8ByteSize (dropInserted (← tokenize src))

end GoSource.Expression
