/-!
# Kinds of tokens

Delimiters, keywords, literal forms and operator symbols of Go, the kind that
joins them, and the classes of kinds that line ends, expressions and declarations
are judged by.
-/

namespace GoSource

/-- The three pairs of delimiters. -/
inductive Delimiter where
  | paren
  | bracket
  | brace
deriving DecidableEq, Repr

namespace Delimiter

def opener : Delimiter → Char
  | paren => '('
  | bracket => '['
  | brace => '\x7b'

def closer : Delimiter → Char
  | paren => ')'
  | bracket => ']'
  | brace => '\x7d'

def all : List Delimiter := [paren, bracket, brace]

end Delimiter

/-- The reserved words. -/
inductive Keyword where
  | kwBreak
  | kwCase
  | kwChan
  | kwConst
  | kwContinue
  | kwDefault
  | kwDefer
  | kwElse
  | kwFallthrough
  | kwFor
  | kwFunc
  | kwGo
  | kwGoto
  | kwIf
  | kwImport
  | kwInterface
  | kwMap
  | kwPackage
  | kwRange
  | kwReturn
  | kwSelect
  | kwStruct
  | kwSwitch
  | kwType
  | kwVar
deriving DecidableEq, Repr

namespace Keyword

def spelling : Keyword → String
  | kwBreak => "break"
  | kwCase => "case"
  | kwChan => "chan"
  | kwConst => "const"
  | kwContinue => "continue"
  | kwDefault => "default"
  | kwDefer => "defer"
  | kwElse => "else"
  | kwFallthrough => "fallthrough"
  | kwFor => "for"
  | kwFunc => "func"
  | kwGo => "go"
  | kwGoto => "goto"
  | kwIf => "if"
  | kwImport => "import"
  | kwInterface => "interface"
  | kwMap => "map"
  | kwPackage => "package"
  | kwRange => "range"
  | kwReturn => "return"
  | kwSelect => "select"
  | kwStruct => "struct"
  | kwSwitch => "switch"
  | kwType => "type"
  | kwVar => "var"

def all : List Keyword :=
  [kwBreak, kwCase, kwChan, kwConst, kwContinue, kwDefault, kwDefer, kwElse, kwFallthrough, kwFor,
   kwFunc, kwGo, kwGoto, kwIf, kwImport, kwInterface, kwMap, kwPackage, kwRange, kwReturn,
   kwSelect, kwStruct, kwSwitch, kwType, kwVar]

/-- The keyword that is written `word`, if there is one. -/
def ofSpelling? (word : List Char) : Option Keyword :=
  all.find? fun k => k.spelling.toList == word

/-- Breaking out, going on, falling through or returning may end a line. -/
def endsStatement : Keyword → Bool
  | kwBreak | kwContinue | kwFallthrough | kwReturn => true
  | _ => false

/-- Keywords that a type or a function literal may use; all others belong to
statements and declarations. -/
def isExpressionKeyword : Keyword → Bool
  | kwChan | kwFunc | kwInterface | kwMap | kwStruct => true
  | _ => false

/-- Keywords that head a declaration of a file. -/
def startsDeclaration : Keyword → Bool
  | kwImport | kwConst | kwVar | kwType | kwFunc => true
  | _ => false

end Keyword

/-- The forms of a basic literal; a raw string is a string here. -/
inductive Literal where
  | int
  | float
  | imaginary
  | rune
  | string
deriving DecidableEq, Repr

/-- Operators and punctuation other than delimiters. -/
inductive Symbol where
  | ellipsis
  | shlAssign
  | shrAssign
  | andNotAssign
  | addAssign
  | subAssign
  | mulAssign
  | divAssign
  | remAssign
  | andAssign
  | orAssign
  | xorAssign
  | shl
  | shr
  | andNot
  | logicalAnd
  | logicalOr
  | equal
  | notEqual
  | lessEqual
  | greaterEqual
  | increment
  | decrement
  | define
  | arrow
  | assign
  | plus
  | minus
  | star
  | slash
  | percent
  | ampersand
  | pipe
  | caret
  | tilde
  | bang
  | less
  | greater
  | comma
  | semicolon
  | colon
  | dot
deriving DecidableEq, Repr

namespace Symbol

def spelling : Symbol → String
  | ellipsis => "..."
  | shlAssign => "<<="
  | shrAssign => ">>="
  | andNotAssign => "&^="
  | addAssign => "+="
  | subAssign => "-="
  | mulAssign => "*="
  | divAssign => "/="
  | remAssign => "%="
  | andAssign => "&="
  | orAssign => "|="
  | xorAssign => "^="
  | shl => "<<"
  | shr => ">>"
  | andNot => "&^"
  | logicalAnd => "&&"
  | logicalOr => "||"
  | equal => "=="
  | notEqual => "!="
  | lessEqual => "<="
  | greaterEqual => ">="
  | increment => "++"
  | decrement => "--"
  | define => ":="
  | arrow => "<-"
  | assign => "="
  | plus => "+"
  | minus => "-"
  | star => "*"
  | slash => "/"
  | percent => "%"
  | ampersand => "&"
  | pipe => "|"
  | caret => "^"
  | tilde => "~"
  | bang => "!"
  | less => "<"
  | greater => ">"
  | comma => ","
  | semicolon => ";"
  | colon => ":"
  | dot => "."

/-- Every symbol, longer spellings before shorter ones. -/
def all : List Symbol :=
  [ellipsis, shlAssign, shrAssign, andNotAssign, addAssign, subAssign, mulAssign, divAssign,
   remAssign, andAssign, orAssign, xorAssign, shl, shr, andNot, logicalAnd, logicalOr, equal,
   notEqual, lessEqual, greaterEqual, increment, decrement, define, arrow, assign, plus, minus,
   star, slash, percent, ampersand, pipe, caret, tilde, bang, less, greater, comma, semicolon,
   colon, dot]

/-- The symbol with the longest spelling that `cs` starts with. -/
def longest? (cs : List Char) : Option Symbol :=
  all.find? fun s => s.spelling.toList.isPrefixOf cs

/-- Operators that stand only between two operands. -/
def isBinaryOnly : Symbol → Bool
  | slash | percent | shl | shr | andNot | logicalAnd | logicalOr | equal | notEqual | less
  | lessEqual | greater | greaterEqual | pipe => true
  | _ => false

/-- Operators that may also stand before a single operand. -/
def isUnary : Symbol → Bool
  | plus | minus | star | ampersand | caret | bang | arrow | tilde => true
  | _ => false

/-- Plain, defining and compound assignment, and the two step operators. -/
def isAssignment : Symbol → Bool
  | assign | define | addAssign | subAssign | mulAssign | divAssign | remAssign | andAssign
  | orAssign | xorAssign | shlAssign | shrAssign | andNotAssign | increment | decrement => true
  | _ => false

end Symbol

/-- What a piece of source text is. -/
inductive Kind where
  | newline
  | lineComment
  | blockComment
  | keyword (word : Keyword)
  | ident
  | literal (form : Literal)
  | rawString
  | symbol (mark : Symbol)
  | opening (pair : Delimiter)
  | closing (pair : Delimiter)
deriving DecidableEq, Repr

namespace Kind

abbrev comma : Kind := .symbol .comma

abbrev semicolon : Kind := .symbol .semicolon

abbrev colon : Kind := .symbol .colon

abbrev dot : Kind := .symbol .dot

/-- Line ends and comments, which no grammar sees. -/
def isTrivia : Kind → Bool
  | newline | lineComment | blockComment => true
  | _ => false

/-- A line that ends after such a kind ends a statement. -/
def endsStatement : Kind → Bool
  | ident | literal _ | rawString | closing _ => true
  | keyword word => word.endsStatement
  | symbol .increment | symbol .decrement => true
  | _ => false

/-- The form of a literal, if the kind is one. -/
def literal? : Kind → Option Literal
  | literal form => some form
  | rawString => some .string
  | _ => none

def isLiteral (k : Kind) : Bool := k.literal?.isSome

/-- Identifiers and literals. -/
def isOperand (k : Kind) : Bool := k == ident || k.isLiteral

def isBinaryOnly : Kind → Bool
  | symbol mark => mark.isBinaryOnly
  | _ => false

def isUnary : Kind → Bool
  | symbol mark => mark.isUnary
  | _ => false

def isOperator (k : Kind) : Bool := k.isBinaryOnly || k.isUnary

def isAssignment : Kind → Bool
  | symbol mark => mark.isAssignment
  | _ => false

/-- Keywords that begin statements or declarations and never occur in an expression. -/
def isStatementKeyword : Kind → Bool
  | keyword word => !word.isExpressionKeyword
  | _ => false

def startsDeclaration : Kind → Bool
  | keyword word => word.startsDeclaration
  | _ => false

end Kind

end GoSource
