import GoSource.Token.Semicolon

/-!
# Nesting of delimiters

The delimiters that are open at some place of a token list, innermost first. The
number of open braces is kept beside them, since whether a place lies inside a
brace is asked at every token.
-/

namespace GoSource

/-- An open delimiter and the byte offset at which it was opened. -/
structure Opened where
  pair : Delimiter
  offset : Nat
deriving DecidableEq, Repr

/-- The open delimiters, innermost first, and how many of them are braces. -/
structure Nesting where
  opened : List Opened := []
  braces : Nat := 0
deriving DecidableEq, Repr

namespace Nesting

/-- Outside all delimiters. -/
def isTop (n : Nesting) : Bool := n.opened.isEmpty

/-- Inside a brace, at any depth. -/
def inBraces (n : Nesting) : Bool := 0 < n.braces

def push (n : Nesting) (o : Opened) : Nesting :=
  ⟨o :: n.opened, if o.pair = .brace then n.braces + 1 else n.braces⟩

/-- The nesting after a token: an opener goes on top, a closer takes its partner
off, anything else changes nothing. -/
def feed (n : Nesting) (t : Token) : Except Diagnostic Nesting :=
  match t.kind with
  | .opening pair => .ok (n.push ⟨pair, t.start⟩)
  | .closing pair =>
    match n.opened with
    | o :: rest =>
      if o.pair = pair then
        .ok ⟨rest, if pair = .brace then n.braces - 1 else n.braces⟩
      else .error ⟨.unmatched pair, t.start⟩
    | [] => .error ⟨.unmatched pair, t.start⟩
  | _ => .ok n

/-- At the end of the tokens nothing may be open; the innermost opener is blamed. -/
def finish (n : Nesting) : Except Diagnostic Unit :=
  match n.opened with
  | [] => .ok ()
  | o :: _ => .error ⟨.unclosed o.pair, o.offset⟩

end Nesting

/-- The diagnostic for a token that may not stand where it does. -/
def Token.unexpected (t : Token) (expected : String) : Diagnostic :=
  ⟨.unexpected t.shown expected, t.start⟩

end GoSource
