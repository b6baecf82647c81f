/-!
# Quoted text

Interpreted string literals. An import path escapes the quote and the backslash;
a struct tag escapes line breaks and tabs as well, so that it stays on its line.
-/

namespace GoSource.Text

/-- The characters between double quotes, each replaced by its escape if it has one. -/
def quoteWith (escape : Char → List Char) (s : String) : String :=
  String.ofList ('"' :: s.toList.flatMap escape ++ ['"'])

def escapePath (c : Char) : List Char :=
  if c = '"' ∨ c = '\\' then ['\\', c] else [c]

def escapeTag (c : Char) : List Char :=
  if c = '"' ∨ c = '\\' then ['\\', c]
  else if c = '\n' then ['\\', 'n']
  else if c = '\r' then ['\\', 'r']
  else if c = '\t' then ['\\', 't']
  else [c]

/-- The literal for an import path. -/
def quotePath (path : String) : String := quoteWith escapePath path

/-- The literal for a struct tag. -/
def quoteTag (tag : String) : String := quoteWith escapeTag tag

end GoSource.Text
