import GoSource.Check.Nesting

/-!
# Source files and function bodies

A file is a package clause followed by declarations, imports first. Of a
declaration only its extent is judged: it starts with a declaring keyword and
runs to the first semicolon outside all delimiters. A function body is judged as
the body of a function in an otherwise empty file.
-/

namespace GoSource.SourceFile

/-- Where a check of a file stands between two tokens. -/
inductive State where
  /-- Before the package clause. -/
  | packageClause
  /-- After the keyword of the package clause. -/
  | packageName
  /-- After the name in the package clause. -/
  | packageEnd
  /-- Between declarations; `pastImports` once one was no import. -/
  | outside (pastImports : Bool)
  /-- Inside a declaration; `started` once a token followed its keyword. -/
  | inside (pastImports : Bool) (nesting : Nesting) (started : Bool)
deriving DecidableEq, Repr

/-- Moves on if the token has the kind that is due. -/
def State.expect (next : State) (kind : Kind) (expected : String) (t : Token) :
    Except Diagnostic State :=
  if t.kind = kind then .ok next else .error (t.unexpected expected)

/-- The state after a token. -/
def State.step (s : State) (t : Token) : Except Diagnostic State :=
  match s with
  | packageClause => expect packageName (.keyword .kwPackage) "package clause" t
  | packageName => expect packageEnd .ident "package name" t
  | packageEnd => expect (outside false) .semicolon "newline after package clause" t
  | outside pastImports =>
    if !t.kind.startsDeclaration then .error (t.unexpected "a declaration")
    else if t.kind ≠ .keyword .kwImport then .ok (inside true {} false)
    else if pastImports then .error (t.unexpected "imports before other declarations")
    else .ok (inside false {} false)
  | inside pastImports nesting started =>
    if t.kind = .keyword .kwPackage ∨ t.kind = .keyword .kwImport then
      .error (t.unexpected "a statement")
    else if t.kind = .semicolon ∧ nesting.isTop then
      if started then .ok (outside pastImports) else .error (t.unexpected "a declaration body")
    else do
      let nesting ← nesting.feed t
      pure (inside pastImports nesting true)

/-- Whether the tokens may end in this state, in a text of `size` bytes. -/
def State.finish (size : Nat) : State → Except Diagnostic Unit
  | packageClause => .error ⟨.endOfInput "package clause", size⟩
  | packageName => .error ⟨.endOfInput "package name", size⟩
  | packageEnd => .error ⟨.endOfInput "newline after package clause", size⟩
  | outside _ => .ok ()
  | inside _ nesting _ => do
    nesting.finish
    .error ⟨.endOfInput "end of declaration", size⟩

/-- Judges the tokens of a file in a text of `size` bytes. -/
def checkTokens (size : Nat) (tokens : List Token) : Except Diagnostic Unit := do
  let s ← tokens.foldlM State.step .packageClause
  s.finish size

/-- Judges whether a text can stand as a source file. -/
def check (src : String) : Except Diagnostic Unit := do
  checkTokens src.utf8ByteSize (← tokenize src)

/-- The file that a function body is judged in, up to the body. -/
def bodyOpening : String := "package p\nfunc _() \x7b\n"

/-- What follows the body in that file. -/
def bodyClosing : String := "\n\x7d\n"

/-- Judges whether a text can stand as the statements of a function; offsets
count from the start of the body. -/
def checkBody (src : String) : Except Diagnostic Unit :=
  (check (bodyOpening ++ src ++ bodyClosing)).mapError (·.rebase bodyOpening.utf8ByteSize)

end GoSource.SourceFile
