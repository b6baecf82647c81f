import GoSource.Check.Checker
import GoSource.Check.Expression
import GoSource.Check.Literal
import GoSource.Check.Nesting
import GoSource.Check.SourceFile
import GoSource.Diagnostic
import GoSource.Fault
import GoSource.Imports.ImportSet
import GoSource.Imports.Mention
import GoSource.Imports.Qualifier
import GoSource.Imports.Renaming
import GoSource.Layout.Decl
import GoSource.Layout.Doc
import GoSource.Layout.Page
import GoSource.Layout.Type
import GoSource.Model.Annotations
import GoSource.Model.Decl
import GoSource.Model.File
import GoSource.Model.Group
import GoSource.Model.Package
import GoSource.Model.TypeExpr
import GoSource.Name
import GoSource.Node
import GoSource.Text.Blank
import GoSource.Text.CodePoint
import GoSource.Text.DecimalDigit
import GoSource.Text.Letter
import GoSource.Text.Quoted
import GoSource.Token.Kind
import GoSource.Token.Lexeme
import GoSource.Token.Number
import GoSource.Token.Semicolon
import GoSource.Validate.Decl
import GoSource.Validate.Package
import GoSource.Validate.Type
import GoSource.Proofs.Check.Document
import GoSource.Proofs.Check.ExpressionGrammar
import GoSource.Proofs.Check.File
import GoSource.Proofs.Check.FileGrammar
import GoSource.Proofs.Check.Nested
import GoSource.Proofs.Check.Phase
import GoSource.Proofs.Check.Reading
import GoSource.Proofs.Check.Type
import GoSource.Proofs.Imports.Fetched
import GoSource.Proofs.Imports.Fetching
import GoSource.Proofs.Imports.ImportSet
import GoSource.Proofs.Imports.Mention
import GoSource.Proofs.Imports.Occurrence
import GoSource.Proofs.Imports.QualifierUse
import GoSource.Proofs.Imports.Renaming
import GoSource.Proofs.Imports.RenamingLaws
import GoSource.Proofs.Imports.RenderedType
import GoSource.Proofs.Layout.Decl
import GoSource.Proofs.Layout.Failure
import GoSource.Proofs.Layout.Output
import GoSource.Proofs.Layout.Type
import GoSource.Proofs.Layout.UniqueReading
import GoSource.Proofs.Layout.Written
import GoSource.Proofs.Node.Parts
import GoSource.Proofs.Node.Rewriting
import GoSource.Proofs.Node.RewritingLaws
import GoSource.Proofs.Text.CharacterClass
import GoSource.Proofs.Token.Coverage
import GoSource.Proofs.Token.Insertion
import GoSource.Proofs.Token.Kinds
import GoSource.Proofs.Token.LexemeRules
import GoSource.Proofs.Token.Lexemes
import GoSource.Proofs.Token.Line
import GoSource.Proofs.Token.Respelled
import GoSource.Proofs.Token.Respelling
import GoSource.Proofs.Validate.LocalRules
import GoSource.Proofs.Validate.Renaming
import GoSource.Proofs.Validate.Rewriting
import GoSource.Proofs.Validate.Rules
import GoSource.Proofs.Validate.Workspace
import GoSource.Proofs.Check.Body
import GoSource.Proofs.Token.Joining
import GoSource.Proofs.Check.Initializer
import GoSource.Proofs.Imports.Stopping
import GoSource.Proofs.Layout.Comment
import GoSource.Proofs.Layout.Quoted
import GoSource.Proofs.Text.Quoted
import GoSource.Proofs.Token.LongestNumber
import GoSource.Proofs.Check.BodyLocation
import GoSource.Proofs.Check.Formula
import GoSource.Proofs.Validate.FaultPath
import GoSource.Proofs.Layout.Frame
import GoSource.Proofs.Imports.Union
import GoSource.Proofs.Layout.Lines
import GoSource.Proofs.Check.Balanced
import GoSource.Proofs.Check.Literal
import GoSource.Proofs.Token.BlockComment
import GoSource.Proofs.Token.Padding
import GoSource.Proofs.Validate.Lookup
