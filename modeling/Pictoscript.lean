import Pictoscript.Position
import Pictoscript.Operator
import Pictoscript.Pictograph
import Pictoscript.Token
import Pictoscript.Vocabulary
import Pictoscript.Tape
import Pictoscript.Tree
import Pictoscript.Tree.Outline
import Pictoscript.SyntaxError
import Pictoscript.Reading
import Pictoscript.Grammar.Expression
import Pictoscript.Grammar.Statement
import Pictoscript.Grammar.Progress
import Pictoscript.Grammar.Program
import Pictoscript.Scopes
import Pictoscript.SemanticError
import Pictoscript.Script.Quoted
import Pictoscript.Script.Rendering
import Pictoscript.Script
import Pictoscript.Excerpt
import Pictoscript.Compile
import Pictoscript.Json
import Pictoscript.Json.Scan
import Pictoscript.Json.Report
import Pictoscript.Failure
import Pictoscript.Settings
import Pictoscript.CommandLine.Arguments
import Pictoscript.CommandLine
import Pictoscript.Main
import Pictoscript.Proofs.Grammar.Written
import Pictoscript.Proofs.Grammar.Sound
import Pictoscript.Proofs.Lexing.Cursor
import Pictoscript.Proofs.Lexing.Tape
import Pictoscript.Proofs.Lexing
import Pictoscript.Proofs.Grammar.Complete
import Pictoscript.Proofs.Grammar.Spelling
import Pictoscript.Proofs.Shape
import Pictoscript.Proofs.Nodes
import Pictoscript.Proofs.Rendering
import Pictoscript.Proofs.Erasure
import Pictoscript.Proofs.Grammar.Printing
import Pictoscript.Proofs.Grammar.RoundTrip
import Pictoscript.Proofs.Static.Visibility
import Pictoscript.Proofs.Static.Violations
import Pictoscript.Proofs.Static.Semantics
import Pictoscript.Proofs.JavaScript.Lexer
import Pictoscript.Proofs.JavaScript.Reader
import Pictoscript.Proofs.JavaScript.Templates
import Pictoscript.Proofs.JavaScript.LeftToRight
import Pictoscript.Proofs.JavaScript.Agreement
import Pictoscript.Proofs.JavaScript.Subscripts
import Pictoscript.Proofs.Lexing.Positions
import Pictoscript.Proofs.Lexing.Concatenation
import Pictoscript.Proofs.Transcription
import Pictoscript.Proofs.Relocation
import Pictoscript.Proofs.Grammar.Sequencing
import Pictoscript.Proofs.Grammar.Extension
import Pictoscript.Proofs.Grammar.ViablePrefix
import Pictoscript.Proofs.JavaScript.Receivers
import Pictoscript.Proofs.JavaScript.Punctuation
import Pictoscript.Proofs.Lexing.Reference
import Pictoscript.Proofs.Lexing.Pulling
import Pictoscript.Proofs.Static.Discipline
import Pictoscript.Proofs.Grammar.Transcribed
import Pictoscript.Proofs.Grammar.Relocated
import Pictoscript.Proofs.Lexing.Transcribed
import Pictoscript.Proofs.Layout
import Pictoscript.Proofs.Scopes
import Pictoscript.Proofs.WellShaped
import Pictoscript.Proofs.Grammar.Enclosed
import Pictoscript.Proofs.JavaScript.Brackets
import Pictoscript.Proofs.Diagnostics
import Pictoscript.Proofs.Sinks
import Pictoscript.Proofs.Selectors
import Pictoscript.Proofs.Grammar.Negation
import Pictoscript.Proofs.Grammar.DigitRuns
import Pictoscript.Proofs.JavaScript.Literals
import Pictoscript.Proofs.Outline.Indentation
import Pictoscript.Proofs.Outline.Labels
import Pictoscript.Proofs.Outline.Readable
import Pictoscript.Proofs.Folding
import Pictoscript.Proofs.Grammar.Procedures
import Pictoscript.Proofs.Grammar.Followed
import Pictoscript.Proofs.Grammar.Descent
import Pictoscript.Proofs.Grammar.Termination
import Pictoscript.Proofs.Symbols
