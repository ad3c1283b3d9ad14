import LambdaCalc.Text.Blank
import LambdaCalc.Text.Decimal
import LambdaCalc.Text.Lines
import LambdaCalc.Text.Quoted
import LambdaCalc.Token
import LambdaCalc.Token.Lexeme
import LambdaCalc.Token.Source
import LambdaCalc.Error
import LambdaCalc.Files
import LambdaCalc.Attempt
import LambdaCalc.Term.Basic
import LambdaCalc.Term.Church
import LambdaCalc.Term.Printer
import LambdaCalc.Term.Reduction
import LambdaCalc.Term.Renaming
import LambdaCalc.Term.Substitution
import LambdaCalc.Command
import LambdaCalc.Program
import LambdaCalc.Reader.Basic
import LambdaCalc.Reader.Expression
import LambdaCalc.Reader.Statement
import LambdaCalc.Script
import LambdaCalc.Session
import LambdaCalc.CommandLine
import LambdaCalc.CommandLine.Options
import LambdaCalc.Console
import LambdaCalc.Main
import LambdaCalc.Proofs.Nameless
import LambdaCalc.Proofs.NormalOrder
import LambdaCalc.Proofs.Preservation
import LambdaCalc.Proofs.Rewriting
import LambdaCalc.Proofs.Scope
import LambdaCalc.Proofs.Budget
import LambdaCalc.Proofs.Renaming
import LambdaCalc.Proofs.Building
import LambdaCalc.Proofs.Reading
import LambdaCalc.Proofs.Parsing
import LambdaCalc.Proofs.Statement
import LambdaCalc.Proofs.History
import LambdaCalc.Proofs.Naming
import LambdaCalc.Proofs.Capture
import LambdaCalc.Proofs.Phrase
import LambdaCalc.Proofs.Grammar
import LambdaCalc.Proofs.RoundTrip
import LambdaCalc.Proofs.Signals
import LambdaCalc.Proofs.Lifting
import LambdaCalc.Proofs.Normalization
import LambdaCalc.Proofs.Recovery
import LambdaCalc.Proofs.Leaving
import LambdaCalc.Proofs.Renumbering
import LambdaCalc.Proofs.Sentence
import LambdaCalc.Proofs.Readable
import LambdaCalc.Proofs.Respelling
import LambdaCalc.Proofs.Positions
import LambdaCalc.Proofs.Meaning
import LambdaCalc.Proofs.Expansion
import LambdaCalc.Proofs.Correspondence
import LambdaCalc.Proofs.Inlining
import LambdaCalc.Proofs.Repetition
import LambdaCalc.Proofs.Reserving
import LambdaCalc.Proofs.Boundary
import LambdaCalc.Proofs.LineEnds
import LambdaCalc.Proofs.Lockstep
import LambdaCalc.Proofs.Agreement
import LambdaCalc.Proofs.Rendering
import LambdaCalc.Proofs.Raising
import LambdaCalc.Proofs.Rereading
import LambdaCalc.Proofs.Locality
import LambdaCalc.Proofs.Continuation
import LambdaCalc.Proofs.Feeding
import LambdaCalc.Proofs.Unreadable
import LambdaCalc.Proofs.Sharing
import LambdaCalc.Proofs.FirstRenaming
import LambdaCalc.Proofs.Iteration
import LambdaCalc.Proofs.Arithmetic
import LambdaCalc.Proofs.Termination
import LambdaCalc.Proofs.Copying
import LambdaCalc.Proofs.Keeping
import LambdaCalc.Proofs.NumeralApplication
import LambdaCalc.Proofs.Digits
import LambdaCalc.Proofs.Printing
import LambdaCalc.Proofs.Accounting
import LambdaCalc.Proofs.Drawing
