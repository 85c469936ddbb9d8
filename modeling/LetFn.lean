import LetFn.Check.Analyze
import LetFn.CommandLine
import LetFn.Error.Render
import LetFn.Grammar.Parse
import LetFn.Main
import LetFn.Options
import LetFn.Proofs.Check.CallErrors
import LetFn.Proofs.Check.Complete
import LetFn.Proofs.Check.Conservative
import LetFn.Proofs.Check.DeclaredOnce
import LetFn.Proofs.Check.Declaring
import LetFn.Proofs.Check.ErrorPlaces
import LetFn.Proofs.Check.FirstTypes
import LetFn.Proofs.Check.Following
import LetFn.Proofs.Check.Grouping
import LetFn.Proofs.Check.InTurn
import LetFn.Proofs.Check.Lasting
import LetFn.Proofs.Check.Levels
import LetFn.Proofs.Check.Lexical
import LetFn.Proofs.Check.Lifting
import LetFn.Proofs.Check.Mismatches
import LetFn.Proofs.Check.Nesting
import LetFn.Proofs.Check.OldNotes
import LetFn.Proofs.Check.Passes
import LetFn.Proofs.Check.Rerunning
import LetFn.Proofs.Check.Resolution
import LetFn.Proofs.Check.Scoping
import LetFn.Proofs.Check.Settling
import LetFn.Proofs.Check.Synthesis
import LetFn.Proofs.Check.Twice
import LetFn.Proofs.Error.Carets
import LetFn.Proofs.Grammar.Enclosed
import LetFn.Proofs.Grammar.Ending
import LetFn.Proofs.Grammar.Positions
import LetFn.Proofs.Grammar.Precedence
import LetFn.Proofs.Grammar.Reading
import LetFn.Proofs.Grammar.Rereading
import LetFn.Proofs.Grammar.RoundTrip
import LetFn.Proofs.Grammar.Shape
import LetFn.Proofs.Grammar.Spans
import LetFn.Proofs.Grammar.TokenOrder
import LetFn.Proofs.Grammar.Within
import LetFn.Proofs.Token.Lexemes
import LetFn.Proofs.Token.Numbers
import LetFn.Proofs.Tree.Parts
import LetFn.Proofs.Tree.Walks
import LetFn.Proofs.Types.Chains
import LetFn.Proofs.Types.Growth
import LetFn.Proofs.Types.Interning
import LetFn.Proofs.Types.Nearest
import LetFn.Proofs.Types.Unifying
import LetFn.Source
import LetFn.Text.Quoted
import LetFn.Token.Scan
import LetFn.Tree.Print
import LetFn.Tree.Revise
import LetFn.Tree.Walk
import LetFn.Types.Unify
