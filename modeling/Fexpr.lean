import Fexpr.Main
import Fexpr.Proofs.Eval.Scoping
import Fexpr.Session.Once
import Fexpr.Session.Shelf
import Fexpr.Value.ToValue
import Fexpr.Proofs.Scope.Moment
import Fexpr.Proofs.Scope.History
import Fexpr.Proofs.Eval.Bracketing
import Fexpr.Proofs.Eval.Handles
import Fexpr.Proofs.Library.Handles
import Fexpr.Proofs.Eval.Steps
import Fexpr.Proofs.Eval.Lifetime
import Fexpr.Proofs.Grammar.Lexical
import Fexpr.Proofs.Grammar.Lexeme
import Fexpr.Proofs.Grammar.Numeral
import Fexpr.Proofs.Grammar.Quoted
import Fexpr.Proofs.Grammar.Literal
import Fexpr.Proofs.Grammar.Written
import Fexpr.Proofs.Form.Script
import Fexpr.Proofs.Form.Printing
import Fexpr.Proofs.Form.Carrying
import Fexpr.Proofs.Grammar.Border
import Fexpr.Proofs.Form.Excerpt
import Fexpr.Proofs.Form.Respacing
import Fexpr.Proofs.Scope.Alike
import Fexpr.Proofs.Eval.Alike
import Fexpr.Proofs.Library.Alike
import Fexpr.Proofs.Eval.Respacing
import Fexpr.Proofs.Eval.Locating
import Fexpr.Proofs.Grammar.Counting
import Fexpr.Proofs.Grammar.Limit
import Fexpr.Proofs.Eval.Depth
import Fexpr.Proofs.Eval.Limit
import Fexpr.Proofs.Eval.Tidiness
import Fexpr.Proofs.Eval.Release
import Fexpr.Proofs.Eval.Caller
import Fexpr.Proofs.Eval.Dispatch
import Fexpr.Proofs.Eval.Parts
import Fexpr.Proofs.Form.Marks
import Fexpr.Proofs.Text.Position
import Fexpr.Proofs.Eval.Pointing
import Fexpr.Proofs.Form.Trimming
import Fexpr.Proofs.Grammar.Furthest
import Fexpr.Proofs.Literal.Integer
import Fexpr.Proofs.Literal.Digits
import Fexpr.Proofs.Literal.Text
import Fexpr.Proofs.Literal.RoundTrip
import Fexpr.Proofs.Literal.Pieces
import Fexpr.Proofs.Eval.Paths
import Fexpr.Proofs.Text.Placement
import Fexpr.Proofs.Form.Enclosing
import Fexpr.Proofs.Eval.Nesting
import Fexpr.Proofs.Scope.Shadowing
import Fexpr.Proofs.Tree.AnyLog
import Fexpr.Proofs.Tree.Walking
import Fexpr.Proofs.Tree.Writing
import Fexpr.Proofs.Decimal.Reading
import Fexpr.Proofs.Literal.Float
import Fexpr.Proofs.Arity.Guard
import Fexpr.Proofs.Eval.Closures
import Fexpr.Proofs.Scope.Lexical
import Fexpr.Proofs.Grammar.Restoring
