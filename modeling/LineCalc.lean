import LineCalc.Main
import LineCalc.Proofs.Grammar
import LineCalc.Proofs.Parser.Run
import LineCalc.Proofs.Parser.Sound
import LineCalc.Proofs.Parser.Complete
import LineCalc.Proofs.Parser.Limit
import LineCalc.Proofs.Parser.Blame
import LineCalc.Proofs.Parser.Terminals
import LineCalc.Proofs.Token.Layout
import LineCalc.Proofs.Token.Scan
import LineCalc.Proofs.Token.Cut
import LineCalc.Proofs.Token.Places
import LineCalc.Proofs.Token.Spacing
import LineCalc.Proofs.Token.Seam
import LineCalc.Proofs.Token.Joined
import LineCalc.Proofs.Token.Case
import LineCalc.Proofs.Line.Stages
import LineCalc.Proofs.Expr.Typing
import LineCalc.Proofs.Expr.Grouping
import LineCalc.Proofs.Line.Strings
import LineCalc.Proofs.Line.Blanks
import LineCalc.Proofs.Line.Case
import LineCalc.Proofs.Provenance
import LineCalc.Proofs.Text.Lines
import LineCalc.Proofs.Session.OneLine
import LineCalc.Proofs.Session.Notices
import LineCalc.Proofs.Session.Transcript
import LineCalc.Proofs.Session.Diagnostics
import LineCalc.Proofs.Expr.Rendering
import LineCalc.Proofs.Walk
import LineCalc.Proofs.Parser.Walk
import LineCalc.Proofs.Parser.Follow
import LineCalc.Proofs.Parser.Calls
import LineCalc.Proofs.Expr.Dispatch
import LineCalc.Proofs.Token.Reader
import LineCalc.Proofs.Safety
import LineCalc.Proofs.Line.Records
import LineCalc.Proofs.Expr.Failure
import LineCalc.Proofs.Decimal.Numeral
import LineCalc.Proofs.Double.Truncation
import LineCalc.Proofs.Expr.Remainder
import LineCalc.Proofs.Line.Numbers
import LineCalc.Proofs.Line.ReadBack
import LineCalc.Proofs.Text.Order
import LineCalc.Proofs.Expr.Relation
import LineCalc.Proofs.Double.Number
import LineCalc.Proofs.Double.Whole
import LineCalc.Proofs.Expr.Exactness
