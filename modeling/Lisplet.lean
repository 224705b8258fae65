import Lisplet.Main
import Lisplet.Text.Chars
import Lisplet.Proofs.Reader.Calls
import Lisplet.Proofs.RoundTrip
import Lisplet.Proofs.Eval.Visible
import Lisplet.Proofs.Session.Kept
import Lisplet.Proofs.Reader.Language
import Lisplet.Proofs.Token.Segments
import Lisplet.Proofs.ReadBack
import Lisplet.Proofs.Token.InLine
import Lisplet.Proofs.Session.Leftover
import Lisplet.Proofs.Session.Resync
import Lisplet.Proofs.Eval.Depth
import Lisplet.Proofs.Session.Pieces
import Lisplet.Proofs.Session.Places
import Lisplet.Proofs.Session.LineByLine
import Lisplet.Proofs.Eval.Unroll
import Lisplet.Proofs.Eval.Watch
import Lisplet.Proofs.Eval.Assertion
import Lisplet.Proofs.Scopes.Values
import Lisplet.Proofs.Eval.Bounded
import Lisplet.Proofs.Session.Discipline
import Lisplet.Proofs.Session.CallDepth
import Lisplet.Proofs.Session.ReadBack
import Lisplet.Proofs.Eval.Checked
import Lisplet.Proofs.Scopes.Frames
import Lisplet.Proofs.Text.Buffer
import Lisplet.Proofs.Text.Delivery
import Lisplet.Proofs.Word
import Lisplet.Proofs.Session.InBounds
import Lisplet.Proofs.Reader.Offence
import Lisplet.Proofs.Datum.Equality
import Lisplet.Proofs.Eval.LambdaCall
import Lisplet.Proofs.Session.Progress
import Lisplet.Proofs.Word.Floor
import Lisplet.Proofs.Eval.Call
import Lisplet.Proofs.Eval.Division
import Lisplet.Proofs.Eval.Rejected
import Lisplet.Proofs.Eval.Muted
import Lisplet.Proofs.Session.Muted
import Lisplet.Proofs.Text.Decimal
import Lisplet.Proofs.Reader.Numerals
