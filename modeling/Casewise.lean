import Casewise.Main
import Casewise.Proofs.Diagnostic
import Casewise.Proofs.Evaluation.Closed
import Casewise.Proofs.Evaluation.Congruence
import Casewise.Proofs.Evaluation.Dependence
import Casewise.Proofs.Evaluation.Equality
import Casewise.Proofs.Evaluation.Exact
import Casewise.Proofs.Evaluation.Renaming
import Casewise.Proofs.Evaluation.Shadowing
import Casewise.Proofs.Evaluation.Trace
import Casewise.Proofs.Expr.Parentheses
import Casewise.Proofs.Headroom.Refused
import Casewise.Proofs.Parallel.Delivery
import Casewise.Proofs.Program.Ending
import Casewise.Proofs.Program.Interruption
import Casewise.Proofs.Program.Listing
import Casewise.Proofs.Program.Preorder
import Casewise.Proofs.Program.Safety
import Casewise.Proofs.Program.Spacing
import Casewise.Proofs.Program.Unended
import Casewise.Proofs.Token.Refusal
import Casewise.Proofs.Token.Splitting
import Casewise.Source.Folder
