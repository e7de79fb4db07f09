import FuncLift.Command
import FuncLift.Lift
import FuncLift.Main
import FuncLift.Proofs.Accurate
import FuncLift.Proofs.Conserved
import FuncLift.Proofs.Bound
import FuncLift.Proofs.Detour
import FuncLift.Proofs.Measured
import FuncLift.Proofs.Resolved
import FuncLift.Proofs.Apart
import FuncLift.Proofs.Asked
import FuncLift.Proofs.Captured
import FuncLift.Proofs.Named
import FuncLift.Proofs.Framed
import FuncLift.Proofs.Semicolons
import FuncLift.Proofs.Spares
import FuncLift.Proofs.Beside
import FuncLift.Proofs.Landed
import FuncLift.Proofs.Tiled
import FuncLift.Proofs.Told
import FuncLift.Proofs.Grown
import FuncLift.Proofs.Channels
import FuncLift.Proofs.Stable
import FuncLift.Proofs.Lexical
import FuncLift.Proofs.Literals
import FuncLift.Proofs.Munched
import FuncLift.Proofs.Numbers
import FuncLift.Proofs.Shrunk
import FuncLift.Proofs.Quoted
import FuncLift.Proofs.Invented
import FuncLift.Proofs.Marked
import FuncLift.Proofs.Materialized
import FuncLift.Proofs.Starts
import FuncLift.Proofs.Shifted
import FuncLift.Proofs.Cursors
import FuncLift.Proofs.Removed
import FuncLift.Proofs.Headed
import FuncLift.Proofs.Rebound
import FuncLift.Proofs.Budget
import FuncLift.Proofs.Indented
import FuncLift.Proofs.Precedence
import FuncLift.Proofs.Unambiguous
