import SimplePreopt.Ir
import SimplePreopt.Bits
import SimplePreopt.Cursor
import SimplePreopt.Eval
import SimplePreopt.DivInfo
import SimplePreopt.Divrem
import SimplePreopt.Build
import SimplePreopt.DivremUnsigned
import SimplePreopt.DivremSigned
import SimplePreopt.Simplify
import SimplePreopt.BranchOrder
import SimplePreopt.Preopt
import SimplePreopt.Frame
import SimplePreopt.Walk
import SimplePreopt.Fallthrough
import SimplePreopt.Dominance
import SimplePreopt.SsaEdits
import SimplePreopt.SsaRun
import SimplePreopt.Typing
import SimplePreopt.Run
import SimplePreopt.Equiv
import SimplePreopt.TypedEdits
import SimplePreopt.DivremExact
import SimplePreopt.EditSim
import SimplePreopt.Magic
import SimplePreopt.Correct
import SimplePreopt.Writes
import SimplePreopt.Cfg
import SimplePreopt.Result
import SimplePreopt.Rerun
