import X86Jit.Jit.AluAgree
import X86Jit.Core.CodeGate
import X86Jit.Core.LinkSafety
import X86Jit.Jit.Dispatch
import X86Jit.Lift.ElideSound
import X86Jit.Run.LiftExits
import X86Jit.Run.RealMode
import X86Jit.Core.GuardPages
import X86Jit.Lift.RealRestart
import X86Jit.Jit.TrapWindow
import X86Jit.Core.CodeDrain
import X86Jit.Core.WatchRaces
import X86Jit.Jit.StringReports
import X86Jit.Interp.StringSpec
import X86Jit.Core.Provenance
import X86Jit.Core.CacheMaps
import X86Jit.Jit.TierQueue
import X86Jit.Fpu.Commute
import X86Jit.Fpu.Remainder
import X86Jit.Fpu.Unmasked
import X86Jit.Fpu.FxState
import X86Jit.Interp.PcmpStr
import X86Jit.Interp.Divide
import X86Jit.Interp.Shifts
import X86Jit.Interp.Retired
import X86Jit.Interp.Valign
import X86Jit.Core.CodeMap
import X86Jit.Jit.RetStack
import X86Jit.Run.DirectAccess
import X86Jit.Run.Budget
import X86Jit.Interp.BinaryPoly
import X86Jit.Interp.Deposit
import X86Jit.Lift.Cmpxchg
