import X86Jit.Interp.Other
import X86Jit.Lift.Operand

/-! The x87 instructions. One op does all of an instruction; what it computes is left open here,
and how it reaches memory is not. -/
namespace X86Jit
open X86Jit.Lib X86Jit.Lift

structure X87Op (K : Type) where
  kind : K
  addr : Val
  sti : U8
  deriving DecidableEq, Repr

/-- An op that stores gives its bytes, unless an unmasked exception abandons it before; a store that
is refused leaves what the op did until then. The registers it may write are its own and AX. -/
structure X87 (K : Type) where
  kindOf : Insn → Option K
  stiOf : Insn → U8
  waits : K → Ext → Bool
  loads : K → Option ℕ
  stores : K → U8 → Ext → Option (List U8)
  refused : K → U8 → Ext → Ext
  commit : K → U8 → List U8 → Ext × U64 → (Ext × U64) × FlagWrites

namespace X87
variable {K : Type} (u : X87 K)

def lift (insn : Insn) (_ : CpuMode) : LiftM (OtherOp (X87Op K)) Bool := do
  let kind ← orUnsupported (u.kindOf insn)
  let addr ← if insn.operands.any (· == .memory) then effectiveAddress insn else pure (.imm 0)
  Emit.push (.set (.other (.foreign ⟨kind, addr, u.stiOf insn⟩)))
  return false

variable (op : X87Op K) (g : Guest Ext)

def commitTo (bs : List U8) : Outcome (Guest Ext) × FlagWrites :=
  let r := u.commit op.kind op.sti bs (g.ext, g.gpr rax)
  (.ok { g.setGpr rax r.1.2 with ext := r.1.1 }, r.2)

def exec : OtherOps (X87Op K) Ext := fun op g =>
  let a := g.readVal op.addr
  if u.waits op.kind g.ext then
    (.error (g.stopAt g.curAddr (.exit (.exception g.curAddr 16))), fun _ => none)
  else
    match u.loads op.kind with
    | some n =>
      match g.mem.readRamGuest a n with
      | none => (.error (wideFault g a .read), fun _ => none)
      | some bs => u.commitTo op g bs
    | none =>
      match u.stores op.kind op.sti g.ext with
      | none => u.commitTo op g []
      | some bs =>
        match g.mem.writeRamGuest a bs with
        | none =>
          (.error (wideFault { g with ext := u.refused op.kind op.sti g.ext } a .write),
            fun _ => none)
        | some mem => u.commitTo op { g with mem } []

end X87

end X86Jit
