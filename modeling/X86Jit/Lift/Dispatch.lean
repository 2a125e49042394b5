import X86Jit.Lift.Control

/-! The lift of one instruction by its mnemonic. The vector and x87 instructions are a
parameter. -/
namespace X86Jit.Lift
open X86Jit.Lib

/-- Identification and the save area, beside the vector and x87 ops `Y`. -/
inductive OtherOp (Y : Type)
  | cpuid
  | xgetbv
  | fxState (addr : Val) (restore : Bool)
  | foreign (op : Y)
  deriving DecidableEq, Repr

variable {Y : Type}

def single {X : Type} (op : IrOp X) : LiftM X Bool := do
  Emit.push op
  return false

/-- The lift of an instruction with a flag telling whether it ends the block. -/
def straight {X : Type} (m : LiftM X Unit) : LiftM X Bool := do
  m
  return false

def ending {X : Type} (m : LiftM X Unit) : LiftM X Bool := do
  m
  return true

def liftFxState (insn : Insn) (restore : Bool) : LiftM (OtherOp Y) Unit := do
  let addr ← effectiveAddress insn
  Emit.push (.set (.other (.fxState addr restore)))

def liftReal16 (insn : Insn) : Option (LiftM (OtherOp Y) Bool) :=
  let gate (vector : U8) (savedIp : U64) : LiftM (OtherOp Y) Bool :=
    ending (Emit.push (.intGate vector (maskPc savedIp .real16)))
  match insn.mnemonic with
  | .mov =>
    if (sregOperand insn 0).isSome ∨ (sregOperand insn 1).isSome then
      some (liftMovSregReal16 insn)
    else none
  | .jmp => if isFarJmp insn then some (ending (liftFarJmpReal16 insn)) else none
  | .call =>
    if isFarCall insn then some (ending (liftFarCallReal16 insn))
    else some (ending (liftCallReal16 insn))
  | .retf => some (ending (liftRetfReal16 insn))
  | .ret => some (ending (liftRetReal16 insn))
  | .leave => some (straight liftLeaveReal16)
  | .ud2 => some (gate 6 insn.ip)
  | .int3 => some (gate 3 insn.nextIp)
  | .int => some (gate (immediate8 insn) insn.nextIp)
  | .into => some (ending (Emit.push (.intoGate (maskPc insn.nextIp .real16))))
  | .bound => some (ending (liftBoundReal16 insn))
  | .cli => some (single (.setIf false))
  | .sti => some (single (.setIf true))
  | .pushf => some (single .pushfReal)
  | .popf => some (single .popfReal)
  | .iret => some (ending (Emit.push .iretReal))
  | .clc => some (single (.setCf (some false)))
  | .stc => some (single (.setCf (some true)))
  | .cmc => some (single (.setCf none))
  | .daa => some (single (.bcd .daa))
  | .das => some (single (.bcd .das))
  | .aaa => some (single (.bcd .aaa))
  | .aas => some (single (.bcd .aas))
  | .aam => some (single (.bcd (.aam (immediate8 insn))))
  | .aad => some (single (.bcd (.aad (immediate8 insn))))
  | .loop => some (ending (liftLoopReal16 insn .loop))
  | .loope => some (ending (liftLoopReal16 insn .loope))
  | .loopne => some (ending (liftLoopReal16 insn .loopne))
  | .jcxz => some (ending (liftLoopReal16 insn .jcxz))
  | .salc => some (straight liftSalc)
  | .xlatb => some (straight (liftXlatReal16 insn))
  | .pusha => some (single (.plain .pushaReal))
  | .popa => some (single (.plain .popaReal))
  | .enter => some (straight (liftEnter insn))
  | .les => some (straight (liftLoadFarPtrReal16 insn .es))
  | .lds => some (straight (liftLoadFarPtrReal16 insn .ds))
  | _ => none

def liftCommon (foreign : Insn → CpuMode → LiftM (OtherOp Y) Bool) (insn : Insn)
    (mode : CpuMode) : LiftM (OtherOp Y) Bool :=
  match insn.mnemonic with
  | .nop | .endbr64 | .endbr32 | .pause | .wait | .rdsspd | .rdsspq
  | .prefetchnta | .prefetcht0 | .prefetcht1 | .prefetcht2 | .prefetchw | .prefetchwt1
  | .mfence | .lfence | .sfence | .ldmxcsr | .vldmxcsr => pure false
  | .mov | .movnti => straight (liftMov insn)
  | .lea => straight (liftLea insn)
  | .add => straight (liftBinop insn .add .all true)
  | .adc => straight (liftBinop insn .adc .all true)
  | .sub => straight (liftBinop insn .sub .all true)
  | .sbb => straight (liftBinop insn .sbb .all true)
  | .and => straight (liftBinop insn .and .all true)
  | .or => straight (liftBinop insn .or .all true)
  | .xor => straight (liftBinop insn .xor .all true)
  | .cmp => straight (liftBinop insn .sub .all false)
  | .test => straight (liftBinop insn .and .all false)
  | .shl | .sal => straight (liftBinop insn .shl .shift true)
  | .shr => straight (liftBinop insn .shr .shift true)
  | .sar => straight (liftBinop insn .sar .shift true)
  | .rol => straight (liftBinop insn .rol .cfOf true)
  | .ror => straight (liftBinop insn .ror .cfOf true)
  | .rcl => straight (liftBinop insn .rcl .cfOf true)
  | .rcr => straight (liftBinop insn .rcr .cfOf true)
  | .shld => straight (liftDoubleShift insn true)
  | .shrd => straight (liftDoubleShift insn false)
  | .inc => straight (liftIncdec insn .add)
  | .dec => straight (liftIncdec insn .sub)
  | .neg => straight (liftNeg insn)
  | .not => straight (liftNot insn)
  | .mul => straight (liftWideningMul insn false)
  | .imul => straight (liftImul insn)
  | .div => straight (liftDiv insn false)
  | .idiv => straight (liftDiv insn true)
  | .bswap => straight (liftBswap insn)
  | .movbe => straight (liftMovbe insn)
  | .andn => straight (liftBmi insn .andn)
  | .blsi => straight (liftBmi insn .blsi)
  | .blsr => straight (liftBmi insn .blsr)
  | .blsmsk => straight (liftBmi insn .blsmsk)
  | .bextr => straight (liftBmi insn .bextr)
  | .bzhi => straight (liftBmi insn .bzhi)
  | .pdep => straight (liftBmi insn .pdep)
  | .pext => straight (liftBmi insn .pext)
  | .shlx => straight (liftBmiShift insn .shl)
  | .shrx => straight (liftBmiShift insn .shr)
  | .sarx => straight (liftBmiShift insn .sar)
  | .rorx => straight (liftBmiShift insn .ror)
  | .mulx => straight (liftMulx insn)
  | .xchg => straight (liftXchg insn)
  | .xadd => straight (liftXadd insn)
  | .cmpxchg => straight (liftCmpxchg insn)
  | .cpuid => single (.set (.other .cpuid))
  | .xgetbv => single (.set (.other .xgetbv))
  | .rdtsc => straight liftRdtsc
  | .bsf => straight (liftBitscan insn .bsf)
  | .bsr => straight (liftBitscan insn .bsr)
  | .tzcnt => straight (liftBitscan insn .tzcnt)
  | .lzcnt => straight (liftBitscan insn .lzcnt)
  | .popcnt => straight (liftPopcnt insn)
  | .crc32 => straight (liftCrc32 insn)
  | .stmxcsr | .vstmxcsr => straight (liftStmxcsr insn)
  | .fxsave | .fxsave64 => straight (liftFxState insn false)
  | .fxrstor | .fxrstor64 => straight (liftFxState insn true)
  | .bt => straight (liftBt insn .test)
  | .bts => straight (liftBt insn .set)
  | .btr => straight (liftBt insn .reset)
  | .btc => straight (liftBt insn .complement)
  | .std => single (.setDf true)
  | .cld => single (.setDf false)
  | .string op elem => straight (liftString insn op elem mode)
  | .movzx => straight (liftMovzx insn)
  | .movsx | .movsxd => straight (liftMovsx insn)
  | .cbw => straight (liftCbwFamily .b1 .b2)
  | .cwde => straight (liftCbwFamily .b2 .b4)
  | .cdqe => straight (liftCbwFamily .b4 .b8)
  | .cwd => straight (liftSignIntoDx .b2)
  | .cdq => straight (liftSignIntoDx .b4)
  | .cqo => straight (liftSignIntoDx .b8)
  | .push => straight (liftPush insn mode)
  | .pop => straight (liftPop insn mode)
  | .jmp => ending (liftJmp insn mode)
  | .call => ending (liftCall insn mode)
  | .ret => ending (liftRet insn mode)
  | .leave => straight (liftLeave insn mode)
  | .syscall => ending (Emit.push (.syscall true))
  | .hlt => ending (pushPlain .hlt)
  | .portIn => ending (liftPortIo insn false)
  | .portOut => ending (liftPortIo insn true)
  | .ud2 => ending (pushPlain (.trap 6 0))
  | .int3 => ending (pushPlain (.trap 3 (BitVec.ofNat 8 insn.len)))
  | .int1 => ending (pushPlain (.trap 1 (BitVec.ofNat 8 insn.len)))
  | .int => ending (liftInt insn)
  | .lahf => single .lahf
  | .sahf => single (.set .sahf)
  | .jcc cond =>
    ending (Emit.push
      (.branch cond (maskPc insn.nearBranchTarget mode) (maskPc insn.nextIp mode)))
  | .setcc cond => straight (liftSetcc insn cond)
  | .cmovcc cond => straight (liftCmovcc insn cond)
  | .foreign => foreign insn mode
  | _ => unsupportedInsn

def liftInsn (foreign : Insn → CpuMode → LiftM (OtherOp Y) Bool) (insn : Insn)
    (mode : CpuMode) : LiftM (OtherOp Y) Bool :=
  if mode = .real16 then (liftReal16 insn).getD (liftCommon foreign insn mode)
  else liftCommon foreign insn mode

end X86Jit.Lift
