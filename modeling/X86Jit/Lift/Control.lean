import X86Jit.Lift.Integer

/-! The stack, string, control-flow and system instructions, lifted to ops. -/
namespace X86Jit.Lift
open X86Jit.Lib

variable {X : Type} (insn : Insn)

def sregOperand (i : ℕ) : Option Reg :=
  match insn.op i with
  | .register (.segment s) => icedSegmentReg s
  | _ => none

/-- `push`: the store comes before the stack pointer. -/
def liftPush (mode : CpuMode) : LiftM X Unit := do
  let size ← opSize (pushPopSize insn mode)
  let src ← match sregOperand insn 0 with
    | some seg => readReg seg
    | none => lowerRead insn 0
  let rsp ← readReg .rsp
  let newRsp ← Emit.fresh
  Emit.push (alu .sub newRsp rsp (.imm (BitVec.ofNat 64 size.bytes)) .b8 .none)
  emitSpWrap newRsp mode
  let addr ← stackAddr (.temp newRsp) mode
  pushPlain (.store addr src size)
  pushPlain (.writeReg .rsp (.temp newRsp) (spWriteSize mode))

/-- To memory the store comes before the stack pointer, to a register after it, so that `pop rsp`
keeps the popped value. -/
def liftPop (mode : CpuMode) : LiftM X Unit := do
  let size ← opSize (pushPopSize insn mode)
  let rsp ← readReg .rsp
  let loadAddr ← stackAddr rsp mode
  let val ← emitLoad loadAddr size
  let newRsp ← Emit.fresh
  Emit.push (alu .add newRsp rsp (.imm (BitVec.ofNat 64 size.bytes)) .b8 .none)
  if mode = .real16 then emitSpWrap newRsp mode else pure ()
  let writeback : PlainOp := .writeReg .rsp (.temp newRsp) (spWriteSize mode)
  let dst ← match sregOperand insn 0 with
    | some seg => pure (.reg seg .b2)
    | none => lowerWriteTarget insn 0
  match dst with
  | .mem addr size => do
    emitWrite (.mem addr size) val
    pushPlain writeback
  | dst => do
    pushPlain writeback
    emitWrite dst val

def liftLeave (mode : CpuMode) : LiftM X Unit := do
  let stk : Size := if insn.code = .leavew then .b2 else stackSlot mode
  let rbp ← readReg .rbp
  let val ← emitLoad rbp stk
  let newRsp ← aluNone .add rbp (.imm (BitVec.ofNat 64 stk.bytes)) .b8
  pushPlain (.writeReg .rbp val stk)
  pushPlain (.writeReg .rsp newRsp (spWriteSize mode))

/-- `leave` pops off the stack segment in real mode. -/
def liftLeaveReal16 : LiftM X Unit := do
  let bp ← readReg .rbp
  let bp16 ← aluNone .and bp (.imm 0xffff) .b8
  let loadAddr ← stackAddr bp16 .real16
  let val ← emitLoad loadAddr .b2
  let newSp ← aluNone .add bp16 (.imm 2) .b8
  pushPlain (.writeReg .rsp newSp .b2)
  pushPlain (.writeReg .rbp val .b2)

def immediate16 : U16 := (insn.immediate 0).setWidth 16

def popExtra : U16 := if 0 < insn.opCount then immediate16 insn else 0

def isFarBranch : Bool :=
  match insn.op 0 with
  | .farBranch16 _ _ | .farBranch32 => true
  | _ => false

def isFarFlow : Bool :=
  isFarBranch insn || decide (insn.code ∈ [.retfw, .retfwImm16, .retfd, .retfdImm16])

def isFarJmp : Bool := isFarBranch insn || insn.code == .jmpM1616

def isFarCall : Bool := isFarBranch insn || insn.code == .callM1616

def liftJmp (mode : CpuMode) : LiftM X Unit := do
  let target ← branchTarget insn mode
  pushPlain (.jump target)

def liftCall (mode : CpuMode) : LiftM X Unit := do
  let slot ← callRetSlot insn mode
  let target ← branchTarget insn mode
  pushPlain (.call target (maskPc insn.nextIp mode) slot (mode == .compat32))

def liftRet (mode : CpuMode) : LiftM X Unit := do
  let slot ← callRetSlot insn mode
  pushPlain (.ret slot (popExtra insn) (mode == .compat32))

def liftCallReal16 : LiftM X Unit :=
  if isFarFlow insn then unsupportedInsn
  else do
    let target ← branchTarget insn .real16
    let sp ← readReg .rsp
    let newSp ← Emit.fresh
    Emit.push (alu .sub newSp sp (.imm 2) .b8 .none)
    emitSpWrap newSp .real16
    let addr ← stackAddr (.temp newSp) .real16
    pushPlain (.store addr (.imm (maskPc insn.nextIp .real16)) .b2)
    pushPlain (.writeReg .rsp (.temp newSp) .b2)
    pushPlain (.jump target)

def liftRetReal16 : LiftM X Unit :=
  if isFarFlow insn then unsupportedInsn
  else do
    let sp ← readReg .rsp
    let loadAddr ← stackAddr sp .real16
    let ip ← emitLoad loadAddr .b2
    let newSp ← Emit.fresh
    Emit.push (alu .add newSp sp (.imm (2 + (popExtra insn).setWidth 64)) .b8 .none)
    emitSpWrap newSp .real16
    pushPlain (.writeReg .rsp (.temp newSp) .b2)
    pushPlain (.jump ip)

def loadWordPair : LiftM X (Val × Val) := do
  let addr ← effectiveAddress insn
  let first ← emitLoad addr .b2
  let addr' ← addAddr addr (.imm 2)
  let second ← emitLoad addr' .b2
  return (first, second)

def farTarget : LiftM X (Val × Val) :=
  match insn.op 0 with
  | .farBranch16 selector offset => pure (.imm (selector.setWidth 64), .imm (offset.setWidth 64))
  | .memory => do
    let (ip, cs) ← loadWordPair insn
    return (cs, ip)
  | _ => unsupportedInsn

def liftFarJmpReal16 : LiftM X Unit := do
  let (cs, ip) ← farTarget insn
  pushPlain (.farJump cs ip)

def liftFarCallReal16 : LiftM X Unit := do
  let (cs, ip) ← farTarget insn
  pushPlain (.farCall cs ip ((maskPc insn.nextIp .real16).setWidth 16))

def liftRetfReal16 : LiftM X Unit := pushPlain (.farRet (popExtra insn))

def liftLoopReal16 (kind : LoopKind) : LiftM X Unit :=
  Emit.push (.loopCx kind (maskPc insn.nearBranchTarget .real16) (maskPc insn.nextIp .real16))

/-- `bound` reads both limits before it compares. -/
def liftBoundReal16 : LiftM X Unit :=
  if operandSize insn 0 ≠ 2 then unsupportedInsn
  else do
    let reg ← match insn.op 0 with
      | .register r => orUnsupported (icedToReg r)
      | _ => unsupportedInsn
    let index ← readReg reg
    let (lower, upper) ← loadWordPair insn
    Emit.push (.boundGate index lower upper (maskPc insn.ip .real16) (maskPc insn.nextIp .real16))

/-- CS cannot be loaded: that ends the block with an invalid-opcode interrupt. -/
def liftMovSregReal16 : LiftM X Bool :=
  match sregOperand insn 0 with
  | some seg =>
    if seg = .cs then do
      Emit.push (.intGate 6 (maskPc insn.ip .real16))
      return true
    else do
      let src ← lowerRead insn 1
      pushPlain (.writeReg seg src .b2)
      return false
  | none => do
    let seg ← orUnsupported (sregOperand insn 1)
    let sel ← readReg seg
    writeOperand insn 0 sel
    return false

/-- `les` and `lds`: both words are read before either register is written. -/
def liftLoadFarPtrReal16 (seg : Reg) : LiftM X Unit := do
  let dst ← match insn.op 0 with
    | .register r => orUnsupported (icedToReg r)
    | _ => unsupportedInsn
  let (off, sel) ← loadWordPair insn
  pushPlain (.writeReg dst off .b2)
  pushPlain (.writeReg seg sel .b2)

/-- `xlat`: the index is AL and the sum wraps at 16 bits. -/
def liftXlatReal16 : LiftM X Unit := do
  let base ← segBaseShl4 ((icedSegmentReg insn.mem.segment).getD .ds)
  let bx ← readReg .rbx
  let bx ← aluNone .and bx (.imm 0xffff) .b8
  let ax ← readReg .rax
  let al ← aluNone .and ax (.imm 0xff) .b8
  let sum ← aluNone .add bx al .b8
  let off ← aluNone .and sum (.imm 0xffff) .b8
  let addr ← addAddr base off
  let v ← emitLoad addr .b1
  pushPlain (.writeReg .rax v .b1)

def repKind (op : StrOp) (mode : CpuMode) : RepKind :=
  let f3 := insn.rep || insn.repe
  match op with
  | .scas | .cmps => if insn.repne then .repne else if f3 then .repe else .none
  | _ => if mode = .real16 ∧ insn.repne = true then .rep else if f3 then .rep else .none

/-- The width comes from `memory_base`, for which the decoder names no register where the operands
are those of a string instruction. -/
def stringAddrBits : AddrBits :=
  match Register.none.size with
  | 2 => .a16
  | 4 => .a32
  | _ => .a64

/-- The base of the source; the destination has none outside real mode. -/
def stringSegBase (op : StrOp) : LiftM X Val :=
  match op, insn.mem.segPrefix with
  | .movs, some .fs | .lods, some .fs | .cmps, some .fs => readReg .fsBase
  | .movs, some .gs | .lods, some .gs | .cmps, some .gs => readReg .gsBase
  | _, _ => pure (.imm 0)

def liftString (op : StrOp) (elem : Size) (mode : CpuMode) : LiftM X Unit :=
  if mode = .real16 then do
    let dsBase ← segBaseShl4 ((icedSegmentReg insn.mem.segment).getD .ds)
    let esBase ← segBaseShl4 .es
    Emit.push (.repStringReal op elem (repKind insn op mode) dsBase esBase)
  else do
    let segBase ← stringSegBase insn op
    Emit.push (.repString op elem (repKind insn op mode) stringAddrBits segBase)

def portOperand (i : ℕ) : LiftM X Val :=
  match insn.op i with
  | .immediate .immediate8 v => pure (.imm (v &&& 0xffff))
  | .register _ => do
    let dx ← readReg .rdx
    aluNone .and dx (.imm 0xffff) .b8
  | _ => unsupportedInsn

def liftPortIo (dirOut : Bool) : LiftM X Unit := do
  let size ← opSize (operandSize insn (if dirOut then 1 else 0))
  if size = .b8 then unsupportedInsn
  else do
    let port ← portOperand insn (if dirOut then 0 else 1)
    let value ← if dirOut then readReg .rax else pure (.imm 0)
    pushPlain (.portIo port value size dirOut)

def immediate8 : U8 := (insn.immediate 0).setWidth 8

/-- `int` outside real mode: the vector 0x80 is the system call gate. -/
def liftInt : LiftM X Unit :=
  if immediate8 insn = 0x80 then Emit.push (.syscall false)
  else pushPlain (.trap (immediate8 insn) (BitVec.ofNat 8 insn.len))

def liftSalc : LiftM X Unit := do
  let cf ← Emit.fresh
  Emit.push (.getCond cf .below)
  let al ← aluNone .sub (.imm 0) (.temp cf) .b1
  pushPlain (.writeReg .rax al .b1)

def liftEnter : LiftM X Unit :=
  pushPlain (.enterReal (immediate16 insn) ((insn.immediate 1).setWidth 8))

end X86Jit.Lift
