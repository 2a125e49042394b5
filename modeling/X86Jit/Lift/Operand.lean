import X86Jit.Lift.Insn

/-! The lowering of operands: addresses, sources and destinations of an instruction as
ops over fresh temps. -/
namespace X86Jit.Lift
open X86Jit.Lib

variable (insn : Insn)

def operandSize (i : ℕ) : ℕ :=
  match insn.op i with
  | .register r => r.size
  | .memory => insn.mem.size
  | _ => 0

def operationSize : ℕ :=
  if operandSize insn 0 ≠ 0 then operandSize insn 0 else operandSize insn 1

def stackSlot : CpuMode → Size
  | .long64 => .b8
  | .compat32 => .b4
  | .real16 => .b2

def pushPopSize (mode : CpuMode) : ℕ :=
  if operandSize insn 0 ≠ 0 then operandSize insn 0
  else if insn.code = .pushImm16 ∨ insn.code = .pushwImm8 then 2
  else (stackSlot mode).bytes

def spWriteSize (mode : CpuMode) : Size := stackSlot mode

def maskPc (addr : U64) : CpuMode → U64
  | .compat32 => addr &&& 0xffffffff
  | .real16 => addr &&& 0xffff
  | .long64 => addr

variable {X : Type}

def addrBase : LiftM X (Option Val) :=
  if insn.mem.base = .none then pure none
  else do
    let reg ← orUnsupported (icedToReg insn.mem.base)
    let v ← readReg reg
    return some v

def scaleIndex (idx : Val) : LiftM X Val :=
  if insn.mem.scale ≤ 1 then pure idx
  else aluNone .shl idx (.imm (BitVec.ofNat 64 insn.mem.scale).ctz) .b8

def addrIndex (acc : Option Val) : LiftM X (Option Val) :=
  if insn.mem.index = .none then pure acc
  else do
    let reg ← orUnsupported (icedToReg insn.mem.index)
    let idx ← readReg reg
    let scaled ← scaleIndex insn idx
    match acc with
    | none => return some scaled
    | some a => do
      let v ← addAddr a scaled
      return some v

def addrDisp : Option Val → LiftM X Val
  | none => pure (.imm insn.mem.disp)
  | some a => if insn.mem.disp = 0 then pure a else addAddr a (.imm insn.mem.disp)

/-- The address size, as the decoder encodes it in the width of base and index. -/
def addrMask : Option U64 :=
  if insn.mem.base.size = 2 ∨ insn.mem.index.size = 2 then some 0xffff
  else if insn.mem.base.size = 4 ∨ insn.mem.index.size = 4 then some 0xffffffff
  else none

def truncateAddr (addr : Val) : LiftM X Val :=
  match addrMask insn, addr with
  | none, addr => pure addr
  | some m, .imm v => pure (.imm (v &&& m))
  | some m, .temp t => aluNone .and (.temp t) (.imm m) .b8

def effectiveAddressNoSegment : LiftM X Val :=
  if insn.mem.base = .rip then pure (.imm insn.mem.disp)
  else if insn.mem.base = .eip then pure (.imm (insn.mem.disp &&& 0xffffffff))
  else do
    let acc ← addrBase insn
    let acc ← addrIndex insn acc
    let addr ← addrDisp insn acc
    truncateAddr insn addr

/-- A limit check for an access of one to four bytes. The decoder reports no access of
three. -/
def limitCheck (addr : Val) : LiftM X Unit :=
  let check (size : Size) : LiftM X Unit :=
    Emit.push (.segLimitCheck addr size 13 (maskPc insn.ip .real16))
  match insn.mem.size with
  | 1 => check .b1
  | 2 => check .b2
  | 4 => check .b4
  | _ => pure ()

def segBaseShl4 (seg : Reg) : LiftM X Val := do
  let sel ← readReg seg
  aluNone .shl sel (.imm 4) .b8

/-- In real mode the base is the shifted selector of the segment in effect, if it is one of the four
with a selector; otherwise only FS and GS have a base. -/
def withSegment (addr : Val) : LiftM X Val :=
  if insn.codeSize = .code16 then
    match icedSegmentReg insn.mem.segment with
    | none => pure addr
    | some seg => do
      limitCheck insn addr
      let base ← segBaseShl4 seg
      addAddr addr base
  else
    match insn.mem.segPrefix with
    | some .fs => do
      let base ← readReg .fsBase
      addAddr addr base
    | some .gs => do
      let base ← readReg .gsBase
      addAddr addr base
    | _ => pure addr

def effectiveAddress : LiftM X Val := do
  let addr ← effectiveAddressNoSegment insn
  withSegment insn addr

def stackAddr (offset : Val) (mode : CpuMode) : LiftM X Val :=
  if mode = .real16 then do
    let base ← segBaseShl4 .ss
    addAddr offset base
  else pure offset

inductive WriteTarget
  | reg (reg : Reg) (size : Size)
  | mem (addr : Val) (size : Size)
  | highByte (parent : Reg)
  deriving DecidableEq, Repr

def lowerRead (i : ℕ) : LiftM X Val :=
  match insn.op i with
  | .register r =>
    match highByteParent r with
    | some parent => do
      let p ← readReg parent
      let sh ← aluNone .shr p (.imm 8) .b8
      aluNone .and sh (.imm 0xff) .b8
    | none => do
      let reg ← orUnsupported (icedToReg r)
      readReg reg
  | .memory => do
    let addr ← effectiveAddress insn
    let size ← opSize (operandSize insn i)
    let t ← Emit.fresh
    pushPlain (.load t addr size)
    return .temp t
  | .immediate _ v => pure (.imm v)
  | _ => unsupportedInsn

def lowerWriteTarget (i : ℕ) : LiftM X WriteTarget :=
  match insn.op i with
  | .register r =>
    match highByteParent r with
    | some parent => pure (.highByte parent)
    | none => do
      let reg ← orUnsupported (icedToReg r)
      let size ← opSize (operandSize insn i)
      return .reg reg size
  | .memory => do
    let addr ← effectiveAddress insn
    let size ← opSize (operandSize insn i)
    return .mem addr size
  | _ => unsupportedInsn

def emitWrite (target : WriteTarget) (value : Val) : LiftM X Unit :=
  match target with
  | .reg reg size => pushPlain (.writeReg reg value size)
  | .mem addr size => pushPlain (.store addr value size)
  | .highByte parent => do
    let cur ← readReg parent
    let clear ← aluNone .and cur (.imm (~~~0xff00)) .b8
    let byte ← aluNone .and value (.imm 0xff) .b8
    let shifted ← aluNone .shl byte (.imm 8) .b8
    let merged ← aluNone .or clear shifted .b8
    pushPlain (.writeReg parent merged .b8)

def branchTarget (mode : CpuMode) : LiftM X Val :=
  match insn.op 0 with
  | .nearBranch target => pure (.imm (maskPc target mode))
  | _ => do
    let target ← lowerRead insn 0
    if operandSize insn 0 = 2 then aluNone .and target (.imm 0xffff) .b8
    else if mode = .compat32 then aluNone .and target (.imm 0xffffffff) .b8
    else return target

def emitSpWrap (sp : Temp) (mode : CpuMode) : LiftM X Unit :=
  match mode with
  | .compat32 => Emit.push (alu .and sp (.temp sp) (.imm 0xffffffff) .b8 .none)
  | .real16 => Emit.push (alu .and sp (.temp sp) (.imm 0xffff) .b8 .none)
  | .long64 => pure ()

/-- The stack frame of a near call or return; the forms with a 16-bit operand have none. -/
def callRetSlot (mode : CpuMode) : LiftM X Size :=
  match insn.code with
  | .callRel16 | .callRm16 | .retnw | .retnwImm16 => unsupportedInsn
  | _ => pure (stackSlot mode)

end X86Jit.Lift
