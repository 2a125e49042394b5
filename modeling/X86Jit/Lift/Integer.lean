import X86Jit.Lift.Operand

/-! The integer instructions, lifted to ops. -/
namespace X86Jit.Lift
open X86Jit.Lib

variable {X : Type}

def sizeMask (size : Size) : U64 := mask size

def emitLoad (addr : Val) (size : Size) : LiftM X Val := do
  let t ← Emit.fresh
  pushPlain (.load t addr size)
  return .temp t

def rmwOfBinop : AluKind → Option RmwOp
  | .add => some .add
  | .sub => some .sub
  | .and => some .and
  | .or => some .or
  | .xor => some .xor
  | _ => none

def writeOperand (insn : Insn) (i : ℕ) (value : Val) : LiftM X Unit := do
  let dst ← lowerWriteTarget insn i
  emitWrite dst value

variable (insn : Insn)

/-- With a memory destination the address is computed once, for the load and for the store. -/
def liftBinop (op : AluKind) (flags : FlagMask) (writeBack : Bool) : LiftM X Unit := do
  let size ← opSize (operationSize insn)
  if insn.isMemory 0 then do
    let addr ← effectiveAddress insn
    if writeBack && insn.lock then do
      -- there is no atomic op that takes a carry in
      let rop ← orUnsupported (rmwOfBinop op)
      let b ← lowerRead insn 1
      let old ← Emit.fresh
      pushPlain (.atomicRmw old addr b size rop)
      let res ← Emit.fresh
      Emit.push (alu op res (.temp old) b size flags)
    else do
      let a ← emitLoad addr size
      let b ← lowerRead insn 1
      let res ← Emit.fresh
      Emit.push (alu op res a b size flags)
      if writeBack then pushPlain (.store addr (.temp res) size) else pure ()
  else do
    let a ← lowerRead insn 0
    let b ← lowerRead insn 1
    let res ← Emit.fresh
    Emit.push (alu op res a b size flags)
    if writeBack then writeOperand insn 0 (.temp res) else pure ()

/-- The result is computed from the operand by `emit`, which recomputes the flags after the atomic
form. -/
def liftUnaryOp0 (rmwOp : RmwOp) (rmwSrc : Val) (recomputeFlags : Bool)
    (emit : Temp → Val → Size → IrOp X) : LiftM X Unit := do
  let size ← opSize (operandSize insn 0)
  if insn.isMemory 0 then do
    let addr ← effectiveAddress insn
    if insn.lock then do
      let old ← Emit.fresh
      pushPlain (.atomicRmw old addr rmwSrc size rmwOp)
      if recomputeFlags then do
        let res ← Emit.fresh
        Emit.push (emit res (.temp old) size)
      else pure ()
    else do
      let a ← emitLoad addr size
      let res ← Emit.fresh
      Emit.push (emit res a size)
      pushPlain (.store addr (.temp res) size)
  else do
    let a ← lowerRead insn 0
    let res ← Emit.fresh
    Emit.push (emit res a size)
    writeOperand insn 0 (.temp res)

/-- `inc` and `dec` keep CF. -/
def liftIncdec (op : AluKind) : LiftM X Unit :=
  liftUnaryOp0 insn (if op = .add then .add else .sub) (.imm 1) true
    fun res a size => alu op res a (.imm 1) size .allButCf

def liftNeg : LiftM X Unit :=
  liftUnaryOp0 insn .rsub (.imm 0) true fun res a size => alu .sub res (.imm 0) a size .all

def liftNot : LiftM X Unit :=
  liftUnaryOp0 insn .xor (.imm (BitVec.allOnes 64)) false
    fun res a size => alu .xor res a (.imm (BitVec.allOnes 64)) size .none

def liftDoubleShift (left : Bool) : LiftM X Unit := do
  let size ← opSize (operandSize insn 0)
  let b ← lowerRead insn 1
  let count ← lowerRead insn 2
  let res ← Emit.fresh
  if insn.isMemory 0 then do
    let addr ← effectiveAddress insn
    let a ← emitLoad addr size
    Emit.push (.alu ⟨.doubleShift left, [res], a, b, count, size, .shift⟩)
    pushPlain (.store addr (.temp res) size)
  else do
    let a ← lowerRead insn 0
    Emit.push (.alu ⟨.doubleShift left, [res], a, b, count, size, .shift⟩)
    writeOperand insn 0 (.temp res)

def emitMul (a b : Val) (size : Size) (signed : Bool) (flags : FlagMask) :
    LiftM X (Temp × Temp) := do
  let lo ← Emit.fresh
  let hi ← Emit.fresh
  Emit.push (.alu ⟨.mul signed, [lo, hi], a, b, b, size, flags⟩)
  return (lo, hi)

/-- One-operand `mul` and `imul`. The 8-bit form leaves its product in AX. -/
def liftWideningMul (signed : Bool) : LiftM X Unit := do
  let size ← opSize (operandSize insn 0)
  let a ← readReg .rax
  let b ← lowerRead insn 0
  let (lo, hi) ← emitMul a b size signed .cfOf
  if size = .b1 then do
    let hiSh ← aluNone .shl (.temp hi) (.imm 8) .b2
    let ax ← aluNone .or (.temp lo) hiSh .b2
    pushPlain (.writeReg .rax ax .b2)
  else do
    pushPlain (.writeReg .rax (.temp lo) size)
    pushPlain (.writeReg .rdx (.temp hi) size)

def liftImul : LiftM X Unit :=
  let truncated (i j : ℕ) : LiftM X Unit := do
    let size ← opSize (operandSize insn 0)
    let a ← lowerRead insn i
    let b ← lowerRead insn j
    let (lo, _) ← emitMul a b size true .cfOf
    writeOperand insn 0 (.temp lo)
  match insn.opCount with
  | 1 => liftWideningMul insn true
  | 2 => truncated 0 1
  | 3 => truncated 1 2
  | _ => unsupportedInsn

/-- `div` and `idiv`. The 8-bit form divides AX, quotient to AL and remainder to AH. -/
def liftDiv (signed : Bool) : LiftM X Unit := do
  let size ← opSize (operandSize insn 0)
  if size = .b1 then do
    let rax ← readReg .rax
    let hi ← aluNone .shr rax (.imm 8) .b8
    let divisor ← lowerRead insn 0
    let quot ← Emit.fresh
    let rem ← Emit.fresh
    pushPlain (.div quot rem hi rax divisor .b1 signed)
    pushPlain (.writeReg .rax (.temp quot) .b1)
    emitWrite (.highByte .rax) (.temp rem)
  else do
    let hi ← readReg .rdx
    let lo ← readReg .rax
    let divisor ← lowerRead insn 0
    let quot ← Emit.fresh
    let rem ← Emit.fresh
    pushPlain (.div quot rem hi lo divisor size signed)
    pushPlain (.writeReg .rax (.temp quot) size)
    pushPlain (.writeReg .rdx (.temp rem) size)

/-- The low half is written first, so that the high half stays where both destinations are one
register. -/
def liftMulx : LiftM X Unit := do
  let size ← opSize (operandSize insn 0)
  let rdx ← readReg .rdx
  let src ← lowerRead insn 2
  let (lo, hi) ← emitMul rdx src size false .none
  writeOperand insn 1 (.temp lo)
  writeOperand insn 0 (.temp hi)

/-- `xadd`. With a memory destination the addition is atomic. -/
def liftXadd : LiftM X Unit := do
  let size ← opSize (operandSize insn 0)
  let src ← lowerRead insn 1
  if insn.isMemory 0 then do
    let addr ← effectiveAddress insn
    let old ← Emit.fresh
    pushPlain (.atomicRmw old addr src size .add)
    let res ← Emit.fresh
    Emit.push (alu .add res (.temp old) src size .all)
    writeOperand insn 1 (.temp old)
  else do
    let dstVal ← lowerRead insn 0
    let res ← Emit.fresh
    Emit.push (alu .add res dstVal src size .all)
    writeOperand insn 1 dstVal
    writeOperand insn 0 (.temp res)

/-- `cmpxchg` on memory, as one compare-and-swap. -/
def liftCmpxchg : LiftM X Unit :=
  if insn.isMemory 0 then do
    let size ← opSize (operandSize insn 0)
    let addr ← effectiveAddress insn
    let src ← lowerRead insn 1
    let acc ← readReg .rax
    let exp ← aluNone .and acc (.imm (sizeMask size)) .b8
    let old ← Emit.fresh
    pushPlain (.atomicCas old addr exp src size)
    let res ← Emit.fresh
    Emit.push (alu .sub res exp (.temp old) size .all)
    pushPlain (.writeReg .rax (.temp old) size)
  else unsupportedInsn

def liftXchg : LiftM X Unit :=
  let withMemory (reg : ℕ) : LiftM X Unit := do
    let size ← opSize (operandSize insn reg)
    let addr ← effectiveAddress insn
    let regVal ← lowerRead insn reg
    let old ← Emit.fresh
    pushPlain (.atomicRmw old addr regVal size .xchg)
    writeOperand insn reg (.temp old)
  if insn.isMemory 0 then withMemory 1
  else if insn.isMemory 1 then withMemory 0
  else do
    let a ← lowerRead insn 0
    let b ← lowerRead insn 1
    let dst0 ← lowerWriteTarget insn 0
    let dst1 ← lowerWriteTarget insn 1
    emitWrite dst0 b
    emitWrite dst1 a

/-- The bit-string form: the byte at the index shifted down by three, signed. -/
def btStringAddr (addr bit : Val) (idxSize : Size) : LiftM X Val := do
  let sext ← Emit.fresh
  pushPlain (.sext sext bit idxSize)
  let off ← aluNone .sar (.temp sext) (.imm 3) .b8
  addAddr addr off

/-- A register index selects a byte of the bit string at the operand; an immediate one stays within
the operand. -/
def btAccess (bit : Val) (size : Size) : LiftM X (Val × Size) := do
  let addr ← effectiveAddress insn
  match insn.op 1 with
  | .register r => do
    let idxSize ← opSize r.size
    let ea ← btStringAddr addr bit idxSize
    return (ea, .b1)
  | _ => return (addr, size)

def emitMemBt (ea : Val) (esize : Size) (bit : Val) (op : BtOp) : LiftM X Unit :=
  let locked (rmwOp : RmwOp) (invert : Bool) : LiftM X Unit := do
    let shift ← aluNone .and bit (.imm (BitVec.ofNat 64 (esize.bits - 1))) esize
    let m ← aluNone .shl (.imm 1) shift esize
    let src ← if invert then aluNone .xor m (.imm (sizeMask esize)) esize else pure m
    let old ← Emit.fresh
    pushPlain (.atomicRmw old ea src esize rmwOp)
    let cf ← Emit.fresh
    Emit.push (.set (.bt cf (.temp old) bit esize .test))
  let plain : LiftM X Unit := do
    let a ← emitLoad ea esize
    let result ← Emit.fresh
    Emit.push (.set (.bt result a bit esize op))
    if op = .test then pure () else pushPlain (.store ea (.temp result) esize)
  if insn.lock then
    match op with
    | .set => locked .or false
    | .complement => locked .xor false
    | .reset => locked .and true
    | .test => plain
  else plain

def liftBt (op : BtOp) : LiftM X Unit := do
  let size ← opSize (operandSize insn 0)
  let bit ← lowerRead insn 1
  if insn.isMemory 0 then do
    let (ea, esize) ← btAccess insn bit size
    emitMemBt insn ea esize bit op
  else do
    let a ← lowerRead insn 0
    let result ← Emit.fresh
    Emit.push (.set (.bt result a bit size op))
    if op = .test then pure () else writeOperand insn 0 (.temp result)

def liftOp1 (i : ℕ) (op : Temp → Val → Size → IrOp X) : LiftM X Unit := do
  let size ← opSize (operandSize insn 0)
  let a ← lowerRead insn i
  let t ← Emit.fresh
  Emit.push (op t a size)
  writeOperand insn 0 (.temp t)

def liftBswap : LiftM X Unit := liftOp1 insn 0 fun t a size => .plain (.bswap t a size)

def liftPopcnt : LiftM X Unit := liftOp1 insn 1 fun t src size => .set (.popcnt t src size)

/-- The bit scans: `bsf` and `bsr` of zero keep the old destination. -/
def liftBitscan (op : BitScanOp) : LiftM X Unit := do
  let size ← opSize (operandSize insn 0)
  let src ← lowerRead insn 1
  let old ← lowerRead insn 0
  let t ← Emit.fresh
  Emit.push (.set (.bitScan t src old size op))
  writeOperand insn 0 (.temp t)

def liftBmi (op : BmiOp) : LiftM X Unit := do
  let size ← opSize (operandSize insn 0)
  let a ← lowerRead insn 1
  let b ← if 3 ≤ insn.opCount then lowerRead insn 2 else pure (.imm 0)
  let t ← Emit.fresh
  Emit.push (.set (.bmi t a b size op))
  writeOperand insn 0 (.temp t)

def liftBmiShift (op : AluKind) : LiftM X Unit := do
  let size ← opSize (operandSize insn 0)
  let a ← lowerRead insn 1
  let b ← lowerRead insn 2
  let t ← Emit.fresh
  Emit.push (alu op t a b size .none)
  writeOperand insn 0 (.temp t)

def liftCrc32 : LiftM X Unit := do
  let crc ← lowerRead insn 0
  let src ← lowerRead insn 1
  let bytes ← opSize (operandSize insn 1)
  let t ← Emit.fresh
  pushPlain (.crc32 t crc src bytes)
  writeOperand insn 0 (.temp t)

def liftMovbe : LiftM X Unit := do
  let size ← opSize (operandSize insn 0)
  let addr ← effectiveAddress insn
  if insn.isMemory 1 then do
    let loaded ← emitLoad addr size
    let swapped ← Emit.fresh
    pushPlain (.bswap swapped loaded size)
    writeOperand insn 0 (.temp swapped)
  else do
    let a ← lowerRead insn 1
    let swapped ← Emit.fresh
    pushPlain (.bswap swapped a size)
    pushPlain (.store addr (.temp swapped) size)

def liftMov : LiftM X Unit := do
  let src ← lowerRead insn 1
  writeOperand insn 0 src

def liftLea : LiftM X Unit := do
  let addr ← effectiveAddressNoSegment insn
  writeOperand insn 0 addr

def liftMovzx : LiftM X Unit := do
  let srcSize ← opSize (operandSize insn 1)
  let v ← lowerRead insn 1
  let z ← aluNone .and v (.imm (sizeMask srcSize)) .b8
  writeOperand insn 0 z

def liftMovsx : LiftM X Unit := do
  let srcSize ← opSize (operandSize insn 1)
  let v ← lowerRead insn 1
  let s ← Emit.fresh
  pushPlain (.sext s v srcSize)
  writeOperand insn 0 (.temp s)

def liftCbwFamily (src dst : Size) : LiftM X Unit := do
  let rax ← readReg .rax
  let s ← Emit.fresh
  pushPlain (.sext s rax src)
  pushPlain (.writeReg .rax (.temp s) dst)

def liftSignIntoDx (size : Size) : LiftM X Unit := do
  let rax ← readReg .rax
  let s ← aluNone .sar rax (.imm (BitVec.ofNat 64 (size.bits - 1))) size
  pushPlain (.writeReg .rdx s size)

def liftSetcc (cond : Cond) : LiftM X Unit := do
  let c ← Emit.fresh
  Emit.push (.getCond c cond)
  writeOperand insn 0 (.temp c)

/-- `cmovcc` always writes its register: the select is by masking. -/
def liftCmovcc (cond : Cond) : LiftM X Unit := do
  let src ← lowerRead insn 1
  let dstVal ← lowerRead insn 0
  let c ← Emit.fresh
  Emit.push (.getCond c cond)
  let m ← aluNone .sub (.imm 0) (.temp c) .b8
  let diff ← aluNone .xor dstVal src .b8
  let sel ← aluNone .and diff m .b8
  let res ← aluNone .xor dstVal sel .b8
  writeOperand insn 0 res

/-- The control word of the vector unit is not modelled: its default is stored. -/
def liftStmxcsr : LiftM X Unit := do
  let addr ← effectiveAddress insn
  pushPlain (.store addr (.imm 0x1f80) .b4)

def liftRdtsc : LiftM X Unit := do
  pushPlain (.writeReg .rax (.imm 0x12345678) .b4)
  pushPlain (.writeReg .rdx (.imm 0) .b4)

end X86Jit.Lift
