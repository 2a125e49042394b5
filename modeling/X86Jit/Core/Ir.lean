import X86Jit.Interp.Alu

/-! The intermediate representation of a basic block. The ops are grouped by what they do with the
six arithmetic flags. -/
namespace X86Jit

inductive Reg
  | rax | rbx | rcx | rdx | rsi | rdi | rbp | rsp
  | r8 | r9 | r10 | r11 | r12 | r13 | r14 | r15
  | rip | fsBase | gsBase
  | cs | ds | es | ss
  deriving DecidableEq, Repr

def Reg.gprIndex : Reg → Option (Fin 16)
  | rax => some 0
  | rcx => some 1
  | rdx => some 2
  | rbx => some 3
  | rsp => some 4
  | rbp => some 5
  | rsi => some 6
  | rdi => some 7
  | r8 => some 8
  | r9 => some 9
  | r10 => some 10
  | r11 => some 11
  | r12 => some 12
  | r13 => some 13
  | r14 => some 14
  | r15 => some 15
  | rip | fsBase | gsBase | cs | ds | es | ss => none

abbrev Temp := ℕ

inductive Val
  | temp (t : Temp)
  | imm (i : U64)
  deriving DecidableEq, Repr

inductive Cond
  | eq | ne
  | below | belowEq | above | aboveEq
  | less | lessEq | greater | greaterEq
  | sign | noSign | overflow | noOverflow | parity | noParity
  deriving DecidableEq, Repr

inductive RmwOp
  | add | sub | rsub | and | or | xor | xchg
  deriving DecidableEq, Repr

def RmwOp.eval (op : RmwOp) (old src : U64) : U64 :=
  match op with
  | .add => old + src
  | .sub => old - src
  | .rsub => src - old
  | .and => old &&& src
  | .or => old ||| src
  | .xor => old ^^^ src
  | .xchg => src

inductive BtOp
  | test | set | reset | complement
  deriving DecidableEq, Repr

inductive BmiOp
  | andn | blsi | blsr | blsmsk | bextr | bzhi | pdep | pext
  deriving DecidableEq, Repr

def BmiOp.writesFlags : BmiOp → Bool
  | .pdep | .pext => false
  | _ => true

inductive BitScanOp
  | bsf | bsr | tzcnt | lzcnt
  deriving DecidableEq, Repr

inductive BcdKind
  | daa | das | aaa | aas
  | aam (base : U8)
  | aad (base : U8)
  deriving DecidableEq, Repr

inductive LoopKind
  | loop | loope | loopne | jcxz
  deriving DecidableEq, Repr

inductive StrOp
  | movs | stos | scas | cmps | lods
  deriving DecidableEq, Repr

inductive RepKind
  | none | rep | repe | repne
  deriving DecidableEq, Repr

inductive AddrBits
  | a16 | a32 | a64
  deriving DecidableEq, Repr

/-- `count` is the last operand of a shift or rotate; a multiply has two results, low half first. -/
structure AluOp where
  kind : AluKind
  dst : List Temp
  a : Val
  b : Val
  count : Val
  size : Size
  setFlags : FlagMask
  deriving DecidableEq, Repr

inductive PlainOp
  | insnStart (guestAddr : U64)
  | readReg (dst : Temp) (reg : Reg)
  | writeReg (reg : Reg) (src : Val) (size : Size)
  | sext (dst : Temp) (a : Val) (width : Size)
  | bswap (dst : Temp) (a : Val) (size : Size)
  | div (quot rem : Temp) (hi lo divisor : Val) (size : Size) (signed : Bool)
  | load (dst : Temp) (addr : Val) (size : Size)
  | store (addr src : Val) (size : Size)
  | atomicRmw (old : Temp) (addr src : Val) (size : Size) (op : RmwOp)
  | atomicCas (old : Temp) (addr expected src : Val) (size : Size)
  | crc32 (dst : Temp) (crc src : Val) (bytes : Size)
  | pushaReal
  | popaReal
  | enterReal (alloc : U16) (level : U8)
  | jump (target : Val)
  | call (target : Val) (returnAddr : U64) (slot : Size) (wrapSp : Bool)
  | ret (slot : Size) (popExtra : U16) (wrapSp : Bool)
  | farJump (cs ip : Val)
  | farCall (cs ip : Val) (retIp : U16)
  | farRet (popExtra : U16)
  | portIo (port value : Val) (size : Size) (dirOut : Bool)
  | hlt
  | trap (vector advance : U8)
  deriving DecidableEq, Repr

/-- The ops that set flags from operands alone. None of the `other` ops reads a flag. -/
inductive SetOp (X : Type)
  | bt (result : Temp) (a bit : Val) (size : Size) (op : BtOp)
  | popcnt (dst : Temp) (src : Val) (size : Size)
  | bmi (dst : Temp) (a b : Val) (size : Size) (op : BmiOp)
  | bitScan (dst : Temp) (src old : Val) (size : Size) (op : BitScanOp)
  | sahf
  | other (op : X)
  deriving DecidableEq, Repr

/-- An IR op, over the type `X` of vector, x87 and identification ops. -/
inductive IrOp (X : Type)
  | plain (op : PlainOp)
  | set (op : SetOp X)
  | alu (op : AluOp)
  | getCond (dst : Temp) (cond : Cond)
  | lahf
  | pushfReal
  | popfReal
  | setCf (value : Option Bool)
  | setDf (value : Bool)
  | setIf (value : Bool)
  | bcd (kind : BcdKind)
  | repString (op : StrOp) (elem : Size) (repKind : RepKind) (addrBits : AddrBits) (segBase : Val)
  | repStringReal (op : StrOp) (elem : Size) (repKind : RepKind) (dsBase esBase : Val)
  | segLimitCheck (offset : Val) (size : Size) (vector : U8) (faultIp : U64)
  | branch (cond : Cond) (taken fallthrough : U64)
  | loopCx (kind : LoopKind) (taken fallthrough : U64)
  | syscall (isAmd64 : Bool)
  | intGate (vector : U8) (savedIp : U64)
  | intoGate (nextIp : U64)
  | boundGate (index lower upper : Val) (faultIp nextIp : U64)
  | iretReal
  deriving DecidableEq, Repr

structure OpBlock (X : Type) where
  guestStart : U64
  guestLen : ℕ
  ops : List (IrOp X)

def OpBlock.blockEnd {X : Type} (ir : OpBlock X) : U64 :=
  ir.guestStart + BitVec.ofNat 64 ir.guestLen

end X86Jit
