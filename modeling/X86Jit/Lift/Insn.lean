import X86Jit.Core.Cache
import X86Jit.Core.Ir
import X86Jit.Lib.Emit

/-! Decoded instructions as the lifter reads them off the decoder, and the monad it emits
ops in. The decoder is outside the repository: a value of `Insn` is what it reports. -/
namespace X86Jit.Lift
open X86Jit.Lib

inductive Segment
  | es | cs | ss | ds | fs | gs
  deriving DecidableEq, Repr

/-- A general register has its slot and the width it was named with; AH, CH, DH and BH are apart. -/
inductive Register
  | none
  | rip | eip
  | gpr (i : Fin 16) (size : Size)
  | highByte (i : Fin 4)
  | segment (s : Segment)
  | st (i : Fin 8)
  | mm (i : Fin 8)
  | xmm (i : Fin 32)
  | ymm (i : Fin 32)
  | zmm (i : Fin 32)
  | k (i : Fin 8)
  | other
  deriving DecidableEq, Repr

def Register.size : Register → ℕ
  | none | other => 0
  | rip => 8
  | eip => 4
  | gpr _ size => size.bytes
  | highByte _ => 1
  | segment _ => 2
  | st _ => 10
  | mm _ => 8
  | xmm _ => 16
  | ymm _ => 32
  | zmm _ => 64
  | k _ => 8

def Reg.fromGprIndex (i : Fin 16) : Reg :=
  match i.val with
  | 0 => .rax
  | 1 => .rcx
  | 2 => .rdx
  | 3 => .rbx
  | 4 => .rsp
  | 5 => .rbp
  | 6 => .rsi
  | 7 => .rdi
  | 8 => .r8
  | 9 => .r9
  | 10 => .r10
  | 11 => .r11
  | 12 => .r12
  | 13 => .r13
  | 14 => .r14
  | _ => .r15

theorem Reg.gprIndex_fromGprIndex (i : Fin 16) : (Reg.fromGprIndex i).gprIndex = some i := by
  revert i
  decide

def icedToReg : Register → Option Reg
  | .gpr i _ => some (Reg.fromGprIndex i)
  | _ => .none

def highByteParent : Register → Option Reg
  | .highByte i => some (Reg.fromGprIndex (i.castLE (by decide)))
  | _ => .none

def icedSegmentReg : Segment → Option Reg
  | .cs => some .cs
  | .ds => some .ds
  | .es => some .es
  | .ss => some .ss
  | .fs | .gs => .none

inductive ImmKind
  | immediate8 | immediate8Second | immediate16 | immediate32 | immediate64
  | immediate8to16 | immediate8to32 | immediate8to64 | immediate32to64
  deriving DecidableEq, Repr

/-- One operand. The parts of a memory operand are reported once for the instruction. -/
inductive Operand
  | register (r : Register)
  | memory
  | immediate (kind : ImmKind) (v : U64)
  | nearBranch (target : U64)
  | farBranch16 (selector offset : U16)
  | farBranch32
  | implicit
  deriving DecidableEq, Repr

/-- The memory operand. `disp` is sign-extended, with the address of the next instruction added if
it is relative to it. `segPrefix` is the segment a prefix names, `segment` the one in effect. -/
structure MemoryOperand where
  base : Register := .none
  index : Register := .none
  scale : ℕ := 1
  disp : U64 := 0
  segPrefix : Option Segment := none
  segment : Segment := .ds
  size : ℕ := 0
  deriving DecidableEq, Repr

inductive CodeSize
  | code16 | code32 | code64
  deriving DecidableEq, Repr

def codeSizeOf : CpuMode → CodeSize
  | .long64 => .code64
  | .compat32 => .code32
  | .real16 => .code16

inductive Code
  | pushImm16 | pushwImm8
  | leavew
  | callRel16 | callRm16 | retnw | retnwImm16
  | jmpM1616 | callM1616
  | retfw | retfwImm16 | retfd | retfdImm16
  | other
  deriving DecidableEq, Repr

/-- The integer, control and system mnemonics that have a lift; `foreign` stands for all others. The
condition families are one constructor each. -/
inductive Mnemonic
  | nop | endbr64 | endbr32 | pause | wait | rdsspd | rdsspq
  | prefetchnta | prefetcht0 | prefetcht1 | prefetcht2 | prefetchw | prefetchwt1
  | mfence | lfence | sfence | ldmxcsr | vldmxcsr
  | mov | movnti | lea
  | add | adc | sub | sbb | and | or | xor | cmp | test
  | shl | sal | shr | sar | rol | ror | rcl | rcr | shld | shrd
  | inc | dec | neg | not
  | mul | imul | div | idiv
  | bswap | movbe
  | andn | blsi | blsr | blsmsk | bextr | bzhi | pdep | pext | mulx
  | shlx | shrx | sarx | rorx
  | xchg | xadd | cmpxchg
  | cpuid | xgetbv | rdtsc
  | bsf | bsr | tzcnt | lzcnt | popcnt | crc32
  | stmxcsr | vstmxcsr | fxsave | fxsave64 | fxrstor | fxrstor64
  | bt | bts | btr | btc
  | std | cld
  | string (op : StrOp) (elem : Size)
  | movzx | movsx | movsxd | cbw | cwde | cdqe | cwd | cdq | cqo
  | push | pop | jmp | call | ret | retf | leave
  | syscall | hlt | portIn | portOut
  | ud2 | int3 | int1 | int | into | bound
  | cli | sti | pushf | popf | iret | clc | stc | cmc
  | daa | das | aaa | aas | aam | aad
  | loop | loope | loopne | jcxz | salc | xlatb | lahf | sahf
  | pusha | popa | enter | les | lds
  | jcc (cond : Cond) | setcc (cond : Cond) | cmovcc (cond : Cond)
  | foreign
  deriving DecidableEq, Repr

structure Insn where
  ip : U64
  len : ℕ
  codeSize : CodeSize
  mnemonic : Mnemonic
  code : Code := .other
  operands : List Operand
  mem : MemoryOperand := {}
  lock : Bool := false
  rep : Bool := false
  repe : Bool := false
  repne : Bool := false
  deriving DecidableEq, Repr

namespace Insn
variable (insn : Insn)

def op (i : ℕ) : Operand := insn.operands.getD i (.register .none)

def opCount : ℕ := insn.operands.length

def nextIp : U64 := insn.ip + BitVec.ofNat 64 insn.len

/-- An immediate operand as the decoder extends it; zero for any other operand. -/
def immediate (i : ℕ) : U64 :=
  match insn.op i with
  | .immediate _ v => v
  | _ => 0

def nearBranchTarget : U64 :=
  match insn.op 0 with
  | .nearBranch target => target
  | _ => 0

def isMemory (i : ℕ) : Bool := insn.op i == .memory

end Insn

inductive LiftError
  | unsupported (addr : U64) (len : ℕ)
  | decodeFault (addr : U64)
  deriving DecidableEq, Repr

/-- The one way in which a lift fails; the address and the length in the error are those of the
instruction. -/
inductive Unsupported
  | here
  deriving DecidableEq, Repr

def Unsupported.error (insn : Insn) : Unsupported → LiftError
  | .here => .unsupported insn.ip insn.len

abbrev LiftM (X α : Type) := Emit Unsupported (IrOp X) α

variable {X : Type}

def unsupportedInsn {α : Type} : LiftM X α := Emit.fail .here

def orUnsupported {α : Type} : Option α → LiftM X α
  | some a => pure a
  | none => unsupportedInsn

/-- An op's width from a byte count. The decoder reports 1, 2, 4 or 8 wherever the lift
takes one. -/
def opSize : ℕ → LiftM X Size
  | 1 => pure .b1
  | 2 => pure .b2
  | 4 => pure .b4
  | 8 => pure .b8
  | _ => unsupportedInsn

def pushPlain (op : PlainOp) : LiftM X Unit := Emit.push (.plain op)

def readReg (reg : Reg) : LiftM X Val := do
  let t ← Emit.fresh
  pushPlain (.readReg t reg)
  return .temp t

def alu (kind : AluKind) (dst : Temp) (a b : Val) (size : Size) (setFlags : FlagMask) : IrOp X :=
  .alu ⟨kind, [dst], a, b, b, size, setFlags⟩

def aluNone (kind : AluKind) (a b : Val) (size : Size) : LiftM X Val := do
  let t ← Emit.fresh
  Emit.push (alu kind t a b size .none)
  return .temp t

def addAddr (a b : Val) : LiftM X Val := aluNone .add a b .b8

end X86Jit.Lift
