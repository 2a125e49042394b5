import X86Jit.Fpu.Encode
import X86Jit.Interp.X87

/-! The x87 instructions as both backends run them, over the memory view each has. -/
namespace X86Jit
open F80

inductive FpuKind
  | fldF64 | fldF32 | fldF80 | fildI16 | fildI32 | fildI64
  | fstpF64 | fstpF32 | fstpF80 | fistpI16 | fistpI32 | fistpI64
  | fisttpI16 | fisttpI32 | fisttpI64 | fstF64 | fstF32
  | faddMemF64 | faddMemF32 | fsubMemF64 | fsubMemF32 | fsubrMemF64 | fsubrMemF32
  | fmulMemF64 | fmulMemF32 | fdivMemF64 | fdivMemF32 | fdivrMemF64 | fdivrMemF32
  | ficomI16 | ficomI32 | ficompI16 | ficompI32
  | fiaddMemI16 | fiaddMemI32 | fisubMemI16 | fisubMemI32 | fisubrMemI16 | fisubrMemI32
  | fimulMemI16 | fimulMemI32 | fidivMemI16 | fidivMemI32 | fidivrMemI16 | fidivrMemI32
  | fldSti | fstSti | fstpSti
  | fsubSti | fsubrSti | fdivSti | fdivrSti
  | faddToSti | fsubToSti | fsubrToSti | fmulToSti | fdivToSti | fdivrToSti
  | fld1 | fldz
  | faddP | fsubP | fsubrP | fmulP | fdivP | fdivrP | faddSti | fmulSti | fxch
  | fucomi | fucomip | fcomi | fcomip
  | fabs | fchs
  | fldcw | fnstcw | fnstsw | fnstswMem | fnstenv | fldenv
  | fprem | fsin | fcos | fptan | fpatan | f2xm1 | fyl2x | fyl2xp1 | fsincos
  | fninit | fnclex
  deriving DecidableEq, Repr

/-- A store says whether it was taken, and one that was not has written nothing. -/
class FpMem (M : Type) where
  load : M → U64 → ℕ → Option (List U8)
  store : M → U64 → List U8 → M × Bool
  store_refused : ∀ {m addr bs}, (store m addr bs).2 = false → (store m addr bs).1 = m

/-- The interpreter goes through the regions. -/
instance : FpMem Memory where
  load := Memory.readRamGuest
  store m addr bs := (m.writeRamGuest addr bs).elim (m, false) fun m' => (m', true)
  store_refused := by
    intro m addr bs h
    cases hw : m.writeRamGuest addr bs with
    | none => rfl
    | some m' =>
      rw [hw] at h
      cases h

/-- Compiled code has host memory, the address of its first byte and that behind its last. -/
structure RawFpMem where
  bytes : ℕ → U8
  size : U64
  guestBase : U64

namespace RawFpMem
variable (m : RawFpMem)

def off (addr : U64) (len : ℕ) : Option ℕ :=
  if 2 ^ 64 ≤ addr.toNat + len then none
  else if addr.ult m.guestBase || m.size.toNat < addr.toNat + len then none
  else some (addr - m.guestBase).toNat

instance : FpMem RawFpMem where
  load m addr n := (m.off addr n).map fun o => (List.range n).map fun i => m.bytes (o + i)
  store m addr bs :=
    match m.off addr bs.length with
    | none => (m, false)
    | some o =>
      ({ m with bytes := fun a =>
          if o ≤ a ∧ a < o + bs.length then bs.getD (a - o) 0 else m.bytes a }, true)
  store_refused := by
    intro m addr bs h
    split at h
    · rfl
    · cases h

end RawFpMem

namespace Fpu
variable (u : Fpu)

def c1 : U16 := 0x0200

def isEmpty (i : Fin 8) : Bool := u.empty.getLsbD i.val

def tagEmpty (i : Fin 8) : U8 := u.empty ||| (1#8 <<< i.val)
def tagFull (i : Fin 8) : U8 := u.empty &&& ~~~(1#8 <<< i.val)

def ctl : Ctl := ⟨u.cw⟩

/-- If a recorded exception is not masked, the summary bits are set and the instruction is to be
abandoned. -/
def raise (exc : Exc) : Fpu × Bool :=
  if exc = 0 then (u, false)
  else
    let v := { u with sw := u.sw ||| (exc &&& 0x7f) }
    if v.sw &&& ~~~v.cw &&& 0x3f ≠ 0 then ({ v with sw := v.sw ||| 0x8080 }, true) else (v, false)

def put (i : Fin 8) (b : BitVec 80) : Fpu :=
  { u with fpr := Function.update u.fpr i b, empty := u.tagFull i }

def setSt (i : ℕ) (v : F80) : Fpu := u.put (u.slot i) v.toBytes

/-- On a register in use this is an overflow, which if masked pushes the indefinite and if not
changes nothing. -/
def pushRaw (b : BitVec 80) : Fpu :=
  let top := (u.top - 1) &&& 7
  let dst := ({ u with top } : Fpu).slot 0
  if u.isEmpty dst then { ({ u with top } : Fpu).put dst b with sw := u.sw &&& ~~~c1 }
  else
    let r := ({ u with sw := u.sw ||| c1 } : Fpu).raise (Exc.ie ||| Exc.sf)
    if r.2 then r.1 else ({ r.1 with top } : Fpu).put dst F80.indefinite.toBytes

def push (v : F80) : Fpu := u.pushRaw v.toBytes

def pop : Fpu := { u with empty := u.tagEmpty (u.slot 0), top := (u.top + 1) &&& 7 }

def setCodes (c : Bool × Bool × Bool) : Fpu :=
  let sw := u.sw &&& ~~~(0x4700 : U16)
  { u with
    sw := sw ||| (if c.2.2 then 0x0100 else 0) ||| (if c.2.1 then 0x0400 else 0) |||
      (if c.1 then 0x4000 else 0) }

def tag (i : Fin 8) : U16 :=
  let r := u.fpr i
  let exp := r.extractLsb' 64 15
  let mant := r.setWidth 64
  if u.isEmpty i then 3
  else if exp = 0 ∧ mant = 0 then 1
  else if exp = 0 ∨ exp = 0x7fff ∨ mant.getLsbD 63 = false then 2
  else 0

def tagWord : U16 :=
  (List.finRange 8).foldl (fun tw i => tw ||| (u.tag i <<< (2 * i.val))) 0

/-- The 28 bytes of the environment. The reserved halves read as ones. -/
def env28 : List U8 :=
  wideBytes u.cw 2 ++ [0xff, 0xff] ++ wideBytes u.statusWord 2 ++ [0xff, 0xff] ++
    wideBytes u.tagWord 2 ++ [0xff, 0xff] ++ wideBytes u.envTail 14 ++ [0xff, 0xff]

/-- Of the tags only the empty ones are loaded; the data registers stay. -/
def loadEnv28 (buf : List U8) : Fpu :=
  let field (w off n : ℕ) : BitVec w := ofBytes w ((buf.drop off).take n)
  let sw := field 16 4 2
  let tw := field 16 8 2
  { u with
    cw := normalizeCw (field 16 0 2)
    top := ((sw >>> 11) &&& 7).setWidth 32
    sw := sw &&& ~~~0x3800
    empty := (List.range 8).foldl
      (fun e i => if (tw >>> (2 * i)) &&& 3 = 3 then e ||| (1 <<< i) else e) 0
    envTail := field 128 12 16 }

def init : Fpu := { u with cw := 0x037f, top := 0, sw := 0, empty := 0xff, envTail := 0 }

def clearExceptions : Fpu := { u with sw := u.sw &&& ~~~0x81ff }

def f80BytesDenormal (b : BitVec 80) : Bool := b.extractLsb' 64 15 == 0 && b.setWidth 64 != 0#64

def floatBytesDenormal (b : List U8) (width : ℕ) : Bool :=
  match width with
  | 8 =>
    let v := ofBytes 64 b
    v &&& 0x7ff0000000000000 == 0 && v &&& 0x000fffffffffffff != 0
  | 4 =>
    let v := ofBytes 32 b
    v &&& 0x7f800000 == 0 && v &&& 0x007fffff != 0
  | _ => false

def stDenormal (i : ℕ) : Bool := !u.isEmpty (u.slot i) && f80BytesDenormal (u.fpr (u.slot i))

end Fpu

/-- An error is an unmasked exception: the rest is not done, and what is recorded stays. -/
abbrev FpuM := EStateM Unit Fpu

namespace FpuM

def final {α : Type} : EStateM.Result Unit Fpu α → Fpu
  | .ok _ u => u
  | .error _ u => u

def raising (exc : Exc) : FpuM Unit := fun u =>
  let r := u.raise exc
  if r.2 then .error () r.1 else .ok () r.1

def underflow : FpuM Unit := do
  modify fun u => { u with sw := u.sw &&& ~~~Fpu.c1 }
  raising (Exc.ie ||| Exc.sf)

/-- `ST(i)` as an operand. An empty one is the indefinite if that is masked. -/
def operand (i : ℕ) : FpuM F80 := do
  let u ← get
  if u.isEmpty (u.slot i) then
    underflow
    return indefinite
  return fromBytes (u.fpr (u.slot i))

def popIf (pops : Bool) : FpuM Unit := modify fun u => if pops then u.pop else u

variable {α β : Type} {c : FpuM α} {f : α → FpuM β} {u v : Fpu}

theorem bind_of_ok {a : α} (h : c u = .ok a v) : (c >>= f) u = f a v := by
  change EStateM.bind c f u = _
  unfold EStateM.bind
  rw [h]

theorem bind_of_error {e : Unit} (h : c u = .error e v) : (c >>= f) u = .error e v := by
  change EStateM.bind c f u = _
  unfold EStateM.bind
  rw [h]

end FpuM

open FpuM

/-- The conversions between the host's float types, and the transcendental functions at either
precision. -/
structure Host where
  widen : U32 → U64
  narrow : U64 → U32
  sin : X87Precision → F80 → F80
  cos : X87Precision → F80 → F80
  tan : X87Precision → F80 → F80
  exp2m1 : X87Precision → F80 → F80
  atan2 : X87Precision → F80 → F80 → F80
  ylog2x : X87Precision → F80 → F80 → F80
  ylog2xp1 : X87Precision → F80 → F80 → F80

/-- By what an op does outside of the unit: nothing, a load before anything else, a store once its
bytes are there, the status word in AX, or the flags of a compare. -/
inductive Arm
  | quiet (p : FpuM Unit)
  | load (n : ℕ) (p : List U8 → FpuM Unit)
  | store (bytes : FpuM (List U8)) (after : FpuM Unit)
  | ax
  | compare (p : FpuM (Bool × Bool × Bool))

namespace Arm
variable (sti : U8)

def fldFloat (n : ℕ) (value : List U8 → F80) : Arm :=
  .load n fun b => do
    if Fpu.floatBytesDenormal b n then raising Exc.de
    modify fun u => u.push (value b)

def fild (n : ℕ) (value : List U8 → F80) : Arm :=
  .load n fun b => modify fun u => u.push (value b)

def fstConverted (pops : Bool) (bytes : Fpu → F80 → List U8) : Arm :=
  .store (do
    let v ← operand 0
    return bytes (← get) v) (popIf pops)

def fistp (n : ℕ) : Arm := fstConverted true fun u v => wideBytes (v.toI64Rc u.ctl.rc) n
def fisttp (n : ℕ) : Arm := fstConverted true fun _ v => wideBytes (v.toI64Rc 3) n

def fstpF80 : Arm :=
  .store (do
    let u ← get
    if u.isEmpty (u.slot 0) then
      underflow
      return wideBytes F80.indefinite.toBytes 10
    return wideBytes (u.fpr (u.slot 0)) 10) (popIf true)

def arithMem (n : ℕ) (value : List U8 → F80) (op : F80 → F80 → Ctl → F80 × Exc) : Arm :=
  .load n fun b => do
    let a ← operand 0
    let u ← get
    let den := Fpu.floatBytesDenormal b n || u.stDenormal 0
    let r := op a (value b) u.ctl
    raising (if den then r.2 ||| Exc.de else r.2)
    modify fun u => u.setSt 0 r.1

def ficom (n : ℕ) (value : List U8 → F80) (pops : Bool) : Arm :=
  .load n fun b => do
    let a ← operand 0
    let c := F80.compare a (value b)
    if c.1 && c.2.1 && c.2.2 then raising Exc.ie
    modify fun u => u.setCodes c
    popIf pops

def arithReg (dst : ℕ) (op : F80 → F80 → Ctl → F80 × Exc) (pops : Bool) : Arm :=
  .quiet do
    let s0 ← operand 0
    let si ← operand sti.toNat
    let u ← get
    let den := u.stDenormal 0 || u.stDenormal sti.toNat
    let r := op s0 si u.ctl
    raising (if den then r.2 ||| Exc.de else r.2)
    modify fun u => u.setSt dst r.1
    popIf pops

def fstSti (pops : Bool) : Arm :=
  .quiet do
    let v ← operand 0
    modify fun u => u.setSt sti.toNat v
    popIf pops

def comi (pops : Bool) : Arm :=
  .compare do
    let a ← operand 0
    let b ← operand sti.toNat
    popIf pops
    return F80.compare a b

def unary (f : X87Precision → F80 → F80) : Arm :=
  .quiet do
    let x ← operand 0
    modify fun u => u.setSt 0 (f u.precision x)

def binaryPop (f : X87Precision → F80 → F80 → F80) : Arm :=
  .quiet do
    let y ← operand 1
    let x ← operand 0
    modify fun u => u.setSt 1 (f u.precision y x)
    popIf true

def inReductionDomain (v : F80) : Bool := v.cls != .normal || v.exp < 63

def trig (f : X87Precision → F80 → F80) (second : Option (X87Precision → F80 → F80)) : Arm :=
  .quiet do
    let x ← operand 0
    if inReductionDomain x then
      modify fun u => u.setSt 0 (f u.precision x)
      -- the second result is pushed when the first has replaced the operand
      match second with
      | none => pure ()
      | some g => modify fun u => u.push (g u.precision x)

end Arm

variable (H : Host)

def i16 (b : List U8) : F80 := fromI64 ((ofBytes 16 b).signExtend 64)
def i32 (b : List U8) : F80 := fromI64 ((ofBytes 32 b).signExtend 64)
def f64 (b : List U8) : F80 := fromF64 (ofBytes 64 b)
def f32 (b : List U8) : F80 := fromF64 (H.widen (ofBytes 32 b))

/-- The operation of a memory form; the last ones divide memory by `ST(0)`. -/
def memArith (kind : FpuKind) (a m : F80) (c : Ctl) : F80 × Exc :=
  match kind with
  | .faddMemF64 | .faddMemF32 | .fiaddMemI16 | .fiaddMemI32 => addCtl a m c
  | .fsubMemF64 | .fsubMemF32 | .fisubMemI16 | .fisubMemI32 => subCtl a m c
  | .fsubrMemF64 | .fsubrMemF32 | .fisubrMemI16 | .fisubrMemI32 => subCtl m a c
  | .fmulMemF64 | .fmulMemF32 | .fimulMemI16 | .fimulMemI32 => mulCtl a m c
  | .fdivMemF64 | .fdivMemF32 | .fidivMemI16 | .fidivMemI32 => divCtl a m c
  | _ => divCtl m a c

/-- With `ST(i)` as the destination the operands are taken the other way. -/
def regArith (kind : FpuKind) (s0 si : F80) (c : Ctl) : F80 × Exc :=
  match kind with
  | .faddP | .faddToSti => addCtl si s0 c
  | .fsubP | .fsubToSti => subCtl si s0 c
  | .fsubrP | .fsubrToSti => subCtl s0 si c
  | .fmulP | .fmulToSti => mulCtl si s0 c
  | .fdivP | .fdivToSti => divCtl si s0 c
  | .fdivrP | .fdivrToSti => divCtl s0 si c
  | .faddSti => addCtl s0 si c
  | .fsubSti => subCtl s0 si c
  | .fsubrSti => subCtl si s0 c
  | .fmulSti => mulCtl s0 si c
  | .fdivSti => divCtl s0 si c
  | _ => divCtl si s0 c

def armOf (kind : FpuKind) (sti : U8) : Arm :=
  match kind with
  | .fldF64 => .fldFloat 8 f64
  | .fldF32 => .fldFloat 4 (f32 H)
  -- a move: the bytes are neither decoded nor checked
  | .fldF80 => .load 10 fun b => modify fun u => u.pushRaw (ofBytes 80 b)
  | .fildI16 => .fild 2 i16
  | .fildI32 => .fild 4 i32
  | .fildI64 => .fild 8 fun b => fromI64 (ofBytes 64 b)
  | .fstpF64 => .fstConverted true fun _ v => wideBytes v.toF64 8
  | .fstF64 => .fstConverted false fun _ v => wideBytes v.toF64 8
  | .fstpF32 => .fstConverted true fun _ v => wideBytes (H.narrow v.toF64) 4
  | .fstF32 => .fstConverted false fun _ v => wideBytes (H.narrow v.toF64) 4
  | .fstpF80 => .fstpF80
  | .fistpI16 => .fistp 2
  | .fistpI32 => .fistp 4
  | .fistpI64 => .fistp 8
  | .fisttpI16 => .fisttp 2
  | .fisttpI32 => .fisttp 4
  | .fisttpI64 => .fisttp 8
  | .faddMemF64 | .fsubMemF64 | .fsubrMemF64 | .fmulMemF64 | .fdivMemF64 | .fdivrMemF64 =>
    .arithMem 8 f64 (memArith kind)
  | .faddMemF32 | .fsubMemF32 | .fsubrMemF32 | .fmulMemF32 | .fdivMemF32 | .fdivrMemF32 =>
    .arithMem 4 (f32 H) (memArith kind)
  | .fiaddMemI16 | .fisubMemI16 | .fisubrMemI16 | .fimulMemI16 | .fidivMemI16 | .fidivrMemI16 =>
    .arithMem 2 i16 (memArith kind)
  | .fiaddMemI32 | .fisubMemI32 | .fisubrMemI32 | .fimulMemI32 | .fidivMemI32 | .fidivrMemI32 =>
    .arithMem 4 i32 (memArith kind)
  | .ficomI16 => .ficom 2 i16 false
  | .ficomI32 => .ficom 4 i32 false
  | .ficompI16 => .ficom 2 i16 true
  | .ficompI32 => .ficom 4 i32 true
  | .fldSti => .quiet do
    let v ← operand sti.toNat
    modify fun u => u.push v
  | .fld1 => .quiet (modify fun u => u.push (fromI64 1))
  | .fldz => .quiet (modify fun u => u.push (F80.zero false))
  | .faddP | .fsubP | .fsubrP | .fmulP | .fdivP | .fdivrP =>
    .arithReg sti sti.toNat (regArith kind) true
  | .faddSti | .fsubSti | .fsubrSti | .fmulSti | .fdivSti | .fdivrSti =>
    .arithReg sti 0 (regArith kind) false
  | .faddToSti | .fsubToSti | .fsubrToSti | .fmulToSti | .fdivToSti | .fdivrToSti =>
    .arithReg sti sti.toNat (regArith kind) false
  | .fstSti => .fstSti sti false
  | .fstpSti => .fstSti sti true
  | .fxch => .quiet do
    let a ← operand 0
    let b ← operand sti.toNat
    modify fun u => (u.setSt 0 b).setSt sti.toNat a
  | .fucomi | .fcomi => .comi sti false
  | .fucomip | .fcomip => .comi sti true
  | .fabs => .unary fun _ v => v.abs
  | .fchs => .unary fun _ v => v.neg
  | .fldcw => .load 2 fun b => modify fun u => { u with cw := normalizeCw (ofBytes 16 b) }
  | .fnstcw => .store (do return wideBytes (← get).cw 2) (pure ())
  | .fnstsw => .ax
  | .fnstswMem => .store (do return wideBytes (← get).statusWord 2) (pure ())
  -- the image is stored first, then every exception is masked
  | .fnstenv => .store (do return (← get).env28) (modify fun u => { u with cw := u.cw ||| 0x3f })
  | .fldenv => .load 28 fun b => modify fun u => u.loadEnv28 b
  | .fninit => .quiet (modify Fpu.init)
  | .fnclex => .quiet (modify Fpu.clearExceptions)
  | .fprem => .quiet do
    let a ← operand 0
    let b ← operand 1
    modify fun u => u.setSt 0 (rem a b)
  | .fsin => .trig H.sin none
  | .fcos => .trig H.cos none
  | .fptan => .trig H.tan (some fun _ _ => fromI64 1)
  | .fsincos => .trig H.sin (some H.cos)
  | .fpatan => .binaryPop H.atan2
  | .f2xm1 => .unary H.exp2m1
  | .fyl2x => .binaryPop H.ylog2x
  | .fyl2xp1 => .binaryPop H.ylog2xp1

structure X87Cpu where
  fpu : Fpu
  rax : U64
  flags : Flags

structure X87State (M : Type) where
  cpu : X87Cpu
  mem : M

variable {M : Type} [FpMem M]

def compareWrites (c : Bool × Bool × Bool) : FlagWrites
  | .zf => some c.1
  | .pf => some c.2.1
  | .cf => some c.2.2
  | .of | .sf | .af => some false

def X87State.setFpu (s : X87State M) (u : Fpu) : X87State M := { s with cpu.fpu := u }

def Arm.run (addr : U64) (s : X87State M) : Arm → Option (U64 × Bool) × X87State M
  | .quiet p => (none, s.setFpu (final (p s.cpu.fpu)))
  | .load n p =>
    match FpMem.load s.mem addr n with
    | none => (some (addr, false), s)
    | some b => (none, s.setFpu (final (p b s.cpu.fpu)))
  | .store p after =>
    match p s.cpu.fpu with
    | .error _ u => (none, s.setFpu u)
    | .ok bs u =>
      let r := FpMem.store s.mem addr bs
      if r.2 then (none, ⟨{ s.cpu with fpu := final (after u) }, r.1⟩)
      else (some (addr, true), ⟨{ s.cpu with fpu := u }, r.1⟩)
  | .ax =>
    (none, { s with cpu.rax := writeGpr s.cpu.rax (s.cpu.fpu.statusWord.setWidth 64) .b2 })
  | .compare p =>
    match p s.cpu.fpu with
    | .error _ u => (none, s.setFpu u)
    | .ok c u => (none, { s with cpu.fpu := u, cpu.flags := s.cpu.flags.write (compareWrites c) })

def execX87 (kind : FpuKind) (addr : U64) (sti : U8) (s : X87State M) :
    Option (U64 × Bool) × X87State M :=
  (armOf H kind sti).run addr s

end X86Jit
