import X86Jit.Interp.Exec
import X86Jit.Lift.Dispatch

/-! The registers beside the integer core, and the ops of the integer lift that use them:
identification and the save area of the vector and x87 units. -/
namespace X86Jit
open X86Jit.Lift (OtherOp)

inductive Feature
  | sse | sse2 | mmx
  | sse3 | ssse3 | sse41 | sse42 | popcnt | cx16
  | movbe | avx | avx2 | bmi1 | bmi2 | fma | f16c | lzcnt
  | xsave | osxsave
  | avx512f | avx512bw | avx512dq | avx512vl | avx512cd
  | aes | pclmul | sha | gfni
  deriving DecidableEq, Repr

abbrev GuestCpuFeatures := Feature → Bool

namespace GuestCpuFeatures
variable (f : GuestCpuFeatures)

def project (l : List (Feature × ℕ)) : U32 :=
  l.foldl (fun w p => w ||| bitAt 32 (f p.1) p.2) 0

def leaf1Ecx : U32 :=
  f.project [(.sse3, 0), (.pclmul, 1), (.ssse3, 9), (.fma, 12), (.cx16, 13), (.sse41, 19),
    (.sse42, 20), (.movbe, 22), (.popcnt, 23), (.aes, 25), (.xsave, 26), (.osxsave, 27),
    (.avx, 28), (.f16c, 29)]

def leaf1Edx : U32 := 0x01008111 ||| f.project [(.mmx, 23), (.sse, 25), (.sse2, 26)]

def leaf7Ebx : U32 :=
  f.project [(.bmi1, 3), (.avx2, 5), (.bmi2, 8), (.avx512f, 16), (.avx512dq, 17), (.sha, 29),
    (.avx512cd, 28), (.avx512bw, 30), (.avx512vl, 31)]

def leaf7Ecx : U32 := f.project [(.gfni, 8)]

def extLeaf1Ecx : U32 := 1 ||| f.project [(.lzcnt, 5)]

def xcr0 : U64 :=
  0b011 ||| (if f .avx then 0b100 else 0) ||| (if f .avx512f then 0b11100000 else 0)

end GuestCpuFeatures

structure VecRegs where
  xmm : Fin 32 → U128
  ymmHi : Fin 32 → U128
  zmmHi : Fin 32 → U128 × U128
  kmask : Fin 8 → U64

/-- How precise the transcendental x87 functions are, as the embedder chose it. -/
inductive X87Precision
  | fast | extended
  deriving DecidableEq, Repr

/-- The x87 registers, as raw 80-bit values. The tail of the environment is what was last
loaded there. -/
structure Fpu where
  fpr : Fin 8 → BitVec 80
  top : U32
  cw : U16
  sw : U16
  empty : U8
  envTail : U128
  precision : X87Precision

/-- The parts of the access of one instruction that the embedder has answered. -/
structure MmioParts where
  rip : U64
  entries : List (U64 × U64)

structure Ext where
  vec : VecRegs
  fpu : Fpu
  features : GuestCpuFeatures
  mmioParts : MmioParts

def Ext.zero : Ext :=
  { vec := ⟨fun _ => 0, fun _ => 0, fun _ => (0, 0), fun _ => 0⟩
    fpu := ⟨fun _ => 0, 0, 0x037f, 0, 0xff, 0, .fast⟩
    features := fun _ => false
    mmioParts := ⟨0, []⟩ }

def wideBytes {w : ℕ} (v : BitVec w) (n : ℕ) : List U8 :=
  (List.range n).map fun i => (v >>> (8 * i)).setWidth 8

def ofBytes (w : ℕ) (bs : List U8) : BitVec w :=
  bs.foldr (fun b v => (v <<< 8) ||| b.setWidth w) 0

namespace Memory

def readRamGuest (m : Memory) (addr : U64) (n : ℕ) : Option (List U8) :=
  match m.regionFor addr.toNat n with
  | none => none
  | some r =>
    match r.kind with
    | .trap => none
    | _ => some ((List.range n).map fun i => m.bytes (addr.toNat + i))

def writeRamGuest (m : Memory) (addr : U64) (bs : List U8) : Option Memory :=
  match m.regionFor addr.toNat bs.length with
  | none => none
  | some r =>
    match r.kind with
    | .trap => none
    | .rom => some m
    | .ram => some ((m.setBytes addr.toNat bs).noteWrite addr.toNat bs.length)

end Memory

def Fpu.slot (u : Fpu) (j : ℕ) : Fin 8 := Fin.ofNat 8 (u.top.toNat + j)

def Fpu.statusWord (u : Fpu) : U16 :=
  (u.sw &&& ~~~(0x3800 : U16)) ||| ((u.top.setWidth 16 &&& 7) <<< 11)

/-- The 512 bytes of the save area. The control word of the vector unit is its default. -/
def fxImage (x : Ext) : List U8 :=
  wideBytes x.fpu.cw 2 ++ wideBytes x.fpu.statusWord 2 ++ [~~~x.fpu.empty] ++
    List.replicate 19 0 ++ wideBytes (0x1f80 : U32) 4 ++ wideBytes (0xffff : U32) 4 ++
    (List.range 8).flatMap (fun j => wideBytes (x.fpu.fpr (x.fpu.slot j)) 10 ++
      List.replicate 6 0) ++
    (List.range 16).flatMap (fun i => wideBytes (x.vec.xmm (Fin.ofNat 32 i)) 16) ++
    List.replicate 96 0

def normalizeCw (raw : U16) : U16 := (raw ||| 0x0040) &&& 0x1f7f

/-- Of the vector registers the area has the low halves of the first sixteen. -/
def fxRestore (x : Ext) (buf : List U8) : Ext :=
  let field (w off n : ℕ) : BitVec w := ofBytes w ((buf.drop off).take n)
  let sw := field 16 2 2
  let top := ((sw >>> 11) &&& 7).setWidth 32
  { x with
    fpu :=
      { x.fpu with
        cw := normalizeCw (field 16 0 2)
        sw := sw &&& ~~~0x3800
        top
        empty := ~~~(field 8 4 1)
        fpr := fun i => field 80 (32 + (i.val + 8 - top.toNat) % 8 * 16) 10 }
    vec := { x.vec with
      xmm := fun i => if i.val < 16 then field 128 (160 + i.val * 16) 16 else x.vec.xmm i } }

variable (g : Guest Ext)

def Guest.setGpr32 (i : Fin 16) (v : U32) : Guest Ext :=
  g.setGpr i (writeGpr (g.gpr i) (v.setWidth 64) .b4)

def cpuidLeaf (f : GuestCpuFeatures) (leaf : U32) :
    U32 × U32 × U32 × U32 :=
  if leaf = 0 then (7, 0x756e6547, 0x6c65746e, 0x49656e69)
  else if leaf = 1 then (0x306c3, 0, f.leaf1Ecx, f.leaf1Edx)
  else if leaf = 7 then (0, f.leaf7Ebx, f.leaf7Ecx, 0)
  else if leaf = 0x80000000 then (0x80000001, 0, 0, 0)
  else if leaf = 0x80000001 then (0, 0, f.extLeaf1Ecx, 0x20000800)
  else (0, 0, 0, 0)

def execCpuid : Guest Ext :=
  let (a, b, c, d) := cpuidLeaf g.ext.features ((g.gpr rax).setWidth 32)
  (((g.setGpr32 rax a).setGpr32 rbx b).setGpr32 rcx c).setGpr32 rdx d

def execXgetbv : Guest Ext :=
  (g.setGpr rax (writeGpr (g.gpr rax) g.ext.features.xcr0 .b4)).setGpr32 rdx 0

/-- A wide access that fails is reported as unmapped, also on a device. -/
def wideFault (addr : U64) (access : AccessKind) : Stop (Guest Ext) :=
  g.stopAt g.curAddr (.exit (.unmappedMemory addr access))

def execFxState (addr : Val) (restore : Bool) : Outcome (Guest Ext) :=
  let a := g.readVal addr
  if restore then
    match g.mem.readRamGuest a 512 with
    | some buf => .ok { g with ext := fxRestore g.ext buf }
    | none => .error (wideFault g a .read)
  else
    match g.mem.writeRamGuest a (fxImage g.ext) with
    | some mem => .ok { g with mem }
    | none => .error (wideFault g a .write)

/-- The ops of the integer lift that are in no group; none of them sets a flag. -/
def otherOps {Y : Type} (foreign : OtherOps Y Ext) : OtherOps (OtherOp Y) Ext
  | .cpuid, g => (.ok (execCpuid g), fun _ => none)
  | .xgetbv, g => (.ok (execXgetbv g), fun _ => none)
  | .fxState addr restore, g => (execFxState g addr restore, fun _ => none)
  | .foreign op, g => foreign op g

end X86Jit
