import Mathlib.Logic.Function.Iterate
import X86Jit.Interp.StringRun
import X86Jit.Lib.DeadStores

/-! The interpreter: what each op does, and the walk over a block. -/
namespace X86Jit
open X86Jit.Lib

def swapBytes (v : U64) (n : ℕ) : U64 :=
  (List.range n).foldl (fun r i => r ||| (((v >>> (8 * i)) &&& 0xff) <<< (8 * (n - 1 - i)))) 0

/-- Divide `hi:lo`. The one quotient the 128-bit division itself cannot hold does not fit either. -/
def divide (hi lo divisor : U64) (size : Size) (signed : Bool) : Option (U64 × U64) :=
  let m := mask size
  let n := size.bits
  let d := divisor &&& m
  if d = 0 then none else
  let dividend : U128 := ((hi &&& m).setWidth 128 <<< n) ||| (lo &&& m).setWidth 128
  if signed then
    let dv := (signExtend d size).toInt
    let sd := ((dividend <<< (128 - 2 * n)).sshiftRight (128 - 2 * n)).toInt
    let q := sd.tdiv dv
    let lim : ℤ := 2 ^ (n - 1)
    if q < -lim ∨ lim ≤ q then none
    else some (BitVec.ofInt 64 q &&& m, BitVec.ofInt 64 (sd.tmod dv) &&& m)
  else
    let q := dividend.toNat / d.toNat
    if m.toNat < q then none
    else some (BitVec.ofNat 64 q, BitVec.ofNat 64 (dividend.toNat % d.toNat))

def crcBit (crc : U32) : U32 := (crc >>> 1) ^^^ (0x82f63b78 &&& (0 - (crc &&& 1)))

def crc32c (crc : U32) (src : U64) (bytes : ℕ) : U32 :=
  (List.range bytes).foldl
    (fun crc i => crcBit^[8] (crc ^^^ ((src >>> (i * 8)) &&& 0xff).setWidth 32)) crc

def ranked (m : U64) (bits : ℕ) : List (ℕ × ℕ) :=
  ((List.range bits).filter fun i => m.getLsbD i).zipIdx

def bmiResult (a b : U64) (size : Size) (op : BmiOp) : U64 × Bool :=
  let m := mask size
  let av := a &&& m
  let bv := b &&& m
  match op with
  | .andn => (~~~av &&& bv &&& m, false)
  | .blsi => (av &&& (0 - av) &&& m, av != 0)
  | .blsr => (av &&& (av - 1) &&& m, av == 0)
  | .blsmsk => ((av ^^^ (av - 1)) &&& m, av == 0)
  | .bextr =>
    let start := (bv &&& 0xff).toNat
    let len := ((bv >>> 8) &&& 0xff).toNat
    let shifted := if 64 ≤ start then 0 else av >>> start
    ((if 64 ≤ len then shifted else shifted &&& ((1#64 <<< len) - 1)) &&& m, false)
  | .bzhi =>
    let idx := (bv &&& 0xff).toNat
    ((if size.bits ≤ idx then av else av &&& ((1#64 <<< idx) - 1)) &&& m,
      decide (size.bits - 1 < idx))
  | .pdep =>
    ((ranked bv size.bits).foldl (fun r p => r ||| bitAt 64 (av.getLsbD p.2) p.1) 0 &&& m, false)
  | .pext =>
    ((ranked bv size.bits).foldl (fun r p => r ||| bitAt 64 (av.getLsbD p.1) p.2) 0 &&& m, false)

abbrev FlagWrites := Flag → Option Bool

namespace Flags

def writeOne (w : FlagWrites) (f : Flags) (x : Flag) : Flags :=
  match w x with
  | some v => f.set x v
  | none => f

def write (f : Flags) (w : FlagWrites) : Flags :=
  [Flag.cf, .pf, .af, .zf, .sf, .of].foldl (writeOne w) f

theorem get_writeOne (w : FlagWrites) (f : Flags) (x y : Flag) :
    (f.writeOne w x).get y = if y = x then (w x).getD (f.get y) else f.get y := by
  unfold writeOne
  cases w x with
  | some v => exact get_set f x y v
  | none => simp

theorem get_write (f : Flags) (w : FlagWrites) (x : Flag) :
    (f.write w).get x = (w x).getD (f.get x) := by
  cases x <;> simp [write, get_writeOne]

theorem df_writeOne (w : FlagWrites) (f : Flags) (x : Flag) :
    (f.writeOne w x).df = f.df ∧ (f.writeOne w x).ifl = f.ifl := by
  unfold writeOne
  split <;> simp

theorem df_write (f : Flags) (w : FlagWrites) :
    (f.write w).df = f.df ∧ (f.write w).ifl = f.ifl := by
  simp [write, df_writeOne]

theorem AgreeOff.write {D : Flag → Bool} {f g : Flags} (h : AgreeOff D f g) (w : FlagWrites) :
    AgreeOff (fun x => D x && (w x).isNone) (f.write w) (g.write w) := by
  refine ⟨?_, ?_, ?_⟩
  · intro x hx
    rw [get_write, get_write]
    cases hw : w x with
    | some v => rfl
    | none =>
      apply h.get
      simpa [hw] using hx
  · rw [(df_write f w).1, (df_write g w).1, h.df]
  · rw [(df_write f w).2, (df_write g w).2, h.ifl]

end Flags

variable {V : Type} (g : Guest V)

def execInsnStart (guestAddr : U64) : Guest V :=
  { g with
    retired := if g.started then g.retired + 1 else g.retired
    started := true
    stiShadow := false
    curAddr := guestAddr }

def execDiv (quot rem : Temp) (hi lo divisor : Val) (size : Size) (signed : Bool) :
    Outcome (Guest V) :=
  match divide (g.readVal hi) (g.readVal lo) (g.readVal divisor) size signed with
  | some (q, r) => .ok ((g.setTemp quot q).setTemp rem r)
  | none => .error (g.stopAt g.curAddr (.exit (.exception g.curAddr 0)))

/-- A load. The first one after an MMIO read takes the value the embedder supplied. -/
def execLoad (dst : Temp) (addr : Val) (size : Size) : Except (Stop (Guest V)) (Guest V) :=
  match g.pendingMmio with
  | some v => .ok ({ g with pendingMmio := none }.setTemp dst (v &&& mask size))
  | none => do
    let v ← g.loadOr (g.readVal addr) size
    return g.setTemp dst v

/-- A store. An MMIO write the embedder has acknowledged is not made again. -/
def execStore (addr src : Val) (size : Size) : Outcome (Guest V) :=
  match g.mem.write (g.readVal addr).toNat (g.readVal src) size.bytes with
  | .ok mem => .ok { g with mem }
  | .error t =>
    if t = .mmio ∧ g.pendingMmioWrite = true then .ok { g with pendingMmioWrite := false }
    else .error (g.trapOut t (g.readVal addr) size .write (g.readVal src))

def commitAtomic (old : Temp) (addr src : U64) (size : Size) :
    Except MemTrap (U64 × Memory) → Outcome (Guest V)
  | .ok (prev, mem) => .ok ({ g with mem }.setTemp old prev)
  | .error t => .error (g.trapOut t addr size .write src)

def execAtomicRmw (old : Temp) (addr src : Val) (size : Size) (op : RmwOp) : Outcome (Guest V) :=
  commitAtomic g old (g.readVal addr) (g.readVal src) size
    (g.mem.atomicRmw (g.readVal addr) (g.readVal src) size op)

def execAtomicCas (old : Temp) (addr expected src : Val) (size : Size) : Outcome (Guest V) :=
  commitAtomic g old (g.readVal addr) (g.readVal src) size
    (g.mem.atomicCas (g.readVal addr) (g.readVal expected) (g.readVal src) size)

def execBswap (dst : Temp) (a : Val) (size : Size) : Guest V :=
  g.setTemp dst <|
    match size with
    | .b8 => swapBytes (g.readVal a) 8
    | .b2 => swapBytes (g.readVal a) 2
    | _ => swapBytes (g.readVal a) 4

def execPushaReal : Except (Stop (Guest V)) (Guest V) :=
  ([rax, rcx, rdx, rbx, rsp, rbp, rsi, rdi].map fun i => (g.gpr i).setWidth 16).foldlM
    (fun g w => g.push16 w) g

def execPopaReal : Except (Stop (Guest V)) (Guest V) :=
  [some rdi, some rsi, some rbp, none, some rbx, some rdx, some rcx, some rax].foldlM
    (fun g slot => do
      let (v, g) ← g.pop16
      match slot with
      | some i => return g.setLow16 i v
      | none => return g) g

def copyDisplay : Except (Stop (Guest V)) (Guest V) := do
  let bp := (g.gpr rbp).setWidth 16 - 2
  let g := g.setLow16 rbp bp
  let w ← g.loadOr (g.ssAddr bp) .b2
  g.push16 (w.setWidth 16)

def copyDisplays : ℕ → Guest V → Except (Stop (Guest V)) (Guest V)
  | 0, g => .ok g
  | n + 1, g => do copyDisplays n (← copyDisplay g)

def execEnterReal (alloc : U16) (level : U8) : Except (Stop (Guest V)) (Guest V) := do
  let depth := (level &&& 0x1f).toNat
  let g ← g.push16 ((g.gpr rbp).setWidth 16)
  let framePtr := (g.gpr rsp).setWidth 16
  let g ← if depth = 0 then .ok g else do
    let g ← copyDisplays (depth - 1) g
    g.push16 framePtr
  let g := g.setLow16 rbp framePtr
  return g.setLow16 rsp ((g.gpr rsp).setWidth 16 - alloc)

def wrapSp (wrap : Bool) (sp : U64) : U64 := if wrap then sp &&& 0xffffffff else sp

def execCall (target : Val) (returnAddr : U64) (slot : Size) (wrap : Bool) : Outcome (Guest V) :=
  let sp := wrapSp wrap (g.gpr rsp - BitVec.ofNat 64 slot.bytes)
  match g.storeOr sp returnAddr slot with
  | .error e => .error e
  | .ok g' => .error ((g'.setGpr rsp sp).stopAt (g.readVal target) .continue)

def execRet (slot : Size) (popExtra : U16) (wrap : Bool) : Outcome (Guest V) :=
  let sp := g.gpr rsp
  match g.loadOr sp slot with
  | .error e => .error e
  | .ok ret =>
    let nsp := wrapSp wrap (sp + BitVec.ofNat 64 slot.bytes + popExtra.setWidth 64)
    .error ((g.setGpr rsp nsp).stopAt ret .continue)

def farTo (cs : U16) (ip : U64) : Stop (Guest V) := { g with cs }.stopAt ip .continue

def execFarCall (cs ip : Val) (retIp : U16) : Outcome (Guest V) :=
  match (do (← g.push16 g.cs).push16 retIp) with
  | .error e => .error e
  | .ok g' => .error (farTo g' ((g.readVal cs).setWidth 16) (g.readVal ip &&& 0xffff))

def execFarRet (popExtra : U16) : Outcome (Guest V) :=
  match (do
    let (ip, g) ← g.pop16
    let (cs, g) ← g.pop16
    return (ip, cs, g.setLow16 rsp ((g.gpr rsp).setWidth 16 + popExtra))) with
  | .error e => .error e
  | .ok (ip, cs, g') => .error (farTo g' cs (ip.setWidth 64))

def execPortIo (blockEnd : U64) (port value : Val) (size : Size) (dirOut : Bool) : Stop (Guest V) :=
  let exit (dir : PortDir) : StepResult :=
    .exit (.portIo ((g.readVal port).setWidth 16) size dir (g.readVal value &&& mask size))
  if dirOut then g.stopAt blockEnd (exit .output)
  else { g with pendingPortIn := some size }.stopAt blockEnd (exit .input)

def execTrap (vector advance : U8) : Stop (Guest V) :=
  let rip := g.curAddr + advance.setWidth 64
  g.stopAt rip (.exit (.exception rip vector))

def PlainOp.exec (blockEnd : U64) : PlainOp → Outcome (Guest V)
  | insnStart guestAddr => .ok (execInsnStart g guestAddr)
  | readReg dst reg => .ok (g.setTemp dst (g.readReg reg))
  | writeReg reg src size => .ok (g.writeReg reg (g.readVal src) size)
  | sext dst a width => .ok (g.setTemp dst (signExtend (g.readVal a) width))
  | bswap dst a size => .ok (execBswap g dst a size)
  | div quot rem hi lo divisor size signed => execDiv g quot rem hi lo divisor size signed
  | load dst addr size => execLoad g dst addr size
  | store addr src size => execStore g addr src size
  | atomicRmw old addr src size op => execAtomicRmw g old addr src size op
  | atomicCas old addr expected src size => execAtomicCas g old addr expected src size
  | crc32 dst crc src bytes =>
    let folded := crc32c ((g.readVal crc).setWidth 32) (g.readVal src) bytes.bytes
    .ok (g.setTemp dst (folded.setWidth 64))
  | pushaReal => execPushaReal g
  | popaReal => execPopaReal g
  | enterReal alloc level => execEnterReal g alloc level
  | jump target => .error (g.stopAt (g.readVal target) .continue)
  | call target returnAddr slot wrap => execCall g target returnAddr slot wrap
  | ret slot popExtra wrap => execRet g slot popExtra wrap
  | farJump cs ip => .error (farTo g ((g.readVal cs).setWidth 16) (g.readVal ip &&& 0xffff))
  | farCall cs ip retIp => execFarCall g cs ip retIp
  | farRet popExtra => execFarRet g popExtra
  | portIo port value size dirOut => .error (execPortIo g blockEnd port value size dirOut)
  | hlt => .error (g.stopAt blockEnd (.exit .hlt))
  | trap vector advance => .error (execTrap g vector advance)

def execBt (result : Temp) (a bit : Val) (size : Size) (op : BtOp) : Guest V × FlagWrites :=
  let av := g.readVal a
  let b := (g.readVal bit &&& BitVec.ofNat 64 (size.bits - 1)).toNat
  let m := 1#64 <<< b
  let r :=
    match op with
    | .test => av
    | .set => av ||| m
    | .reset => av &&& ~~~m
    | .complement => av ^^^ m
  (g.setTemp result (r &&& mask size), fun
    | .cf => some ((av >>> b) &&& 1 != 0)
    | _ => none)

def execPopcnt (dst : Temp) (src : Val) (size : Size) : Guest V × FlagWrites :=
  let s := g.readVal src &&& mask size
  (g.setTemp dst s.cpop, fun
    | .zf => some (s == 0)
    | _ => some false)

def execBmi (dst : Temp) (a b : Val) (size : Size) (op : BmiOp) : Guest V × FlagWrites :=
  let r := bmiResult (g.readVal a) (g.readVal b) size op
  (g.setTemp dst r.1, fun x =>
    if op.writesFlags then
      match x with
      | .cf => some r.2
      | .zf => some (r.1 == 0)
      | .sf => some (r.1.getLsbD (size.bits - 1))
      | .of => some false
      | _ => none
    else none)

/-- `bsf` and `bsr` of zero keep the destination; the counting forms give the width. -/
def execBitScan (dst : Temp) (src old : Val) (size : Size) (op : BitScanOp) :
    Guest V × FlagWrites :=
  let s := g.readVal src &&& mask size
  let scan (r : U64) : Guest V × FlagWrites :=
    (g.setTemp dst r, fun
      | .zf => some (s == 0)
      | _ => none)
  let count (r : U64) : Guest V × FlagWrites :=
    (g.setTemp dst r, fun
      | .cf => some (s == 0)
      | .zf => some (r == 0)
      | _ => none)
  match op with
  | .bsf => scan (if s = 0 then g.readVal old &&& mask size else s.ctz)
  | .bsr => scan (if s = 0 then g.readVal old &&& mask size else 63 - s.clz)
  | .tzcnt => count (if s = 0 then BitVec.ofNat 64 size.bits else s.ctz)
  | .lzcnt => count (s.clz - (64 - BitVec.ofNat 64 size.bits))

def sahfWrites : FlagWrites
  | .cf => some ((g.gpr rax).getLsbD 8)
  | .pf => some ((g.gpr rax).getLsbD 10)
  | .af => some ((g.gpr rax).getLsbD 12)
  | .zf => some ((g.gpr rax).getLsbD 14)
  | .sf => some ((g.gpr rax).getLsbD 15)
  | .of => none

/-- The vector, x87 and identification ops may trap out and set flags, and see everything but the
flags. -/
abbrev OtherOps (X V : Type) := X → Guest V → Outcome (Guest V) × FlagWrites

variable {X : Type} (sem : OtherOps X V)

def SetOp.exec : SetOp X → Outcome (Guest V) × FlagWrites
  | bt result a bit size op => (execBt g result a bit size op).map .ok id
  | popcnt dst src size => (execPopcnt g dst src size).map .ok id
  | bmi dst a b size op => (execBmi g dst a b size op).map .ok id
  | bitScan dst src old size op => (execBitScan g dst src old size op).map .ok id
  | sahf => (.ok g, sahfWrites g)
  | other op => sem op g

structure WalkState (V : Type) where
  guest : Guest V
  flags : Flags

def WalkState.zero {V : Type} (ext : V) (mem : Memory) : WalkState V :=
  { guest :=
      { gpr := fun _ => 0, rip := 0, fsBase := 0, gsBase := 0, cs := 0, ds := 0, es := 0, ss := 0
        ext, pendingMmio := none, pendingMmioWrite := false, pendingPortIn := none, mem
        temps := fun _ => 0, curAddr := 0, retired := 0, started := false, stiShadow := false }
    flags :=
      { cf := false, pfSrc := pfSrcZero, afSrc := afSrcZero, zf := false, sf := false, of := false
        df := false, ifl := false } }

theorem smallSpan_le : 0x10000 ≤ maxTrackedSpan := by decide

def Memory.small (regions : List Region) (regions_le : ∀ r ∈ regions, r.stop ≤ 0x10000)
    (bytes : ℕ → U8) : Memory :=
  { Memory.fresh 0x10000 0 smallSpan_le with regions, regions_le, bytes }

def withFlags {V : Type} (f : Flags) : Outcome (Guest V) → Outcome (WalkState V)
  | .ok g => .ok ⟨g, f⟩
  | .error e => .error ⟨⟨e.state, f⟩, e.result⟩

variable (s : WalkState V)

def setTemps (g : Guest V) (l : List (Temp × U64)) : Guest V :=
  l.foldl (fun g p => g.setTemp p.1 p.2) g

theorem setTemps_eq (g : Guest V) (l : List (Temp × U64)) :
    setTemps g l =
      { g with temps := l.foldl (fun t p => Function.update t p.1 p.2) g.temps } := by
  induction l generalizing g with
  | nil => rfl
  | cons p l ih => exact ih (g.setTemp p.1 p.2)

def AluOp.exec (op : AluOp) : WalkState V :=
  let g := s.guest
  let out := execAlu op.kind op.size op.setFlags (g.readVal op.a) (g.readVal op.b)
    (g.readVal op.count) s.flags
  ⟨setTemps g (op.dst.zip out.1), out.2⟩

def execLahf : Guest V :=
  let ah := (s.flags.toFlags16 &&& 0xff).setWidth 64
  s.guest.setGpr rax ((s.guest.gpr rax &&& ~~~0xff00#64) ||| (ah <<< 8))

def execPopfReal : Outcome (WalkState V) :=
  match s.guest.pop16 with
  | .ok (image, g) => .ok ⟨g, s.flags.setFlags16 image⟩
  | .error e => withFlags s.flags (.error e)

def adjustDecimal (sub cf af : Bool) (al : U8) : U8 × Bool × Bool :=
  let adj := decide (9 < (al &&& 0xf).toNat) || af
  let carry := if sub then decide (al.toNat < 6) else decide (256 ≤ al.toNat + 6)
  let al₁ := if adj then (if sub then al - 6 else al + 6) else al
  let high := decide (0x99 < al.toNat) || cf
  (if high then (if sub then al₁ - 0x60 else al₁ + 0x60) else al₁,
    high || (adj && (cf || carry)), adj)

def decimalFlags (al : U8) : FlagWrites
  | .sf => some al.msb
  | .zf => some (al == 0)
  | .pf => some (evenParity al)
  | _ => none

/-- The decimal adjusts. `aam` by zero is a divide error. -/
def execBcd (kind : BcdKind) (cf af : Bool) (g : Guest V) : Outcome (Guest V) × FlagWrites :=
  let al := (g.gpr rax).setWidth 8
  let decimal (sub : Bool) : Outcome (Guest V) × FlagWrites :=
    let r := adjustDecimal sub cf af al
    (.ok (g.setGpr rax ((g.gpr rax &&& ~~~0xff#64) ||| r.1.setWidth 64)), fun
      | .cf => some r.2.1
      | .af => some r.2.2
      | .of => some false
      | x => decimalFlags r.1 x)
  let ascii (sub : Bool) : Outcome (Guest V) × FlagWrites :=
    let ax := (g.gpr rax).setWidth 16
    let adj := decide (9 < (al &&& 0xf).toNat) || af
    let ax := if adj then (if sub then ax - 0x106 else ax + 0x106) else ax
    (.ok (g.setLow16 rax (ax &&& 0xff0f)), fun
      | .cf => some adj
      | .af => some adj
      | _ => none)
  match kind with
  | .daa => decimal false
  | .das => decimal true
  | .aaa => ascii false
  | .aas => ascii true
  | .aam base =>
    if base = 0 then (.error (g.stopAt g.curAddr (.exit (.exception g.curAddr 0))), fun _ => none)
    else (.ok (g.setLow16 rax ((al / base) ++ (al % base))), decimalFlags (al % base))
  | .aad base =>
    let al' := al + ((g.gpr rax >>> 8).setWidth 8) * base
    (.ok (g.setLow16 rax (al'.setWidth 16)), decimalFlags al')

def runString (i : StrInsn) : Outcome (WalkState V) :=
  let g := s.guest
  let out := i.run ⟨g.gpr rax, g.gpr rcx, g.gpr rsi, g.gpr rdi, s.flags⟩ g.mem
  let c := out.1.1
  let g' := { (((g.setGpr rax c.rax).setGpr rcx c.rcx).setGpr rsi c.rsi).setGpr rdi c.rdi with
    mem := out.1.2 }
  withFlags c.flags <|
    match out.2 with
    | none => .ok g'
    | some f =>
      .error (g'.trapOut f.trap f.addr f.elem (if f.write then .write else .read) f.value)

/-- Push FLAGS, CS and the saved IP, clear IF, and load CS:IP from the table. -/
def deliverInterrupt (vector : U8) (savedIp : U64) : Stop (WalkState V) :=
  let frame : Except (Stop (Guest V)) (Guest V) := do
    let g ← s.guest.push16 s.flags.toFlags16
    let g ← g.push16 g.cs
    g.push16 (savedIp.setWidth 16)
  match frame with
  | .error e => ⟨⟨e.state, s.flags⟩, e.result⟩
  | .ok g =>
    let f := { s.flags with ifl := false }
    let ivt := vector.setWidth 64 * 4
    let entry : Except (Stop (Guest V)) (U64 × U64) := do
      let newIp ← g.loadOr ivt .b2
      let newCs ← g.loadOr (ivt + 2) .b2
      return (newIp, newCs)
    match entry with
    | .error e => ⟨⟨e.state, f⟩, e.result⟩
    | .ok (newIp, newCs) => ⟨⟨{ g with cs := newCs.setWidth 16, rip := newIp }, f⟩, .continue⟩

def execIretReal : Stop (WalkState V) :=
  let frame : Except (Stop (Guest V)) ((U16 × U16 × U16) × Guest V) := do
    let (ip, g) ← s.guest.pop16
    let (cs, g) ← g.pop16
    let (image, g) ← g.pop16
    return ((ip, cs, image), g)
  match frame with
  | .error e => ⟨⟨e.state, s.flags⟩, e.result⟩
  | .ok ((ip, cs, image), g) =>
    ⟨⟨{ g with cs, rip := ip.setWidth 64 }, s.flags.setFlags16 image⟩, .continue⟩

def goTo (rip : U64) : Stop (WalkState V) := ⟨⟨{ s.guest with rip }, s.flags⟩, .continue⟩

/-- `loop`, `loope`, `loopne` count CX down first; `jcxz` only looks at it. -/
def execLoopCx (kind : LoopKind) (taken fallthrough : U64) : Stop (WalkState V) :=
  let cx := (s.guest.gpr rcx).setWidth 16
  let counted : WalkState V := { s with guest := s.guest.setLow16 rcx (cx - 1) }
  match kind with
  | .jcxz => goTo s (if cx = 0 then taken else fallthrough)
  | .loop => goTo counted (if cx - 1 ≠ 0 then taken else fallthrough)
  | .loope => goTo counted (if cx - 1 ≠ 0 ∧ s.flags.zf = true then taken else fallthrough)
  | .loopne => goTo counted (if cx - 1 ≠ 0 ∧ s.flags.zf = false then taken else fallthrough)

/-- The fast system call latches the return address and the flags; the gate does not. -/
def execSyscall (blockEnd : U64) (isAmd64 : Bool) : Stop (WalkState V) :=
  let g := if isAmd64 then (s.guest.setGpr rcx blockEnd).setGpr r11 s.flags.toRflags else s.guest
  ⟨⟨{ g with rip := blockEnd }, s.flags⟩, .exit .syscall⟩

def execBoundGate (index lower upper : Val) (faultIp nextIp : U64) : Stop (WalkState V) :=
  let idx := (s.guest.readVal index).setWidth 16
  if idx.slt ((s.guest.readVal lower).setWidth 16) ∨ ((s.guest.readVal upper).setWidth 16).slt idx
  then deliverInterrupt s 5 faultIp
  else goTo s nextIp

variable (blockEnd : U64)

def exec (op : IrOp X) (s : WalkState V) : Outcome (WalkState V) :=
  match op with
  | .plain op => withFlags s.flags (op.exec s.guest blockEnd)
  | .set op =>
    let out := op.exec s.guest sem
    withFlags (s.flags.write out.2) out.1
  | .alu op => .ok (op.exec s)
  | .getCond dst cond =>
    .ok { s with guest := s.guest.setTemp dst (bitAt 64 (evalCond cond s.flags) 0) }
  | .lahf => .ok { s with guest := execLahf s }
  | .pushfReal => withFlags s.flags (s.guest.push16 s.flags.toFlags16)
  | .popfReal => execPopfReal s
  | .setCf value => .ok { s with flags := { s.flags with cf := value.getD !s.flags.cf } }
  | .setDf value => .ok { s with flags := { s.flags with df := value } }
  | .setIf value =>
    .ok ⟨{ s.guest with stiShadow := value }, { s.flags with ifl := value }⟩
  | .bcd kind =>
    let out := execBcd kind s.flags.cf s.flags.af s.guest
    withFlags (s.flags.write out.2) out.1
  | .repString op elem repKind addrBits segBase =>
    runString s ⟨op, elem, repKind, addrBits, s.guest.readVal segBase, 0⟩
  | .repStringReal op elem repKind dsBase esBase =>
    runString s ⟨op, elem, repKind, .a16, s.guest.readVal dsBase, s.guest.readVal esBase⟩
  | .segLimitCheck offset size vector faultIp =>
    if 0x10000 < (s.guest.readVal offset &&& 0xffff).toNat + size.bytes then
      .error (deliverInterrupt s vector faultIp)
    else .ok s
  | .branch cond taken fallthrough =>
    .error (goTo s (if evalCond cond s.flags then taken else fallthrough))
  | .loopCx kind taken fallthrough => .error (execLoopCx s kind taken fallthrough)
  | .syscall isAmd64 => .error (execSyscall s blockEnd isAmd64)
  | .intGate vector savedIp => .error (deliverInterrupt s vector savedIp)
  | .intoGate nextIp =>
    .error (if s.flags.of then deliverInterrupt s 4 nextIp else goTo s nextIp)
  | .boundGate index lower upper faultIp nextIp =>
    .error (execBoundGate s index lower upper faultIp nextIp)
  | .iretReal => .error (execIretReal s)

/-- Walk the ops. Past the last one, execution flows on after the decoded bytes. -/
def walkOps (ir : OpBlock X) (s : WalkState V) : Stop (WalkState V) :=
  match walk (exec sem ir.blockEnd) ir.ops s with
  | .fell t => goTo t ir.blockEnd
  | .left _ e => e

structure RetireInfo where
  retired : ℕ
  stiShadow : Bool
  deriving DecidableEq, Repr

structure Interpreted (V : Type) where
  state : WalkState V
  result : StepResult
  info : RetireInfo

def enterBlock (ir : OpBlock X) (s : WalkState V) : WalkState V :=
  { s with
    guest := { s.guest with
      temps := fun _ => 0
      curAddr := ir.guestStart
      retired := 0
      started := false
      stiShadow := false } }

/-- Interpret a block. The last instruction retired when `rip` has moved off it. -/
def interpretBlock (ir : OpBlock X) (s : WalkState V) : Interpreted V :=
  let e := walkOps sem ir (enterBlock ir s)
  let g := e.state.guest
  let moved := g.started && g.rip != g.curAddr
  { state := e.state
    result := e.result
    info := ⟨if moved then g.retired + 1 else g.retired, g.stiShadow && moved⟩ }

end X86Jit
