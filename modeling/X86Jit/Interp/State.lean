import X86Jit.Core.Ir
import X86Jit.Core.Memory

/-! What the interpreter walks a block over. The flags are kept beside the rest, so that an op
that does not look at them is a function of the rest alone. -/
namespace X86Jit

inductive AccessKind
  | read | write | execute
  deriving DecidableEq, Repr

inductive PortDir
  | input | output
  deriving DecidableEq, Repr

inductive Exit
  | syscall
  | hlt
  | unmappedMemory (addr : U64) (access : AccessKind)
  | mmioRead (addr : U64) (size : Size)
  | mmioWrite (addr : U64) (size : Size) (value : U64)
  | exception (addr : U64) (vector : U8)
  | portIo (port : U16) (size : Size) (dir : PortDir) (value : U64)
  deriving DecidableEq, Repr

inductive StepResult
  | continue
  | exit (e : Exit)
  deriving DecidableEq, Repr

/-- The guest without its flags. `ext` holds the vector, mask and x87 registers; the last four
fields belong to the walk over one block. -/
structure Guest (V : Type) where
  gpr : Fin 16 → U64
  rip : U64
  fsBase : U64
  gsBase : U64
  cs : U16
  ds : U16
  es : U16
  ss : U16
  ext : V
  pendingMmio : Option U64
  pendingMmioWrite : Bool
  pendingPortIn : Option Size
  mem : Memory
  temps : Temp → U64
  curAddr : U64
  retired : ℕ
  started : Bool
  stiShadow : Bool

structure Stop (σ : Type) where
  state : σ
  result : StepResult

abbrev Outcome (σ : Type) := Except (Stop σ) σ

namespace Memory

variable (m : Memory)

def loadLe (addr size : ℕ) : U64 :=
  (List.range size).foldl (fun v i => v ||| ((m.bytes (addr + i)).setWidth 64 <<< (8 * i))) 0

def read (addr : U64) (size : Size) : Except MemTrap U64 :=
  match m.regionFor addr.toNat size.bytes with
  | none => .error .unmapped
  | some r =>
    match r.kind with
    | .trap => .error .mmio
    | _ => .ok (m.loadLe addr.toNat size.bytes)

/-- A ROM gives its value and drops the store, RAM stores what `value` says and is noted in any
case. -/
def atomic (addr : U64) (size : Size) (value : U64 → Option U64) : Except MemTrap (U64 × Memory) :=
  match m.regionFor addr.toNat size.bytes with
  | none => .error .unmapped
  | some r =>
    let old := m.loadLe addr.toNat size.bytes &&& mask size
    match r.kind with
    | .trap => .error .mmio
    | .rom => .ok (old, m)
    | .ram =>
      let stored :=
        match value old with
        | some v => m.setBytes addr.toNat (leBytes v size.bytes)
        | none => m
      .ok (old, stored.noteWrite addr.toNat size.bytes)

def atomicRmw (addr src : U64) (size : Size) (op : RmwOp) : Except MemTrap (U64 × Memory) :=
  m.atomic addr size fun old => some (op.eval old src)

def atomicCas (addr expected src : U64) (size : Size) : Except MemTrap (U64 × Memory) :=
  m.atomic addr size fun old => if old = expected &&& mask size then some src else none

end Memory

/-- The bytes an integer register write of `size` leaves: 4 bytes zero-extend, less merge. -/
def writeGpr (reg val : U64) (size : Size) : U64 :=
  match size with
  | .b8 => val
  | .b4 => val &&& 0xffffffff
  | _ => (reg &&& ~~~mask size) ||| (val &&& mask size)

abbrev rax : Fin 16 := ⟨0, by decide⟩
abbrev rcx : Fin 16 := ⟨1, by decide⟩
abbrev rdx : Fin 16 := ⟨2, by decide⟩
abbrev rbx : Fin 16 := ⟨3, by decide⟩
abbrev rsp : Fin 16 := ⟨4, by decide⟩
abbrev rbp : Fin 16 := ⟨5, by decide⟩
abbrev rsi : Fin 16 := ⟨6, by decide⟩
abbrev rdi : Fin 16 := ⟨7, by decide⟩
abbrev r11 : Fin 16 := ⟨11, by decide⟩

namespace Guest
variable {V : Type} (g : Guest V)

def readVal : Val → U64
  | .temp t => g.temps t
  | .imm i => i

def setTemp (t : Temp) (v : U64) : Guest V := { g with temps := Function.update g.temps t v }

def setGpr (i : Fin 16) (v : U64) : Guest V := { g with gpr := Function.update g.gpr i v }

def setLow16 (i : Fin 16) (w : U16) : Guest V :=
  g.setGpr i ((g.gpr i &&& ~~~0xffff) ||| w.setWidth 64)

def readReg (reg : Reg) : U64 :=
  match reg.gprIndex with
  | some i => g.gpr i
  | none =>
    match reg with
    | .rip => g.rip
    | .fsBase => g.fsBase
    | .gsBase => g.gsBase
    | .cs => g.cs.setWidth 64
    | .ds => g.ds.setWidth 64
    | .es => g.es.setWidth 64
    | .ss => g.ss.setWidth 64
    | _ => 0 -- a general register, which has a slot

def writeReg (reg : Reg) (val : U64) (size : Size) : Guest V :=
  match reg.gprIndex with
  | some i => g.setGpr i (X86Jit.writeGpr (g.gpr i) val size)
  | none =>
    match reg with
    | .rip => { g with rip := val }
    | .fsBase => { g with fsBase := val }
    | .gsBase => { g with gsBase := val }
    | .cs => { g with cs := val.setWidth 16 }
    | .ds => { g with ds := val.setWidth 16 }
    | .es => { g with es := val.setWidth 16 }
    | .ss => { g with ss := val.setWidth 16 }
    | _ => g -- a general register, which has a slot

def stopAt (rip : U64) (result : StepResult) : Stop (Guest V) := ⟨{ g with rip }, result⟩

def trapOut (trap : MemTrap) (addr : U64) (size : Size) (access : AccessKind) (value : U64) :
    Stop (Guest V) :=
  g.stopAt g.curAddr <| .exit <|
    match trap, access with
    | .unmapped, _ => .unmappedMemory addr access
    | .mmio, .read => .mmioRead addr size
    | .mmio, _ => .mmioWrite addr size value

def loadOr (addr : U64) (size : Size) : Except (Stop (Guest V)) U64 :=
  (g.mem.read addr size).mapError fun t => g.trapOut t addr size .read 0

def storeOr (addr val : U64) (size : Size) : Outcome (Guest V) :=
  match g.mem.write addr.toNat val size.bytes with
  | .error t => .error (g.trapOut t addr size .write val)
  | .ok mem => .ok { g with mem }

def ssAddr (sp : U16) : U64 := (g.ss.setWidth 64 <<< 4) + sp.setWidth 64

/-- Push a word on the real-mode stack. SP is committed only after the store. -/
def push16 (word : U16) : Except (Stop (Guest V)) (Guest V) := do
  let sp := (g.gpr rsp).setWidth 16 - 2
  let g ← g.storeOr (g.ssAddr sp) (word.setWidth 64) .b2
  return g.setLow16 rsp sp

def pop16 : Except (Stop (Guest V)) (U16 × Guest V) := do
  let sp := (g.gpr rsp).setWidth 16
  let v ← g.loadOr (g.ssAddr sp) .b2
  return (v.setWidth 16, g.setLow16 rsp (sp + 2))

end Guest

def bitAt (w : ℕ) (b : Bool) (i : ℕ) : BitVec w := (BitVec.ofBool b).setWidth w <<< i

namespace Flags

/-- The RFLAGS image a fast system call latches: IF is not part of it. -/
def toRflags (f : Flags) : U64 :=
  bitAt 64 f.cf 0 ||| 2 ||| bitAt 64 f.pf 2 ||| bitAt 64 f.af 4 ||| bitAt 64 f.zf 6 |||
    bitAt 64 f.sf 7 ||| bitAt 64 f.df 10 ||| bitAt 64 f.of 11

def toFlags16 (f : Flags) : U16 :=
  bitAt 16 f.cf 0 ||| 2 ||| bitAt 16 f.pf 2 ||| bitAt 16 f.af 4 ||| bitAt 16 f.zf 6 |||
    bitAt 16 f.sf 7 ||| bitAt 16 f.ifl 9 ||| bitAt 16 f.df 10 ||| bitAt 16 f.of 11

def setFlags16 (f : Flags) (image : U16) : Flags :=
  { ((({ f with cf := image.getLsbD 0 }).setPf (image.getLsbD 2)).setAf (image.getLsbD 4)) with
    zf := image.getLsbD 6
    sf := image.getLsbD 7
    ifl := image.getLsbD 9
    df := image.getLsbD 10
    of := image.getLsbD 11 }

variable {D : Flag → Bool} {f g : Flags}

theorem AgreeOff.fields (h : AgreeOff (fun _ => false) f g) :
    g.cf = f.cf ∧ g.pf = f.pf ∧ g.af = f.af ∧ g.zf = f.zf ∧ g.sf = f.sf ∧ g.of = f.of :=
  ⟨h.get .cf rfl, h.get .pf rfl, h.get .af rfl, h.get .zf rfl, h.get .sf rfl, h.get .of rfl⟩

theorem toFlags16_of_agree (h : AgreeOff (fun _ => false) f g) : g.toFlags16 = f.toFlags16 := by
  obtain ⟨hcf, hpf, haf, hzf, hsf, hof⟩ := h.fields
  rw [toFlags16, toFlags16, hcf, hpf, haf, hzf, hsf, hof, h.df, h.ifl]

theorem toRflags_of_agree (h : AgreeOff (fun _ => false) f g) : g.toRflags = f.toRflags := by
  obtain ⟨hcf, hpf, haf, hzf, hsf, hof⟩ := h.fields
  rw [toRflags, toRflags, hcf, hpf, haf, hzf, hsf, hof, h.df]

theorem lowFlags_of_agree (h : AgreeOff D f g) (hD : ∀ x, x ≠ .of → D x = false) :
    g.toFlags16 &&& 0xff = f.toFlags16 &&& 0xff := by
  have hcf : g.cf = f.cf := h.get .cf (hD _ (by decide))
  have hpf : g.pf = f.pf := h.get .pf (hD _ (by decide))
  have haf : g.af = f.af := h.get .af (hD _ (by decide))
  have hzf : g.zf = f.zf := h.get .zf (hD _ (by decide))
  have hsf : g.sf = f.sf := h.get .sf (hD _ (by decide))
  have hhigh : ∀ b, bitAt 16 b 11 &&& 0xff = 0 := by decide
  have hdrop (x : U16) (b : Bool) : (x ||| bitAt 16 b 11) &&& 0xff = x &&& 0xff := by
    rw [BitVec.and_or_distrib_right, hhigh]
    exact BitVec.or_zero
  rw [toFlags16, toFlags16, hdrop, hdrop, hcf, hpf, haf, hzf, hsf, h.df, h.ifl]

theorem setFlags16_agree (f g : Flags) (image : U16) :
    AgreeOff (fun _ => false) (f.setFlags16 image) (g.setFlags16 image) := by
  refine ⟨?_, rfl, rfl⟩
  intro x _
  cases x <;> rfl

end Flags

def evalCond (cond : Cond) (f : Flags) : Bool :=
  match cond with
  | .eq => f.zf
  | .ne => !f.zf
  | .below => f.cf
  | .aboveEq => !f.cf
  | .belowEq => f.cf || f.zf
  | .above => !f.cf && !f.zf
  | .less => f.sf != f.of
  | .greaterEq => f.sf == f.of
  | .lessEq => (f.sf != f.of) || f.zf
  | .greater => (f.sf == f.of) && !f.zf
  | .sign => f.sf
  | .noSign => !f.sf
  | .overflow => f.of
  | .noOverflow => !f.of
  | .parity => f.pf
  | .noParity => !f.pf

end X86Jit
