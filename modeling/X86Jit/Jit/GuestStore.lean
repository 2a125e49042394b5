import X86Jit.Interp.State

/-! How compiled code stores to guest memory. Every store is followed by a barrier that reports it
to `note_write`. -/
namespace X86Jit

namespace Memory

/-- An end that wraps is past the span, so the unbounded sum decides the overflow test too. -/
def Backs (m : Memory) (addr : U64) (len : ℕ) : Prop :=
  m.guestBase ≤ addr.toNat ∧ addr.toNat + len ≤ m.span

instance (m : Memory) (addr : U64) (len : ℕ) : Decidable (m.Backs addr len) :=
  inferInstanceAs (Decidable (_ ∧ _))

def Tracked (m : Memory) (page : ℕ) : Prop := page ∈ m.codePage ∨ page ∈ m.watched

instance (m : Memory) (page : ℕ) : Decidable (m.Tracked page) :=
  inferInstanceAs (Decidable (_ ∨ _))

end Memory

namespace Jit

/-- The ranges stored to and reported so far, `puts` and `notes`, are read by the specification
only. -/
structure JitMem where
  mem : Memory
  puts : List (U64 × ℕ)
  notes : List (U64 × ℕ)

inductive Ret
  | next
  | unmapped (addr : U64)
  | mmioDefer
  | exception (vector : ℕ)
  deriving DecidableEq, Repr

namespace JitMem

def enter (m : Memory) : JitMem := ⟨m, [], []⟩

variable (s : JitMem) (addr : U64)

def put (bs : List U8) : JitMem :=
  { s with mem := s.mem.setBytes addr.toNat bs, puts := s.puts ++ [(addr, bs.length)] }

def noteWrite (len : ℕ) : JitMem :=
  { s with mem := s.mem.noteWrite addr.toNat len, notes := s.notes ++ [(addr, len)] }

def watchProbe (m : Memory) (addr : U64) (size : ℕ) : Prop :=
  m.watchCount ≠ 0 ∧
    (addr.toNat / codePageSize ∈ m.watched ∨ codePageSize < addr.toNat % codePageSize + size)

instance (m : Memory) (addr : U64) (size : ℕ) : Decidable (watchProbe m addr size) :=
  inferInstanceAs (Decidable (_ ∧ _))

def noteStore (size : ℕ) : JitMem :=
  if codeGate s.mem.codeRange addr then s.noteWrite addr size
  else if watchProbe s.mem addr size then s.noteWrite addr size
  else s

def load (size : Size) : U64 := s.mem.loadLe addr.toNat size.bytes

/-- A load through the raw view the helpers share, which checks bounds only. -/
def sload (elem : Size) : Except MemTrap U64 :=
  if s.mem.Backs addr elem.bytes then .ok (s.load addr elem) else .error .unmapped

def sstore (addr val : U64) (elem : Size) : Except MemTrap JitMem :=
  if s.mem.Backs addr elem.bytes then .ok (s.put addr (Memory.leBytes val elem.bytes))
  else .error .unmapped

end JitMem

section Inline

/-- The window of addresses generated code leaves to the interpreter, if the VM maps any
trap region. -/
abbrev MmioWindow := Option (U64 × U64)

/-- An operand below the base or past the top of the address space is named whole. -/
def faultAddr (m : Memory) (addr : U64) (size : ℕ) : U64 :=
  if 2 ^ 64 ≤ addr.toNat + size ∨ addr.toNat < m.guestBase ∨ m.span ≤ addr.toNat then addr
  else BitVec.ofNat 64 m.span

/-- The check before an inlined access: `none` lets it go ahead. -/
def checkedAddr (mmio : MmioWindow) (m : Memory) (addr : U64) (size : ℕ) : Option Ret :=
  if m.Backs addr size then
    match mmio with
    | some (lo, hi) => if lo ≤ addr ∧ addr < hi then some .mmioDefer else none
    | none => none
  else some (.unmapped (faultAddr m addr size))

/-- Check, write what `value` says, report `size` bytes. A compare-exchange that fails writes
nothing and reports all the same. -/
def inlineStore (mmio : MmioWindow) (s : JitMem) (addr : U64) (size : ℕ)
    (value : JitMem → Option (List U8)) : JitMem × Ret :=
  match checkedAddr mmio s.mem addr size with
  | some ret => (s, ret)
  | none =>
    match value s with
    | some bs => ((s.put addr bs).noteStore addr size, .next)
    | none => (s.noteStore addr size, .next)

def vecBytes {w : ℕ} (v : BitVec w) (first n : ℕ) : List U8 :=
  (List.range n).map fun i => (v >>> (8 * (first + i))).setWidth 8

inductive LaneSize
  | b4 | b8 | b16
  deriving DecidableEq, Repr

def LaneSize.bytes : LaneSize → ℕ
  | .b4 => 4
  | .b8 => 8
  | .b16 => 16

inductive VecSize
  | b16 | b32 | b64
  deriving DecidableEq, Repr

def VecSize.bytes : VecSize → ℕ
  | .b16 => 16
  | .b32 => 32
  | .b64 => 64

variable (mmio : MmioWindow) (s : JitMem)

def emitStore (addr src : U64) (size : Size) : JitMem × Ret :=
  inlineStore mmio s addr size.bytes fun _ => some (Memory.leBytes src size.bytes)

def emitAtomicRmw (addr src : U64) (size : Size) (op : RmwOp) : JitMem × Ret :=
  inlineStore mmio s addr size.bytes fun s =>
    some (Memory.leBytes (op.eval (s.load addr size) src) size.bytes)

def emitAtomicCas (addr expected src : U64) (size : Size) : JitMem × Ret :=
  inlineStore mmio s addr size.bytes fun s =>
    if s.load addr size = expected &&& mask size then some (Memory.leBytes src size.bytes)
    else none

def callSp (rsp : U64) (slot : Size) (wrapSp : Bool) : U64 :=
  let newsp := rsp - BitVec.ofNat 64 slot.bytes
  if wrapSp then newsp &&& 0xffffffff else newsp

def emitCall (rsp returnAddr : U64) (slot : Size) (wrapSp : Bool) : JitMem × Ret :=
  inlineStore mmio s (callSp rsp slot wrapSp) slot.bytes fun _ =>
    some (Memory.leBytes returnAddr slot.bytes)

variable (addr : U64)

def emitVStore (src : U128) (size : LaneSize) : JitMem × Ret :=
  inlineStore mmio s addr size.bytes fun _ => some (vecBytes src 0 size.bytes)

def emitLanes (src : BitVec 512) (first n : ℕ) : JitMem × Ret :=
  inlineStore mmio s addr (n * 16) fun _ => some (vecBytes src (first * 16) (n * 16))

def emitVStoreWide (src : BitVec 512) (bytes : VecSize) : JitMem × Ret :=
  emitLanes mmio s addr src 0 (bytes.bytes / 16)

/-- Lane group `idx`, of one lane or of a pair. -/
def emitVExtractLaneWideM (src : BitVec 512) (idx : ℕ) (pair : Bool) : JitMem × Ret :=
  let numLanes := if pair then 2 else 1
  emitLanes mmio s addr src (idx * numLanes) numLanes

def emitVStoreHalf (src : U128) (high : Bool) : JitMem × Ret :=
  inlineStore mmio s addr 8 fun _ => some (vecBytes src (if high then 8 else 0) 8)

end Inline

/-- Guest bytes and the log of stores change, and every range stored to was backed. -/
structure JitMem.Raw (s s' : JitMem) (l : List (U64 × ℕ)) : Prop where
  mem : ∃ f, s'.mem = { s.mem with bytes := f }
  puts : s'.puts = s.puts ++ l
  notes : s'.notes = s.notes
  backed : ∀ r ∈ l, s.mem.Backs r.1 r.2

namespace JitMem.Raw

theorem refl (s : JitMem) : Raw s s [] := by
  refine ⟨⟨s.mem.bytes, rfl⟩, (List.append_nil _).symm, rfl, ?_⟩
  intro r hr
  cases hr

theorem backs_iff {s s' : JitMem} {l : List (U64 × ℕ)} (h : Raw s s' l) (addr : U64) (len : ℕ) :
    s'.mem.Backs addr len ↔ s.mem.Backs addr len := by
  obtain ⟨f, hf⟩ := h.mem
  rw [hf]
  rfl

theorem trans {s₁ s₂ s₃ : JitMem} {l l' : List (U64 × ℕ)} (h : Raw s₁ s₂ l) (h' : Raw s₂ s₃ l') :
    Raw s₁ s₃ (l ++ l') := by
  constructor
  · obtain ⟨f, hf⟩ := h.mem
    obtain ⟨g, hg⟩ := h'.mem
    exact ⟨g, by rw [hg, hf]⟩
  · rw [h'.puts, h.puts, List.append_assoc]
  · exact h'.notes.trans h.notes
  · intro r hr
    rcases List.mem_append.mp hr with hr | hr
    · exact h.backed r hr
    · exact (h.backs_iff r.1 r.2).mp (h'.backed r hr)

end JitMem.Raw

theorem JitMem.put_raw {s : JitMem} {addr : U64} {bs : List U8}
    (h : s.mem.Backs addr bs.length) : Raw s (s.put addr bs) [(addr, bs.length)] := by
  refine ⟨⟨_, rfl⟩, rfl, rfl, ?_⟩
  intro r hr
  rw [List.mem_singleton.mp hr]
  exact h

theorem JitMem.sstore_raw {s s' : JitMem} {addr val : U64} {elem : Size}
    (h : s.sstore addr val elem = .ok s') : Raw s s' [(addr, elem.bytes)] := by
  unfold sstore at h
  split at h
  · cases h
    have hlen := Memory.length_leBytes val elem.bytes
    have hraw : Raw s (s.put addr (Memory.leBytes val elem.bytes)) _ := put_raw (by rwa [hlen])
    rwa [hlen] at hraw
  · cases h

end Jit

end X86Jit
