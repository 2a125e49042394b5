import X86Jit.Jit.StringReports

/-! Every op that writes guest memory as compiled code: the inlined stores and the runtime
helpers, each with the report it makes. -/
namespace X86Jit.Jit

def getVelem (lanes : BitVec 512) (i : ℕ) (elem : Size) : U64 :=
  (lanes >>> (i * elem.bits)).setWidth 64 &&& mask elem

def vecMsbMask (lanes : BitVec 512) (elem : Size) (bytes : VecSize) : U64 :=
  (List.range (bytes.bytes / elem.bytes)).foldl
    (fun k i => if (getVelem lanes i elem >>> (elem.bits - 1)) &&& 1 ≠ 0 then k ||| (1#64 <<< i) else k)
    0

def storeEach (elem : Size) : List (U64 × U64) → JitMem → JitMem × Ret
  | [], s => (s, .next)
  | (ea, v) :: l, s =>
    match s.sstore ea v elem with
    | .error _ => (s, .unmapped ea)
    | .ok s' => storeEach elem l s'

def activeLanes (src : BitVec 512) (base k : U64) (elem : Size) (bytes : VecSize) :
    List (U64 × U64) :=
  ((List.range (bytes.bytes / elem.bytes)).filter fun i => k &&& (1#64 <<< i) ≠ 0).map fun i =>
    (base + BitVec.ofNat 64 (i * elem.bytes), getVelem src i elem)

/-- Where a narrowing store puts its elements: `from` bytes wide in the register, `to`
bytes in memory. -/
def narrowLanes (src : BitVec 512) (base : U64) (wide narrow : Size) (srcWidth : VecSize) :
    List (U64 × U64) :=
  (List.range (srcWidth.bytes / wide.bytes)).map fun i =>
    (base + BitVec.ofNat 64 (i * narrow.bytes), getVelem src i wide)

def vmaskmovMemHelper (s : JitMem) (src : BitVec 512) (addr k : U64) (elem : Size)
    (bytes : VecSize) : JitMem × Ret :=
  storeEach elem (activeLanes src addr k elem bytes) s

def vecMaskmovMemHelper (s : JitMem) (src : BitVec 512) (addr : U64) (msk : BitVec 512)
    (elem : Size) (bytes : VecSize) : JitMem × Ret :=
  storeEach elem (activeLanes src addr (vecMsbMask msk elem bytes) elem bytes) s

def vpmovNarrowMemHelper (s : JitMem) (src : BitVec 512) (addr : U64) (wide narrow : Size)
    (srcWidth : VecSize) : JitMem × Ret :=
  storeEach narrow (narrowLanes src addr wide narrow srcWidth) s

inductive FpuKind
  | fstpF64 | fstpF32 | fstpF80 | fistpI16 | fistpI32 | fistpI64 | fisttpI16 | fisttpI32
  | fisttpI64 | fstF64 | fstF32 | fnstcw | fnstswMem | fnstenv | other
  deriving DecidableEq, Repr

/-- The width of the store in each arm of `exec_x87`. -/
def FpuKind.storeBytes : FpuKind → Option ℕ
  | .fstpF64 | .fstF64 => some 8
  | .fstpF32 | .fstF32 => some 4
  | .fstpF80 => some 10
  | .fistpI16 => some 2
  | .fistpI32 => some 4
  | .fistpI64 => some 8
  | .fisttpI16 => some 2
  | .fisttpI32 => some 4
  | .fisttpI64 => some 8
  | .fnstcw => some 2
  | .fnstswMem => some 2
  | .fnstenv => some 28
  | .other => none

def FpuKind.memWriteBytes : FpuKind → Option ℕ
  | .fstpF32 | .fstF32 => some 4
  | .fstpF64 | .fstF64 => some 8
  | .fstpF80 => some 10
  | .fistpI16 | .fisttpI16 => some 2
  | .fistpI32 | .fisttpI32 => some 4
  | .fistpI64 | .fisttpI64 => some 8
  | .fnstcw | .fnstswMem => some 2
  | .fnstenv => some 28
  | .other => none

def fpStore (s : JitMem) (addr : U64) (n : ℕ) (image : ℕ → U8) : Except U64 JitMem :=
  if s.mem.Backs addr n then .ok (s.put addr ((List.range n).map image)) else .error addr

/-- The image is what the arm computed; after an unmasked exception nothing is stored. -/
def execX87 (s : JitMem) (kind : FpuKind) (addr : U64) (raised : Bool) (image : ℕ → U8) :
    Except U64 JitMem :=
  match kind.storeBytes with
  | none => .ok s
  | some n => if raised then .ok s else fpStore s addr n image

/-- A pending exception traps before the op. The report is made on success, also when the op stored
nothing. -/
def x87Helper (s : JitMem) (kind : FpuKind) (addr : U64) (mfPending raised : Bool)
    (image : ℕ → U8) : JitMem × Ret :=
  if mfPending then (s, .exception 16)
  else
    match execX87 s kind addr raised image with
    | .error addr => (s, .unmapped addr)
    | .ok s' =>
      match kind.memWriteBytes with
      | some n => (s'.noteWrite addr n, .next)
      | none => (s', .next)

/-- `fxsave` stores 512 bytes and reports them, `fxrstor` only loads. -/
def fxstateHelper (s : JitMem) (addr : U64) (restore : Bool) (image : ℕ → U8) :
    JitMem × Ret :=
  if restore then
    if s.mem.Backs addr 512 then (s, .next) else (s, .unmapped addr)
  else
    match fpStore s addr 512 image with
    | .error addr => (s, .unmapped addr)
    | .ok s' => (s'.noteWrite addr 512, .next)

inductive StoreOp
  | store (addr src : U64) (size : Size)
  | atomicRmw (addr src : U64) (size : Size) (op : RmwOp)
  | atomicCas (addr expected src : U64) (size : Size)
  | call (rsp returnAddr : U64) (slot : Size) (wrapSp : Bool)
  | vStore (addr : U64) (src : U128) (size : LaneSize)
  | vStoreWide (addr : U64) (src : BitVec 512) (bytes : VecSize)
  | vExtractLaneWideM (addr : U64) (src : BitVec 512) (idx : ℕ) (pair : Bool)
  | vStoreHalf (addr : U64) (src : U128) (high : Bool)
  | repString (op : StrOp) (elem : Size) (repKind : RepKind) (segBase : U64) (cpu : StrCpu)
  | x87 (kind : FpuKind) (addr : U64) (mfPending raised : Bool) (image : ℕ → U8)
  | fxState (addr : U64) (restore : Bool) (image : ℕ → U8)
  | vMaskStoreMem (src : BitVec 512) (addr k : U64) (elem : Size) (bytes : VecSize)
  | vVecMaskStoreMem (src : BitVec 512) (addr : U64) (msk : BitVec 512) (elem : Size)
      (bytes : VecSize)
  | vPmovNarrowMem (src : BitVec 512) (addr : U64) (wide narrow : Size) (srcWidth : VecSize)

namespace StoreOp

/-- Run an op as compiled code. The address size of a string instruction is the one `lift_string`
emits, and outside real mode its destination segment is flat. -/
def run (mmio : MmioWindow) (s : JitMem) : StoreOp → JitMem × Ret
  | store addr src size => emitStore mmio s addr src size
  | atomicRmw addr src size op => emitAtomicRmw mmio s addr src size op
  | atomicCas addr expected src size => emitAtomicCas mmio s addr expected src size
  | call rsp returnAddr slot wrapSp => emitCall mmio s rsp returnAddr slot wrapSp
  | vStore addr src size => emitVStore mmio s addr src size
  | vStoreWide addr src bytes => emitVStoreWide mmio s addr src bytes
  | vExtractLaneWideM addr src idx pair => emitVExtractLaneWideM mmio s addr src idx pair
  | vStoreHalf addr src high => emitVStoreHalf mmio s addr src high
  | repString op elem repKind segBase cpu =>
    let out := StrInsn.helper ⟨op, elem, repKind, Lift.stringAddrBits, segBase, 0⟩ cpu s
    (out.1.2, out.2)
  | x87 kind addr mfPending raised image => x87Helper s kind addr mfPending raised image
  | fxState addr restore image => fxstateHelper s addr restore image
  | vMaskStoreMem src addr k elem bytes => vmaskmovMemHelper s src addr k elem bytes
  | vVecMaskStoreMem src addr msk elem bytes => vecMaskmovMemHelper s src addr msk elem bytes
  | vPmovNarrowMem src addr wide narrow srcWidth =>
    vpmovNarrowMemHelper s src addr wide narrow srcWidth

end StoreOp

theorem FpuKind.memWriteBytes_eq (kind : FpuKind) : kind.memWriteBytes = kind.storeBytes := by
  cases kind <;> rfl

theorem storeEach_raw (elem : Size) (l : List (U64 × U64)) (s : JitMem) :
    JitMem.Raw s (storeEach elem l s).1
      (((l.map Prod.fst).takeWhile fun ea => s.mem.Backs ea elem.bytes).map
        fun ea => (ea, elem.bytes)) := by
  induction l generalizing s with
  | nil => exact JitMem.Raw.refl s
  | cons lane l ih =>
    obtain ⟨ea, v⟩ := lane
    rw [storeEach, List.map_cons, List.takeWhile_cons]
    by_cases hb : s.mem.Backs ea elem.bytes
    · have hok : s.sstore ea v elem = .ok (s.put ea (Memory.leBytes v elem.bytes)) := if_pos hb
      have hraw := JitMem.sstore_raw hok
      -- the store leaves the bounds alone, so the rest stops at the same element
      have hbacks : (fun a => decide ((s.put ea (Memory.leBytes v elem.bytes)).mem.Backs a
          elem.bytes)) = fun a => decide (s.mem.Backs a elem.bytes) := by
        funext a
        exact decide_eq_decide.mpr (hraw.backs_iff a elem.bytes)
      have hrest := ih (s.put ea (Memory.leBytes v elem.bytes))
      simp only [hok, hb, decide_true, if_true]
      exact hraw.trans hrest
    · have herr : s.sstore ea v elem = .error .unmapped := if_neg hb
      simp only [herr, hb, decide_false]
      exact JitMem.Raw.refl s

end X86Jit.Jit
