import X86Jit.Core.RegionLookup
import X86Jit.Interp.Arithmetic

/-! The atomics of `Memory` as the code makes them: on a host atomic where the pointer is aligned,
by a plain read and write where it is not. -/
namespace X86Jit
open BitVec

variable {tries : List Bool}

namespace HostAtomic
variable {n : ℕ}

/-- The outcome and what is in the cell after it. The weak form may fail on the value it was given.
-/
def compareExchange (spurious : Bool) (cell cur new : BitVec n) :
    Except (BitVec n) (BitVec n) × BitVec n :=
  if spurious = false ∧ cell = cur then (.ok cell, new) else (.error cell, cell)

/-- The list says which tries the host fails for no reason; with no try left the loop is still
going. -/
def rsubLoop (s : BitVec n) : List Bool → BitVec n → BitVec n → Option (BitVec n × BitVec n)
  | [], _, _ => none
  | spurious :: tries, cell, cur =>
    match compareExchange spurious cell cur (s - cur) with
    | (.ok v, cell) => some (v, cell)
    | (.error v, cell) => rsubLoop s tries cell v

def rmw (tries : List Bool) (op : RmwOp) (cell s : BitVec n) : Option (BitVec n × BitVec n) :=
  match op with
  | .add => some (cell, cell + s)
  | .sub => some (cell, cell - s)
  | .rsub => rsubLoop s tries cell cell
  | .and => some (cell, cell &&& s)
  | .or => some (cell, cell ||| s)
  | .xor => some (cell, cell ^^^ s)
  | .xchg => some (cell, s)

theorem rsubLoop_eq (cell s : BitVec n) (h : false ∈ tries) :
    rsubLoop s tries cell cell = some (cell, s - cell) := by
  induction tries with
  | nil => cases h
  | cons spurious tries ih =>
    cases spurious with
    | false => simp [rsubLoop, compareExchange]
    | true =>
      have hrest : false ∈ tries := by simpa using h
      simpa [rsubLoop, compareExchange] using ih hrest

end HostAtomic

def applyRmw (old src : U64) (op : RmwOp) (size : Size) : U64 := op.eval old src &&& mask size

namespace Memory
variable (m : Memory) (addr : ℕ) (size : Size)

def loadCell : BitVec size.bits := (m.loadLe addr size.bytes).setWidth size.bits

def storeCell (v : BitVec size.bits) : Memory :=
  m.setBytes addr (leBytes (v.setWidth 64) size.bytes)

def hostRmw (tries : List Bool) (src : U64) (op : RmwOp) : Option (U64 × Memory) :=
  (HostAtomic.rmw tries op (m.loadCell addr size) (src.setWidth size.bits)).map fun r =>
    (r.1.setWidth 64, m.storeCell addr size r.2)

def plainRmw (src : U64) (op : RmwOp) : U64 × Memory :=
  let old := m.loadLe addr size.bytes
  (old, m.setBytes addr (leBytes (applyRmw old src op size) size.bytes))

def hostCas (expected src : U64) : U64 × Memory :=
  match HostAtomic.compareExchange false (m.loadCell addr size) (expected.setWidth size.bits)
    (src.setWidth size.bits) with
  | (.ok v, cell) => (v.setWidth 64, m.storeCell addr size cell)
  | (.error v, _) => (v.setWidth 64, m)

def plainCas (expected src : U64) : U64 × Memory :=
  let old := m.loadLe addr size.bytes
  (old, if old = expected then m.setBytes addr (leBytes src size.bytes) else m)

theorem leBytes_congr {v w : U64} (h : v.setWidth size.bits = w.setWidth size.bits) :
    leBytes v size.bytes = leBytes w size.bytes := by
  apply List.map_congr_left
  intro i hi
  have hi := List.mem_range.1 hi
  apply eq_of_getLsbD_eq
  intro j hj
  have hin : 8 * i + j < size.bits := by
    rw [Size.bits]
    omega
  have hbit := congrArg (fun x => x.getLsbD (8 * i + j)) h
  simpa [hin, hj] using hbit

theorem loadCell_word : (m.loadCell addr size).setWidth 64 = m.loadLe addr size.bytes := by
  apply eq_of_getLsbD_eq
  intro i hi
  rw [loadCell, getLsbD_setWidth, getLsbD_setWidth, getLsbD_loadLe m _ _ hi]
  by_cases hin : i < size.bits
  · simp [hi, hin]
  · have hout : ¬i / 8 < size.bytes := by
      rw [Size.bits] at hin
      omega
    simp [hout]

theorem setWidth_and_mask (v : U64) :
    (v &&& mask size).setWidth size.bits = v.setWidth size.bits := by
  rw [and_mask_eq, setWidth_word]

theorem setWidth_sub (v w : U64) :
    (v - w).setWidth size.bits = v.setWidth size.bits - w.setWidth size.bits := by
  rw [BitVec.sub_eq_add_neg, BitVec.sub_eq_add_neg, setWidth_add _ _ size.bits_pos.2,
    setWidth_neg_of_le size.bits_pos.2]

theorem rmw_setWidth (htries : false ∈ tries) (op : RmwOp) (old src : U64) :
    HostAtomic.rmw tries op (old.setWidth size.bits) (src.setWidth size.bits) =
      some (old.setWidth size.bits, (applyRmw old src op size).setWidth size.bits) := by
  have hle := size.bits_pos.2
  rw [applyRmw, setWidth_and_mask]
  cases op with
  | add => simp only [HostAtomic.rmw, RmwOp.eval, setWidth_add _ _ hle]
  | sub => simp only [HostAtomic.rmw, RmwOp.eval, setWidth_sub]
  | rsub =>
    simp only [HostAtomic.rmw, HostAtomic.rsubLoop_eq _ _ htries, RmwOp.eval, setWidth_sub]
  | and => simp only [HostAtomic.rmw, RmwOp.eval, setWidth_and]
  | or => simp only [HostAtomic.rmw, RmwOp.eval, setWidth_or]
  | xor => simp only [HostAtomic.rmw, RmwOp.eval, setWidth_xor]
  | xchg => rfl

theorem hostRmw_eq_plainRmw (htries : false ∈ tries) (src : U64) (op : RmwOp) :
    m.hostRmw addr size tries src op = some (m.plainRmw addr size src op) := by
  rw [hostRmw, loadCell, rmw_setWidth size htries, Option.map_some, ← loadCell, loadCell_word,
    storeCell, leBytes_congr size (setWidth_word _ _)]
  rfl

theorem hostCas_eq_plainCas (expected src : U64) :
    m.hostCas addr size (expected &&& mask size) src =
      m.plainCas addr size (expected &&& mask size) src := by
  have hiff : m.loadCell addr size = (expected &&& mask size).setWidth size.bits ↔
      m.loadLe addr size.bytes = expected &&& mask size := by
    rw [setWidth_and_mask, and_mask_eq, ← loadCell_word]
    constructor
    · exact congrArg _
    · intro h
      rw [← setWidth_word size (m.loadCell addr size), h, setWidth_word]
  by_cases h : m.loadLe addr size.bytes = expected &&& mask size
  · rw [hostCas, HostAtomic.compareExchange, if_pos ⟨rfl, hiff.2 h⟩, plainCas, if_pos h]
    exact Prod.ext (loadCell_word m addr size)
      (congrArg (m.setBytes addr) (leBytes_congr size (setWidth_word size _)))
  · rw [hostCas, HostAtomic.compareExchange, if_neg fun hc => h (hiff.1 hc.2), plainCas, if_neg h]
    exact Prod.ext (loadCell_word m addr size) rfl

theorem loadLe_and_mask : m.loadLe addr size.bytes &&& mask size = m.loadLe addr size.bytes := by
  rw [and_mask_eq]
  exact loadCell_word m addr size

/-- The host's atomics and the plain accesses give the same old value and the same memory. -/
theorem atomic_paths_agree {tries : List Bool} (htries : false ∈ tries) (expected src : U64)
    (op : RmwOp) : m.hostRmw addr size tries src op = some (m.plainRmw addr size src op) ∧
      (m.plainRmw addr size src op).1 &&& mask size = (m.plainRmw addr size src op).1 ∧
      m.hostCas addr size (expected &&& mask size) src =
        m.plainCas addr size (expected &&& mask size) src ∧
      (m.plainCas addr size (expected &&& mask size) src).1 &&& mask size =
        (m.plainCas addr size (expected &&& mask size) src).1 :=
  ⟨hostRmw_eq_plainRmw m addr size htries src op, loadLe_and_mask m addr size,
    hostCas_eq_plainCas m addr size expected src, loadLe_and_mask m addr size⟩

theorem rsub_paths_agree_after_failures :
    let m := fresh 4096 0 (by decide)
    false ∈ [true, true, false] ∧
      m.hostRmw 3 .b4 [true, true, false] 5 .rsub = some (m.plainRmw 3 .b4 5 .rsub) :=
  ⟨by decide, (atomic_paths_agree _ 3 .b4 (by decide) 0 5 .rsub).1⟩

/-- `atomic_rmw_raw`, for the host address `ptr` of the operand. -/
def atomicRmwRaw (ptr : ℕ) (tries : List Bool) (src : U64) (op : RmwOp) : Option (U64 × Memory) :=
  if ptr % size.bytes = 0 then m.hostRmw addr size tries src op
  else some (m.plainRmw addr size src op)

def atomicCasRaw (ptr : ℕ) (expected src : U64) : U64 × Memory :=
  if ptr % size.bytes = 0 then m.hostCas addr size expected src
  else m.plainCas addr size expected src

section Ram
variable {addr : U64} {r : Region} (hr : m.regionFor addr.toNat size.bytes = some r)
  (hram : r.kind = .ram) (ptr : ℕ) (src : U64)
include hr hram

/-- Where the backing lies does not show: the atomics of the memory are these. -/
theorem atomicRmw_eq_raw (htries : false ∈ tries) (op : RmwOp) :
    (m.atomicRmwRaw addr.toNat size ptr tries src op).map
        (fun s => .ok (s.1 &&& mask size, s.2.noteWrite addr.toNat size.bytes)) =
      some (m.atomicRmw addr src size op) := by
  have hraw : m.atomicRmwRaw addr.toNat size ptr tries src op =
      some (m.plainRmw addr.toNat size src op) := by
    rw [atomicRmwRaw, hostRmw_eq_plainRmw m addr.toNat size htries, ite_self]
  rw [hraw, atomicRmw, atomic, hr, Option.map_some]
  simp only [hram, plainRmw, loadLe_and_mask, applyRmw]
  rw [leBytes_congr size (setWidth_and_mask size _)]

theorem atomicCas_eq_raw (expected : U64) :
    let s := m.atomicCasRaw addr.toNat size ptr (expected &&& mask size) src
    m.atomicCas addr expected src size =
      .ok (s.1 &&& mask size, s.2.noteWrite addr.toNat size.bytes) := by
  have hraw : m.atomicCasRaw addr.toNat size ptr (expected &&& mask size) src =
      m.plainCas addr.toNat size (expected &&& mask size) src := by
    rw [atomicCasRaw, hostCas_eq_plainCas, ite_self]
  rw [hraw, atomicCas, atomic, hr]
  simp only [hram, plainCas, loadLe_and_mask]
  by_cases h : m.loadLe addr.toNat size.bytes = expected &&& mask size
  · simp only [if_pos h]
  · simp only [if_neg h]

end Ram

end Memory

end X86Jit
