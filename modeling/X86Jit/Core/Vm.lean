import Mathlib.Data.Fintype.Basic
import Mathlib.Logic.Function.Basic
import X86Jit.Core.Cache
import X86Jit.Lib.Runs

/-! The virtual machine shared by its vcpus. A step is one atomic action of the code; what the
decoder and the compiler choose is a parameter of it. -/
namespace X86Jit
open X86Jit.Lib

/-- Where a block's bytes are read and the address its decoder resolves against. -/
structure FetchAddr where
  pa : ℕ
  ip : ℕ
  deriving DecidableEq, Repr

namespace FetchAddr

def flat (addr : ℕ) : FetchAddr := ⟨addr, addr⟩

def real16 (csSelector ip : ℕ) : FetchAddr := ⟨csSelector * 16 + ip, ip⟩

def forMode (mode : CpuMode) (rip cs : ℕ) : FetchAddr :=
  match mode with
  | .real16 => real16 cs (rip % 2 ^ 16)
  | _ => flat rip

end FetchAddr

def blockFetchWindow : ℕ := 4096

/-- Decoding stops inside the slice it was given, after at least one instruction. -/
def liftBlock (m : Memory) (fa : FetchAddr) (len : ℕ) : Option IrBlock :=
  match m.codeSlice fa.pa blockFetchWindow with
  | none => none
  | some code =>
    if h : 0 < len ∧ len ≤ code.length then
      some ⟨fa.ip, code.take len, by
        rw [← List.length_pos_iff_ne_nil, List.length_take]
        omega⟩
    else none

structure Lifted where
  pa : ℕ
  ir : IrBlock
  deriving DecidableEq

def Lifted.span (l : Lifted) : Span := l.ir.spanAt l.pa

/-- `hit` is the interpreted block its lookup returned, with the epoch read before the lookup;
`lifted` what it has lifted since. -/
inductive Phase
  | idle
  | resolving (fa : FetchAddr) (mode : CpuMode) (hit : Option (IrBlock × ℕ))
      (lifted : List Lifted)
  deriving DecidableEq

def Phase.lifted : Phase → List Lifted
  | .idle => []
  | .resolving _ _ _ lifted => lifted

structure TierUpRequest where
  key : BlockKey
  spans : List Span
  epoch : ℕ

structure Vm (n : ℕ) where
  mem : Memory
  cache : TranslationCache
  vcpus : Fin n → Phase
  requests : List TierUpRequest

def unmapPages (lo hi : ℕ) : List ℕ := pagesBetween codePageSize lo (hi - 1)

def markSpans (m : Memory) (spans : List Span) : Memory :=
  spans.foldl (fun m sp => m.markCode sp.start sp.len) m

namespace Vm
variable {n : ℕ}

def boot (mem : Memory) : Vm n :=
  { mem, cache := .new, vcpus := fun _ => .idle, requests := [] }

variable (vm : Vm n) (v : Fin n)

def setPhase (ph : Phase) : Vm n :=
  { vm with vcpus := Function.update vm.vcpus v ph }

/-- `invalidate_overlapping` with the tag clearing it does under its locks. -/
def invalidate (lo hi : ℕ) (clear : Memory → Memory) : Vm n :=
  { vm with mem := clear vm.mem, cache := vm.cache.invalidateOverlapping lo hi }

def map (addr size : ℕ) (kind : RegionKind) : Except MapError (Vm n) :=
  match vm.mem.map addr size kind with
  | .error e => .error e
  | .ok mem =>
    if kind = .trap then
      .ok (({ vm with mem } : Vm n).invalidate 0 (2 ^ 64 - 1) Memory.clearAllCodePages)
    else .ok { vm with mem }

def unmap (addr size : ℕ) : Except MapError (Vm n) :=
  match vm.mem.unmap addr size with
  | .error e => .error e
  | .ok mem =>
    let hi := min (addr + size) (2 ^ 64 - 1)
    .ok (({ vm with mem } : Vm n).invalidate addr hi fun m =>
      (unmapPages addr hi).foldl Memory.clearCodePage m)

def smcPage (page : ℕ) : Vm n :=
  vm.invalidate (page * codePageSize) (page * codePageSize + codePageSize)
    fun m => m.clearCodePage page

def handleSmc : Vm n :=
  let (pages, mem) := vm.mem.takeDirtyCode
  pages.foldl smcPage { vm with mem }

def lookup (mode : CpuMode) (rip cs : ℕ) : Vm n :=
  let fa := FetchAddr.forMode mode rip cs
  match vm.cache.get ⟨fa.pa, mode⟩ with
  | none => vm.setPhase v (.resolving fa mode none [])
  | some e =>
    match e.block with
    | .interpreted ir => vm.setPhase v (.resolving fa mode (some (ir, vm.cache.epoch)) [])
    | .compiled _ => vm

def lift (target : FetchAddr) (len : ℕ) : Option (Vm n) :=
  match vm.vcpus v with
  | .idle => none
  | .resolving fa mode hit lifted =>
    if (lifted = [] ∧ (target = fa ∨ target = .flat fa.pa)) ∨
        (lifted ≠ [] ∧ target.ip = target.pa) then
      (liftBlock vm.mem target len).map fun ir =>
        vm.setPhase v (.resolving fa mode hit (lifted ++ [⟨target.pa, ir⟩]))
    else none

def record (key : BlockKey) (block : CachedBlock) (spans : List Span) : Vm n :=
  { vm with mem := markSpans vm.mem spans, cache := vm.cache.insert key block spans }

def materialize (ir : IrBlock) : Option ℕ → CachedBlock
  | none => .interpreted ir
  | some entry => .compiled entry

/-- A region of several flat blocks is recorded as one compiled unit, otherwise the first block
alone is. -/
def insert (entry : Option ℕ) (region : Bool) : Option (Vm n) :=
  match vm.vcpus v with
  | .resolving fa mode none (l :: ls) =>
    let key : BlockKey := ⟨fa.pa, mode⟩
    if region then
      match entry with
      | none => none
      | some entry =>
        if ls ≠ [] ∧ ∀ l' ∈ l :: ls, l'.ir.guestStart = l'.pa then
          some ((vm.record key (.compiled entry)
            ((l :: ls).map fun l' => l'.ir.span)).setPhase v .idle)
        else none
    else some ((vm.record key (materialize l.ir entry) [l.ir.spanAt fa.pa]).setPhase v .idle)
  | _ => none

/-- Inline tier-up of the block a lookup returned; nothing is tagged. -/
def upgrade (entry : Option ℕ) : Option (Vm n) :=
  match vm.vcpus v with
  | .resolving fa mode (some (ir, epoch)) _ =>
    match vm.cache.upgrade ⟨fa.pa, mode⟩ (materialize ir entry) ir.span epoch with
    | none => some (vm.setPhase v .idle)
    | some cache => some (({ vm with cache } : Vm n).setPhase v .idle)
  | _ => none

def submit (region : Bool) : Option (Vm n) :=
  match vm.vcpus v with
  | .resolving fa mode (some (ir, epoch)) lifted =>
    if region ∧ ¬(1 < lifted.length ∧ ∀ l ∈ lifted, l.ir.guestStart = l.pa) then none
    else
      let spans := if region then lifted.map fun l => l.ir.span else [ir.span]
      (vm.cache.tryBeginTierUp ⟨fa.pa, mode⟩).map fun cache =>
        ({ vm with cache, requests := vm.requests ++ [⟨⟨fa.pa, mode⟩, spans, epoch⟩] } :
          Vm n).setPhase v .idle
  | _ => none

def done : Vm n := vm.setPhase v .idle

def publish (i entry : ℕ) : Option (Vm n) :=
  match vm.requests[i]? with
  | none => none
  | some r =>
    let requests := vm.requests.eraseIdx i
    match vm.cache.upgradeRegion r.key (.compiled entry) r.spans r.epoch with
    | none => some { vm with cache := vm.cache.endTierUp r.key, requests }
    | some cache =>
      some { vm with
        mem := markSpans vm.mem r.spans
        cache := cache.endTierUp r.key
        requests }

end Vm

inductive Act (n : ℕ)
  | map (addr size : ℕ) (kind : RegionKind)
  | unmap (addr size : ℕ)
  | writeBytes (addr : ℕ) (bs : List U8)
  | store (v : Fin n) (addr : ℕ) (val : U64) (size : ℕ)
  | lookup (v : Fin n) (mode : CpuMode) (rip cs : ℕ)
  | lift (v : Fin n) (target : FetchAddr) (len : ℕ)
  | insert (v : Fin n) (entry : Option ℕ) (region : Bool)
  | upgrade (v : Fin n) (entry : Option ℕ)
  | submit (v : Fin n) (region : Bool)
  | done (v : Fin n)
  | publish (i entry : ℕ)
  | handleSmc (v : Fin n)

/-- One atomic action, if it is enabled and does not fail. Mapping calls borrow the machine, so no
vcpu is inside `resolve`. -/
def step {n : ℕ} (vm : Vm n) : Act n → Option (Vm n)
  | .map addr size kind =>
    if ∀ v, vm.vcpus v = .idle then (vm.map addr size kind).toOption else none
  | .unmap addr size => if ∀ v, vm.vcpus v = .idle then (vm.unmap addr size).toOption else none
  | .writeBytes addr bs =>
    (vm.mem.writeBytes addr bs).toOption.map fun mem => { vm with mem }
  | .store v addr val size =>
    if vm.vcpus v = .idle then
      (vm.mem.write addr val size).toOption.map fun mem => { vm with mem }
    else none
  | .lookup v mode rip cs => if vm.vcpus v = .idle then some (vm.lookup v mode rip cs) else none
  | .lift v target len => vm.lift v target len
  | .insert v entry region => vm.insert v entry region
  | .upgrade v entry => vm.upgrade v entry
  | .submit v region => vm.submit v region
  | .done v => some (vm.done v)
  | .publish i entry => vm.publish i entry
  | .handleSmc v => if vm.vcpus v = .idle then some vm.handleSmc else none

end X86Jit
