import X86Jit.Core.Vm
import X86Jit.Lib.Epoch

/-! Chaining: the slots through which compiled code jumps to compiled code, and the other holders
of entry points. -/
namespace X86Jit
open X86Jit.Lib

inductive SlotValue
  | link (entry : ℕ)
  | ibtc (target : U64) (entry : ℕ)
  deriving DecidableEq

def SlotValue.entry : SlotValue → ℕ
  | .link entry => entry
  | .ibtc _ entry => entry

/-- `edge` has read the epoch, `found` has an entry to publish, `entered` one to install in its fast
cache. -/
inductive EdgePhase
  | idle
  | edge (since slot : ℕ) (indirect : Bool) (rip : U64)
  | found (since slot : ℕ) (indirect : Bool) (rip : U64) (entry : ℕ)
  | entered (rip : U64) (entry : ℕ)
  deriving DecidableEq

/-- The direct-mapped fast cache with the epoch it was last synced to, and the refill counts of
indirect sites. -/
structure LinkVcpu where
  fastEpoch : ℕ
  fast : ℕ → Option (U64 × ℕ)
  ibtcRefills : ℕ → ℕ
  phase : EdgePhase

/-- Compiled code is never freed, so entries are handed out once. `replaced` are entries that an
upgrade has replaced in a unit that is still there, `droppers` those who have dropped units and not
yet cleared slots. -/
structure LinkState (n : ℕ) where
  cache : TranslationCache
  nextEntry : ℕ
  replaced : List (ℕ × BlockKey)
  slots : ℕ → Option SlotValue
  droppers : Finset ℕ
  vcpus : Fin n → LinkVcpu

def fastBits : ℕ := 10

def ibtcMegamorphicCap : ℕ := 8

def fastIndex (rip : U64) : ℕ := ((rip * 0x9E3779B97F4A7C15) >>> (64 - fastBits)).toNat

namespace LinkVcpu

def fastGet (c : LinkVcpu) (rip : U64) : Option ℕ :=
  match c.fast (fastIndex rip) with
  | none => none
  | some e => if e.1 = rip then some e.2 else none

def fastPut (c : LinkVcpu) (rip : U64) (entry : ℕ) : LinkVcpu :=
  { c with fast := Function.update c.fast (fastIndex rip) (some (rip, entry)) }

def fastClear (c : LinkVcpu) : LinkVcpu :=
  { c with fast := fun _ => none, ibtcRefills := fun _ => 0 }

def sync (c : LinkVcpu) (epoch : ℕ) : LinkVcpu :=
  if epoch ≠ c.fastEpoch then { c.fastClear with fastEpoch := epoch } else c

end LinkVcpu

inductive Resolution
  | cached
  | compile (spans : List Span)
  | interpret (ir : IrBlock) (spans : List Span)

namespace LinkState
variable {n : ℕ}

def new : LinkState n :=
  { cache := .new, nextEntry := 0, replaced := [], slots := fun _ => none, droppers := ∅
    vcpus := fun _ => ⟨0, fun _ => none, fun _ => 0, .idle⟩ }

variable (s : LinkState n)

def setVcpu (v : Fin n) (c : LinkVcpu) : LinkState n :=
  { s with vcpus := Function.update s.vcpus v c }

def setPhase (v : Fin n) (ph : EdgePhase) : LinkState n :=
  s.setVcpu v { s.vcpus v with phase := ph }

def entryOf (key : BlockKey) : Option ℕ :=
  match s.cache.get key with
  | some ⟨_, .compiled entry, _⟩ => some entry
  | _ => none

def put (e : Entry) : LinkState n :=
  { s with
    cache := s.cache.put e
    replaced := match s.entryOf e.key with
      | some old => (old, e.key) :: s.replaced
      | none => s.replaced }

def compile (key : BlockKey) (spans : List Span) : LinkState n :=
  { s.put ⟨key, .compiled s.nextEntry, spans⟩ with nextEntry := s.nextEntry + 1 }

def resolve (key : BlockKey) : Resolution → Option (LinkState n × Option ℕ)
  | .cached => if (s.cache.get key).isSome then some (s, s.entryOf key) else none
  | .compile spans =>
    if s.entryOf key = none then some (s.compile key spans, some s.nextEntry) else none
  | .interpret ir spans =>
    if s.cache.get key = none then some (s.put ⟨key, .interpreted ir, spans⟩, none) else none

/-- Drop the units of a range, and with each of them the entries it had before. -/
def drop (who lo hi : ℕ) : LinkState n :=
  { s with
    cache := s.cache.invalidateOverlapping lo hi
    replaced := s.replaced.filter fun p => p.2 ∉ s.cache.victims lo hi
    droppers := if s.cache.victims lo hi = [] then s.droppers else insert who s.droppers }

def invalidateLinks (who : ℕ) : LinkState n :=
  { s with slots := fun _ => none, droppers := s.droppers.erase who }

/-- Store into a slot under the cache's locks, unless the epoch has moved. -/
def publishIfCurrent (since slot : ℕ) (value : SlotValue) : Option (LinkState n) :=
  if s.cache.epoch ≠ since then none
  else some { s with slots := Function.update s.slots slot (some value) }

/-- A direct edge then installs the entry in the fast cache. An indirect one counts the refill, and
is not published past the cap. -/
def publish (v : Fin n) : Option (LinkState n) :=
  match (s.vcpus v).phase with
  | .found since slot false rip entry =>
    match s.publishIfCurrent since slot (.link entry) with
    | none => some (s.setPhase v .idle)
    | some s' => some (s'.setPhase v (.entered rip entry))
  | .found since slot true rip entry =>
    let c := s.vcpus v
    if c.ibtcRefills slot < ibtcMegamorphicCap then
      let c' := { c with
        ibtcRefills := Function.update c.ibtcRefills slot (c.ibtcRefills slot + 1)
        phase := .idle }
      match s.publishIfCurrent since slot (.ibtc rip entry) with
      | none => some (s.setVcpu v c')
      | some s' => some (s'.setVcpu v c')
    else some (s.setPhase v .idle)
  | _ => none

end LinkState

inductive LinkAct (n : ℕ)
  | sync (v : Fin n)
  | dispatch (v : Fin n) (mode : CpuMode) (rip : U64) (cs : ℕ) (how : Resolution)
  | fill (v : Fin n)
  | leave (v : Fin n) (slot : ℕ) (indirect : Bool) (rip : U64)
  | probe (v : Fin n)
  | resolveEdge (v : Fin n) (mode : CpuMode) (how : Resolution)
  | publish (v : Fin n)
  | abandon (v : Fin n)
  | tierUp (key : BlockKey) (spans : List Span)
  | drop (who lo hi : ℕ)
  | invalidateLinks (who : ℕ)

def linkStep {n : ℕ} (s : LinkState n) : LinkAct n → Option (LinkState n)
  | .sync v =>
    if (s.vcpus v).phase = .idle then some (s.setVcpu v ((s.vcpus v).sync s.cache.epoch))
    else none
  -- the outer loop: a fast-cache hit changes nothing, a miss resolves and installs the entry
  | .dispatch v mode rip cs how =>
    if (s.vcpus v).phase = .idle ∧ (s.vcpus v).fastGet rip = none then
      (s.resolve ⟨(FetchAddr.forMode mode rip.toNat cs).pa, mode⟩ how).map fun r =>
        match r.2 with
        | some entry => r.1.setPhase v (.entered rip entry)
        | none => r.1
    else none
  | .fill v =>
    match (s.vcpus v).phase with
    | .entered rip entry =>
      some (s.setVcpu v { (s.vcpus v).fastPut rip entry with phase := .idle })
    | .found _ _ true rip entry => some (s.setVcpu v ((s.vcpus v).fastPut rip entry))
    | _ => none
  -- a compiled block returns on an unlinked edge: the epoch is read before resolving
  | .leave v slot indirect rip =>
    if (s.vcpus v).phase = .idle then
      some (s.setPhase v (.edge s.cache.epoch slot indirect rip))
    else none
  | .probe v =>
    match (s.vcpus v).phase with
    | .edge since slot true rip =>
      ((s.vcpus v).fastGet rip).map fun entry =>
        s.setPhase v (.found since slot true rip entry)
    | _ => none
  | .resolveEdge v mode how =>
    match (s.vcpus v).phase with
    | .edge since slot indirect rip =>
      if indirect = true ∧ (s.vcpus v).fastGet rip ≠ none then none
      else (s.resolve ⟨rip.toNat, mode⟩ how).map fun r =>
        match r.2 with
        | some entry => r.1.setPhase v (.found since slot indirect rip entry)
        | none => r.1.setPhase v .idle
    | _ => none
  | .publish v => s.publish v
  | .abandon v => some (s.setPhase v .idle)
  | .tierUp key spans => some (s.compile key spans)
  | .drop who lo hi => some (s.drop who lo hi)
  | .invalidateLinks who => some (s.invalidateLinks who)

end X86Jit
