import X86Jit.Core.SpanBounds

/-! Where the units of the cache come from: the machine with the ranges of physical memory each
block was read at. -/
namespace X86Jit
open X86Jit.Lib Function List TranslationCache

def coverage (spans : List Span) : Set ℕ := {b | ∃ sp ∈ spans, sp.start ≤ b ∧ b < sp.stop}

/-- The ranges everything was lifted from: the units, the block each vcpu has looked up, and the
background requests. -/
structure Origins (n : ℕ) where
  unit : BlockKey → List Span
  hit : Fin n → List Span
  request : List (List Span)

namespace Origins
variable {n : ℕ}

def boot : Origins n := ⟨fun _ => [], fun _ => [], []⟩

variable (o : Origins n)

def setUnit (key : BlockKey) (l : List Span) : Origins n :=
  { o with unit := update o.unit key l }

def insert (region : Bool) : Phase → Origins n
  | .idle => o
  | .resolving fa mode _ lifted =>
    o.setUnit ⟨fa.pa, mode⟩ ((if region then lifted else lifted.take 1).map Lifted.span)

def upgrade (v : Fin n) (current : ℕ) : Phase → Origins n
  | .resolving fa mode (some (_, epoch)) _ =>
    if epoch = current then o.setUnit ⟨fa.pa, mode⟩ (o.hit v) else o
  | _ => o

def submit (v : Fin n) (region : Bool) : Phase → Origins n
  | .idle => o
  | .resolving _ _ _ lifted =>
    { o with request := o.request ++ [if region then lifted.map Lifted.span else o.hit v] }

def publish (i current : ℕ) : Option TierUpRequest → Origins n
  | none => o
  | some r =>
    let rest : Origins n := { o with request := o.request.eraseIdx i }
    if r.epoch = current then rest.setUnit r.key (o.request.getD i []) else rest

def follow (vm : Vm n) : Act n → Origins n
  | .lookup v mode rip cs =>
    { o with hit := update o.hit v (o.unit ⟨(FetchAddr.forMode mode rip cs).pa, mode⟩) }
  | .insert v _ region => o.insert region (vm.vcpus v)
  | .upgrade v _ => o.upgrade v vm.cache.epoch (vm.vcpus v)
  | .submit v region => o.submit v region (vm.vcpus v)
  | .publish i _ => o.publish i vm.cache.epoch vm.requests[i]?
  | _ => o

end Origins

structure Traced (n : ℕ) where
  vm : Vm n
  origins : Origins n

variable {n : ℕ}

namespace Traced

def boot (mem : Memory) : Traced n := ⟨.boot mem, .boot⟩

def step (s : Traced n) (a : Act n) : Option (Traced n) :=
  (X86Jit.step s.vm a).map fun vm => ⟨vm, s.origins.follow s.vm a⟩

/-- The ranges recorded for every unit cover exactly the bytes it was lifted from. -/
def Right (s : Traced n) : Prop :=
  ∀ e ∈ s.vm.cache.entries, coverage e.spans = coverage (s.origins.unit e.key)

def LeavesRight (s : Traced n) (a : Act n) : Prop := ∀ s', s.step a = some s' → s'.Right

end Traced

/-- A tier-up that passes its epoch check records a single block at the address it was fetched from.
-/
def TiersAtHome {n : ℕ} (vm : Vm n) : Act n → Prop
  | .upgrade v _ => ∀ fa mode ir lifted,
    vm.vcpus v = .resolving fa mode (some (ir, vm.cache.epoch)) lifted → ir.guestStart = fa.pa
  | .publish i _ => ∀ r sp, vm.requests[i]? = some r → r.epoch = vm.cache.epoch →
    r.spans = [sp] → sp.start = r.key.guestAddr
  | _ => True

theorem mem_coverage_singleton {sp : Span} {b : ℕ} :
    b ∈ coverage [sp] ↔ sp.start ≤ b ∧ b < sp.stop := by
  constructor
  · rintro ⟨sp', hsp, hb⟩
    rwa [List.mem_singleton.mp hsp] at hb
  · exact fun hb => ⟨sp, mem_singleton_self sp, hb⟩

theorem coverage_span_iff (ir : IrBlock) (pa : ℕ) :
    coverage [ir.span] = coverage [ir.spanAt pa] ↔ ir.guestStart = pa := by
  constructor
  · intro heq
    have hstart : ir.guestStart ∈ coverage [ir.spanAt pa] := by
      rw [← heq, mem_coverage_singleton]
      exact ⟨le_rfl, ir.span.start_lt_stop⟩
    have hpa : pa ∈ coverage [ir.span] := by
      rw [heq, mem_coverage_singleton]
      exact ⟨le_rfl, (ir.spanAt pa).start_lt_stop⟩
    exact Nat.le_antisymm (mem_coverage_singleton.mp hpa).1 (mem_coverage_singleton.mp hstart).1
  · intro heq
    rw [IrBlock.span, IrBlock.spanAt, heq]

namespace Traced
variable {s : Traced n}

def Requested (r : TierUpRequest) (l : List Span) : Prop :=
  (∃ ir : IrBlock, r.spans = [ir.span] ∧ l = [ir.spanAt r.key.guestAddr]) ∨
    (1 < r.spans.length ∧ l = r.spans)

/-- Interpreted blocks were lifted at the address of their key, wherever they are held. -/
structure Known (s : Traced n) : Prop where
  unit : ∀ e ∈ s.vm.cache.entries, ∀ ir, e.block = .interpreted ir →
    s.origins.unit e.key = [ir.spanAt e.key.guestAddr]
  hit : ∀ v fa mode ir epoch lifted,
    s.vm.vcpus v = .resolving fa mode (some (ir, epoch)) lifted →
    s.origins.hit v = [ir.spanAt fa.pa]
  request : List.Forall₂ Requested s.vm.requests s.origins.request

variable {v : Fin n}

namespace Known

protected theorem boot (mem : Memory) : Known (Traced.boot mem : Traced n) where
  unit e he := absurd he not_mem_nil
  hit v fa mode ir epoch lifted hph := by cases hph
  request := .nil

theorem shrink (h : Known s) {vm : Vm n} (hentries : ∀ e ∈ vm.cache.entries, e ∈ s.vm.cache.entries)
    (hvcpus : vm.vcpus = s.vm.vcpus) (hrequests : vm.requests = s.vm.requests) :
    Known ⟨vm, s.origins⟩ where
  unit e he := h.unit e (hentries e he)
  hit v fa mode ir epoch lifted hph := h.hit v fa mode ir epoch lifted (hvcpus ▸ hph)
  request := hrequests ▸ h.request

theorem setPhase (h : Known s) {ph : Phase}
    (hph : ∀ fa mode ir epoch lifted, ph = .resolving fa mode (some (ir, epoch)) lifted →
      s.origins.hit v = [ir.spanAt fa.pa]) : Known ⟨s.vm.setPhase v ph, s.origins⟩ where
  unit := h.unit
  hit w fa mode ir epoch lifted hw := by
    rcases Vm.setPhase_vcpus_eq hw with ⟨rfl, heq⟩ | hold
    · exact hph fa mode ir epoch lifted heq.symm
    · exact h.hit w fa mode ir epoch lifted hold
  request := h.request

theorem setIdle (h : Known s) (v : Fin n) : Known ⟨s.vm.setPhase v .idle, s.origins⟩ := by
  apply h.setPhase
  intro fa mode ir epoch lifted hph
  cases hph

theorem put (h : Known s) {mem : Memory} {e : Entry} {pending : Finset BlockKey} {l : List Span}
    (hunit : ∀ ir, e.block = .interpreted ir → l = [ir.spanAt e.key.guestAddr]) :
    Known ⟨{ s.vm with mem, cache := { s.vm.cache.put e with tierPending := pending } },
      s.origins.setUnit e.key l⟩ where
  unit e' he' ir hir := by
    show update s.origins.unit e.key l e'.key = _
    rcases mem_put.mp he' with rfl | ⟨hold, hne⟩
    · rw [update_self]
      exact hunit ir hir
    · rw [update_of_ne hne]
      exact h.unit e' hold ir hir
  hit := h.hit
  request := h.request

theorem eraseRequest (h : Known s) (i : ℕ) {pending : Finset BlockKey} :
    Known ⟨{ s.vm with
        cache := { s.vm.cache with tierPending := pending }
        requests := s.vm.requests.eraseIdx i },
      { s.origins with request := s.origins.request.eraseIdx i }⟩ where
  unit := h.unit
  hit := h.hit
  request := by
    have herase {l : List TierUpRequest} {o : List (List Span)}
        (hall : List.Forall₂ Requested l o) :
        ∀ i, List.Forall₂ Requested (l.eraseIdx i) (o.eraseIdx i) := by
      induction hall with
      | nil => exact fun i => .nil
      | cons hfirst hrest ih =>
        intro i
        cases i with
        | zero => exact hrest
        | succ i => exact .cons hfirst (ih i)
    exact herase h.request i

theorem requested (h : Known s) {i : ℕ} {r : TierUpRequest} (hr : s.vm.requests[i]? = some r) :
    Requested r (s.origins.request.getD i []) := by
  obtain ⟨hlt, rfl⟩ := List.getElem?_eq_some_iff.mp hr
  have hlt' : i < s.origins.request.length := h.request.length_eq ▸ hlt
  rw [List.getD_eq_getElem?_getD, List.getElem?_eq_getElem hlt']
  exact h.request.get hlt hlt'

end Known

theorem right_put_iff (h : s.Right) {vm : Vm n} {o : Origins n} {e : Entry} {l : List Span}
    (hentries : vm.cache.entries = (s.vm.cache.put e).entries)
    (hunit : o.unit = update s.origins.unit e.key l) :
    Right ⟨vm, o⟩ ↔ coverage e.spans = coverage l := by
  unfold Right
  rw [hentries, hunit]
  constructor
  · intro hall
    have hown := hall e (mem_put.mpr (.inl rfl))
    rwa [update_self] at hown
  · intro heq e' he'
    rcases mem_put.mp he' with rfl | ⟨hold, hne⟩
    · rw [update_self]
      exact heq
    · rw [update_of_ne hne]
      exact h e' hold

structure Follows (s : Traced n) (a : Act n) (s' : Traced n) : Prop where
  known : Known s'
  right : s.Right → (s'.Right ↔ TiersAtHome s.vm a)

variable {a : Act n}

theorem follows_of_shrink (h : Known s) (ha : TiersAtHome s.vm a) {vm : Vm n}
    (hentries : ∀ e ∈ vm.cache.entries, e ∈ s.vm.cache.entries) (hvcpus : vm.vcpus = s.vm.vcpus)
    (hrequests : vm.requests = s.vm.requests) : Follows s a ⟨vm, s.origins⟩ :=
  ⟨h.shrink hentries hvcpus hrequests,
    fun hright => iff_of_true (fun e he => hright e (hentries e he)) ha⟩

theorem follows_of_invalidated (h : Known s) (ha : TiersAtHome s.vm a) {mem : Memory}
    {vm : Vm n} {drop : Entry → Prop} {clear : ℕ → Prop}
    (hinv : Vm.Invalidated drop clear { s.vm with mem } vm) : Follows s a ⟨vm, s.origins⟩ :=
  follows_of_shrink h ha (fun e he => ((hinv.entries e).mp he).1) hinv.vcpus hinv.requests

theorem follows_insert (hfit : SpansFit s.vm) (h : Known s) {entry : Option ℕ}
    {region : Bool} {vm : Vm n} (hvm : s.vm.insert v entry region = some vm) :
    Follows s (.insert v entry region) ⟨vm, s.origins.insert region (s.vm.vcpus v)⟩ := by
  obtain ⟨fa, mode, l, ls, hph, hcase⟩ := Vm.insert_cases hvm
  have hfirst : l.pa = fa.pa := (hfit.phase v fa mode none (l :: ls) hph).first l rfl
  rw [hph]
  rcases hcase with ⟨rfl, rfl⟩ | ⟨rfl, e, rfl⟩
  · -- the first block is recorded at the fetch address, where it was read
    have hspan : l.span = l.ir.spanAt fa.pa := by rw [Lifted.span, hfirst]
    constructor
    · refine (h.put (e := ⟨⟨fa.pa, mode⟩, Vm.materialize l.ir entry, _⟩) ?_).setIdle v
      intro ir hir
      rw [Vm.materialize_interpreted hir]
      exact congrArg (fun sp => [sp]) hspan
    · intro hright
      refine iff_of_true ?_ trivial
      exact (right_put_iff (e := ⟨⟨fa.pa, mode⟩, Vm.materialize l.ir entry, [l.ir.spanAt fa.pa]⟩)
        hright rfl rfl).mpr (congrArg (fun sp => coverage [sp]) hspan.symm)
  · constructor
    · refine (h.put (e := ⟨⟨fa.pa, mode⟩, .compiled e, (l :: ls).map Lifted.span⟩) ?_).setIdle v
      intro ir hir
      cases hir
    · intro hright
      exact iff_of_true ((right_put_iff (e := ⟨⟨fa.pa, mode⟩, .compiled e,
        (l :: ls).map Lifted.span⟩) hright rfl rfl).mpr rfl) trivial

theorem follows_upgrade (h : Known s) {entry : Option ℕ} {vm : Vm n}
    (hvm : s.vm.upgrade v entry = some vm) : Follows s (.upgrade v entry)
      ⟨vm, s.origins.upgrade v s.vm.cache.epoch (s.vm.vcpus v)⟩ := by
  obtain ⟨fa, mode, ir, epoch, lifted, hph, hcase⟩ := Vm.upgrade_spec hvm
  have hhit := h.hit v fa mode ir epoch lifted hph
  rw [hph, Origins.upgrade]
  rcases hcase with ⟨hlost, rfl⟩ | ⟨hwon, rfl⟩
  · rw [if_neg hlost]
    refine ⟨h.setIdle v, fun hright => iff_of_true hright ?_⟩
    intro fa' mode' ir' lifted' hph'
    cases hph.symm.trans hph'
    exact absurd rfl hlost
  · rw [if_pos hwon, hhit]
    constructor
    · refine (h.put (e := ⟨⟨fa.pa, mode⟩, Vm.materialize ir entry, [ir.span]⟩) ?_).setIdle v
      intro ir' hir'
      rw [Vm.materialize_interpreted hir']
    · intro hright
      refine (right_put_iff (e := ⟨⟨fa.pa, mode⟩, Vm.materialize ir entry, [ir.span]⟩) hright rfl
        rfl).trans ((coverage_span_iff ir fa.pa).trans ?_)
      constructor
      · intro hstart fa' mode' ir' lifted' hph'
        cases hph.symm.trans hph'
        exact hstart
      · intro hhome
        exact hhome fa mode ir lifted (hwon ▸ hph)

theorem follows_publish (h : Known s) {i entry : ℕ} {vm : Vm n}
    (hvm : s.vm.publish i entry = some vm) :
    Follows s (.publish i entry) ⟨vm, s.origins.publish i s.vm.cache.epoch s.vm.requests[i]?⟩ := by
  obtain ⟨r, hr, pending, hcase⟩ := Vm.publish_spec hvm
  have hreq := h.requested hr
  rw [hr, Origins.publish]
  rcases hcase with ⟨hlost, rfl⟩ | ⟨hwon, rfl⟩
  · rw [if_neg hlost]
    refine ⟨h.eraseRequest i, fun hright => iff_of_true hright ?_⟩
    intro r' sp hr' hep
    cases hr.symm.trans hr'
    exact absurd hep hlost
  · rw [if_pos hwon]
    constructor
    · refine (h.put (e := ⟨r.key, .compiled entry, r.spans⟩) ?_).eraseRequest i
      intro ir hir
      cases hir
    · intro hright
      refine (right_put_iff (e := ⟨r.key, .compiled entry, r.spans⟩) hright rfl rfl).trans ?_
      have hhome : TiersAtHome s.vm (.publish i entry) ↔
          ∀ sp, r.spans = [sp] → sp.start = r.key.guestAddr := by
        constructor
        · exact fun hall sp => hall r sp hr hwon
        · intro hall r' sp hr' _
          cases hr.symm.trans hr'
          exact hall sp
      rw [hhome]
      rcases hreq with ⟨ir, hspans, horigin⟩ | ⟨hlen, horigin⟩
      · rw [horigin]
        rw [hspans, coverage_span_iff]
        constructor
        · intro hstart sp hsp
          cases hsp
          exact hstart
        · exact fun hall => hall _ rfl
      · rw [horigin]
        refine iff_of_true rfl fun sp hsp => ?_
        rw [hsp] at hlen
        exact absurd hlen (lt_irrefl 1)

theorem follows_step (hfit : SpansFit s.vm) (h : Known s) {s' : Traced n}
    (hstep : s.step a = some s') : Follows s a s' := by
  obtain ⟨vm, hvm, rfl⟩ := Option.map_eq_some_iff.mp hstep
  cases a with
  | map addr size kind =>
    obtain ⟨mem, -, hcase⟩ := Vm.map_spec (step_map hvm).2
    rcases hcase with ⟨-, rfl⟩ | hinv
    · exact follows_of_shrink (a := .map addr size kind) h trivial (fun _ he => he) rfl rfl
    · exact follows_of_invalidated (a := .map addr size kind) h trivial hinv
  | unmap addr size =>
    obtain ⟨mem, -, hinv⟩ := Vm.unmap_spec (step_unmap hvm).2
    exact follows_of_invalidated (a := .unmap addr size) h trivial hinv
  | writeBytes addr bs =>
    obtain ⟨mem, -, rfl⟩ := step_writeBytes hvm
    exact follows_of_shrink (a := .writeBytes addr bs) h trivial (fun _ he => he) rfl rfl
  | store v addr val size =>
    obtain ⟨-, mem, -, rfl⟩ := step_store hvm
    exact follows_of_shrink (a := .store v addr val size) h trivial (fun _ he => he) rfl rfl
  | handleSmc v =>
    obtain ⟨-, rfl⟩ := step_handleSmc hvm
    exact follows_of_invalidated (a := .handleSmc v) h trivial (Vm.handleSmc_spec s.vm)
  | lookup v mode rip cs =>
    obtain ⟨hidle, rfl⟩ := step_lookup hvm
    -- what an idle vcpu has in hand does not matter
    have hnoted : Known ⟨s.vm, s.origins.follow s.vm (.lookup v mode rip cs)⟩ := by
      refine ⟨h.unit, ?_, h.request⟩
      intro w fa mode' ir epoch lifted hph
      have hw : w ≠ v := by
        rintro rfl
        cases hidle.symm.trans hph
      show update s.origins.hit v _ w = _
      rw [update_of_ne hw]
      exact h.hit w fa mode' ir epoch lifted hph
    rcases Vm.lookup_spec s.vm v mode rip cs with heq | ⟨hit, heq, hhit⟩
    · rw [heq]
      exact ⟨hnoted, fun hright => iff_of_true hright trivial⟩
    · rw [heq]
      refine ⟨hnoted.setPhase ?_, fun hright => iff_of_true hright trivial⟩
      intro fa mode' ir epoch lifted hph
      cases hph
      rcases hhit with ⟨hnone, -⟩ | ⟨ir', e, hsome, hblock, hget⟩
      · cases hnone
      · cases hsome
        obtain ⟨he, hkey⟩ := get_eq_some_iff.mp hget
        show update s.origins.hit v _ v = _
        rw [update_self, ← hkey, h.unit e he ir hblock, hkey]
  | lift v target len =>
    obtain ⟨fa, mode, hit, lifted, ir, hph, -, -, rfl⟩ := Vm.lift_spec hvm
    refine ⟨h.setPhase ?_, fun hright => iff_of_true hright trivial⟩
    intro fa' mode' ir' epoch lifted' heq
    cases heq
    exact h.hit v fa mode ir' epoch lifted hph
  | insert v entry region => exact follows_insert hfit h hvm
  | upgrade v entry => exact follows_upgrade h hvm
  | submit v region =>
    obtain ⟨fa, mode, ir, epoch, lifted, spans, pending, hph, rfl, hspans⟩ := Vm.submit_spec hvm
    have hhit := h.hit v fa mode ir epoch lifted hph
    have hreq : Requested ⟨⟨fa.pa, mode⟩, spans, epoch⟩
        (if region then lifted.map Lifted.span else s.origins.hit v) := by
      rcases hspans with ⟨rfl, rfl⟩ | ⟨⟨rfl, hlen⟩, rfl⟩
      · exact .inl ⟨ir, rfl, hhit⟩
      · exact .inr ⟨by rwa [length_map], rfl⟩
    show Follows s _ ⟨_, s.origins.submit v region (s.vm.vcpus v)⟩
    rw [hph]
    have hqueued : Known ⟨{ s.vm with
          cache := { s.vm.cache with tierPending := pending }
          requests := s.vm.requests ++ [⟨⟨fa.pa, mode⟩, spans, epoch⟩] },
        { s.origins with request := s.origins.request ++
          [if region then lifted.map Lifted.span else s.origins.hit v] }⟩ :=
      ⟨h.unit, h.hit, rel_append h.request (.cons hreq .nil)⟩
    exact ⟨hqueued.setIdle v, fun hright => iff_of_true hright trivial⟩
  | done v =>
    cases hvm
    exact ⟨h.setIdle v, fun hright => iff_of_true hright trivial⟩
  | publish i entry => exact follows_publish h hvm

theorem enabled_of_not_tiersAtHome (ha : ¬TiersAtHome s.vm a) : ∃ s', s.step a = some s' := by
  have hlift {vm : Vm n} (hvm : X86Jit.step s.vm a = some vm) : ∃ s', s.step a = some s' :=
    ⟨_, congrArg _ hvm⟩
  by_contra hno
  apply ha
  cases a with
  | upgrade v entry =>
    intro fa mode ir lifted hph
    refine absurd ?_ hno
    cases hvm : X86Jit.step s.vm (.upgrade v entry) with
    | some vm => exact hlift hvm
    | none =>
      simp only [X86Jit.step, Vm.upgrade, hph, upgrade, ne_eq, not_true_eq_false,
        if_false] at hvm
      cases hvm
  | publish i entry =>
    intro r sp hr hep hspans
    refine absurd ?_ hno
    cases hvm : X86Jit.step s.vm (.publish i entry) with
    | some vm => exact hlift hvm
    | none =>
      simp only [X86Jit.step, Vm.publish, hr, upgradeRegion, hep, ne_eq,
        not_true_eq_false, if_false] at hvm
      cases hvm
  | _ => trivial

theorem leavesRight_iff (hfit : SpansFit s.vm) (h : Known s) (hright : s.Right) (a : Act n) :
    s.LeavesRight a ↔ TiersAtHome s.vm a := by
  constructor
  · intro hleaves
    by_contra hnot
    obtain ⟨s', hs'⟩ := enabled_of_not_tiersAtHome hnot
    exact hnot (((follows_step hfit h hs').right hright).mp (hleaves s' hs'))
  · intro hhome s' hs'
    exact ((follows_step hfit h hs').right hright).mpr hhome

theorem step_vm (s : Traced n) (a : Act n) : (s.step a).map vm = X86Jit.step s.vm a := by
  rw [step, Option.map_map]
  exact Option.map_id'

/-- In every run, every unit keeps the ranges it was lifted from exactly when every tier-up that
passes its epoch check records its block where it was fetched. -/
theorem ranges_right_iff (mem : Memory) (acts : List (Act n)) :
    AllSteps step LeavesRight (Traced.boot mem) acts ↔
      AllSteps X86Jit.step TiersAtHome (Vm.boot mem) acts := by
  have hplain : AllSteps step (fun s => TiersAtHome s.vm) (Traced.boot mem) acts ↔
      AllSteps X86Jit.step TiersAtHome (Vm.boot mem) acts :=
    allSteps_map vm step_vm
  rw [← hplain]
  apply allSteps_congr_of fun s => SpansFit s.vm ∧ Known s ∧ s.Right
  · rintro s a s' ⟨hfit, hknown, -⟩ hleaves hs'
    refine ⟨?_, (follows_step hfit hknown hs').known, hleaves s' hs'⟩
    apply spansFit_step hfit (a := a)
    rw [← step_vm, hs', Option.map_some]
  · rintro s a ⟨hfit, hknown, hright⟩
    exact leavesRight_iff hfit hknown hright a
  · exact ⟨SpansFit.boot mem, Known.boot mem, fun e he => absurd he not_mem_nil⟩

end Traced

theorem segmentSpan_le : 0x4000 ≤ maxTrackedSpan := by decide

theorem segmentRegions_le : ∀ r ∈ [Region.mk 0x1000 0x20 .ram], r.stop ≤ 0x4000 := by decide

def segmentMemory : Memory :=
  { Memory.fresh 0x4000 0 segmentSpan_le with
    regions := [⟨0x1000, 0x20, .ram⟩]
    regions_le := segmentRegions_le }

/-- The block at `0100:0010` is lifted, inserted, run again and tiered up. -/
def tierUpInSegment : List (Act 1) :=
  [.lookup ⟨0, Nat.one_pos⟩ .real16 0x10 0x100, .lift ⟨0, Nat.one_pos⟩ ⟨0x1010, 0x10⟩ 1,
    .insert ⟨0, Nat.one_pos⟩ none false, .lookup ⟨0, Nat.one_pos⟩ .real16 0x10 0x100,
    .upgrade ⟨0, Nat.one_pos⟩ none]

theorem tier_up_forgets_segment :
    ∃ s : Traced 1, run Traced.step (Traced.boot segmentMemory) tierUpInSegment = some s ∧
      ∃ e ∈ s.vm.cache.entries, e.key = ⟨0x1010, .real16⟩ ∧
        s.origins.unit e.key = [⟨0x1010, [0], cons_ne_nil _ _⟩] ∧
        e.spans = [⟨0x10, [0], cons_ne_nil _ _⟩] ∧ ¬s.Right := by
  refine ⟨_, rfl, _, mem_cons_self, rfl, rfl, rfl, ?_⟩
  intro hright
  have hmem : 0x1010 ∈ coverage [⟨0x1010, [0], cons_ne_nil _ _⟩] :=
    mem_coverage_singleton.mpr (by decide)
  have heq := hright _ mem_cons_self
  have hout : 0x1010 ∈ coverage [⟨0x10, [0], cons_ne_nil _ _⟩] := heq ▸ hmem
  exact absurd (mem_coverage_singleton.mp hout) (by decide)

end X86Jit
