import X86Jit.Core.TierUp
import X86Jit.Jit.Inline

/-! The trap window that compiled code has built in. The test compares only the first byte of an
access with it. -/
namespace X86Jit
open X86Jit.Lib Function List Memory TranslationCache

namespace Memory

def Traps (m : Memory) (addr size : ℕ) : Prop :=
  ∃ r ∈ m.regions, r.kind = .trap ∧ max addr r.start < min (addr + size) r.stop

instance (m : Memory) (addr size : ℕ) : Decidable (m.Traps addr size) :=
  inferInstanceAs (Decidable (∃ r ∈ _, _))

def widenSpan (s : ℕ × ℕ) (r : Region) : ℕ × ℕ :=
  if r.kind = .trap then (min s.1 r.start, max s.2 (min r.stop (2 ^ 64 - 1))) else s

def trapWindow (m : Memory) : Jit.MmioWindow :=
  let s := m.regions.foldl widenSpan (2 ^ 64 - 1, 0)
  if s.1 < s.2 then some (BitVec.ofNat 64 s.1, BitVec.ofNat 64 s.2) else none

end Memory

variable {m m' : Memory} {w : Jit.MmioWindow}

def Covers (w : Jit.MmioWindow) (m : Memory) : Prop :=
  ∀ r ∈ m.regions, r.kind = .trap → r.start < r.stop →
    ∃ lo hi, w = some (lo, hi) ∧ lo.toNat ≤ r.start ∧ r.stop ≤ hi.toNat

theorem Covers.mono (h : Covers w m)
    (hsub : ∀ r ∈ m'.regions, r.kind = .trap → r ∈ m.regions) : Covers w m' := by
  intro r hr hkind
  exact h r (hsub r hr hkind) hkind

theorem widenSpan_foldl (l : List Region) (s : ℕ × ℕ) :
    (l.foldl widenSpan s).1 ≤ s.1 ∧ s.2 ≤ (l.foldl widenSpan s).2 ∧
      ∀ r ∈ l, r.kind = .trap → (l.foldl widenSpan s).1 ≤ r.start ∧
        min r.stop (2 ^ 64 - 1) ≤ (l.foldl widenSpan s).2 := by
  induction l generalizing s with
  | nil => exact ⟨le_rfl, le_rfl, fun r hr => absurd hr not_mem_nil⟩
  | cons x l ih =>
    obtain ⟨hlo, hhi, hall⟩ := ih (widenSpan s x)
    have hone : (widenSpan s x).1 ≤ s.1 ∧ s.2 ≤ (widenSpan s x).2 ∧
        (x.kind = .trap → (widenSpan s x).1 ≤ x.start ∧
          min x.stop (2 ^ 64 - 1) ≤ (widenSpan s x).2) := by
      unfold widenSpan
      split
      · exact ⟨min_le_left _ _, le_max_left _ _, fun _ => ⟨min_le_right _ _, le_max_right _ _⟩⟩
      case isFalse hkind => exact ⟨le_rfl, le_rfl, fun h => absurd h hkind⟩
    refine ⟨hlo.trans hone.1, hone.2.1.trans hhi, ?_⟩
    intro r hr hkind
    rcases mem_cons.mp hr with rfl | hr
    · obtain ⟨hstart, hstop⟩ := hone.2.2 hkind
      exact ⟨hlo.trans hstart, hstop.trans hhi⟩
    · exact hall r hr hkind

theorem widenSpan_foldl_le (l : List Region) (s : ℕ × ℕ) (h : s.2 ≤ 2 ^ 64 - 1) :
    (l.foldl widenSpan s).2 ≤ 2 ^ 64 - 1 := by
  induction l generalizing s with
  | nil => exact h
  | cons x l ih =>
    apply ih
    unfold widenSpan
    split
    · exact max_le h (min_le_right _ _)
    · exact h

theorem trapWindow_covers (m : Memory) : Covers m.trapWindow m := by
  intro r hr hkind hne
  obtain ⟨hlo, -, hall⟩ := widenSpan_foldl m.regions (2 ^ 64 - 1, 0)
  obtain ⟨hstart, hstop⟩ := hall r hr hkind
  have hmax := widenSpan_foldl_le m.regions (2 ^ 64 - 1, 0) (Nat.zero_le _)
  have hspan : r.stop ≤ maxTrackedSpan := (m.regions_le r hr).trans m.span_le
  unfold trapWindow
  generalize m.regions.foldl widenSpan (2 ^ 64 - 1, 0) = s at *
  have hend : min r.stop (2 ^ 64 - 1) = r.stop := by
    unfold maxTrackedSpan codePageSize at hspan
    omega
  rw [hend] at hstop
  have hlt : s.1 < s.2 := by omega
  refine ⟨_, _, if_pos hlt, ?_, ?_⟩
  · rw [BitVec.toNat_ofNat, Nat.mod_eq_of_lt (by omega)]
    exact hstart
  · rw [BitVec.toNat_ofNat, Nat.mod_eq_of_lt (by omega)]
    exact hstop

/-- The window each compiled unit has built in, and the one each background compile was submitted
with. -/
structure Baked (n : ℕ) where
  vm : Vm n
  unit : BlockKey → Jit.MmioWindow
  requests : List Jit.MmioWindow

namespace Baked
variable {n : ℕ}

def boot (mem : Memory) : Baked n := ⟨Vm.boot mem, fun _ => none, []⟩

def compiledBy (s : Baked n) (v : Fin n) : BlockKey → Jit.MmioWindow :=
  match s.vm.vcpus v with
  | .resolving fa mode none _ => update s.unit ⟨fa.pa, mode⟩ s.vm.mem.trapWindow
  | .resolving fa mode (some (_, epoch)) _ =>
    if epoch = s.vm.cache.epoch then update s.unit ⟨fa.pa, mode⟩ s.vm.mem.trapWindow
    else s.unit
  | .idle => s.unit

def publishedAt (s : Baked n) (i : ℕ) : BlockKey → Jit.MmioWindow :=
  match s.vm.requests[i]?, s.requests[i]? with
  | some r, some w => if r.epoch = s.vm.cache.epoch then update s.unit r.key w else s.unit
  | _, _ => s.unit

/-- A window is read when code is compiled, or when its compile is submitted. -/
def step (s : Baked n) (a : Act n) : Option (Baked n) :=
  (X86Jit.step s.vm a).map fun vm =>
    match a with
    | .insert v _ _ | .upgrade v _ => ⟨vm, s.compiledBy v, s.requests⟩
    | .submit _ _ => ⟨vm, s.unit, s.requests ++ [s.vm.mem.trapWindow]⟩
    | .publish i _ => ⟨vm, s.publishedAt i, s.requests.eraseIdx i⟩
    | _ => ⟨vm, s.unit, s.requests⟩

/-- The units there are, and those that may still be published, have the trap regions in their
windows. A compile that may be published is for a unit that is still cached. -/
structure Inv (s : Baked n) : Prop where
  entry : ∀ e ∈ s.vm.cache.entries, e.spans ≠ [] ∧
    ∀ c, e.block = .compiled c → Covers (s.unit e.key) s.vm.mem
  paired : s.requests.length = s.vm.requests.length
  request : ∀ (i : ℕ) r w, s.vm.requests[i]? = some r → s.requests[i]? = some w →
    r.spans ≠ [] ∧ r.epoch ≤ s.vm.cache.epoch ∧ (r.epoch = s.vm.cache.epoch →
      Covers w s.vm.mem ∧ ∃ e ∈ s.vm.cache.entries, e.key = r.key)
  phase : ∀ v fa mode ir epoch lifted, s.vm.vcpus v = .resolving fa mode (some (ir, epoch)) lifted →
    epoch ≤ s.vm.cache.epoch ∧
      (epoch = s.vm.cache.epoch → ∃ e ∈ s.vm.cache.entries, e.key = ⟨fa.pa, mode⟩)

theorem Inv.boot (mem : Memory) : Inv (Baked.boot mem : Baked n) where
  entry e he := absurd he not_mem_nil
  paired := rfl
  request i r w hr := by
    cases hr
  phase v fa mode ir epoch lifted h := by
    cases h

variable {mem : Memory} {v : Fin n} {s : Baked n} {vm : Vm n}

theorem Inv.invalidated (h : Inv s) {drop : Entry → Prop} {clear : ℕ → Prop}
    (hmem : ∀ r ∈ mem.regions, r.kind = .trap → r ∈ s.vm.mem.regions)
    (hinv : Vm.Invalidated drop clear { s.vm with mem } vm) :
    Inv ⟨vm, s.unit, s.requests⟩ := by
  have hcover {w : Jit.MmioWindow} (hw : Covers w s.vm.mem) : Covers w vm.mem := by
    apply hw.mono
    intro r hr
    rw [hinv.contents.regions] at hr
    exact hmem r hr
  have hle : s.vm.cache.epoch ≤ vm.cache.epoch := hinv.epoch_le
  -- if the epoch has not moved, every unit is still there
  have hkept {epoch : ℕ} {key : BlockKey} (hepoch : epoch ≤ s.vm.cache.epoch)
      (hnow : epoch = vm.cache.epoch)
      (hold : epoch = s.vm.cache.epoch → ∃ e ∈ s.vm.cache.entries, e.key = key) :
      epoch = s.vm.cache.epoch ∧ ∃ e ∈ vm.cache.entries, e.key = key := by
    have hsame : epoch = s.vm.cache.epoch := by omega
    obtain ⟨e, he, hkey⟩ := hold hsame
    refine ⟨hsame, e, (hinv.entries e).mpr ⟨he, ?_⟩, hkey⟩
    rcases hinv.epoch with ⟨-, hno⟩ | hlt
    · exact hno e he
    · change s.vm.cache.epoch < vm.cache.epoch at hlt
      omega
  refine ⟨?_, ?_, ?_, ?_⟩
  · intro e he
    obtain ⟨hspans, hcov⟩ := h.entry e ((hinv.entries e).mp he).1
    exact ⟨hspans, fun c hc => hcover (hcov c hc)⟩
  · rw [hinv.requests]
    exact h.paired
  · intro i r w hr hw
    rw [hinv.requests] at hr
    obtain ⟨hspans, hepoch, hlive⟩ := h.request i r w hr hw
    refine ⟨hspans, hepoch.trans hle, ?_⟩
    intro hnow
    obtain ⟨hsame, hentry⟩ := hkept hepoch hnow fun hep => (hlive hep).2
    exact ⟨hcover (hlive hsame).1, hentry⟩
  · intro v fa mode ir epoch lifted hph
    rw [hinv.vcpus] at hph
    obtain ⟨hepoch, hlive⟩ := h.phase v fa mode ir epoch lifted hph
    exact ⟨hepoch.trans hle, fun hnow => (hkept hepoch hnow hlive).2⟩

theorem Inv.withMem (h : Inv s) (hmem : ∀ r ∈ mem.regions, r.kind = .trap → r ∈ s.vm.mem.regions) :
    Inv ⟨{ s.vm with mem }, s.unit, s.requests⟩ := by
  have hsame : Vm.Invalidated (fun _ => False) (fun _ => False) { s.vm with mem }
      { s.vm with mem } :=
    ⟨.refl _, by simp, by simp, .inl ⟨rfl, fun _ _ => not_false⟩, rfl, rfl⟩
  exact h.invalidated hmem hsame

theorem Inv.trapped (h : Inv s) (hfit : SpansFit s.vm) {clear : ℕ → Prop}
    (hidle : ∀ v, s.vm.vcpus v = .idle)
    (hinv : Vm.Invalidated (fun e => e.overlaps 0 (2 ^ 64 - 1) = true) clear { s.vm with mem } vm) :
    Inv ⟨vm, s.unit, s.requests⟩ := by
  have hall : ∀ e ∈ s.vm.cache.entries, e.overlaps 0 (2 ^ 64 - 1) = true := by
    intro e he
    obtain ⟨sp, hsp⟩ := exists_mem_of_ne_nil _ (h.entry e he).1
    exact hfit.overlaps_all he hsp
  have hnone : ∀ e, e ∉ vm.cache.entries := by
    intro e he
    obtain ⟨hold, hkept⟩ := (hinv.entries e).mp he
    exact hkept (hall e hold)
  refine ⟨fun e he => absurd he (hnone e), ?_, ?_, ?_⟩
  · rw [hinv.requests]
    exact h.paired
  · intro i r w hr hw
    rw [hinv.requests] at hr
    obtain ⟨hspans, hepoch, hlive⟩ := h.request i r w hr hw
    refine ⟨hspans, hepoch.trans hinv.epoch_le, ?_⟩
    intro hnow
    change r.epoch = vm.cache.epoch at hnow
    -- a live compile has its unit in the cache, and that unit was dropped
    exfalso
    rcases hinv.epoch with ⟨heq, hno⟩ | hlt
    · obtain ⟨-, e, he, -⟩ := hlive (hnow.trans heq)
      exact hno e he (hall e he)
    · change s.vm.cache.epoch < vm.cache.epoch at hlt
      omega
  · intro v fa mode ir epoch lifted hph
    rw [hinv.vcpus] at hph
    rw [show ({ s.vm with mem } : Vm n).vcpus v = .idle from hidle v] at hph
    cases hph

theorem Inv.setPhase (h : Inv s) {ph : Phase}
    (hph : ∀ fa mode ir epoch lifted, ph = .resolving fa mode (some (ir, epoch)) lifted →
      epoch ≤ s.vm.cache.epoch ∧
        (epoch = s.vm.cache.epoch → ∃ e ∈ s.vm.cache.entries, e.key = ⟨fa.pa, mode⟩)) :
    Inv ⟨s.vm.setPhase v ph, s.unit, s.requests⟩ := by
  refine ⟨h.entry, h.paired, h.request, ?_⟩
  intro w fa mode ir epoch lifted hw
  rcases Vm.setPhase_vcpus_eq hw with ⟨-, heq⟩ | hold
  · exact hph fa mode ir epoch lifted heq.symm
  · exact h.phase w fa mode ir epoch lifted hold

theorem Inv.setIdle (h : Inv s) (v : Fin n) : Inv ⟨s.vm.setPhase v .idle, s.unit, s.requests⟩ := by
  apply h.setPhase
  intro fa mode ir epoch lifted hph
  cases hph

theorem Inv.put (h : Inv s) {e : Entry} {pending : Finset BlockKey}
    (hregions : mem.regions = s.vm.mem.regions) (hspans : e.spans ≠ [])
    (hw : Covers w s.vm.mem) :
    Inv ⟨{ s.vm with mem, cache := { s.vm.cache.put e with tierPending := pending } },
      update s.unit e.key w, s.requests⟩ := by
  have hcover {w : Jit.MmioWindow} (hw : Covers w s.vm.mem) : Covers w mem := by
    apply hw.mono
    intro r hr _
    rwa [hregions] at hr
  have hkey {key : BlockKey} (hold : ∃ e' ∈ s.vm.cache.entries, e'.key = key) :
      ∃ e' ∈ (s.vm.cache.put e).entries, e'.key = key := by
    obtain ⟨e', he', hk⟩ := hold
    by_cases hsame : e'.key = e.key
    · exact ⟨e, mem_put.mpr (.inl rfl), hsame.symm.trans hk⟩
    · exact ⟨e', mem_put.mpr (.inr ⟨he', hsame⟩), hk⟩
  refine ⟨?_, h.paired, ?_, ?_⟩
  · intro e' he'
    rcases mem_put.mp he' with rfl | ⟨hold, hne⟩
    · refine ⟨hspans, fun c _ => ?_⟩
      change Covers (update s.unit e'.key w e'.key) mem
      rw [update_self]
      exact hcover hw
    · obtain ⟨hs, hcov⟩ := h.entry e' hold
      refine ⟨hs, fun c hc => ?_⟩
      change Covers (update s.unit e.key w e'.key) mem
      rw [update_of_ne hne]
      exact hcover (hcov c hc)
  · intro i r w' hr hw'
    obtain ⟨hs, hepoch, hlive⟩ := h.request i r w' hr hw'
    exact ⟨hs, hepoch, fun hnow => ⟨hcover (hlive hnow).1, hkey (hlive hnow).2⟩⟩
  · intro v fa mode ir epoch lifted hph
    obtain ⟨hepoch, hlive⟩ := h.phase v fa mode ir epoch lifted hph
    exact ⟨hepoch, fun hnow => hkey (hlive hnow)⟩

theorem Inv.eraseRequest (h : Inv s) (i : ℕ) {pending : Finset BlockKey} :
    Inv ⟨{ s.vm with
        cache := { s.vm.cache with tierPending := pending }
        requests := s.vm.requests.eraseIdx i }, s.unit, s.requests.eraseIdx i⟩ := by
  refine ⟨h.entry, ?_, ?_, h.phase⟩
  · rw [length_eraseIdx, length_eraseIdx, h.paired]
  · intro j r w hr hw
    rw [List.getElem?_eraseIdx] at hr hw
    split at hr
    case isTrue hlt =>
      rw [if_pos hlt] at hw
      exact h.request j r w hr hw
    case isFalse hlt =>
      rw [if_neg hlt] at hw
      exact h.request (j + 1) r w hr hw

theorem Inv.insert (h : Inv s) {entry : Option ℕ} {region : Bool}
    (hvm : s.vm.insert v entry region = some vm) : Inv ⟨vm, s.compiledBy v, s.requests⟩ := by
  obtain ⟨fa, mode, l, ls, block, spans, hph, rfl, hspans⟩ := Vm.insert_spec hvm
  have hne : spans ≠ [] := by
    rcases hspans with ⟨rfl, -⟩ | ⟨rfl, -⟩
    · exact cons_ne_nil _ _
    · exact cons_ne_nil _ _
  have hunit : s.compiledBy v =
      update s.unit ⟨fa.pa, mode⟩ s.vm.mem.trapWindow := by
    unfold compiledBy
    rw [hph]
  have hput : Inv ⟨s.vm.record ⟨fa.pa, mode⟩ block spans,
      update s.unit ⟨fa.pa, mode⟩ s.vm.mem.trapWindow, s.requests⟩ :=
    h.put (markSpans_spec s.vm.mem spans).1.regions hne
      (trapWindow_covers s.vm.mem)
  rw [hunit]
  exact hput.setIdle v

theorem Inv.upgrade (h : Inv s) {entry : Option ℕ}
    (hvm : s.vm.upgrade v entry = some vm) : Inv ⟨vm, s.compiledBy v, s.requests⟩ := by
  obtain ⟨fa, mode, ir, epoch, lifted, hph, hcase⟩ := Vm.upgrade_spec hvm
  unfold compiledBy
  rw [hph]
  dsimp only
  rcases hcase with ⟨hlost, rfl⟩ | ⟨hwon, rfl⟩
  · rw [if_neg hlost]
    exact h.setIdle v
  · rw [if_pos hwon]
    have hput : Inv ⟨{ s.vm with
          cache := s.vm.cache.put ⟨⟨fa.pa, mode⟩, Vm.materialize ir entry, [ir.span]⟩ },
        update s.unit ⟨fa.pa, mode⟩ s.vm.mem.trapWindow, s.requests⟩ :=
      h.put rfl
        (cons_ne_nil _ _) (trapWindow_covers s.vm.mem)
    exact hput.setIdle v

theorem Inv.submit (h : Inv s) {region : Bool} (hvm : s.vm.submit v region = some vm) :
    Inv ⟨vm, s.unit, s.requests ++ [s.vm.mem.trapWindow]⟩ := by
  obtain ⟨fa, mode, ir, epoch, lifted, spans, pending, hph, rfl, hspans⟩ := Vm.submit_spec hvm
  have hne : spans ≠ [] := by
    rcases hspans with ⟨-, rfl⟩ | ⟨⟨-, hlen⟩, rfl⟩
    · exact cons_ne_nil _ _
    · intro hnil
      rw [map_eq_nil_iff.mp hnil] at hlen
      exact absurd hlen (by decide)
  obtain ⟨hepoch, hlive⟩ := h.phase v fa mode ir epoch lifted hph
  have hqueued : Inv ⟨{ s.vm with
        cache := { s.vm.cache with tierPending := pending }
        requests := s.vm.requests ++ [⟨⟨fa.pa, mode⟩, spans, epoch⟩] },
      s.unit, s.requests ++ [s.vm.mem.trapWindow]⟩ := by
    refine ⟨h.entry, ?_, ?_, h.phase⟩
    · rw [length_append, length_append, h.paired]
      rfl
    · intro i r w hr hw
      rw [List.getElem?_append] at hr hw
      by_cases hlt : i < s.vm.requests.length
      · rw [if_pos hlt] at hr
        rw [if_pos (h.paired ▸ hlt)] at hw
        exact h.request i r w hr hw
      · rw [if_neg hlt] at hr
        rw [if_neg (h.paired ▸ hlt)] at hw
        cases mem_singleton.mp (mem_of_getElem? hr)
        cases mem_singleton.mp (mem_of_getElem? hw)
        exact ⟨hne, hepoch, fun hnow => ⟨trapWindow_covers s.vm.mem, hlive hnow⟩⟩
  exact hqueued.setIdle v

theorem Inv.publish (h : Inv s) {i entry : ℕ} (hvm : s.vm.publish i entry = some vm) :
    Inv ⟨vm, s.publishedAt i, s.requests.eraseIdx i⟩ := by
  obtain ⟨r, hr, pending, hcase⟩ := Vm.publish_spec hvm
  obtain ⟨w, hw⟩ : ∃ w, s.requests[i]? = some w := by
    have hlt : i < s.requests.length := by
      rw [h.paired]
      exact (List.getElem?_eq_some_iff.mp hr).1
    exact ⟨_, List.getElem?_eq_getElem hlt⟩
  obtain ⟨hne, -, hlive⟩ := h.request i r w hr hw
  unfold publishedAt
  rw [hr, hw]
  dsimp only
  rcases hcase with ⟨hlost, rfl⟩ | ⟨hwon, rfl⟩
  · rw [if_neg hlost]
    exact h.eraseRequest i
  · rw [if_pos hwon]
    have hput : Inv ⟨{ s.vm with
          mem := markSpans s.vm.mem r.spans
          cache := { s.vm.cache.put ⟨r.key, .compiled entry, r.spans⟩ with
            tierPending := pending } },
        update s.unit r.key w, s.requests⟩ :=
      h.put (markSpans_spec s.vm.mem r.spans).1.regions
        hne (hlive hwon).1
    exact hput.eraseRequest i

theorem inv_step {s' : Baked n} {a : Act n} (hfit : SpansFit s.vm) (h : Inv s)
    (hstep : s.step a = some s') : Inv s' := by
  obtain ⟨vm, hvm, rfl⟩ := Option.map_eq_some_iff.mp hstep
  cases a with
  | map addr size kind =>
    obtain ⟨hidle, hmap⟩ := step_map hvm
    obtain ⟨mem, hmem, hcase⟩ := Vm.map_spec hmap
    rcases hcase with ⟨hkind, rfl⟩ | hinv
    · apply h.withMem
      intro r hr htrap
      rw [(Memory.map_inv hmem).2.2.2.1] at hr
      rcases mem_append.mp hr with hold | hnew
      · exact hold
      · rw [mem_singleton.mp hnew] at htrap
        exact absurd htrap hkind
    · exact h.trapped hfit hidle hinv
  | unmap addr size =>
    obtain ⟨mem, hmem, hinv⟩ := Vm.unmap_spec (step_unmap hvm).2
    refine h.invalidated ?_ hinv
    intro r hr _
    rw [(unmap_inv hmem).1] at hr
    exact mem_of_mem_eraseP hr
  | writeBytes addr bs =>
    obtain ⟨mem, hw, rfl⟩ := step_writeBytes hvm
    apply h.withMem
    intro r hr _
    rwa [hw.regions] at hr
  | store v addr val size =>
    obtain ⟨-, mem, hw, rfl⟩ := step_store hvm
    apply h.withMem
    intro r hr _
    rwa [hw.regions] at hr
  | lookup v mode rip cs =>
    obtain ⟨-, rfl⟩ := step_lookup hvm
    rcases Vm.lookup_spec s.vm v mode rip cs with heq | ⟨hit, heq, hhit⟩
    · dsimp only
      rw [heq]
      exact h
    · dsimp only
      rw [heq]
      apply h.setPhase
      intro fa mode' ir epoch lifted hph
      cases hph
      rcases hhit with ⟨hnone, -⟩ | ⟨ir', e, hsome, -, hget⟩
      · cases hnone
      · cases hsome
        obtain ⟨he, hkey⟩ := get_eq_some_iff.mp hget
        exact ⟨le_rfl, fun _ => ⟨e, he, hkey⟩⟩
  | lift v target len =>
    obtain ⟨fa, mode, hit, lifted, ir, hph, -, -, rfl⟩ := Vm.lift_spec hvm
    apply h.setPhase
    intro fa' mode' ir' epoch lifted' heq
    cases heq
    exact h.phase v fa mode ir' epoch lifted hph
  | insert v entry region => exact h.insert hvm
  | upgrade v entry => exact h.upgrade hvm
  | submit v region => exact h.submit hvm
  | done v =>
    cases hvm
    exact h.setIdle v
  | publish i entry => exact h.publish hvm
  | handleSmc v =>
    obtain ⟨-, rfl⟩ := step_handleSmc hvm
    refine h.invalidated ?_ (Vm.handleSmc_spec s.vm)
    intro r hr _
    exact hr

/-- In every run, every compiled unit that is cached has the trap regions in its window. -/
theorem unit_covers {acts : List (Act n)}
    (hrun : run step (boot mem) acts = some s) {e : Entry} (he : e ∈ s.vm.cache.entries) {c : ℕ}
    (hc : e.block = .compiled c) : Covers (s.unit e.key) s.vm.mem := by
  have hstep (s : Baked n) (a : Act n) (s' : Baked n) (h : SpansFit s.vm ∧ Inv s)
      (hs : s.step a = some s') : SpansFit s'.vm ∧ Inv s' := by
    refine ⟨?_, inv_step h.1 h.2 hs⟩
    obtain ⟨vm, hvm, rfl⟩ := Option.map_eq_some_iff.mp hs
    have hfit := spansFit_step h.1 hvm
    cases a <;> exact hfit
  have h := run_invariant (fun s => SpansFit s.vm ∧ Inv s) hstep
    ⟨SpansFit.boot mem, Inv.boot mem⟩ hrun
  exact (h.2.entry e he).2 c hc

end Baked

namespace Jit

def Ret.leaves : Ret → Bool
  | .mmioDefer | .unmapped _ => true
  | .next | .exception _ => false

/-- A compiled unit of a machine that has come, in a block of its code, to an inlined access. -/
structure Stopped (n : ℕ) (C : Type) where
  machine : Baked n
  reachable : ∃ mem acts, run Baked.step (Baked.boot mem) acts = some machine
  entry : Entry
  cached : entry ∈ machine.vm.cache.entries
  compiled : ∃ c, entry.block = .compiled c
  /-- The block as it is entered, over guest memory as it is mapped. -/
  guestStart : U64
  params : ℕ
  start : Frame C
  map : machine.vm.mem.SameMap start.mem.mem
  first : start.entry.guestAddr = guestStart
  before : List (InlineOp C)
  op : InlineOp C
  addr : Val
  size : ℕ
  access : op.access = some (addr, size)
  frame : Frame C
  reached : Code.run start ((Translator.enter (machine.unit entry.key)
    (BitVec.ofNat 64 machine.vm.mem.guestBase) params guestStart).ops before).1 = .ok frame

namespace Stopped
variable {n : ℕ} {C : Type} (x : Stopped n C)

def translator : Translator :=
  ((Translator.enter (x.machine.unit x.entry.key)
    (BitVec.ofNat 64 x.machine.vm.mem.guestBase) x.params x.guestStart).ops x.before).2

def address : U64 := operand x.translator x.frame x.addr

def result : Except (Ret × Frame C) (Frame C) := Code.run x.frame (x.translator.op x.op).1

def Overlaps : Prop := x.machine.vm.mem.Traps x.address.toNat x.size

/-- Nothing of the buffer is touched, and the block returns on the instruction with the state there
was before it. -/
def Deferred : Prop :=
  ∃ ret fr, x.result = .error (ret, fr) ∧ ret.leaves = true ∧ fr.touched = x.frame.touched ∧
    fr.rip = x.frame.entry.guestAddr ∧ fr.cpu = x.frame.entry.cpu ∧ fr.mem = x.frame.entry.mem

/-- The window of the code starts at or below the access, if that is in bounds at all. -/
def WindowBelow : Prop :=
  x.machine.vm.mem.Backs x.address x.size →
    ∃ lo hi, x.machine.unit x.entry.key = some (lo, hi) ∧ lo ≤ x.address

def Uncommitted : Prop :=
  x.frame.cpu = x.frame.entry.cpu ∧ x.frame.mem = x.frame.entry.mem

theorem agrees : Agrees x.machine.vm.mem x.translator x.frame := by
  apply ops_agrees _ x.reached
  exact ⟨x.map, rfl, Nat.succ_pos _, fun _ => Nat.succ_pos _,
    fun e he => absurd he not_mem_nil, x.first⟩

theorem check_of_overlaps (h : x.Overlaps) :
    (∃ ret, checkedAddr (x.machine.unit x.entry.key) x.machine.vm.mem x.address x.size = some ret ∧
      ret.leaves = true) ↔ x.WindowBelow := by
  obtain ⟨mem, acts, hrun⟩ := x.reachable
  obtain ⟨c, hc⟩ := x.compiled
  obtain ⟨r, hr, hkind, hbyte⟩ := h
  have hcovers := Baked.unit_covers hrun x.cached hc
  obtain ⟨lo, hi, hw, hlo, hhi⟩ := hcovers r hr hkind (by omega)
  have hbelow : x.address < hi := by
    rw [BitVec.lt_def]
    omega
  unfold WindowBelow checkedAddr
  rw [hw]
  by_cases hb : x.machine.vm.mem.Backs x.address x.size
  · rw [if_pos hb]
    constructor
    · rintro ⟨ret, hret, -⟩ -
      refine ⟨lo, hi, rfl, ?_⟩
      by_contra hlow
      dsimp only at hret
      rw [if_neg fun h => hlow h.1] at hret
      cases hret
    · intro h
      obtain ⟨lo', hi', heq, hle⟩ := h hb
      cases heq
      dsimp only
      rw [if_pos ⟨hle, hbelow⟩]
      exact ⟨_, rfl, rfl⟩
  · rw [if_neg hb]
    exact iff_of_true ⟨_, rfl, rfl⟩ fun h => absurd h hb

/-- An inlined access to a trap region is deferred exactly if it does not start below the
window of the code and its instruction has committed nothing yet. -/
theorem deferred_iff :
    (x.Overlaps → x.Deferred) ↔ (x.Overlaps → x.WindowBelow ∧ x.Uncommitted) := by
  apply imp_congr_right
  intro hover
  have hagrees := x.agrees
  have hmmio : x.translator.mmio = x.machine.unit x.entry.key := ops_mmio _ _
  have hspec := op_access_spec hagrees x.access
  rw [hmmio] at hspec
  rw [← x.check_of_overlaps hover]
  rcases hspec with ⟨ret, fr, hcheck, hext, hrun⟩ | ⟨hcheck, fr, hrun, -, -⟩
  · -- the block is left, with the state the access found
    have hcpu : fr.cpu = x.frame.cpu := by rw [hext.frame]
    have hmem : fr.mem = x.frame.mem := by rw [hext.frame]
    have htouched : fr.touched = x.frame.touched := by rw [hext.frame]
    constructor
    · rintro ⟨ret', fr', hresult, hleaves, -, -, hcpu', hmem'⟩
      have heq : Except.error (ret, { fr with rip := x.translator.curAddr }) =
          Except.error (ret', fr') := hrun.symm.trans hresult
      cases heq
      exact ⟨⟨ret, hcheck, hleaves⟩, hcpu.symm.trans hcpu', hmem.symm.trans hmem'⟩
    · rintro ⟨⟨ret', hret', hleaves⟩, hcpu', hmem'⟩
      have heq : ret = ret' := Option.some.inj (hcheck.symm.trans hret')
      subst heq
      exact ⟨ret, _, hrun, hleaves, htouched, hagrees.entry.symm, hcpu.trans hcpu',
        hmem.trans hmem'⟩
  · -- the access goes through
    constructor
    · rintro ⟨ret', fr', hresult, -⟩
      have heq : Except.ok fr = Except.error (ret', fr') := hrun.symm.trans hresult
      cases heq
    · rintro ⟨⟨ret', hret', -⟩, -⟩
      have heq : none = some ret' := hcheck.symm.trans hret'
      cases heq

end Stopped

/-- RAM right below a device, and a block at `0x100` compiled after all is mapped. -/
def besideDevice : List (Act 1) :=
  [.map 0x100 0x10 .ram, .map 0xff0 0x10 .ram, .map 0x1000 0x10 .trap,
    .lookup solo .long64 0x100 0, .lift solo (.flat 0x100) 8, .insert solo (some 0) false]

def entered (m : Memory) : Frame Unit :=
  ⟨(), 0x100, JitMem.enter m, fun _ => 0, [], ⟨0x100, (), JitMem.enter m⟩⟩

/-- Eight bytes from four below the device: the load goes through and reads all eight from the
buffer. -/
theorem load_below_window : ∃ x : Stopped 1 Unit, x.Overlaps ∧ x.Uncommitted ∧ ¬x.Deferred ∧
    ∃ fr, x.result = .ok fr ∧ fr.touched = [(0xffc, 8)] := by
  obtain ⟨s, hs, e, he, hc, hw, hregions, hspan, hbase⟩ : ∃ s,
      run Baked.step (Baked.boot (Memory.fresh 0x2000 0 (by decide))) besideDevice = some s ∧
      ∃ e ∈ s.vm.cache.entries, (∃ c, e.block = .compiled c) ∧
        s.unit e.key = some (0x1000, 0x1010) ∧
        s.vm.mem.regions = [⟨0x100, 0x10, .ram⟩, ⟨0xff0, 0x10, .ram⟩, ⟨0x1000, 0x10, .trap⟩] ∧
        s.vm.mem.span = 0x2000 ∧ s.vm.mem.guestBase = 0 :=
    ⟨_, rfl, _, mem_cons_self, ⟨_, rfl⟩, by decide, rfl, rfl, rfl⟩
  let x : Stopped 1 Unit :=
    ⟨s, ⟨_, _, hs⟩, e, he, hc, 0x100, 1, entered s.vm.mem, ⟨rfl, rfl, rfl⟩, rfl, [.insnStart 0x100],
      .load 0 (.imm 0xffc) 8, .imm 0xffc, 8, rfl, _, rfl⟩
  have hcheck : checkedAddr x.translator.mmio s.vm.mem (operand x.translator x.frame x.addr) x.size =
      none := by
    have hb : s.vm.mem.Backs 0xffc 8 := by
      unfold Memory.Backs
      rw [hspan, hbase]
      decide
    change checkedAddr (s.unit e.key) s.vm.mem 0xffc 8 = none
    unfold checkedAddr
    rw [if_pos hb, hw]
    decide
  rcases op_access_spec x.agrees x.access with ⟨ret, fr, hsome, -, -⟩ | ⟨-, fr, hrun, -, htouched⟩
  · rw [hcheck] at hsome
    cases hsome
  · refine ⟨x, ?_, ⟨rfl, rfl⟩, ?_, fr, hrun, htouched⟩
    · change s.vm.mem.Traps 0xffc 8
      unfold Memory.Traps
      rw [hregions]
      decide
    · rintro ⟨ret, fr', herr, -⟩
      have heq : Except.ok fr = Except.error (ret, fr') := hrun.symm.trans herr
      cases heq

end Jit

end X86Jit
