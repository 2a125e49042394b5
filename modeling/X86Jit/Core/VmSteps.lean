import X86Jit.Core.Vm

/-! What each action of the machine does, one statement an action. The invariants of later
modules are derived from these and never unfold the actions. -/
namespace X86Jit
open X86Jit.Lib TranslationCache Memory

def Span.Reads (sp : Span) (m : Memory) : Prop :=
  ∀ i (hi : i < sp.code.length), m.bytes (sp.start + i) = sp.code[i]

def Span.Mapped (sp : Span) (m : Memory) : Prop :=
  ∀ b, sp.start ≤ b → b < sp.stop → m.Mapped b

variable {m : Memory}

theorem liftBlock_spec {fa : FetchAddr} {len : ℕ} {ir : IrBlock}
    (h : liftBlock m fa len = some ir) :
    ir.guestStart = fa.ip ∧ (ir.spanAt fa.pa).stop ≤ m.span ∧ (ir.spanAt fa.pa).Reads m ∧
      (ir.spanAt fa.pa).Mapped m := by
  unfold liftBlock at h
  cases hcode : m.codeSlice fa.pa blockFetchWindow with
  | none => simp [hcode] at h
  | some code =>
    simp only [hcode] at h
    split at h
    · rename_i hlen
      cases h
      obtain ⟨⟨r, hr, hlo, hhi⟩, hread⟩ := codeSlice_spec hcode
      have hstop : fa.pa + (code.take len).length ≤ r.stop := by
        rw [List.length_take]
        omega
      refine ⟨rfl, hstop.trans (m.regions_le r hr), ?_, ?_⟩
      · intro i hi
        have hi' : i < code.length := by
          rw [IrBlock.spanAt, List.length_take] at hi
          omega
        simp only [IrBlock.spanAt, List.getElem_take]
        exact (hread i hi').symm
      · intro b hb hb'
        exact ⟨r, hr, hlo.trans hb, lt_of_lt_of_le hb' hstop⟩
    · cases h

theorem markSpans_spec (m : Memory) (spans : List Span) :
    m.SameContents (markSpans m spans) ∧ ∀ p, p ∈ (markSpans m spans).codePage ↔
      p ∈ m.codePage ∨ ∃ sp ∈ spans, p ∈ codePageRange sp.start sp.len ∧ p < m.tablePages := by
  induction spans generalizing m with
  | nil =>
    refine ⟨Memory.SameContents.refl m, ?_⟩
    intro p
    simp [markSpans]
  | cons sp spans ih =>
    have hone := markCode_sameContents m sp.start sp.len
    obtain ⟨hsame, hmem⟩ := ih (m.markCode sp.start sp.len)
    refine ⟨hone.trans hsame, ?_⟩
    intro p
    change p ∈ (markSpans (m.markCode sp.start sp.len) spans).codePage ↔ _
    rw [hmem, mem_codePage_markCode, hone.tablePages]
    simp only [List.mem_cons, exists_eq_or_imp, or_assoc]

theorem Span.lt_tablePages {sp : Span} {page : ℕ} (h : sp.stop ≤ m.span)
    (ht : sp.touches page = true) : page < m.tablePages := by
  rw [Span.touches_iff] at ht
  unfold tablePages
  unfold codePageSize at ht
  omega

theorem Span.stop_le {sp : Span} (h : sp.stop ≤ m.span) : sp.stop < 2 ^ 64 := by
  have := m.span_le
  unfold maxTrackedSpan codePageSize at this
  omega

theorem mem_codePage_markSpans {spans : List Span} (h : ∀ sp ∈ spans, sp.stop ≤ m.span) {page : ℕ} :
    page ∈ (markSpans m spans).codePage ↔
      page ∈ m.codePage ∨ ∃ sp ∈ spans, sp.touches page = true := by
  rw [(markSpans_spec m spans).2]
  constructor
  · rintro (hp | ⟨sp, hsp, hp, -⟩)
    · exact Or.inl hp
    · exact Or.inr ⟨sp, hsp, (Span.mem_codePageRange_iff (Span.stop_le (h sp hsp)).le).mp hp⟩
  · rintro (hp | ⟨sp, hsp, hp⟩)
    · exact Or.inl hp
    · exact Or.inr ⟨sp, hsp, (Span.mem_codePageRange_iff (Span.stop_le (h sp hsp)).le).mpr hp,
        Span.lt_tablePages (h sp hsp) hp⟩

namespace Vm
variable {n : ℕ} {vm vm' : Vm n} {v : Fin n}

theorem setPhase_vcpus_self (ph : Phase) : (vm.setPhase v ph).vcpus v = ph := by
  simp [setPhase]

theorem setPhase_vcpus_of_ne {w : Fin n} (h : w ≠ v) (ph : Phase) :
    (vm.setPhase v ph).vcpus w = vm.vcpus w := by
  simp [setPhase, h]

theorem setPhase_vcpus_eq {w : Fin n} {ph ph' : Phase} (h : (vm.setPhase v ph).vcpus w = ph') :
    (w = v ∧ ph' = ph) ∨ vm.vcpus w = ph' := by
  by_cases hw : w = v
  · subst hw
    rw [setPhase_vcpus_self] at h
    exact Or.inl ⟨rfl, h.symm⟩
  · rw [setPhase_vcpus_of_ne hw] at h
    exact Or.inr h

/-- The units in `drop` go, the tags in `clear` go, and the epoch moves unless no unit went. -/
structure Invalidated (drop : Entry → Prop) (clear : ℕ → Prop) (vm vm' : Vm n) : Prop where
  contents : vm.mem.SameContents vm'.mem
  codePage : ∀ p, p ∈ vm'.mem.codePage ↔ p ∈ vm.mem.codePage ∧ ¬clear p
  entries : ∀ e, e ∈ vm'.cache.entries ↔ e ∈ vm.cache.entries ∧ ¬drop e
  epoch : (vm'.cache.epoch = vm.cache.epoch ∧ ∀ e ∈ vm.cache.entries, ¬drop e) ∨
    vm.cache.epoch < vm'.cache.epoch
  vcpus : vm'.vcpus = vm.vcpus
  requests : vm'.requests = vm.requests

theorem Invalidated.epoch_le {drop : Entry → Prop} {clear : ℕ → Prop}
    (h : Invalidated drop clear vm vm') : vm.cache.epoch ≤ vm'.cache.epoch := by
  rcases h.epoch with ⟨heq, -⟩ | hlt
  · exact heq.ge
  · exact hlt.le

theorem Invalidated.trans {drop drop' : Entry → Prop} {clear clear' : ℕ → Prop} {vm'' : Vm n}
    (h : Invalidated drop clear vm vm') (h' : Invalidated drop' clear' vm' vm'') :
    Invalidated (fun e => drop e ∨ drop' e) (fun p => clear p ∨ clear' p) vm vm'' where
  contents := h.contents.trans h'.contents
  codePage p := by
    rw [h'.codePage, h.codePage, not_or, and_assoc]
  entries e := by
    rw [h'.entries, h.entries, not_or, and_assoc]
  epoch := by
    have hle := h'.epoch_le
    rcases h.epoch with ⟨heq, hno⟩ | hlt
    · rcases h'.epoch with ⟨heq', hno'⟩ | hlt'
      · left
        refine ⟨heq'.trans heq, ?_⟩
        intro e he
        exact not_or.mpr ⟨hno e he, hno' e ((h.entries e).mpr ⟨he, hno e he⟩)⟩
      · right
        omega
    · right
      omega
  vcpus := h'.vcpus.trans h.vcpus
  requests := h'.requests.trans h.requests

theorem invalidate_spec {lo hi : ℕ} {clear : Memory → Memory} {cleared : ℕ → Prop}
    (hsame : vm.mem.SameContents (clear vm.mem))
    (hcode : ∀ p, p ∈ (clear vm.mem).codePage ↔ p ∈ vm.mem.codePage ∧ ¬cleared p) :
    Invalidated (fun e => e.overlaps lo hi = true) cleared vm (vm.invalidate lo hi clear) where
  contents := hsame
  codePage := hcode
  entries e := by
    rw [Bool.not_eq_true]
    exact mem_invalidateOverlapping
  epoch := by
    rcases vm.cache.epoch_invalidateOverlapping lo hi with ⟨heq, hno⟩ | hlt
    · left
      refine ⟨heq, ?_⟩
      intro e he
      rw [hno e he]
      exact Bool.false_ne_true
    · right
      change vm.cache.epoch < (vm.cache.invalidateOverlapping lo hi).epoch
      omega
  vcpus := rfl
  requests := rfl

theorem smcPage_spec (vm : Vm n) (page : ℕ) :
    Invalidated (fun e => e.touches page = true) (fun p => p = page) vm (vm.smcPage page) := by
  refine invalidate_spec ⟨rfl, rfl, rfl, rfl⟩ ?_
  intro p
  rw [clearCodePage, Finset.mem_erase]
  exact and_comm

theorem smcPages_spec (vm : Vm n) (pages : List ℕ) :
    Invalidated (fun e => ∃ p ∈ pages, e.touches p = true) (fun p => p ∈ pages) vm
      (pages.foldl smcPage vm) := by
  induction pages generalizing vm with
  | nil =>
    refine ⟨Memory.SameContents.refl _, ?_, ?_, ?_, rfl, rfl⟩ <;> simp
  | cons page pages ih =>
    have h := (smcPage_spec vm page).trans (ih (vm.smcPage page))
    simpa only [List.mem_cons, exists_eq_or_imp, List.foldl_cons] using h

theorem handleSmc_spec (vm : Vm n) :
    Invalidated (fun e => ∃ p ∈ vm.mem.dirty, e.touches p = true) (fun p => p ∈ vm.mem.dirty)
      { vm with mem := vm.mem.takeDirtyCode.2 } vm.handleSmc :=
  smcPages_spec _ _

theorem map_spec {addr size : ℕ} {kind : RegionKind} (h : vm.map addr size kind = .ok vm') :
    ∃ mem, vm.mem.map addr size kind = .ok mem ∧ (kind ≠ .trap ∧ vm' = { vm with mem } ∨
      Invalidated (fun e => e.overlaps 0 (2 ^ 64 - 1) = true) (fun _ => True) { vm with mem }
        vm') := by
  unfold map at h
  cases hmem : vm.mem.map addr size kind with
  | error e => simp [hmem] at h
  | ok mem =>
    refine ⟨mem, rfl, ?_⟩
    simp only [hmem] at h
    split at h
    · right
      cases h
      refine invalidate_spec ⟨rfl, rfl, rfl, rfl⟩ ?_
      intro p
      simp [clearAllCodePages]
    next hkind => exact Or.inl ⟨hkind, (Except.ok.inj h).symm⟩

/-- A region that was mapped ends inside the span, so the saturating end is the end. -/
theorem unmap_spec {addr size : ℕ} (h : vm.unmap addr size = .ok vm') :
    ∃ mem, vm.mem.unmap addr size = .ok mem ∧
      Invalidated (fun e => e.overlaps addr (addr + size) = true)
        (fun p => p ∈ unmapPages addr (addr + size)) { vm with mem } vm' := by
  unfold unmap at h
  cases hmem : vm.mem.unmap addr size with
  | error e => simp [hmem] at h
  | ok mem =>
    have hend := (Memory.unmap_spec hmem).2.1
    have hspan := vm.mem.span_le
    have hhi : min (addr + size) (2 ^ 64 - 1) = addr + size := by
      unfold maxTrackedSpan codePageSize at hspan
      omega
    simp only [hmem, hhi] at h
    refine ⟨mem, rfl, ?_⟩
    rw [← Except.ok.inj h]
    refine invalidate_spec (clearPages_sameContents _ _) ?_
    intro p
    exact mem_codePage_clearPages

theorem lookup_spec (vm : Vm n) (v : Fin n) (mode : CpuMode) (rip cs : ℕ) :
    vm.lookup v mode rip cs = vm ∨ ∃ hit, vm.lookup v mode rip cs =
          vm.setPhase v (.resolving (.forMode mode rip cs) mode hit []) ∧
        ((hit = none ∧ vm.cache.get ⟨(FetchAddr.forMode mode rip cs).pa, mode⟩ = none) ∨
          ∃ ir e, hit = some (ir, vm.cache.epoch) ∧ e.block = .interpreted ir ∧
            vm.cache.get ⟨(FetchAddr.forMode mode rip cs).pa, mode⟩ = some e) := by
  unfold lookup
  dsimp only
  cases hget : vm.cache.get ⟨(FetchAddr.forMode mode rip cs).pa, mode⟩ with
  | none => exact Or.inr ⟨none, rfl, Or.inl ⟨rfl, rfl⟩⟩
  | some e =>
    cases hb : e.block with
    | interpreted ir =>
      exact Or.inr ⟨_, by simp only [hb], Or.inr ⟨ir, e, rfl, hb, rfl⟩⟩
    | compiled entry =>
      left
      simp only [hb]

theorem lift_spec {target : FetchAddr} {len : ℕ} (h : vm.lift v target len = some vm') :
    ∃ fa mode hit lifted ir, vm.vcpus v = .resolving fa mode hit lifted ∧
      ((lifted = [] ∧ (target = fa ∨ target = .flat fa.pa)) ∨
        (lifted ≠ [] ∧ target.ip = target.pa)) ∧ liftBlock vm.mem target len = some ir ∧
      vm' = vm.setPhase v (.resolving fa mode hit (lifted ++ [⟨target.pa, ir⟩])) := by
  unfold lift at h
  cases hph : vm.vcpus v with
  | idle => simp [hph] at h
  | resolving fa mode hit lifted =>
    simp only [hph] at h
    split at h
    · obtain ⟨ir, hir, rfl⟩ := Option.map_eq_some_iff.mp h
      exact ⟨fa, mode, hit, lifted, ir, rfl, ‹_›, hir, rfl⟩
    · cases h

variable {entry : Option ℕ} {region : Bool}

theorem insert_cases (h : vm.insert v entry region = some vm') :
    ∃ fa mode l ls, vm.vcpus v = .resolving fa mode none (l :: ls) ∧
      ((region = false ∧ vm' = (vm.record ⟨fa.pa, mode⟩ (materialize l.ir entry)
          [l.ir.spanAt fa.pa]).setPhase v .idle) ∨
        (region = true ∧ ∃ e, vm' = (vm.record ⟨fa.pa, mode⟩ (.compiled e)
          ((l :: ls).map Lifted.span)).setPhase v .idle)) := by
  unfold insert at h
  split at h
  · rename_i fa mode l ls hph
    refine ⟨fa, mode, l, ls, hph, ?_⟩
    cases region with
    | false => exact .inl ⟨rfl, (Option.some.inj h).symm⟩
    | true =>
      cases entry with
      | none => cases h
      | some entry =>
        rw [if_pos rfl, Option.ite_none_right_eq_some] at h
        obtain ⟨⟨-, hflat⟩, heq⟩ := h
        have hspans : ((l :: ls).map fun l' => l'.ir.span) = (l :: ls).map Lifted.span := by
          apply List.map_congr_left
          intro l' hl'
          rw [IrBlock.span, Lifted.span, Span.mk.injEq]
          exact ⟨hflat l' hl', rfl⟩
        rw [hspans] at heq
        exact .inr ⟨rfl, entry, (Option.some.inj heq).symm⟩
  · cases h

theorem insert_spec (h : vm.insert v entry region = some vm') :
    ∃ fa mode l ls block spans, vm.vcpus v = .resolving fa mode none (l :: ls) ∧
      vm' = (vm.record ⟨fa.pa, mode⟩ block spans).setPhase v .idle ∧
      ((spans = [l.ir.spanAt fa.pa] ∧ block = materialize l.ir entry) ∨
        (spans = (l :: ls).map Lifted.span ∧ ∃ e, block = .compiled e)) := by
  obtain ⟨fa, mode, l, ls, hph, ⟨-, rfl⟩ | ⟨-, e, rfl⟩⟩ := insert_cases h
  · exact ⟨fa, mode, l, ls, _, _, hph, rfl, .inl ⟨rfl, rfl⟩⟩
  · exact ⟨fa, mode, l, ls, _, _, hph, rfl, .inr ⟨rfl, e, rfl⟩⟩

theorem upgrade_spec (h : vm.upgrade v entry = some vm') :
    ∃ fa mode ir epoch lifted, vm.vcpus v = .resolving fa mode (some (ir, epoch)) lifted ∧
      ((epoch ≠ vm.cache.epoch ∧ vm' = vm.setPhase v .idle) ∨
        (epoch = vm.cache.epoch ∧
          vm' = ({ vm with
            cache := vm.cache.put ⟨⟨fa.pa, mode⟩, materialize ir entry, [ir.span]⟩ } :
              Vm n).setPhase v .idle)) := by
  unfold upgrade at h
  split at h
  · rename_i fa mode ir epoch lifted hph
    refine ⟨fa, mode, ir, epoch, lifted, hph, ?_⟩
    by_cases hep : epoch = vm.cache.epoch
    · right
      simp only [TranslationCache.upgrade, hep, ne_eq] at h
      exact ⟨hep, (Option.some.inj h).symm⟩
    · left
      simp only [TranslationCache.upgrade, Ne.symm hep, ne_eq] at h
      exact ⟨hep, (Option.some.inj h).symm⟩
  · cases h

theorem submit_spec (h : vm.submit v region = some vm') : ∃ fa mode ir epoch lifted spans pending,
      vm.vcpus v = .resolving fa mode (some (ir, epoch)) lifted ∧
      vm' = ({ vm with
        cache := { vm.cache with tierPending := pending }
        requests := vm.requests ++ [⟨⟨fa.pa, mode⟩, spans, epoch⟩] } : Vm n).setPhase v .idle ∧
      ((region = false ∧ spans = [ir.span]) ∨
        ((region = true ∧ 1 < lifted.length) ∧ spans = lifted.map Lifted.span)) := by
  unfold submit at h
  split at h
  · rename_i fa mode ir epoch lifted hph
    split at h
    · cases h
    · rename_i hguard
      obtain ⟨cache, hcache, rfl⟩ := Option.map_eq_some_iff.mp h
      unfold tryBeginTierUp at hcache
      split at hcache
      · cases hcache
      · cases hcache
        refine ⟨fa, mode, ir, epoch, lifted, _, _, hph, rfl, ?_⟩
        cases region with
        | false => exact Or.inl ⟨rfl, rfl⟩
        | true =>
          right
          rw [not_and, not_not] at hguard
          refine ⟨⟨rfl, (hguard rfl).1⟩, ?_⟩
          apply List.map_congr_left
          intro l hl
          rw [IrBlock.span, Lifted.span, Span.mk.injEq]
          exact ⟨(hguard rfl).2 l hl, rfl⟩
  · cases h

theorem publish_spec {i entry : ℕ} (h : vm.publish i entry = some vm') :
    ∃ r, vm.requests[i]? = some r ∧ ∃ pending,
      (r.epoch ≠ vm.cache.epoch ∧
        vm' = { vm with
          cache := { vm.cache with tierPending := pending }
          requests := vm.requests.eraseIdx i }) ∨
      (r.epoch = vm.cache.epoch ∧
        vm' = { vm with
          mem := markSpans vm.mem r.spans
          cache := { vm.cache.put ⟨r.key, .compiled entry, r.spans⟩ with tierPending := pending }
          requests := vm.requests.eraseIdx i }) := by
  unfold publish at h
  cases hr : vm.requests[i]? with
  | none => simp [hr] at h
  | some r =>
    refine ⟨r, rfl, ?_⟩
    simp only [hr] at h
    by_cases hep : r.epoch = vm.cache.epoch
    · simp only [upgradeRegion, hep, ne_eq, not_true, if_false] at h
      exact ⟨_, Or.inr ⟨hep, (Option.some.inj h).symm⟩⟩
    · simp only [upgradeRegion, Ne.symm hep, ne_eq, not_false_eq_true,
        if_true] at h
      exact ⟨_, Or.inl ⟨hep, (Option.some.inj h).symm⟩⟩

end Vm

variable {n : ℕ} {vm vm' : Vm n} {v : Fin n} {addr size : ℕ}

theorem eq_ok_of_toOption {ε α : Type*} {x : Except ε α} {a : α} (h : x.toOption = some a) :
    x = .ok a := by
  cases x with
  | error e => cases h
  | ok b =>
    cases h
    rfl

theorem step_map {kind : RegionKind} (h : step vm (.map addr size kind) = some vm') :
    (∀ v, vm.vcpus v = .idle) ∧ vm.map addr size kind = .ok vm' := by
  simp only [step, Option.ite_none_right_eq_some] at h
  exact ⟨h.1, eq_ok_of_toOption h.2⟩

theorem step_unmap (h : step vm (.unmap addr size) = some vm') :
    (∀ v, vm.vcpus v = .idle) ∧ vm.unmap addr size = .ok vm' := by
  simp only [step, Option.ite_none_right_eq_some] at h
  exact ⟨h.1, eq_ok_of_toOption h.2⟩

theorem step_writeBytes {bs : List U8} (h : step vm (.writeBytes addr bs) = some vm') :
    ∃ mem, vm.mem.Wrote mem addr bs.length ∧ vm' = { vm with mem } := by
  obtain ⟨mem, hmem, rfl⟩ := Option.map_eq_some_iff.mp h
  exact ⟨mem, writeBytes_wrote (eq_ok_of_toOption hmem), rfl⟩

theorem step_store {val : U64} (h : step vm (.store v addr val size) = some vm') :
    vm.vcpus v = .idle ∧ ∃ mem, vm.mem.Wrote mem addr size ∧ vm' = { vm with mem } := by
  simp only [step, Option.ite_none_right_eq_some] at h
  obtain ⟨mem, hmem, rfl⟩ := Option.map_eq_some_iff.mp h.2
  exact ⟨h.1, mem, write_wrote (eq_ok_of_toOption hmem), rfl⟩

theorem step_lookup {mode : CpuMode} {rip cs : ℕ} (h : step vm (.lookup v mode rip cs) = some vm') :
    vm.vcpus v = .idle ∧ vm' = vm.lookup v mode rip cs := by
  simp only [step, Option.ite_none_right_eq_some, Option.some.injEq] at h
  exact ⟨h.1, h.2.symm⟩

theorem step_handleSmc (h : step vm (.handleSmc v) = some vm') :
    vm.vcpus v = .idle ∧ vm' = vm.handleSmc := by
  simp only [step, Option.ite_none_right_eq_some, Option.some.injEq] at h
  exact ⟨h.1, h.2.symm⟩

end X86Jit
