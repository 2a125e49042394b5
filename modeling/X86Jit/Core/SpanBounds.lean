import X86Jit.Core.VmSteps

/-! Every range the machine holds lies inside the guest span, whatever the run. So each of its
pages has a bit in the table and no address arithmetic on it wraps. -/
namespace X86Jit
open X86Jit.Lib List

variable {n : ℕ} {vm vm' : Vm n}

structure ResolveFits (span : ℕ) (fa : FetchAddr) (hit : Option (IrBlock × ℕ))
    (lifted : List Lifted) : Prop where
  ip_le : fa.ip ≤ fa.pa
  hit_le : ∀ ir epoch, hit = some (ir, epoch) → ir.span.stop ≤ span
  lifted_le : ∀ l ∈ lifted, l.span.stop ≤ span ∧ l.ir.guestStart ≤ l.pa
  first : ∀ l ∈ lifted.head?, l.pa = fa.pa

structure SpansFit (vm : Vm n) : Prop where
  entry : ∀ e ∈ vm.cache.entries, ∀ sp ∈ e.spans, sp.stop ≤ vm.mem.span
  block : ∀ e ∈ vm.cache.entries, ∀ ir, e.block = .interpreted ir → ir.span.stop ≤ vm.mem.span
  phase : ∀ v fa mode hit lifted, vm.vcpus v = .resolving fa mode hit lifted →
    ResolveFits vm.mem.span fa hit lifted
  request : ∀ r ∈ vm.requests, ∀ sp ∈ r.spans, sp.stop ≤ vm.mem.span

namespace SpansFit

theorem boot (mem : Memory) : SpansFit (Vm.boot mem : Vm n) where
  entry e he := absurd he not_mem_nil
  block e he := absurd he not_mem_nil
  phase v fa mode hit lifted h := by
    exact absurd h (by simp [Vm.boot])
  request r hr := absurd hr not_mem_nil

theorem mono (h : SpansFit vm) (hspan : vm'.mem.span = vm.mem.span)
    (hentries : ∀ e ∈ vm'.cache.entries, e ∈ vm.cache.entries) (hvcpus : vm'.vcpus = vm.vcpus)
    (hrequests : ∀ r ∈ vm'.requests, r ∈ vm.requests) : SpansFit vm' := by
  refine ⟨?_, ?_, ?_, ?_⟩
  · intro e he
    rw [hspan]
    exact h.entry e (hentries e he)
  · intro e he
    rw [hspan]
    exact h.block e (hentries e he)
  · intro v
    rw [hspan, hvcpus]
    exact h.phase v
  · intro r hr
    rw [hspan]
    exact h.request r (hrequests r hr)

theorem invalidated {drop : Entry → Prop} {clear : ℕ → Prop} (h : SpansFit vm)
    (hinv : Vm.Invalidated drop clear vm vm') : SpansFit vm' := by
  refine h.mono hinv.contents.span ?_ hinv.vcpus ?_
  · intro e he
    exact ((hinv.entries e).mp he).1
  · intro r hr
    rwa [hinv.requests] at hr

theorem withMem (h : SpansFit vm) {mem : Memory} (hspan : mem.span = vm.mem.span) :
    SpansFit { vm with mem } :=
  h.mono hspan (fun _ he => he) rfl fun _ hr => hr

theorem setPhase (h : SpansFit vm) (v : Fin n) {ph : Phase}
    (hph : ∀ fa mode hit lifted, ph = .resolving fa mode hit lifted →
      ResolveFits vm.mem.span fa hit lifted) : SpansFit (vm.setPhase v ph) := by
  refine ⟨h.entry, h.block, ?_, h.request⟩
  intro w fa mode hit lifted hw
  rcases Vm.setPhase_vcpus_eq hw with ⟨-, heq⟩ | hold
  · exact hph fa mode hit lifted heq.symm
  · exact h.phase w fa mode hit lifted hold

theorem setIdle (h : SpansFit vm) (v : Fin n) : SpansFit (vm.setPhase v .idle) :=
  h.setPhase v fun _ _ _ _ heq => nomatch heq

theorem put (h : SpansFit vm) {mem : Memory} {e : Entry} {pending : Finset BlockKey}
    {requests : List TierUpRequest} (hspan : mem.span = vm.mem.span)
    (hspans : ∀ sp ∈ e.spans, sp.stop ≤ vm.mem.span)
    (hblock : ∀ ir, e.block = .interpreted ir → ir.span.stop ≤ vm.mem.span)
    (hrequests : ∀ r ∈ requests, r ∈ vm.requests) :
    SpansFit ({ vm with
      mem
      cache := { vm.cache.put e with tierPending := pending }
      requests } : Vm n) := by
  refine ⟨?_, ?_, ?_, ?_⟩
  · intro e' he'
    rw [hspan]
    rcases TranslationCache.mem_put.mp he' with rfl | ⟨hold, -⟩
    · exact hspans
    · exact h.entry e' hold
  · intro e' he'
    rw [hspan]
    rcases TranslationCache.mem_put.mp he' with rfl | ⟨hold, -⟩
    · exact hblock
    · exact h.block e' hold
  · intro v
    rw [hspan]
    exact h.phase v
  · intro r hr
    rw [hspan]
    exact h.request r (hrequests r hr)

end SpansFit

theorem FetchAddr.forMode_ip_le (mode : CpuMode) (rip cs : ℕ) :
    (FetchAddr.forMode mode rip cs).ip ≤ (FetchAddr.forMode mode rip cs).pa := by
  cases mode <;> simp [FetchAddr.forMode, FetchAddr.flat, FetchAddr.real16]

theorem Lifted.span_ir_le {l : Lifted} (h : l.ir.guestStart ≤ l.pa) :
    l.ir.span.stop ≤ l.span.stop := by
  change l.ir.guestStart + l.ir.code.length ≤ l.pa + l.ir.code.length
  omega

theorem ResolveFits.concat {m : Memory} {fa target : FetchAddr} {hit : Option (IrBlock × ℕ)}
    {lifted : List Lifted} (h : ResolveFits m.span fa hit lifted) {len : ℕ} {ir : IrBlock}
    (hguard : (lifted = [] ∧ (target = fa ∨ target = .flat fa.pa)) ∨
      (lifted ≠ [] ∧ target.ip = target.pa)) (hlift : liftBlock m target len = some ir) :
    ResolveFits m.span fa hit (lifted ++ [⟨target.pa, ir⟩]) := by
  obtain ⟨hstart, hstop, -, -⟩ := liftBlock_spec hlift
  have hle : target.ip ≤ target.pa := by
    rcases hguard with ⟨-, rfl | rfl⟩ | ⟨-, heq⟩
    · exact h.ip_le
    · exact le_refl _
    · exact heq.le
  refine ⟨h.ip_le, h.hit_le, ?_, ?_⟩
  · intro l hl
    rcases mem_append.mp hl with hl | hl
    · exact h.lifted_le l hl
    · rw [mem_singleton.mp hl]
      exact ⟨hstop, hstart.trans_le hle⟩
  · intro l hl
    rcases hguard with ⟨rfl, htarget⟩ | ⟨hne, -⟩
    · -- the first block lifted is the one at the fetch address
      have hpa : l.pa = target.pa := by
        simp only [nil_append, head?_cons, Option.mem_some_iff] at hl
        rw [← hl]
      rcases htarget with rfl | rfl
      · exact hpa
      · exact hpa
    · rw [head?_append_of_ne_nil _ hne] at hl
      exact h.first l hl

theorem ResolveFits.insert_le {span : ℕ} {fa : FetchAddr} {l : Lifted} {ls : List Lifted}
    (h : ResolveFits span fa none (l :: ls)) {entry : Option ℕ} {block : CachedBlock}
    {spans : List Span}
    (hspans : (spans = [l.ir.spanAt fa.pa] ∧ block = Vm.materialize l.ir entry) ∨
      (spans = (l :: ls).map Lifted.span ∧ ∃ e, block = .compiled e)) :
    (∀ sp ∈ spans, sp.stop ≤ span) ∧ ∀ ir, block = .interpreted ir → ir.span.stop ≤ span := by
  have hl := h.lifted_le l mem_cons_self
  have hpa : l.pa = fa.pa := h.first l rfl
  rcases hspans with ⟨rfl, rfl⟩ | ⟨rfl, e, rfl⟩
  · constructor
    · intro sp hsp
      rw [mem_singleton.mp hsp, ← hpa]
      exact hl.1
    · intro ir hir
      cases entry with
      | none =>
        cases hir
        exact (Lifted.span_ir_le hl.2).trans hl.1
      | some entry => cases hir
  · constructor
    · intro sp hsp
      obtain ⟨l', hl', rfl⟩ := mem_map.mp hsp
      exact (h.lifted_le l' hl').1
    · intro ir hir
      cases hir

theorem Vm.materialize_interpreted {ir ir' : IrBlock} {entry : Option ℕ}
    (h : Vm.materialize ir entry = .interpreted ir') : ir' = ir := by
  cases entry with
  | none =>
    cases h
    rfl
  | some entry => cases h

theorem spansFit_step {a : Act n} (h : SpansFit vm) (hstep : step vm a = some vm') :
    SpansFit vm' := by
  cases a with
  | map addr size kind =>
    obtain ⟨mem, hmem, hvm⟩ := Vm.map_spec (step_map hstep).2
    have hremap := h.withMem (Memory.map_spec hmem).1.span
    rcases hvm with ⟨-, rfl⟩ | hinv
    · exact hremap
    · exact hremap.invalidated hinv
  | unmap addr size =>
    obtain ⟨mem, hmem, hinv⟩ := Vm.unmap_spec (step_unmap hstep).2
    exact (h.withMem (Memory.unmap_spec hmem).1.span).invalidated hinv
  | writeBytes addr bs =>
    obtain ⟨mem, hw, rfl⟩ := step_writeBytes hstep
    exact h.withMem hw.span
  | store v addr val size =>
    obtain ⟨-, mem, hw, rfl⟩ := step_store hstep
    exact h.withMem hw.span
  | lookup v mode rip cs =>
    obtain ⟨-, rfl⟩ := step_lookup hstep
    rcases Vm.lookup_spec vm v mode rip cs with heq | ⟨hit, heq, hhit⟩
    · rw [heq]
      exact h
    · rw [heq]
      refine h.setPhase v ?_
      intro fa mode' hit' lifted hph
      cases hph
      refine ⟨FetchAddr.forMode_ip_le mode rip cs, ?_, by simp, by simp⟩
      intro ir epoch hsome
      rcases hhit with ⟨rfl, -⟩ | ⟨ir', e, rfl, hblock, hget⟩
      · cases hsome
      · cases hsome
        exact h.block e (TranslationCache.get_eq_some_iff.mp hget).1 ir hblock
  | lift v target len =>
    obtain ⟨fa, mode, hit, lifted, ir, hph, hguard, hlift, rfl⟩ := Vm.lift_spec hstep
    refine h.setPhase v ?_
    intro fa' mode' hit' lifted' heq
    cases heq
    exact (h.phase v fa mode hit lifted hph).concat hguard hlift
  | insert v entry region =>
    obtain ⟨fa, mode, l, ls, block, spans, hph, rfl, hspans⟩ := Vm.insert_spec hstep
    obtain ⟨hle, hblock⟩ := (h.phase v fa mode none (l :: ls) hph).insert_le hspans
    exact (h.put (markSpans_spec vm.mem spans).1.span hle hblock fun _ hr => hr).setIdle v
  | upgrade v entry =>
    obtain ⟨fa, mode, ir, epoch, lifted, hph, ⟨-, rfl⟩ | ⟨-, rfl⟩⟩ := Vm.upgrade_spec hstep
    · exact h.setIdle v
    · have hir := (h.phase v fa mode _ lifted hph).hit_le ir epoch rfl
      refine (h.put rfl ?_ ?_ fun _ hr => hr).setIdle v
      · intro sp hsp
        rw [mem_singleton.mp hsp]
        exact hir
      · intro ir' hir'
        rw [Vm.materialize_interpreted hir']
        exact hir
  | submit v region =>
    obtain ⟨fa, mode, ir, epoch, lifted, spans, pending, hph, rfl, hspans⟩ :=
      Vm.submit_spec hstep
    have hfits := h.phase v fa mode _ lifted hph
    suffices hrequests : ∀ r ∈ vm.requests ++ [⟨⟨fa.pa, mode⟩, spans, epoch⟩],
        ∀ sp ∈ r.spans, sp.stop ≤ vm.mem.span by
      have hqueued : SpansFit ({ vm with
          cache := { vm.cache with tierPending := pending }
          requests := vm.requests ++ [⟨⟨fa.pa, mode⟩, spans, epoch⟩] } : Vm n) :=
        ⟨h.entry, h.block, h.phase, hrequests⟩
      exact hqueued.setIdle v
    intro r hr
    rcases mem_append.mp hr with hr | hr
    · exact h.request r hr
    · rw [mem_singleton.mp hr]
      intro sp hsp
      rcases hspans with ⟨-, rfl⟩ | ⟨-, rfl⟩
      · rw [mem_singleton.mp hsp]
        exact hfits.hit_le ir epoch rfl
      · obtain ⟨l, hl, rfl⟩ := mem_map.mp hsp
        exact (hfits.lifted_le l hl).1
  | done v =>
    cases hstep
    exact h.setIdle v
  | publish i entry =>
    obtain ⟨r, hr, pending, ⟨-, rfl⟩ | ⟨-, rfl⟩⟩ := Vm.publish_spec hstep
    · exact h.mono rfl (fun _ he => he) rfl fun _ => mem_of_mem_eraseIdx
    · refine h.put (markSpans_spec vm.mem r.spans).1.span
        (h.request r (mem_of_getElem? hr)) ?_ fun _ => mem_of_mem_eraseIdx
      intro ir hir
      cases hir
  | handleSmc v =>
    obtain ⟨-, rfl⟩ := step_handleSmc hstep
    have hdrained : SpansFit { vm with mem := vm.mem.takeDirtyCode.2 } := h.withMem rfl
    exact hdrained.invalidated (Vm.handleSmc_spec vm)

end X86Jit
