import X86Jit.Core.PageTags

/-! Coherence of the cache with guest memory. The weak place is a block a vcpu has lifted and not
inserted yet: its page need not be tagged, and an insertion does not compare epochs. -/
namespace X86Jit
open X86Jit.Lib List

variable {n : ℕ} {vm vm' : Vm n}

/-- Each byte of a range is as it was lifted, or its page is on the dirty list. -/
def Span.Noticed (sp : Span) (m : Memory) : Prop :=
  ∀ i (hi : i < sp.code.length),
    m.bytes (sp.start + i) = sp.code[i] ∨ (sp.start + i) / codePageSize ∈ m.dirty

namespace Span
variable {sp : Span} {m m' : Memory}

theorem Reads.noticed (h : sp.Reads m) : sp.Noticed m := by
  intro i hi
  exact Or.inl (h i hi)

theorem Noticed.reads (h : sp.Noticed m) (hdirty : ∀ page ∈ m.dirty, sp.touches page = false) :
    sp.Reads m := by
  intro i hi
  rcases h i hi with heq | hpage
  · exact heq
  · -- the page of byte `i` is touched, so it cannot be dirty
    have ht := sp.touches_of_mem (Nat.le_add_right sp.start i) (Nat.add_lt_add_left hi sp.start)
    rw [hdirty _ hpage] at ht
    cases ht

theorem Reads.congr (h : sp.Reads m) (hbytes : m'.bytes = m.bytes) : sp.Reads m' := by
  intro i hi
  rw [hbytes]
  exact h i hi

theorem Noticed.congr (h : sp.Noticed m) (hbytes : m'.bytes = m.bytes)
    (hdirty : m'.dirty = m.dirty) : sp.Noticed m' := by
  intro i hi
  rw [hbytes, hdirty]
  exact h i hi

theorem Noticed.wrote {addr len : ℕ} (h : sp.Noticed m) (hw : m.Wrote m' addr len)
    (htag : ∀ b, sp.start ≤ b → b < sp.stop → addr ≤ b → b < addr + len →
      b / codePageSize ∈ m.codePage) : sp.Noticed m' := by
  intro i hi
  by_cases hsame : m'.bytes (sp.start + i) = m.bytes (sp.start + i)
  · rw [hsame]
    exact (h i hi).imp_right (hw.dirty _)
  · right
    have hrange : addr ≤ sp.start + i ∧ sp.start + i < addr + len := by
      by_contra hout
      exact hsame (hw.frame _ hout)
    exact hw.noted _ hsame (htag _ (Nat.le_add_right _ _) (Nat.add_lt_add_left hi _)
      hrange.1 hrange.2)

end Span

def InFlight (vm : Vm n) (l : Lifted) : Prop := ∃ w, l ∈ (vm.vcpus w).lifted

/-- No dirty code page is pending and no vcpu is between lifting and inserting. -/
def Quiet (vm : Vm n) : Prop := vm.mem.dirty = [] ∧ ∀ l, ¬InFlight vm l

def CacheCurrent (vm : Vm n) : Prop :=
  ∀ e ∈ vm.cache.entries, ∀ sp ∈ e.spans, sp.Reads vm.mem

def WritesTagged (vm : Vm n) (addr len : ℕ) : Prop :=
  ∀ l, InFlight vm l → ∀ b, l.span.start ≤ b → b < l.span.stop → addr ≤ b → b < addr + len →
    vm.mem.isCodePage (b / codePageSize) = true

/-- No write onto an untagged byte of a block that is lifted and not inserted, and no drain while a
dirty page is one such a block touches. -/
def LiftsUndisturbed (vm : Vm n) : Act n → Prop
  | .store _ addr _ size => WritesTagged vm addr size
  | .writeBytes addr bs => WritesTagged vm addr bs.length
  | .handleSmc _ => ∀ l, InFlight vm l → ∀ page ∈ vm.mem.dirty, l.span.touches page = false
  | _ => True

def IsSmcAct : Act n → Prop
  | .writeBytes _ _ | .store _ _ _ _ | .lookup _ _ _ _ | .lift _ _ _ | .insert _ _ _
  | .done _ | .handleSmc _ => True
  | _ => False

variable {l : Lifted} {v : Fin n}

theorem inFlight_setPhase {ph : Phase}
    (h : InFlight (vm.setPhase v ph) l) : l ∈ ph.lifted ∨ InFlight vm l := by
  obtain ⟨w, hw⟩ := h
  by_cases heq : w = v
  · rw [heq, Vm.setPhase_vcpus_self] at hw
    exact Or.inl hw
  · rw [Vm.setPhase_vcpus_of_ne heq] at hw
    exact Or.inr ⟨w, hw⟩

theorem inFlight_setIdle (h : InFlight (vm.setPhase v .idle) l) : InFlight vm l :=
  (inFlight_setPhase h).resolve_left not_mem_nil

theorem inFlight_of_resolving {fa : FetchAddr} {mode : CpuMode}
    {hit : Option (IrBlock × ℕ)} {lifted : List Lifted}
    (hph : vm.vcpus v = .resolving fa mode hit lifted) (hl : l ∈ lifted) : InFlight vm l := by
  refine ⟨v, ?_⟩
  rwa [hph]

theorem not_inFlight_of_idle (h : ∀ w, vm.vcpus w = .idle) (l : Lifted) : ¬InFlight vm l := by
  intro ⟨w, hw⟩
  rw [h w] at hw
  exact absurd hw not_mem_nil

/-- Every unit, and every block in flight, is as memory is or on a dirty page. -/
structure Coherent (vm : Vm n) : Prop where
  fits : SpansFit vm
  tags : TagsCover vm
  entry : ∀ e ∈ vm.cache.entries, ∀ sp ∈ e.spans, sp.Noticed vm.mem
  lifted : ∀ l, InFlight vm l → l.span.Noticed vm.mem

theorem Coherent.boot (mem : Memory) : Coherent (Vm.boot mem : Vm n) where
  fits := SpansFit.boot mem
  tags := TagsCover.boot mem
  entry e he := absurd he not_mem_nil
  lifted l hl := by
    obtain ⟨w, hw⟩ := hl
    exact absurd hw not_mem_nil

theorem keepsTags_of_isSmcAct {a : Act n} (h : IsSmcAct a) : KeepsTags vm a := by
  cases a <;> trivial

theorem ResolveFits.insert_lifted {span : ℕ} {fa : FetchAddr} {ls : List Lifted}
    (h : ResolveFits span fa none (l :: ls)) {entry : Option ℕ} {block : CachedBlock}
    {spans : List Span}
    (hspans : (spans = [l.ir.spanAt fa.pa] ∧ block = Vm.materialize l.ir entry) ∨
      (spans = (l :: ls).map Lifted.span ∧ ∃ e, block = .compiled e)) :
    ∀ sp ∈ spans, ∃ l' ∈ l :: ls, sp = l'.span := by
  have hpa : l.pa = fa.pa := h.first l rfl
  intro sp hsp
  rcases hspans with ⟨rfl, -⟩ | ⟨rfl, -⟩
  · refine ⟨l, mem_cons_self, ?_⟩
    rw [mem_singleton.mp hsp, ← hpa]
    rfl
  · obtain ⟨l', hl', rfl⟩ := mem_map.mp hsp
    exact ⟨l', hl', rfl⟩

theorem Coherent.noticed_wrote (h : Coherent vm) {mem : Memory} {addr len : ℕ}
    (hw : vm.mem.Wrote mem addr len) (hok : WritesTagged vm addr len) :
    (∀ e ∈ vm.cache.entries, ∀ sp ∈ e.spans, sp.Noticed mem) ∧
      ∀ l, InFlight vm l → l.span.Noticed mem := by
  constructor
  · intro e he sp hsp
    refine (h.entry e he sp hsp).wrote hw ?_
    intro b hlo hhi _ _
    exact h.tags.of_entry he (Entry.touches_iff.mpr ⟨sp, hsp, sp.touches_of_mem hlo hhi⟩)
  · intro l hl
    refine (h.lifted l hl).wrote hw ?_
    intro b hlo hhi haddr hlen
    simpa [Memory.isCodePage] using hok l hl b hlo hhi haddr hlen

theorem coherent_step {a : Act n} (h : Coherent vm) (ha : IsSmcAct a)
    (hok : LiftsUndisturbed vm a) (hstep : step vm a = some vm') : Coherent vm' := by
  have hfits := spansFit_step h.fits hstep
  have htags := tagsCover_step h.fits h.tags (keepsTags_of_isSmcAct ha) hstep
  suffices hrest : (∀ e ∈ vm'.cache.entries, ∀ sp ∈ e.spans, sp.Noticed vm'.mem) ∧
      ∀ l, InFlight vm' l → l.span.Noticed vm'.mem from ⟨hfits, htags, hrest.1, hrest.2⟩
  cases a with
  | map addr size kind | unmap addr size | upgrade v entry | submit v region | publish i entry =>
    exact ha.elim
  | writeBytes addr bs =>
    obtain ⟨mem, hw, rfl⟩ := step_writeBytes hstep
    exact h.noticed_wrote hw hok
  | store v addr val size =>
    obtain ⟨-, mem, hw, rfl⟩ := step_store hstep
    exact h.noticed_wrote hw hok
  | lookup v mode rip cs =>
    obtain ⟨-, rfl⟩ := step_lookup hstep
    rcases Vm.lookup_spec vm v mode rip cs with heq | ⟨hit, heq, -⟩
    · rw [heq]
      exact ⟨h.entry, h.lifted⟩
    · rw [heq]
      refine ⟨h.entry, ?_⟩
      intro l hl
      rcases inFlight_setPhase hl with hnew | hold
      · -- nothing has been lifted yet
        exact absurd hnew not_mem_nil
      · exact h.lifted l hold
  | lift v target len =>
    obtain ⟨fa, mode, hit, lifted, ir, hph, -, hlift, rfl⟩ := Vm.lift_spec hstep
    refine ⟨h.entry, ?_⟩
    intro l hl
    rcases inFlight_setPhase hl with hnew | hold
    · rcases mem_append.mp hnew with hmem | hmem
      · exact h.lifted l (inFlight_of_resolving hph hmem)
      · rw [mem_singleton.mp hmem]
        exact (liftBlock_spec hlift).2.2.1.noticed
    · exact h.lifted l hold
  | insert v entry region =>
    obtain ⟨fa, mode, l, ls, block, spans, hph, rfl, hspans⟩ := Vm.insert_spec hstep
    have hsame := (markSpans_spec vm.mem spans).1
    have hfrom := (h.fits.phase v fa mode none (l :: ls) hph).insert_lifted hspans
    constructor
    · intro e he sp hsp
      rcases TranslationCache.mem_put.mp he with rfl | ⟨hold, -⟩
      · obtain ⟨l', hl', rfl⟩ := hfrom sp hsp
        exact (h.lifted l' (inFlight_of_resolving hph hl')).congr hsame.bytes hsame.dirty
      · exact (h.entry e hold sp hsp).congr hsame.bytes hsame.dirty
    · intro l' hl'
      exact (h.lifted l' (inFlight_setIdle hl')).congr hsame.bytes hsame.dirty
  | done v =>
    cases hstep
    exact ⟨h.entry, fun l hl => h.lifted l (inFlight_setIdle hl)⟩
  | handleSmc v =>
    obtain ⟨-, rfl⟩ := step_handleSmc hstep
    have hinv := Vm.handleSmc_spec vm
    have hbytes : vm.handleSmc.mem.bytes = vm.mem.bytes := hinv.contents.bytes
    constructor
    · intro e he sp hsp
      obtain ⟨hold, hkeep⟩ := (hinv.entries e).mp he
      refine (Span.Reads.congr ((h.entry e hold sp hsp).reads ?_) hbytes).noticed
      -- a survivor touches none of the pages that were dirty
      intro page hpage
      by_contra ht
      rw [Bool.not_eq_false] at ht
      exact hkeep ⟨page, hpage, Entry.touches_iff.mpr ⟨sp, hsp, ht⟩⟩
    · intro l hl
      have hold : InFlight vm l := by
        obtain ⟨w, hw⟩ := hl
        rw [hinv.vcpus] at hw
        exact ⟨w, hw⟩
      exact (Span.Reads.congr ((h.lifted l hold).reads (hok l hold)) hbytes).noticed

/-- In every interleaving that leaves the blocks in flight undisturbed, each quiet state has a cache
that agrees with memory. -/
theorem cache_current_run {mem : Memory} {acts : List (Act n)} {vm : Vm n}
    (hacts : ∀ a ∈ acts, IsSmcAct a) (hok : AllSteps step LiftsUndisturbed (Vm.boot mem) acts)
    (hrun : run step (Vm.boot mem) acts = some vm) (hquiet : Quiet vm) : CacheCurrent vm := by
  have hcoh : Coherent vm := by
    refine AllSteps.invariant Coherent ?_ (Coherent.boot mem) (hok.and_forall hacts) hrun
    intro s a s' hs ha hstep
    exact coherent_step hs ha.1 ha.2 hstep
  intro e he sp hsp
  refine (hcoh.entry e he sp hsp).reads ?_
  rw [hquiet.1]
  intro page hpage
  exact absurd hpage not_mem_nil

def smallMemory : Memory :=
  { Memory.fresh 0x4000 0 (by decide) with
    regions := [⟨0x1000, 0x10, .ram⟩]
    regions_le := by decide }

abbrev lifter : Fin 2 := ⟨0, Nat.two_pos⟩
abbrev writer : Fin 2 := ⟨1, Nat.one_lt_two⟩

/-- One vcpu lifts the block at `0x1000`, another rewrites its byte, the first inserts. -/
def storeDuringLift : List (Act 2) :=
  [.lookup lifter .long64 0x1000 0, .lift lifter (.flat 0x1000) 1, .store writer 0x1000 0x90 1,
    .insert lifter none false]

theorem store_during_lift_stale : (∀ a ∈ storeDuringLift, IsSmcAct a) ∧
      ∃ vm, run step (Vm.boot smallMemory) storeDuringLift = some vm ∧ Quiet vm ∧
        ¬CacheCurrent vm := by
  refine ⟨by simp [storeDuringLift, IsSmcAct], _, rfl,
    ⟨rfl, not_inFlight_of_idle (by decide)⟩, ?_⟩
  · intro h
    have hbyte := h _ mem_cons_self _ mem_cons_self 0 (by decide)
    revert hbyte
    decide

/-- The same block, rewritten after it was inserted, and lifted again after the drain. -/
def storeAfterInsert : List (Act 2) :=
  [.lookup lifter .long64 0x1000 0, .lift lifter (.flat 0x1000) 1, .insert lifter none false,
    .store writer 0x1000 0x90 1, .handleSmc writer, .lookup lifter .long64 0x1000 0,
    .lift lifter (.flat 0x1000) 1, .insert lifter none false]

theorem store_after_insert_current : ∃ vm, (∀ a ∈ storeAfterInsert, IsSmcAct a) ∧
      AllSteps step LiftsUndisturbed (Vm.boot smallMemory) storeAfterInsert ∧
      run step (Vm.boot smallMemory) storeAfterInsert = some vm ∧ Quiet vm ∧ CacheCurrent vm := by
  have hacts : ∀ a ∈ storeAfterInsert, IsSmcAct a := by
    simp [storeAfterInsert, IsSmcAct]
  have hok : AllSteps step LiftsUndisturbed (Vm.boot smallMemory) storeAfterInsert := by
    refine .cons trivial rfl (.cons trivial rfl (.cons trivial rfl (.cons ?_ rfl (.cons ?_ rfl
      (.cons trivial rfl (.cons trivial rfl (.cons trivial rfl trivial)))))))
    · intro l hl
      exact absurd hl (not_inFlight_of_idle (by decide) l)
    · intro l hl
      exact absurd hl (not_inFlight_of_idle (by decide) l)
  refine ⟨_, hacts, hok, rfl, ⟨rfl, not_inFlight_of_idle (by decide)⟩, ?_⟩
  exact cache_current_run hacts hok rfl ⟨rfl, not_inFlight_of_idle (by decide)⟩

end X86Jit
