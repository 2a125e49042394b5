import X86Jit.Core.SpanBounds

/-! Every page a cached unit was lifted from is tagged, so that a store on it is noticed. -/
namespace X86Jit
open X86Jit.Lib Memory

variable {n : ℕ} {vm vm' : Vm n}

def TagsCover (vm : Vm n) : Prop :=
  ∀ e ∈ vm.cache.entries, ∀ sp ∈ e.spans, ∀ page,
    sp.touches page = true → vm.mem.isCodePage page = true

variable {e : Entry}

theorem TagsCover.of_entry (h : TagsCover vm) (he : e ∈ vm.cache.entries) {page : ℕ}
    (ht : e.touches page = true) : page ∈ vm.mem.codePage := by
  obtain ⟨sp, hsp, hpage⟩ := Entry.touches_iff.mp ht
  simpa [isCodePage] using h e he sp hsp page hpage

/-- An unmap must not clear the tag of a page touched by a unit it does not drop. An inline tier-up
whose epoch holds must record the range that its key has already. -/
def KeepsTags (vm : Vm n) : Act n → Prop
  | .unmap addr size => ∀ e ∈ vm.cache.entries, ∀ page ∈ unmapPages addr (addr + size),
      e.touches page = true → e.overlaps addr (addr + size) = true
  | .upgrade v _ => ∀ fa mode ir lifted,
      vm.vcpus v = .resolving fa mode (some (ir, vm.cache.epoch)) lifted →
      ∃ e, vm.cache.get ⟨fa.pa, mode⟩ = some e ∧ e.spans = [ir.span]
  | _ => True

namespace TagsCover

theorem boot (mem : Memory) : TagsCover (Vm.boot mem : Vm n) := by
  intro e he
  exact absurd he List.not_mem_nil

theorem mono (h : TagsCover vm) (hentries : ∀ e ∈ vm'.cache.entries, e ∈ vm.cache.entries)
    (hcode : ∀ p ∈ vm.mem.codePage, p ∈ vm'.mem.codePage) : TagsCover vm' := by
  intro e he sp hsp page ht
  have hold := h.of_entry (hentries e he) (Entry.touches_iff.mpr ⟨sp, hsp, ht⟩)
  simpa [isCodePage] using hcode page hold

theorem invalidated {drop : Entry → Prop} {clear : ℕ → Prop} (h : TagsCover vm)
    (hinv : Vm.Invalidated drop clear vm vm')
    (hclear : ∀ e ∈ vm.cache.entries, ∀ p, clear p → e.touches p = true → drop e) :
    TagsCover vm' := by
  intro e he sp hsp page ht
  obtain ⟨hold, hkeep⟩ := (hinv.entries e).mp he
  have htouch := Entry.touches_iff.mpr ⟨sp, hsp, ht⟩
  have hnot : ¬clear page := fun hc => hkeep (hclear e hold page hc htouch)
  simpa [isCodePage] using (hinv.codePage page).mpr ⟨h.of_entry hold htouch, hnot⟩

theorem recorded (h : TagsCover vm) (hmem : vm'.mem = markSpans vm.mem e.spans)
    (hentries : vm'.cache.entries = (vm.cache.put e).entries)
    (hspans : ∀ sp ∈ e.spans, sp.stop ≤ vm.mem.span) : TagsCover vm' := by
  intro e' he' sp hsp page ht
  rw [hentries] at he'
  have hpage : page ∈ vm'.mem.codePage := by
    rw [hmem, mem_codePage_markSpans hspans]
    rcases TranslationCache.mem_put.mp he' with rfl | ⟨hold, -⟩
    · exact Or.inr ⟨sp, hsp, ht⟩
    · exact Or.inl (h.of_entry hold (Entry.touches_iff.mpr ⟨sp, hsp, ht⟩))
  simpa [isCodePage] using hpage

theorem replaced (h : TagsCover vm) {e' : Entry} (he : e ∈ vm.cache.entries)
    (hspans : e'.spans = e.spans) : TagsCover ({ vm with cache := vm.cache.put e' } : Vm n) := by
  intro e'' he'' sp hsp page ht
  rcases TranslationCache.mem_put.mp he'' with rfl | ⟨hold, -⟩
  · rw [hspans] at hsp
    exact h e he sp hsp page ht
  · exact h e'' hold sp hsp page ht

end TagsCover

theorem SpansFit.overlaps_all (h : SpansFit vm) (he : e ∈ vm.cache.entries)
    {sp : Span} (hsp : sp ∈ e.spans) : e.overlaps 0 (2 ^ 64 - 1) = true := by
  have hlt := Span.stop_le (h.entry e he sp hsp)
  have hpos := sp.start_lt_stop
  exact Entry.overlaps_iff.mpr ⟨sp, hsp, Span.overlaps_iff.mpr ⟨by omega, by omega⟩⟩

theorem tagsCover_step {a : Act n} (hfit : SpansFit vm) (h : TagsCover vm)
    (hok : KeepsTags vm a) (hstep : step vm a = some vm') : TagsCover vm' := by
  cases a with
  | map addr size kind =>
    obtain ⟨mem, hmem, hvm⟩ := Vm.map_spec (step_map hstep).2
    have hremap : TagsCover { vm with mem } :=
      h.mono (fun _ he => he) fun p hp => by rwa [(map_spec hmem).1.codePage]
    rcases hvm with ⟨-, rfl⟩ | hinv
    · exact hremap
    · -- a trapped region drops every unit along with every tag
      apply hremap.invalidated hinv
      intro e he p _ ht
      obtain ⟨sp, hsp, -⟩ := Entry.touches_iff.mp ht
      exact hfit.overlaps_all he hsp
  | unmap addr size =>
    obtain ⟨mem, hmem, hinv⟩ := Vm.unmap_spec (step_unmap hstep).2
    have hremap : TagsCover { vm with mem } :=
      h.mono (fun _ he => he) fun p hp => by rwa [(unmap_spec hmem).1.codePage]
    exact hremap.invalidated hinv hok
  | writeBytes addr bs =>
    obtain ⟨mem, hw, rfl⟩ := step_writeBytes hstep
    exact h.mono (fun _ he => he) fun p hp => by rwa [hw.codePage]
  | store v addr val size =>
    obtain ⟨-, mem, hw, rfl⟩ := step_store hstep
    exact h.mono (fun _ he => he) fun p hp => by rwa [hw.codePage]
  | lookup v mode rip cs =>
    obtain ⟨-, rfl⟩ := step_lookup hstep
    rcases Vm.lookup_spec vm v mode rip cs with heq | ⟨hit, heq, -⟩
    · rwa [heq]
    · rwa [heq]
  | lift v target len =>
    obtain ⟨fa, mode, hit, lifted, ir, -, -, -, rfl⟩ := Vm.lift_spec hstep
    exact h
  | insert v entry region =>
    obtain ⟨fa, mode, l, ls, block, spans, hph, rfl, hspans⟩ := Vm.insert_spec hstep
    have hle := ((hfit.phase v fa mode none (l :: ls) hph).insert_le hspans).1
    exact h.recorded (e := ⟨⟨fa.pa, mode⟩, block, spans⟩) rfl rfl hle
  | upgrade v entry =>
    obtain ⟨fa, mode, ir, epoch, lifted, hph, ⟨-, rfl⟩ | ⟨rfl, rfl⟩⟩ := Vm.upgrade_spec hstep
    · exact h
    · obtain ⟨e, hget, hspans⟩ := hok fa mode ir lifted hph
      exact h.replaced (TranslationCache.get_eq_some_iff.mp hget).1 hspans.symm
  | submit v region =>
    obtain ⟨fa, mode, ir, epoch, lifted, spans, pending, -, rfl, -⟩ := Vm.submit_spec hstep
    exact h
  | done v =>
    cases hstep
    exact h
  | publish i entry =>
    obtain ⟨r, hr, pending, ⟨-, rfl⟩ | ⟨-, rfl⟩⟩ := Vm.publish_spec hstep
    · exact h
    · exact h.recorded (e := ⟨r.key, .compiled entry, r.spans⟩) rfl rfl
        (hfit.request r (List.mem_of_getElem? hr))
  | handleSmc v =>
    obtain ⟨-, rfl⟩ := step_handleSmc hstep
    have hdrained : TagsCover { vm with mem := vm.mem.takeDirtyCode.2 } := h
    refine hdrained.invalidated (Vm.handleSmc_spec vm) ?_
    intro e he p hp ht
    exact ⟨p, hp, ht⟩

/-- In every run whose steps respect the tags, every page a cached unit was lifted from is
tagged. -/
theorem tags_cover_run {mem : Memory} {acts : List (Act n)} {vm : Vm n}
    (hok : AllSteps step KeepsTags (Vm.boot mem) acts)
    (hrun : run step (Vm.boot mem) acts = some vm) : TagsCover vm := by
  refine (AllSteps.invariant (fun vm => SpansFit vm ∧ TagsCover vm) ?_
    ⟨SpansFit.boot mem, TagsCover.boot mem⟩ hok hrun).2
  intro s a s' hs ha hstep
  exact ⟨spansFit_step hs.1 hstep, tagsCover_step hs.1 hs.2 ha hstep⟩

/-- Two regions share a page, a block is cached from the second, the first is unmapped. -/
def unmapNeighbour : List (Act 1) :=
  [.map 0x1000 0x10 .ram, .map 0x1010 0x10 .ram, .lookup 0 .long64 0x1010 0,
    .lift 0 (.flat 0x1010) 1, .insert 0 none false, .unmap 0x1000 0x10]

/-- The unmap clears the tag of the shared page and leaves the block of its neighbour. -/
theorem unmap_neighbour_untags :
    ∃ vm, run step (Vm.boot (fresh 0x4000 0 (by decide))) unmapNeighbour = some vm ∧
      ¬TagsCover vm := by
  refine ⟨_, rfl, ?_⟩
  intro h
  have htag := h _ List.mem_cons_self _ List.mem_cons_self 1 (by decide)
  revert htag
  decide

def unmapElsewhere : List (Act 1) :=
  [.map 0x1000 0x10 .ram, .map 0x2000 0x10 .ram, .lookup 0 .long64 0x2000 0,
    .lift 0 (.flat 0x2000) 1, .insert 0 none false, .unmap 0x1000 0x10]

theorem unmap_elsewhere_keeps_tags :
    ∃ vm, AllSteps step KeepsTags (Vm.boot (fresh 0x4000 0 (by decide))) unmapElsewhere ∧
      run step (Vm.boot (fresh 0x4000 0 (by decide))) unmapElsewhere = some vm ∧
      TagsCover vm := by
  have hok : AllSteps step KeepsTags (Vm.boot (fresh 0x4000 0 (by decide)))
      unmapElsewhere := by
    refine .cons trivial rfl (.cons trivial rfl (.cons trivial rfl (.cons trivial rfl
      (.cons trivial rfl (.cons ?_ rfl trivial)))))
    unfold KeepsTags
    decide
  exact ⟨_, hok, rfl, tags_cover_run hok rfl⟩

end X86Jit
