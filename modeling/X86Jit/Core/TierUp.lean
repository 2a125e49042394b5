import X86Jit.Core.Coherence

/-! Background tier-up on one vcpu. A region may be lifted from pages no cached unit touches, and
there neither a store nor an unmap moves the epoch. -/
namespace X86Jit
open X86Jit.Lib TranslationCache List Vm

/-- Each byte of a range is as it was lifted, or on a dirty page that a cached unit touches. -/
def Span.Guarded {n : ℕ} (sp : Span) (vm : Vm n) : Prop :=
  ∀ i (hi : i < sp.code.length), vm.mem.bytes (sp.start + i) = sp.code[i] ∨
    ((sp.start + i) / codePageSize ∈ vm.mem.dirty ∧
      ∃ e ∈ vm.cache.entries, e.touches ((sp.start + i) / codePageSize) = true)

/-- Whenever no dirty page is pending, every request that would be published has its bytes as they
were lifted. -/
def PublishesCurrent {n : ℕ} (vm : Vm n) : Prop :=
  vm.mem.dirty = [] → ∀ r ∈ vm.requests, r.epoch = vm.cache.epoch →
    ∀ sp ∈ r.spans, sp.Mapped vm.mem ∧ sp.Reads vm.mem

abbrev solo : Fin 1 := ⟨0, Nat.one_pos⟩

def BetweenDispatches (vm : Vm 1) : Act 1 → Prop
  | .writeBytes _ _ | .publish _ _ => vm.vcpus solo = .idle
  | _ => True

def WritesGuarded {n : ℕ} (vm : Vm n) (addr len : ℕ) : Prop :=
  ∀ r ∈ vm.requests, r.epoch = vm.cache.epoch → ∀ sp ∈ r.spans, ∀ b, sp.start ≤ b →
    b < sp.stop → addr ≤ b → b < addr + len →
    ∃ e ∈ vm.cache.entries, e.touches (b / codePageSize) = true

/-- A write on a live request's bytes is on a page some cached unit touches. An unmap of them drops
a unit, and clears no tag of one that stays. A single block is submitted under its fetch address,
and an inline tier-up records the range that is there already. A unit published while pages are
dirty touches those of them that the unit it replaces touches. -/
def RequestsGuarded (vm : Vm 1) : Act 1 → Prop
  | .store _ addr _ size => WritesGuarded vm addr size
  | .writeBytes addr bs => WritesGuarded vm addr bs.length
  | .unmap addr size => KeepsTags vm (.unmap addr size) ∧
      ∀ r ∈ vm.requests, r.epoch = vm.cache.epoch →
        (∃ sp ∈ r.spans, sp.overlaps addr (addr + size) = true) →
        ∃ e ∈ vm.cache.entries, e.overlaps addr (addr + size) = true
  | .upgrade v entry => KeepsTags vm (.upgrade v entry)
  | .submit v region => region = false → ∀ fa mode ir epoch lifted,
      vm.vcpus v = .resolving fa mode (some (ir, epoch)) lifted → ir.guestStart = fa.pa
  | .publish i _ => ∀ r, vm.requests[i]? = some r → r.epoch = vm.cache.epoch →
      ∀ e, vm.cache.get r.key = some e → ∀ page ∈ vm.mem.dirty, e.touches page = true →
        ∃ sp ∈ r.spans, sp.touches page = true
  | _ => True

/-- What the vcpu holds inside `resolve` is current: nothing has run since its lookup. -/
structure ResolveCurrent {n : ℕ} (vm : Vm n) (fa : FetchAddr) (mode : CpuMode)
    (hit : Option (IrBlock × ℕ)) (lifted : List Lifted) : Prop where
  lifted : ∀ l ∈ lifted, l.span.Reads vm.mem ∧ l.span.Mapped vm.mem
  miss : hit = none → vm.cache.get ⟨fa.pa, mode⟩ = none
  hit : ∀ ir epoch, hit = some (ir, epoch) → epoch = vm.cache.epoch ∧
    ∃ e, vm.cache.get ⟨fa.pa, mode⟩ = some e ∧ e.block = .interpreted ir

/-- Units and live requests are as memory is, or on pages whose drain moves the epoch. -/
structure Guards (vm : Vm 1) : Prop where
  entry : ∀ e ∈ vm.cache.entries, ∀ sp ∈ e.spans, sp.Noticed vm.mem ∧ sp.Mapped vm.mem
  own : ∀ e ∈ vm.cache.entries, ∀ ir, e.block = .interpreted ir →
    e.spans = [ir.spanAt e.key.guestAddr]
  epoch_le : ∀ r ∈ vm.requests, r.epoch ≤ vm.cache.epoch
  request : ∀ r ∈ vm.requests, r.epoch = vm.cache.epoch →
    ∀ sp ∈ r.spans, sp.Guarded vm ∧ sp.Mapped vm.mem
  phase : ∀ v fa mode hit lifted, vm.vcpus v = .resolving fa mode hit lifted →
    ResolveCurrent vm fa mode hit lifted

variable {n : ℕ} {vm vm' : Vm n} {sp : Span}

theorem Span.Mapped.congr {m m' : Memory} (h : sp.Mapped m) (hregions : m'.regions = m.regions) :
    sp.Mapped m' := by
  intro b hlo hhi
  rw [Memory.Mapped, hregions]
  exact h b hlo hhi

theorem Span.Guarded.noticed (h : sp.Guarded vm) : sp.Noticed vm.mem := by
  intro i hi
  exact (h i hi).imp_right And.left

theorem Span.Guarded.congr (h : sp.Guarded vm) (hbytes : vm'.mem.bytes = vm.mem.bytes)
    (hdirty : vm'.mem.dirty = vm.mem.dirty)
    (htouch : ∀ e ∈ vm.cache.entries, ∀ page ∈ vm.mem.dirty, e.touches page = true →
      ∃ e' ∈ vm'.cache.entries, e'.touches page = true) : sp.Guarded vm' := by
  intro i hi
  rw [hbytes, hdirty]
  rcases h i hi with heq | ⟨hpage, e, he, ht⟩
  · exact Or.inl heq
  · exact Or.inr ⟨hpage, htouch e he _ hpage ht⟩

theorem touches_put {e new : Entry} {page : ℕ} (he : e ∈ vm.cache.entries)
    (ht : e.touches page = true) (hnew : e.key = new.key → new.touches page = true) :
    ∃ e' ∈ (vm.cache.put new).entries, e'.touches page = true := by
  by_cases hkey : e.key = new.key
  · exact ⟨new, mem_put.mpr (Or.inl rfl), hnew hkey⟩
  · exact ⟨e, mem_put.mpr (Or.inr ⟨he, hkey⟩), ht⟩

variable {vm vm' : Vm 1}

theorem setIdle_vcpus (v w : Fin 1) : (vm.setPhase v .idle).vcpus w = .idle := by
  rw [Subsingleton.elim w v, setPhase_vcpus_self]

theorem idle_of_idle {v : Fin 1} (h : vm.vcpus v = .idle) (w : Fin 1) : vm.vcpus w = .idle := by
  rw [Subsingleton.elim w v, h]

theorem phase_of_idle {P : Fin 1 → FetchAddr → CpuMode → Option (IrBlock × ℕ) → List Lifted → Prop}
    (h : ∀ v, vm.vcpus v = .idle) :
    ∀ v fa mode hit lifted, vm.vcpus v = .resolving fa mode hit lifted →
      P v fa mode hit lifted := by
  intro v fa mode hit lifted hph
  rw [h v] at hph
  cases hph

theorem Guards.boot (mem : Memory) : Guards (boot mem : Vm 1) where
  entry _ he := absurd he not_mem_nil
  own _ he := absurd he not_mem_nil
  epoch_le _ hr := absurd hr not_mem_nil
  request _ hr := absurd hr not_mem_nil
  phase := phase_of_idle fun _ => rfl

theorem keepsTags_of_requestsGuarded {a : Act 1} (h : RequestsGuarded vm a) : KeepsTags vm a := by
  cases a with
  | unmap addr size => exact h.1
  | upgrade v entry => exact h
  | _ => trivial

variable {mem : Memory}

theorem Guards.dropped (h : Guards vm) (hidle : ∀ v, vm.vcpus v = .idle)
    {drop : Entry → Prop} {clear : ℕ → Prop} (hinv : Vm.Invalidated drop clear { vm with mem } vm')
    (hentry : ∀ e ∈ vm.cache.entries, ¬drop e → ∀ sp ∈ e.spans,
      sp.Noticed vm'.mem ∧ sp.Mapped vm'.mem)
    (hrequest : (∀ e ∈ vm.cache.entries, ¬drop e) → ∀ r ∈ vm.requests,
      r.epoch = vm.cache.epoch → ∀ sp ∈ r.spans, sp.Guarded vm' ∧ sp.Mapped vm'.mem) :
    Guards vm' := by
  refine ⟨?_, ?_, ?_, ?_, ?_⟩
  · intro e he
    obtain ⟨hold, hkeep⟩ := (hinv.entries e).mp he
    exact hentry e hold hkeep
  · intro e he
    exact h.own e ((hinv.entries e).mp he).1
  · intro r hr
    rw [hinv.requests] at hr
    exact (h.epoch_le r hr).trans hinv.epoch_le
  · intro r hr hep
    rw [hinv.requests] at hr
    have hle := h.epoch_le r hr
    rcases hinv.epoch with ⟨heq, hnone⟩ | hlt
    · exact hrequest hnone r hr (hep.trans heq)
    · change vm.cache.epoch < _ at hlt
      omega
  · exact phase_of_idle fun v => (congrFun hinv.vcpus v).trans (hidle v)

theorem Guards.remapped (h : Guards vm) (hmem : vm.mem.Remapped mem)
    (hidle : ∀ v, vm.vcpus v = .idle) {drop : Entry → Prop} {clear : ℕ → Prop}
    (hinv : Vm.Invalidated drop clear { vm with mem } vm')
    (hentry : ∀ e ∈ vm.cache.entries, ¬drop e → ∀ sp ∈ e.spans, sp.Mapped mem)
    (hrequest : (∀ e ∈ vm.cache.entries, ¬drop e) → ∀ r ∈ vm.requests,
      r.epoch = vm.cache.epoch → ∀ sp ∈ r.spans, sp.Mapped mem) : Guards vm' := by
  have hbytes : vm'.mem.bytes = vm.mem.bytes := hinv.contents.bytes.trans hmem.bytes
  have hdirty : vm'.mem.dirty = vm.mem.dirty := hinv.contents.dirty.trans hmem.dirty
  apply h.dropped hidle hinv
  · intro e he hkeep sp hsp
    exact ⟨(h.entry e he sp hsp).1.congr hbytes hdirty,
      (hentry e he hkeep sp hsp).congr hinv.contents.regions⟩
  · intro hnone r hr hlive sp hsp
    constructor
    · refine (h.request r hr hlive sp hsp).1.congr hbytes hdirty ?_
      intro e he page _ ht
      exact ⟨e, (hinv.entries e).mpr ⟨he, hnone e he⟩, ht⟩
    · exact (hrequest hnone r hr hlive sp hsp).congr hinv.contents.regions

theorem Guards.wrote (h : Guards vm) (htags : TagsCover vm) {addr len : ℕ}
    (hw : vm.mem.Wrote mem addr len) (hidle : ∀ v, vm.vcpus v = .idle)
    (hok : WritesGuarded vm addr len) : Guards { vm with mem } := by
  refine ⟨?_, h.own, h.epoch_le, ?_, phase_of_idle hidle⟩
  · intro e he sp hsp
    obtain ⟨hnoticed, hmapped⟩ := h.entry e he sp hsp
    refine ⟨hnoticed.wrote hw ?_, hmapped.congr hw.regions⟩
    intro b hlo hhi _ _
    exact htags.of_entry he (Entry.touches_iff.mpr ⟨sp, hsp, sp.touches_of_mem hlo hhi⟩)
  · intro r hr hep sp hsp
    obtain ⟨hguarded, hmapped⟩ := h.request r hr hep sp hsp
    refine ⟨?_, hmapped.congr hw.regions⟩
    intro i hi
    by_cases hsame : mem.bytes (sp.start + i) = vm.mem.bytes (sp.start + i)
    · rcases hguarded i hi with heq | ⟨hpage, htouch⟩
      · exact Or.inl (hsame.trans heq)
      · exact Or.inr ⟨hw.dirty _ hpage, htouch⟩
    · -- a changed byte is on a page some unit touches, so tagged, so dirty now
      right
      have hrange : addr ≤ sp.start + i ∧ sp.start + i < addr + len := by
        by_contra hout
        exact hsame (hw.frame _ hout)
      obtain ⟨e, he, ht⟩ := hok r hr hep sp hsp (sp.start + i) (Nat.le_add_right _ _)
        (Nat.add_lt_add_left hi _) hrange.1 hrange.2
      exact ⟨hw.noted _ hsame (htags.of_entry he ht), e, he, ht⟩

theorem Guards.drained (h : Guards vm) (hidle : ∀ v, vm.vcpus v = .idle) : Guards vm.handleSmc := by
  have hinv := handleSmc_spec vm
  have hbytes : vm.handleSmc.mem.bytes = vm.mem.bytes := hinv.contents.bytes
  have hregions : vm.handleSmc.mem.regions = vm.mem.regions := hinv.contents.regions
  apply h.dropped hidle hinv
  · intro e he hkeep sp hsp
    obtain ⟨hnoticed, hmapped⟩ := h.entry e he sp hsp
    refine ⟨(Span.Reads.congr (hnoticed.reads ?_) hbytes).noticed, hmapped.congr hregions⟩
    intro page hpage
    by_contra ht
    rw [Bool.not_eq_false] at ht
    exact hkeep ⟨page, hpage, Entry.touches_iff.mpr ⟨sp, hsp, ht⟩⟩
  · intro hnone r hr hlive sp hsp
    obtain ⟨hguarded, hmapped⟩ := h.request r hr hlive sp hsp
    refine ⟨?_, hmapped.congr hregions⟩
    intro i hi
    left
    rcases hguarded i hi with hread | ⟨hpage, e, he, ht⟩
    · rw [hbytes]
      exact hread
    · exact absurd ⟨_, hpage, ht⟩ (hnone e he)

theorem Guards.put (h : Guards vm) {e : Entry} (hsame : vm.mem.SameContents vm'.mem)
    (hentries : vm'.cache.entries = (vm.cache.put e).entries)
    (hepoch : vm'.cache.epoch = vm.cache.epoch) (hidle : ∀ v, vm'.vcpus v = .idle)
    (hrequests : ∀ r ∈ vm'.requests, r ∈ vm.requests)
    (hspans : ∀ sp ∈ e.spans, sp.Noticed vm.mem ∧ sp.Mapped vm.mem)
    (hown : ∀ ir, e.block = .interpreted ir → e.spans = [ir.spanAt e.key.guestAddr])
    (htouch : ∀ e' ∈ vm.cache.entries, e'.key = e.key → ∀ page ∈ vm.mem.dirty,
      e'.touches page = true → e.touches page = true) : Guards vm' := by
  refine ⟨?_, ?_, ?_, ?_, phase_of_idle hidle⟩
  · intro e' he' sp hsp
    rw [hentries] at he'
    have hold : sp.Noticed vm.mem ∧ sp.Mapped vm.mem := by
      rcases mem_put.mp he' with rfl | ⟨hmem, -⟩
      · exact hspans sp hsp
      · exact h.entry e' hmem sp hsp
    exact ⟨hold.1.congr hsame.bytes hsame.dirty, hold.2.congr hsame.regions⟩
  · intro e' he'
    rw [hentries] at he'
    rcases mem_put.mp he' with rfl | ⟨hmem, -⟩
    · exact hown
    · exact h.own e' hmem
  · intro r hr
    rw [hepoch]
    exact h.epoch_le r (hrequests r hr)
  · intro r hr hep sp hsp
    rw [hepoch] at hep
    obtain ⟨hguarded, hmapped⟩ := h.request r (hrequests r hr) hep sp hsp
    refine ⟨hguarded.congr hsame.bytes hsame.dirty ?_, hmapped.congr hsame.regions⟩
    intro e' he' page hpage ht
    rw [hentries]
    exact touches_put he' ht fun hkey => htouch e' he' hkey page hpage ht

theorem Guards.hit_span (h : Guards vm) {fa : FetchAddr} {mode : CpuMode} {ir : IrBlock}
    {e : Entry} (hget : vm.cache.get ⟨fa.pa, mode⟩ = some e) (hblock : e.block = .interpreted ir) :
    e ∈ vm.cache.entries ∧ e.spans = [ir.spanAt fa.pa] := by
  obtain ⟨he, hkey⟩ := get_eq_some_iff.mp hget
  have hspans := h.own e he ir hblock
  rw [hkey] at hspans
  exact ⟨he, hspans⟩

variable {v : Fin 1} {addr size : ℕ}

theorem Guards.map (h : Guards vm) {kind : RegionKind}
    (hstep : step vm (.map addr size kind) = some vm') : Guards vm' := by
  obtain ⟨hidle, hmap⟩ := step_map hstep
  obtain ⟨mem, hmem, hvm⟩ := map_spec hmap
  obtain ⟨hremap, hmono⟩ := Memory.map_spec hmem
  have hmapped : ∀ sp : Span, sp.Mapped vm.mem → sp.Mapped mem :=
    fun sp hsp b hlo hhi => hmono b (hsp b hlo hhi)
  rcases hvm with ⟨-, rfl⟩ | hinv
  · refine ⟨?_, h.own, h.epoch_le, ?_, phase_of_idle hidle⟩
    · intro e he sp hsp
      obtain ⟨hnoticed, hm⟩ := h.entry e he sp hsp
      exact ⟨hnoticed.congr hremap.bytes hremap.dirty, hmapped sp hm⟩
    · intro r hr hep sp hsp
      obtain ⟨hguarded, hm⟩ := h.request r hr hep sp hsp
      exact ⟨hguarded.congr hremap.bytes hremap.dirty fun e he _ _ ht => ⟨e, he, ht⟩,
        hmapped sp hm⟩
  · refine h.remapped hremap hidle hinv ?_ ?_
    · intro e he _ sp hsp
      exact hmapped sp (h.entry e he sp hsp).2
    · intro _ r hr hep sp hsp
      exact hmapped sp (h.request r hr hep sp hsp).2

theorem Guards.unmap (h : Guards vm) (hok : RequestsGuarded vm (.unmap addr size))
    (hstep : step vm (.unmap addr size) = some vm') : Guards vm' := by
  obtain ⟨hidle, hunmap⟩ := step_unmap hstep
  obtain ⟨mem, hmem, hinv⟩ := unmap_spec hunmap
  obtain ⟨hremap, -, hkeep⟩ := Memory.unmap_spec hmem
  -- a range that does not overlap the unmapped one keeps all of its bytes
  have hmapped : ∀ sp : Span, sp.Mapped vm.mem → ¬sp.overlaps addr (addr + size) = true →
      sp.Mapped mem := by
    intro sp hsp hover b hlo hhi
    refine hkeep b (hsp b hlo hhi) ?_
    intro hb
    exact hover (Span.overlaps_iff.mpr ⟨by omega, by omega⟩)
  refine h.remapped hremap hidle hinv ?_ ?_
  · intro e he hnot sp hsp
    refine hmapped sp (h.entry e he sp hsp).2 ?_
    intro hover
    exact hnot (Entry.overlaps_iff.mpr ⟨sp, hsp, hover⟩)
  · intro hnone r hr hep sp hsp
    refine hmapped sp (h.request r hr hep sp hsp).2 ?_
    intro hover
    obtain ⟨e, he, hdrop⟩ := hok.2 r hr hep ⟨sp, hsp, hover⟩
    exact hnone e he hdrop

theorem Guards.lookup (h : Guards vm) {mode : CpuMode} {rip cs : ℕ}
    (hstep : step vm (.lookup v mode rip cs) = some vm') : Guards vm' := by
  obtain ⟨-, rfl⟩ := step_lookup hstep
  rcases lookup_spec vm v mode rip cs with heq | ⟨hit, heq, hhit⟩
  · rw [heq]
    exact h
  · rw [heq]
    refine ⟨h.entry, h.own, h.epoch_le, h.request, ?_⟩
    intro w fa mode' hit' lifted hw
    rw [Subsingleton.elim w v, setPhase_vcpus_self] at hw
    cases hw
    refine ⟨fun l hl => absurd hl not_mem_nil, ?_, ?_⟩
    · intro hnone
      rcases hhit with ⟨-, hget⟩ | ⟨ir, e, rfl, -, -⟩
      · exact hget
      · cases hnone
    · intro ir epoch hsome
      rcases hhit with ⟨rfl, -⟩ | ⟨ir', e, rfl, hblock, hget⟩
      · cases hsome
      · cases hsome
        exact ⟨rfl, e, hget, hblock⟩

theorem Guards.lift (h : Guards vm) {target : FetchAddr} {len : ℕ}
    (hstep : step vm (.lift v target len) = some vm') : Guards vm' := by
  obtain ⟨fa, mode, hit, lifted, ir, hph, -, hlift, rfl⟩ := lift_spec hstep
  have hcur := h.phase v fa mode hit lifted hph
  refine ⟨h.entry, h.own, h.epoch_le, h.request, ?_⟩
  intro w fa' mode' hit' lifted' hw
  rw [Subsingleton.elim w v, setPhase_vcpus_self] at hw
  cases hw
  refine ⟨?_, hcur.miss, hcur.hit⟩
  intro l hl
  rcases mem_append.mp hl with hl | hl
  · exact hcur.lifted l hl
  · rw [mem_singleton.mp hl]
    exact (liftBlock_spec hlift).2.2

theorem Guards.insert (h : Guards vm) (hfits : SpansFit vm) {entry : Option ℕ} {region : Bool}
    (hstep : step vm (.insert v entry region) = some vm') : Guards vm' := by
  obtain ⟨fa, mode, l, ls, block, spans, hph, rfl, hspans⟩ := insert_spec hstep
  have hcur := h.phase v fa mode none (l :: ls) hph
  have hfrom := (hfits.phase v fa mode none (l :: ls) hph).insert_lifted hspans
  have hfresh := get_eq_none_iff.mp (hcur.miss rfl)
  refine h.put (markSpans_spec vm.mem spans).1 rfl rfl
    (setIdle_vcpus v) (fun _ hr => hr) ?_ ?_ ?_
  · intro sp hsp
    obtain ⟨l', hl', rfl⟩ := hfrom sp hsp
    exact ⟨(hcur.lifted l' hl').1.noticed, (hcur.lifted l' hl').2⟩
  · intro ir hir
    rcases hspans with ⟨rfl, rfl⟩ | ⟨-, entry', rfl⟩
    · rw [materialize_interpreted hir]
    · cases hir
  · intro e' he' hkey
    exact absurd hkey (hfresh e' he')

theorem Guards.upgrade (h : Guards vm) {entry : Option ℕ}
    (hok : RequestsGuarded vm (.upgrade v entry))
    (hstep : step vm (.upgrade v entry) = some vm') : Guards vm' := by
  obtain ⟨fa, mode, ir, epoch, lifted, hph, ⟨-, rfl⟩ | ⟨rfl, rfl⟩⟩ := upgrade_spec hstep
  · exact ⟨h.entry, h.own, h.epoch_le, h.request, phase_of_idle (setIdle_vcpus v)⟩
  · obtain ⟨e, hget, hspans⟩ := hok fa mode ir lifted hph
    obtain ⟨-, e', hget', hblock⟩ := (h.phase v fa mode _ lifted hph).hit ir _ rfl
    obtain rfl : e = e' := Option.some.inj (hget.symm.trans hget')
    obtain ⟨he, hown⟩ := h.hit_span hget hblock
    refine h.put
      (Memory.SameContents.refl _) rfl rfl (setIdle_vcpus v) (fun _ hr => hr) ?_ ?_ ?_
    · intro sp hsp
      rw [← hspans] at hsp
      exact h.entry e he sp hsp
    · intro ir' hir'
      rw [materialize_interpreted hir', ← hspans]
      exact hown
    · intro e' he' hkey page _ ht
      have hke : e.key = ⟨fa.pa, mode⟩ := (get_eq_some_iff.mp hget).2
      rw [eq_of_key_eq he' he (hkey.trans hke.symm), Entry.touches,
        hspans] at ht
      exact ht

theorem Guards.submit (h : Guards vm) {region : Bool} (hok : RequestsGuarded vm (.submit v region))
    (hstep : step vm (.submit v region) = some vm') : Guards vm' := by
  obtain ⟨fa, mode, ir, epoch, lifted, spans, pending, hph, rfl, hspans⟩ :=
    submit_spec hstep
  have hcur := h.phase v fa mode _ lifted hph
  obtain ⟨rfl, e, hget, hblock⟩ := hcur.hit ir epoch rfl
  obtain ⟨he, hown⟩ := h.hit_span hget hblock
  have hblockSpan : ir.guestStart = fa.pa → ∀ sp ∈ [ir.span],
      sp.Guarded vm ∧ sp.Mapped vm.mem := by
    intro hstart sp hsp
    have hmem : sp ∈ e.spans := by
      rw [hown, mem_singleton.mp hsp, IrBlock.span, hstart]
      exact mem_singleton.mpr rfl
    obtain ⟨hnoticed, hmapped⟩ := h.entry e he sp hmem
    refine ⟨?_, hmapped⟩
    -- the block's own unit is what touches a page it changed on
    intro i hi
    refine (hnoticed i hi).imp_right fun hpage => ⟨hpage, e, he, ?_⟩
    exact Entry.touches_iff.mpr ⟨sp, hmem,
      sp.touches_of_mem (Nat.le_add_right _ _) (Nat.add_lt_add_left hi _)⟩
  refine ⟨h.entry, h.own, ?_, ?_, phase_of_idle (setIdle_vcpus v)⟩
  · intro r hr
    rcases mem_append.mp hr with hr | hr
    · exact h.epoch_le r hr
    · rw [mem_singleton.mp hr]
      exact le_refl _
  · intro r hr hep sp hsp
    rcases mem_append.mp hr with hr | hr
    · exact h.request r hr hep sp hsp
    · rw [mem_singleton.mp hr] at hsp
      rcases hspans with ⟨hregion, rfl⟩ | ⟨-, rfl⟩
      · exact hblockSpan (hok hregion fa mode ir _ lifted hph) sp hsp
      · obtain ⟨l, hl, rfl⟩ := mem_map.mp hsp
        obtain ⟨hreads, hmapped⟩ := hcur.lifted l hl
        exact ⟨fun i hi => Or.inl (hreads i hi), hmapped⟩

theorem Guards.publish (h : Guards vm) {i entry : ℕ} (hidle : ∀ v, vm.vcpus v = .idle)
    (hok : RequestsGuarded vm (.publish i entry))
    (hstep : step vm (.publish i entry) = some vm') : Guards vm' := by
  obtain ⟨r, hr, pending, ⟨-, rfl⟩ | ⟨hep, rfl⟩⟩ := publish_spec hstep
  · refine ⟨h.entry, h.own, ?_, ?_, phase_of_idle hidle⟩
    · intro r' hr'
      exact h.epoch_le r' (mem_of_mem_eraseIdx hr')
    · intro r' hr'
      exact h.request r' (mem_of_mem_eraseIdx hr')
  · refine h.put (markSpans_spec vm.mem r.spans).1
      rfl rfl hidle (fun _ => mem_of_mem_eraseIdx) ?_ ?_ ?_
    · intro sp hsp
      obtain ⟨hguarded, hmapped⟩ := h.request r (mem_of_getElem? hr) hep sp hsp
      exact ⟨hguarded.noticed, hmapped⟩
    · intro ir hir
      cases hir
    · intro e' he' hkey page hpage ht
      have hget := get_eq_some_iff.mpr ⟨he', hkey⟩
      exact Entry.touches_iff.mpr (hok r hr hep e' hget page hpage ht)

theorem guards_step {a : Act 1} (hfits : SpansFit vm) (htags : TagsCover vm) (h : Guards vm)
    (hseq : BetweenDispatches vm a)
    (hok : RequestsGuarded vm a) (hstep : step vm a = some vm') : Guards vm' := by
  cases a with
  | map addr size kind => exact h.map hstep
  | unmap addr size => exact h.unmap hok hstep
  | writeBytes addr bs =>
    obtain ⟨mem, hw, rfl⟩ := step_writeBytes hstep
    exact h.wrote htags hw (idle_of_idle hseq) hok
  | store v addr val size =>
    obtain ⟨hidle, mem, hw, rfl⟩ := step_store hstep
    exact h.wrote htags hw (idle_of_idle hidle) hok
  | lookup v mode rip cs => exact h.lookup hstep
  | lift v target len => exact h.lift hstep
  | insert v entry region => exact h.insert hfits hstep
  | upgrade v entry => exact h.upgrade hok hstep
  | submit v region => exact h.submit hok hstep
  | done v =>
    cases hstep
    exact ⟨h.entry, h.own, h.epoch_le, h.request, phase_of_idle (setIdle_vcpus v)⟩
  | publish i entry => exact h.publish (idle_of_idle hseq) hok hstep
  | handleSmc v =>
    obtain ⟨hidle, rfl⟩ := step_handleSmc hstep
    exact h.drained (idle_of_idle hidle)

/-- In every run of one vcpu whose steps keep live requests guarded, whatever would be published
with no dirty page pending is as it was lifted. -/
theorem publishes_current_run {mem : Memory} {acts : List (Act 1)}
    (hseq : AllSteps step BetweenDispatches (boot mem) acts)
    (hok : AllSteps step RequestsGuarded (boot mem) acts)
    (hrun : run step (boot mem) acts = some vm) : PublishesCurrent vm := by
  have hinv : SpansFit vm ∧ TagsCover vm ∧ Guards vm := by
    refine AllSteps.invariant (fun vm => SpansFit vm ∧ TagsCover vm ∧ Guards vm) ?_
      ⟨SpansFit.boot mem, TagsCover.boot mem, Guards.boot mem⟩ (hseq.and hok) hrun
    intro s a s' ⟨hfits, htags, hg⟩ ha hstep
    exact ⟨spansFit_step hfits hstep,
      tagsCover_step hfits htags (keepsTags_of_requestsGuarded ha.2) hstep,
      guards_step hfits htags hg ha.1 ha.2 hstep⟩
  intro hdirty r hr hep sp hsp
  obtain ⟨hguarded, hmapped⟩ := hinv.2.2.request r hr hep sp hsp
  refine ⟨hmapped, hguarded.noticed.reads ?_⟩
  rw [hdirty]
  intro page hpage
  exact absurd hpage not_mem_nil

def twoPages : Memory :=
  { smallMemory with
    regions := [⟨0x1000, 0x10, .ram⟩, ⟨0x2000, 0x10, .ram⟩]
    regions_le := by decide }

/-- The block on page 1 is hot; a region with the block on page 2, which has never run, is
submitted; then the guest rewrites that block. -/
def storeBehindRegion : List (Act 1) :=
  [.lookup solo .long64 0x1000 0, .lift solo (.flat 0x1000) 1, .insert solo none false,
    .lookup solo .long64 0x1000 0, .lift solo (.flat 0x1000) 1, .lift solo (.flat 0x2000) 1,
    .submit solo true, .store solo 0x2000 0x90 1]

/-- The request stays live, and publishing it puts the stale block in the cache. -/
theorem store_behind_region_published :
    AllSteps step BetweenDispatches (boot twoPages) storeBehindRegion ∧
      ∃ vm, run step (boot twoPages) storeBehindRegion = some vm ∧ ¬PublishesCurrent vm := by
  constructor
  · exact .cons trivial rfl (.cons trivial rfl (.cons trivial rfl (.cons trivial rfl
      (.cons trivial rfl (.cons trivial rfl (.cons trivial rfl (.cons trivial rfl trivial)))))))
  · refine ⟨_, rfl, ?_⟩
    intro h
    have hread := (h rfl _ mem_cons_self rfl _
      (mem_cons_of_mem _ mem_cons_self)).2 0 (by decide)
    revert hread
    decide

theorem writesGuarded_of_disjoint {vm : Vm n} {len : ℕ}
    (h : ∀ r ∈ vm.requests, ∀ sp ∈ r.spans, sp.overlaps addr (addr + len) = false) :
    WritesGuarded vm addr len := by
  intro r hr _ sp hsp b hlo hhi haddr hlen
  have hover : sp.overlaps addr (addr + len) = true :=
    Span.overlaps_iff.mpr ⟨by omega, by omega⟩
  rw [h r hr sp hsp] at hover
  cases hover

/-- The hot block is submitted alone and the guest writes to the other page. -/
def storeBesideBlock : List (Act 1) :=
  [.lookup solo .long64 0x1000 0, .lift solo (.flat 0x1000) 1, .insert solo none false,
    .lookup solo .long64 0x1000 0, .submit solo false, .store solo 0x2000 0x90 1]

theorem store_beside_block_published :
    ∃ vm, AllSteps step BetweenDispatches (boot twoPages) storeBesideBlock ∧
      AllSteps step RequestsGuarded (boot twoPages) storeBesideBlock ∧
      run step (boot twoPages) storeBesideBlock = some vm ∧ PublishesCurrent vm := by
  have hseq : AllSteps step BetweenDispatches (boot twoPages) storeBesideBlock :=
    .cons trivial rfl (.cons trivial rfl (.cons trivial rfl (.cons trivial rfl
      (.cons trivial rfl (.cons trivial rfl trivial)))))
  have hok : AllSteps step RequestsGuarded (boot twoPages) storeBesideBlock := by
    refine .cons trivial rfl (.cons trivial rfl (.cons trivial rfl (.cons trivial rfl
      (.cons ?_ rfl (.cons (writesGuarded_of_disjoint (by decide)) rfl trivial)))))
    intro _ fa mode ir epoch lifted hph
    cases hph
    rfl
  exact ⟨_, hseq, hok, rfl, publishes_current_run hseq hok rfl⟩

end X86Jit
