import X86Jit.Core.Links

/-! No slot refers to a dropped unit. Every holder of an entry point carries an epoch, and an
entry found under an epoch stays good until the epoch moves. -/
namespace X86Jit
open X86Jit.Lib TranslationCache Option

variable {n : ℕ} {s s' : LinkState n}

/-- An entry belongs to a unit in the cache, or was replaced by an upgrade of a unit that is
still there. -/
def Belongs (s : LinkState n) (entry : ℕ) : Prop :=
  (∃ e ∈ s.cache.entries, e.block = .compiled entry) ∨
    ∃ key, (entry, key) ∈ s.replaced ∧ (s.cache.get key).isSome = true

def SlotsBelong (s : LinkState n) : Prop :=
  ∀ slot value, s.slots slot = some value → Belongs s value.entry

/-- An indirect edge takes an entry from the fast cache only while that is synced to the epoch the
edge has read. -/
def FastSynced (s : LinkState n) : LinkAct n → Prop
  | .probe v => ∀ since slot rip, (s.vcpus v).phase = .edge since slot true rip →
      (s.vcpus v).fastEpoch = since
  | _ => True

def PhaseOk (now : ℕ) (good : ℕ → Prop) (fastEpoch : ℕ) : EdgePhase → Prop
  | .idle => True
  | .edge since _ _ _ => since ≤ now
  | .found since _ _ _ entry => Stamped now good since entry ∧ Stamped now good fastEpoch entry
  | .entered _ entry => Stamped now good fastEpoch entry

structure VcpuOk (now : ℕ) (good : ℕ → Prop) (c : LinkVcpu) : Prop where
  synced : c.fastEpoch ≤ now
  fast : ∀ i rip entry, c.fast i = some (rip, entry) → Stamped now good c.fastEpoch entry
  phase : PhaseOk now good c.fastEpoch c.phase

structure LinkInv (s : LinkState n) : Prop where
  vcpu : ∀ v, VcpuOk s.cache.epoch (Belongs s) (s.vcpus v)
  slots : s.droppers = ∅ → SlotsBelong s

variable {entry : ℕ}

namespace VcpuOk
variable {now now' : ℕ} {good good' : ℕ → Prop} {c : LinkVcpu}

theorem advance (h : VcpuOk now good c) (ha : Advances now now' good good') :
    VcpuOk now' good' c := by
  refine ⟨h.synced.trans ha.le, ?_, ?_⟩
  · intro i rip entry hfast
    exact (h.fast i rip entry hfast).advance ha
  · have hphase := h.phase
    cases hph : c.phase with
    | idle => trivial
    | edge since slot indirect rip =>
      rw [hph] at hphase
      exact Nat.le_trans hphase ha.le
    | found since slot indirect rip entry =>
      rw [hph] at hphase
      exact ⟨hphase.1.advance ha, hphase.2.advance ha⟩
    | entered rip entry =>
      rw [hph] at hphase
      exact hphase.advance ha

theorem withPhase (h : VcpuOk now good c) {ph : EdgePhase}
    (hph : PhaseOk now good c.fastEpoch ph) : VcpuOk now good { c with phase := ph } :=
  ⟨h.synced, h.fast, hph⟩

theorem fastPut (h : VcpuOk now good c) {rip : U64}
    (he : Stamped now good c.fastEpoch entry) : VcpuOk now good (c.fastPut rip entry) := by
  refine ⟨h.synced, ?_, h.phase⟩
  intro i rip' entry' hfast
  by_cases hi : i = fastIndex rip
  · simp only [LinkVcpu.fastPut, hi, Function.update_self] at hfast
    cases hfast
    exact he
  · simp only [LinkVcpu.fastPut, Function.update_of_ne hi] at hfast
    exact h.fast i rip' entry' hfast

theorem fastGet (h : VcpuOk now good c) {rip : U64}
    (hget : c.fastGet rip = some entry) : Stamped now good c.fastEpoch entry := by
  unfold LinkVcpu.fastGet at hget
  cases hfast : c.fast (fastIndex rip) with
  | none => simp [hfast] at hget
  | some e =>
    simp only [hfast, ite_none_right_eq_some, some.injEq] at hget
    rw [← hget.2]
    exact h.fast _ e.1 e.2 hfast

theorem sync (h : VcpuOk now good c) (hidle : c.phase = .idle) : VcpuOk now good (c.sync now) := by
  unfold LinkVcpu.sync
  split
  · refine ⟨le_refl now, ?_, ?_⟩
    · intro i rip entry hfast
      cases hfast
    · change PhaseOk now good now c.phase
      rw [hidle]
      trivial
  · exact h

end VcpuOk

namespace LinkInv

theorem new : LinkInv (LinkState.new : LinkState n) where
  vcpu _ := ⟨le_refl 0, fun _ _ _ hfast => (nomatch hfast), trivial⟩
  slots _ _ _ hslot := nomatch hslot

theorem shared (h : LinkInv s) (ha : Advances s.cache.epoch s'.cache.epoch (Belongs s) (Belongs s'))
    (hvcpus : s'.vcpus = s.vcpus) (hslots : s'.droppers = ∅ → SlotsBelong s') : LinkInv s' := by
  refine ⟨?_, hslots⟩
  intro v
  rw [hvcpus]
  exact (h.vcpu v).advance ha

theorem setVcpu (h : LinkInv s) (v : Fin n) {c : LinkVcpu}
    (hc : VcpuOk s.cache.epoch (Belongs s) c) : LinkInv (s.setVcpu v c) := by
  refine ⟨?_, h.slots⟩
  intro w
  by_cases hw : w = v
  · have heq : (s.setVcpu v c).vcpus w = c := by simp [LinkState.setVcpu, hw]
    rw [heq]
    exact hc
  · have heq : (s.setVcpu v c).vcpus w = s.vcpus w := by simp [LinkState.setVcpu, hw]
    rw [heq]
    exact h.vcpu w

theorem setPhase (h : LinkInv s) (v : Fin n) {ph : EdgePhase}
    (hph : PhaseOk s.cache.epoch (Belongs s) (s.vcpus v).fastEpoch ph) :
    LinkInv (s.setPhase v ph) :=
  h.setVcpu v ((h.vcpu v).withPhase hph)

end LinkInv

variable {key : BlockKey}

theorem entryOf_eq_some : s.entryOf key = some entry ↔
      ∃ e ∈ s.cache.entries, e.key = key ∧ e.block = .compiled entry := by
  unfold LinkState.entryOf
  constructor
  · intro h
    split at h
    · rename_i key' entry' spans hget
      cases h
      obtain ⟨hmem, hkey⟩ := get_eq_some_iff.mp hget
      exact ⟨_, hmem, hkey, rfl⟩
    · cases h
  · rintro ⟨⟨key', block, spans⟩, hmem, hkey, hblock⟩
    have hget := get_eq_some_iff.mpr ⟨hmem, hkey⟩
    cases hblock
    rw [hget]

theorem isSome_get_put {c : TranslationCache} {e : Entry}
    (h : (c.get key).isSome = true) : ((c.put e).get key).isSome = true := by
  rw [get_put]
  split
  · rfl
  · exact h

theorem belongs_put {e : Entry} (h : Belongs s entry) : Belongs (s.put e) entry := by
  have hkeep : ∀ p ∈ s.replaced, p ∈ (s.put e).replaced := by
    intro p hp
    unfold LinkState.put
    split
    · exact List.mem_cons_of_mem _ hp
    · exact hp
  rcases h with ⟨e', hmem, hblock⟩ | ⟨key, hrep, hsome⟩
  · by_cases hkey : e'.key = e.key
    · right
      have hold := entryOf_eq_some.mpr ⟨e', hmem, hkey, hblock⟩
      refine ⟨e.key, ?_, ?_⟩
      · unfold LinkState.put
        simp only [hold, List.mem_cons_self]
      · exact isSome_iff_exists.mpr ⟨e, get_eq_some_iff.mpr
          ⟨mem_put.mpr (Or.inl rfl), rfl⟩⟩
    · exact Or.inl ⟨e', mem_put.mpr (Or.inr ⟨hmem, hkey⟩), hblock⟩
  · exact Or.inr ⟨key, hkeep _ hrep, isSome_get_put hsome⟩

theorem belongs_compile (key : BlockKey) (spans : List Span) :
    Belongs (s.compile key spans) s.nextEntry :=
  Or.inl ⟨⟨key, .compiled s.nextEntry, spans⟩, mem_put.mpr (Or.inl rfl), rfl⟩

theorem resolve_spec {how : Resolution} {out : Option ℕ} (h : s.resolve key how = some (s', out)) :
    s'.cache.epoch = s.cache.epoch ∧ (∀ entry, Belongs s entry → Belongs s' entry) ∧
      s'.vcpus = s.vcpus ∧ s'.slots = s.slots ∧ s'.droppers = s.droppers ∧
      ∀ entry, out = some entry → Belongs s' entry := by
  cases how with
  | cached =>
    simp only [LinkState.resolve, ite_none_right_eq_some, some.injEq,
      Prod.mk.injEq] at h
    obtain ⟨-, rfl, rfl⟩ := h
    refine ⟨rfl, fun _ hb => hb, rfl, rfl, rfl, ?_⟩
    intro entry hentry
    obtain ⟨e, hmem, -, hblock⟩ := entryOf_eq_some.mp hentry
    exact Or.inl ⟨e, hmem, hblock⟩
  | compile spans =>
    simp only [LinkState.resolve, ite_none_right_eq_some, some.injEq,
      Prod.mk.injEq] at h
    obtain ⟨-, rfl, rfl⟩ := h
    refine ⟨rfl, fun _ hb => belongs_put hb, rfl, rfl, rfl, ?_⟩
    intro entry hentry
    rw [← some.inj hentry]
    exact belongs_compile key spans
  | interpret ir spans =>
    simp only [LinkState.resolve, ite_none_right_eq_some, some.injEq,
      Prod.mk.injEq] at h
    obtain ⟨-, rfl, rfl⟩ := h
    exact ⟨rfl, fun _ hb => belongs_put hb, rfl, rfl, rfl, fun _ hentry => nomatch hentry⟩

theorem drop_advances (s : LinkState n) (who lo hi : ℕ) :
    Advances s.cache.epoch (s.drop who lo hi).cache.epoch (Belongs s)
      (Belongs (s.drop who lo hi)) := by
  by_cases hv : s.cache.victims lo hi = []
  · left
    have hentries : ∀ e, e ∈ (s.drop who lo hi).cache.entries ↔ e ∈ s.cache.entries := by
      intro e
      have hnone := victims_eq_nil_iff.mp hv
      change e ∈ (s.cache.invalidateOverlapping lo hi).entries ↔ _
      rw [mem_invalidateOverlapping]
      exact ⟨And.left, fun he => ⟨he, hnone e he⟩⟩
    refine ⟨if_pos hv, ?_⟩
    rintro entry (⟨e, hmem, hblock⟩ | ⟨key, hrep, hsome⟩)
    · exact Or.inl ⟨e, (hentries e).mpr hmem, hblock⟩
    · right
      obtain ⟨e, hget⟩ := isSome_iff_exists.mp hsome
      obtain ⟨hmem, hkey⟩ := get_eq_some_iff.mp hget
      refine ⟨key, ?_, isSome_iff_exists.mpr ⟨e, get_eq_some_iff.mpr
        ⟨(hentries e).mpr hmem, hkey⟩⟩⟩
      simp [LinkState.drop, hv, hrep]
  · right
    have hepoch : (s.drop who lo hi).cache.epoch = s.cache.epoch + 1 := if_neg hv
    omega

theorem LinkInv.drop (h : LinkInv s) (who lo hi : ℕ) : LinkInv (s.drop who lo hi) := by
  have ha := drop_advances s who lo hi
  refine h.shared ha rfl ?_
  intro hnone
  by_cases hv : s.cache.victims lo hi = []
  · -- nothing was dropped, so no entry was lost
    have hdroppers : s.droppers = ∅ := by
      simpa [LinkState.drop, hv] using hnone
    intro slot value hslot
    rcases ha with ⟨-, hkeep⟩ | hlt
    · exact hkeep _ (h.slots hdroppers slot value hslot)
    · have hepoch : (s.drop who lo hi).cache.epoch = s.cache.epoch := if_pos hv
      omega
  · -- the dropper has the slots still to clear
    exact absurd hnone (by simp [LinkState.drop, hv])

theorem LinkInv.resolved (h : LinkInv s) {how : Resolution} {out : Option ℕ}
    (hr : s.resolve key how = some (s', out)) : LinkInv s' := by
  obtain ⟨hepoch, hkeep, hvcpus, hslots, hdroppers, -⟩ := resolve_spec hr
  refine h.shared (Or.inl ⟨hepoch, hkeep⟩) hvcpus ?_
  intro hnone slot value hslot
  rw [hslots] at hslot
  rw [hdroppers] at hnone
  exact hkeep _ (h.slots hnone slot value hslot)

theorem LinkInv.published (h : LinkInv s) {since slot : ℕ} {value : SlotValue}
    (hp : s.publishIfCurrent since slot value = some s')
    (hvalue : Stamped s.cache.epoch (Belongs s) since value.entry) :
    LinkInv s' ∧ s' = { s with slots := Function.update s.slots slot (some value) } := by
  unfold LinkState.publishIfCurrent at hp
  split at hp
  · cases hp
  · rename_i hepoch
    rw [not_not] at hepoch
    cases hp
    refine ⟨⟨h.vcpu, ?_⟩, rfl⟩
    intro hnone slot' value' hslot
    by_cases hs : slot' = slot
    · rw [hs] at hslot
      simp only [Function.update_self, some.injEq] at hslot
      rw [← hslot]
      exact hvalue.current hepoch.symm
    · simp only [Function.update_of_ne hs] at hslot
      exact h.slots hnone slot' value' hslot

theorem linkInv_step {a : LinkAct n} (h : LinkInv s) (hok : FastSynced s a)
    (hstep : linkStep s a = some s') : LinkInv s' := by
  cases a with
  | sync v =>
    simp only [linkStep, ite_none_right_eq_some, some.injEq] at hstep
    obtain ⟨hidle, rfl⟩ := hstep
    exact h.setVcpu v ((h.vcpu v).sync hidle)
  | dispatch v mode rip cs how =>
    simp only [linkStep, ite_none_right_eq_some] at hstep
    obtain ⟨⟨t, out⟩, hr, rfl⟩ := map_eq_some_iff.mp hstep.2
    have ht := h.resolved hr
    cases out with
    | none => exact ht
    | some entry =>
      obtain ⟨-, -, -, -, -, hentry⟩ := resolve_spec hr
      exact ht.setPhase v (Stamped.of_good (hentry entry rfl) (ht.vcpu v).synced)
  | fill v =>
    simp only [linkStep] at hstep
    have hc := h.vcpu v
    have hphase := hc.phase
    split at hstep
    · rename_i rip entry hph
      cases hstep
      rw [hph] at hphase
      exact h.setVcpu v ((hc.fastPut hphase).withPhase trivial)
    · rename_i since slot rip entry hph
      cases hstep
      rw [hph] at hphase
      exact h.setVcpu v (hc.fastPut hphase.2)
    · cases hstep
  | leave v slot indirect rip =>
    simp only [linkStep, ite_none_right_eq_some, some.injEq] at hstep
    obtain ⟨-, rfl⟩ := hstep
    exact h.setPhase v (le_refl _)
  | probe v =>
    simp only [linkStep] at hstep
    split at hstep
    · rename_i since slot rip hph
      obtain ⟨entry, hget, rfl⟩ := map_eq_some_iff.mp hstep
      have hstamp := (h.vcpu v).fastGet hget
      -- the fast cache is synced to the epoch of the edge, so its stamp is the edge's
      have hsync := hok since slot rip hph
      refine h.setPhase v ⟨?_, hstamp⟩
      rw [← hsync]
      exact hstamp
    · cases hstep
  | resolveEdge v mode how =>
    simp only [linkStep] at hstep
    split at hstep
    · rename_i since slot indirect rip hph
      split at hstep
      · cases hstep
      · obtain ⟨⟨t, out⟩, hr, rfl⟩ := map_eq_some_iff.mp hstep
        have ht := h.resolved hr
        cases out with
        | none => exact ht.setPhase v trivial
        | some entry =>
          obtain ⟨hepoch, -, -, -, -, hentry⟩ := resolve_spec hr
          have hsince : since ≤ s.cache.epoch := by
            have hphase := (h.vcpu v).phase
            rw [hph] at hphase
            exact hphase
          exact ht.setPhase v ⟨Stamped.of_good (hentry entry rfl) (hepoch.symm ▸ hsince),
            Stamped.of_good (hentry entry rfl) (ht.vcpu v).synced⟩
    · cases hstep
  | publish v =>
    have hphase := (h.vcpu v).phase
    simp only [linkStep, LinkState.publish] at hstep
    split at hstep
    · rename_i since slot rip entry hph
      rw [hph] at hphase
      split at hstep
      · cases hstep
        exact h.setPhase v trivial
      · rename_i t hpub
        cases hstep
        obtain ⟨ht, rfl⟩ := h.published hpub hphase.1
        exact ht.setPhase v hphase.2
    · rename_i since slot rip entry hph
      rw [hph] at hphase
      split at hstep
      · split at hstep
        · cases hstep
          exact h.setVcpu v ⟨(h.vcpu v).synced, (h.vcpu v).fast, trivial⟩
        · rename_i t hpub
          cases hstep
          obtain ⟨ht, rfl⟩ := h.published hpub hphase.1
          exact ht.setVcpu v ⟨(h.vcpu v).synced, (h.vcpu v).fast, trivial⟩
      · cases hstep
        exact h.setPhase v trivial
    · cases hstep
  | abandon v =>
    cases hstep
    exact h.setPhase v trivial
  | tierUp key spans =>
    cases hstep
    refine h.shared (Or.inl ⟨rfl, fun _ hb => belongs_put hb⟩) rfl ?_
    intro hnone slot value hslot
    exact belongs_put (h.slots hnone slot value hslot)
  | drop who lo hi =>
    cases hstep
    exact h.drop who lo hi
  | invalidateLinks who =>
    cases hstep
    exact ⟨h.vcpu, fun _ _ _ hslot => nomatch hslot⟩

/-- In every interleaving in which indirect edges probe a synced fast cache, whenever no
`invalidate_links` is outstanding every slot refers to a unit that is still there. -/
theorem slots_belong_run {acts : List (LinkAct n)}
    (hok : AllSteps linkStep FastSynced LinkState.new acts)
    (hrun : run linkStep LinkState.new acts = some s) (hdone : s.droppers = ∅) : SlotsBelong s := by
  have hinv := AllSteps.invariant LinkInv (fun _ _ _ => linkInv_step) LinkInv.new hok hrun
  exact hinv.slots hdone

theorem not_belongs_of_nil (hentries : s.cache.entries = []) (hreplaced : s.replaced = [])
    (entry : ℕ) : ¬Belongs s entry := by
  intro h
  rcases h with ⟨e, he, -⟩ | ⟨key, hkey, -⟩
  · rw [hentries] at he
    exact absurd he List.not_mem_nil
  · rw [hreplaced] at hkey
    exact absurd hkey List.not_mem_nil

def targetSpan : Span := ⟨0x1000, [0], by decide⟩

/-- Vcpu 1 drops the unit at `0x1000` and clears the slots; vcpu 0, which has it in its fast cache,
misses on an indirect edge to it. -/
def probeAfterDrop : List (LinkAct 2) :=
  [.dispatch 0 .long64 0x1000 0 (.compile [targetSpan]), .fill 0, .drop 1 0x1000 0x2000,
    .invalidateLinks 1, .leave 0 7 true 0x1000, .probe 0, .publish 0]

/-- The edge reads the new epoch and then takes the dropped unit from the fast cache. -/
theorem probe_after_drop_publishes :
    ∃ s, run linkStep LinkState.new probeAfterDrop = some s ∧ s.droppers = ∅ ∧ ¬SlotsBelong s := by
  refine ⟨_, rfl, by decide, ?_⟩
  intro h
  exact not_belongs_of_nil rfl rfl 0 (h 7 (.ibtc 0x1000 0) rfl)

def probeAfterSync : List (LinkAct 2) :=
  [.dispatch 0 .long64 0x1000 0 (.compile [targetSpan]), .fill 0, .sync 0,
    .leave 0 7 true 0x1000, .probe 0, .publish 0]

theorem probe_after_sync_publishes :
    ∃ s, AllSteps linkStep FastSynced LinkState.new probeAfterSync ∧
      run linkStep LinkState.new probeAfterSync = some s ∧ s.droppers = ∅ ∧ SlotsBelong s := by
  have hok : AllSteps linkStep FastSynced LinkState.new probeAfterSync := by
    refine .cons trivial rfl (.cons trivial rfl (.cons trivial rfl (.cons trivial rfl
      (.cons ?_ rfl (.cons trivial rfl trivial)))))
    intro since slot rip hph
    cases hph
    rfl
  exact ⟨_, hok, rfl, rfl, slots_belong_run hok rfl rfl⟩

end X86Jit
