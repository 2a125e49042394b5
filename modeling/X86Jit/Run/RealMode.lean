import X86Jit.Interp.Delivery
import X86Jit.Run.Vcpu

/-! Real mode: a CPU exception goes to the guest through the vector table, and a hardware
interrupt the embedder injected is delivered once or stays pending. -/
namespace X86Jit.Run
open X86Jit.Lib X86Jit.Lift List

variable {vector : U8} {Y V : Type} (M : Machine Y V)

def State.interprets (s : State V) (act : Act Y V) : Option (Vcpu V × OpBlock (OtherOp Y)) :=
  match s.phase, act with
  | .ready, .resume => (liftOne M.lifter s.vcpu.mode s.vcpu.mem s.vcpu.fetch).toOption.map (s.vcpu, ·)
  | .ready, .dispatch (.interpreted ir) => some (s.vcpu, ir)
  | .ready, .dispatch (.miss none) =>
    (Lift.liftBlock M.lifter s.vcpu.mode s.vcpu.mem s.vcpu.fetch).toOption.map fun ir =>
      (tagged s.vcpu s.vcpu.fetch.pa ir.guestLen, ir)
  | _, _ => none

/-- The interpretation of a block from `v` comes to `op` in the state `t`. -/
def Comes (v : Vcpu V) (ir : OpBlock (OtherOp Y)) (op : IrOp (OtherOp Y)) (t : WalkState V) : Prop :=
  Reaches (exec M.sem ir.blockEnd) ir.ops (enterBlock ir v.state) op t

def GatesDeliver (v : Vcpu V) (ir : OpBlock (OtherOp Y)) (s' : WalkState V) : Prop :=
  ∀ op t vector savedIp, Comes M v ir op t → op.gate t = some (vector, savedIp) →
    Delivered t vector savedIp s'

def GatesCan (v : Vcpu V) (ir : OpBlock (OtherOp Y)) : Prop :=
  ∀ op t vector savedIp, Comes M v ir op t → op.gate t = some (vector, savedIp) →
    deliverable t vector = true

/-- A run does not return with an exception, an exception in hand is delivered, an op that is a gate
delivers, and an exception out of a block is taken in hand. -/
structure DeliversInGuest (s : State V) (act : Act Y V) (s' : State V) : Prop where
  inGuest : ∀ addr vector, s'.returned ≠ some (.guest (.exception addr vector))
  raised : ∀ addr vector, s.phase = .raised addr vector →
    Delivered s.vcpu.state vector addr s'.vcpu.state
  gate : ∀ v ir, s.interprets M act = some (v, ir) → GatesDeliver M v ir s'.vcpu.state
  fault : ∀ v ir op t addr vector, s.interprets M act = some (v, ir) → Comes M v ir op t →
    op.fault M.sem t = some (addr, vector) → s'.phase = .raised addr vector

/-- The words every delivery of the step touches are backed, and the instruction an MMIO
answer completes raises no exception. -/
structure CanDeliver (s : State V) (act : Act Y V) : Prop where
  raised : ∀ addr vector, s.phase = .raised addr vector → deliverable s.vcpu.state vector = true
  gate : ∀ v ir, s.interprets M act = some (v, ir) → GatesCan M v ir
  resumed : ∀ v ir op t, act = .resume → s.interprets M act = some (v, ir) → Comes M v ir op t →
    op.fault M.sem t = none

variable {M} {v : Vcpu V} {ir : OpBlock (OtherOp Y)}

theorem interpret_exception_iff {addr : U64} :
    (interpret M v ir).2 = .exit (.exception addr vector) ↔
      ∃ op t, Comes M v ir op t ∧ op.fault M.sem t = some (addr, vector) :=
  walkOps_exception_iff

theorem interpret_of_gate {op : IrOp (OtherOp Y)}
    {t : WalkState V} {savedIp : U64} (hcomes : Comes M v ir op t)
    (hgate : op.gate t = some (vector, savedIp)) :
    (interpret M v ir).1.state = (deliverInterrupt t vector savedIp).state := by
  change (walkOps M.sem ir (enterBlock ir v.state)).state = _
  rw [walkOps_of_gate hcomes hgate]

theorem gates_iff {s' : WalkState V} (h : ∀ t vector savedIp, Delivered t vector savedIp s' ↔
      Delivered t vector savedIp (interpret M v ir).1.state) :
    GatesDeliver M v ir s' ↔ GatesCan M v ir := by
  have hone : ∀ op t vector savedIp, Comes M v ir op t → op.gate t = some (vector, savedIp) →
      (Delivered t vector savedIp s' ↔ deliverable t vector = true) := by
    intro op t vector savedIp hcomes hgate
    rw [h, interpret_of_gate hcomes hgate]
    exact delivered_iff t vector savedIp
  constructor
  · intro hall op t vector savedIp hcomes hgate
    exact (hone op t vector savedIp hcomes hgate).mp (hall op t vector savedIp hcomes hgate)
  · intro hall op t vector savedIp hcomes hgate
    exact (hone op t vector savedIp hcomes hgate).mpr (hall op t vector savedIp hcomes hgate)

theorem runInterpreted_real16 (hmode : v.mode = .real16) (ir : OpBlock (OtherOp Y)) :
    (runInterpreted M v ir).vcpu = (interpret M v ir).1 ∧
      (∀ addr vector, (runInterpreted M v ir).returned ≠ some (.guest (.exception addr vector))) ∧
      ∀ addr vector, (interpret M v ir).2 = .exit (.exception addr vector) →
        (runInterpreted M v ir).phase = .raised addr vector := by
  unfold runInterpreted
  dsimp only
  split
  · rename_i addr vector hres
    rw [if_pos hmode]
    refine ⟨rfl, nofun, ?_⟩
    intro addr' vector' hres'
    cases hres.symm.trans hres'
    rfl
  · rename_i hno
    refine ⟨rfl, ?_, ?_⟩
    · intro addr vector hret
      apply hno addr vector
      cases hr : (interpret M v ir).2 with
      | «continue» =>
        rw [hr] at hret
        cases hret
      | exit e =>
        rw [hr] at hret
        cases hret
        rfl
    · intro addr vector hres
      exact absurd hres (hno addr vector)

theorem ready_ne_raised (addr : U64) (vector : U8) : Phase.ready ≠ .raised addr vector := by
  intro h
  cases h

theorem dispatch_ne_resume (fetched : Fetched Y V) : Act.dispatch fetched ≠ .resume := by
  intro h
  cases h

theorem deliversInGuest_iff_of_idle {s s' : State V} {act : Act Y V}
    (hphase : ∀ addr vector, s.phase ≠ .raised addr vector) (hidle : s.interprets M act = none)
    (hret : ∀ addr vector, s'.returned ≠ some (.guest (.exception addr vector))) :
    DeliversInGuest M s act s' ↔ CanDeliver M s act := by
  refine iff_of_true ⟨hret, ?_, ?_, ?_⟩ ⟨?_, ?_, ?_⟩
  · intro addr vector h
    exact absurd h (hphase addr vector)
  · intro v ir h
    rw [hidle] at h
    cases h
  · intro v ir op t addr vector h
    rw [hidle] at h
    cases h
  · intro addr vector h
    exact absurd h (hphase addr vector)
  · intro v ir h
    rw [hidle] at h
    cases h
  · intro v ir op t _ h
    rw [hidle] at h
    cases h

theorem deliversInGuest_iff_of_block {s : State V} {act : Act Y V} (hphase : s.phase = .ready)
    (hact : act ≠ .resume)
    (hblock : s.interprets M act = some (v, ir)) (hmode : v.mode = .real16) :
    DeliversInGuest M s act (runInterpreted M v ir) ↔ CanDeliver M s act := by
  obtain ⟨hvcpu, hret, hraise⟩ := runInterpreted_real16 hmode ir
  have hgates : GatesDeliver M v ir (runInterpreted M v ir).vcpu.state ↔ GatesCan M v ir := by
    apply gates_iff
    rw [hvcpu]
    exact fun _ _ _ => Iff.rfl
  have hready : ∀ addr vector, s.phase ≠ .raised addr vector := by
    rw [hphase]
    exact nofun
  constructor
  · intro h
    refine ⟨?_, ?_, ?_⟩
    · intro addr vector hr
      exact absurd hr (hready addr vector)
    · intro v' ir' hb
      cases hblock.symm.trans hb
      exact hgates.mp (h.gate v ir hblock)
    · intro v' ir' op t hr
      exact absurd hr hact
  · intro h
    refine ⟨hret, ?_, ?_, ?_⟩
    · intro addr vector hr
      exact absurd hr (hready addr vector)
    · intro v' ir' hb
      cases hblock.symm.trans hb
      exact hgates.mpr (h.gate v ir hblock)
    · intro v' ir' op t addr vector hb hcomes hfault
      cases hblock.symm.trans hb
      exact hraise addr vector (interpret_exception_iff.mpr ⟨op, t, hcomes, hfault⟩)

theorem deliversInGuest_iff_of_resume {returned : Option RunExit} :
    DeliversInGuest M ⟨v, .ready, returned⟩ .resume (resume M v) ↔
      CanDeliver M ⟨v, .ready, returned⟩ .resume := by
  cases hlift : liftOne M.lifter v.mode v.mem v.fetch with
  | error e =>
    -- nothing is interpreted, and the exit is about lifting
    have hidle : State.interprets M ⟨v, .ready, returned⟩ .resume = none := by
      simp only [State.interprets, hlift]
      rfl
    apply deliversInGuest_iff_of_idle ready_ne_raised hidle
    intro addr vector hret
    simp only [resume, stepOne, hlift] at hret
    cases e <;> cases hret
  | ok ir =>
    have hblock : State.interprets M ⟨v, .ready, returned⟩ .resume = some (v, ir) := by
      simp only [State.interprets, hlift]
      rfl
    have hstep : stepOne M v = ((interpret M v ir).1, returns (interpret M v ir).2) := by
      simp only [stepOne, hlift]
    have hdelivered : ∀ t vector savedIp, Delivered t vector savedIp (resume M v).vcpu.state ↔
        Delivered t vector savedIp (interpret M v ir).1.state := by
      intro t vector savedIp
      unfold resume
      rw [hstep]
      cases returns (interpret M v ir).2 with
      | some e => exact Iff.rfl
      | none => exact ⟨fun h => ⟨h.1, h.2, h.3, h.4, h.5⟩, fun h => ⟨h.1, h.2, h.3, h.4, h.5⟩⟩
    have hgates := gates_iff hdelivered
    have hret : ∀ addr vector, (resume M v).returned = some (.guest (.exception addr vector)) ↔
        (interpret M v ir).2 = .exit (.exception addr vector) := by
      intro addr vector
      unfold resume
      rw [hstep]
      cases (interpret M v ir).2 with
      | «continue» => exact ⟨nofun, nofun⟩
      | exit e =>
        constructor
        · intro h
          cases h
          rfl
        · intro h
          cases h
          rfl
    constructor
    · intro h
      refine ⟨?_, ?_, ?_⟩
      · intro addr vector hr
        exact absurd hr (ready_ne_raised addr vector)
      · intro v' ir' hb
        cases hblock.symm.trans hb
        exact hgates.mp (h.gate v ir hblock)
      · intro v' ir' op t _ hb hcomes
        cases hblock.symm.trans hb
        cases hfault : op.fault M.sem t with
        | none => rfl
        | some p =>
          have hexc := interpret_exception_iff.mpr ⟨op, t, hcomes, hfault⟩
          exact absurd ((hret p.1 p.2).mpr hexc) (h.inGuest p.1 p.2)
    · intro h
      have hcalm : ∀ op t, Comes M v ir op t → op.fault M.sem t = none :=
        fun op t => h.resumed v ir op t rfl hblock
      refine ⟨?_, ?_, ?_, ?_⟩
      · intro addr vector hr
        obtain ⟨op, t, hcomes, hfault⟩ := interpret_exception_iff.mp ((hret addr vector).mp hr)
        rw [hcalm op t hcomes] at hfault
        cases hfault
      · intro addr vector hr
        exact absurd hr (ready_ne_raised addr vector)
      · intro v' ir' hb
        cases hblock.symm.trans hb
        exact hgates.mpr (h.gate v ir hblock)
      · intro v' ir' op t addr vector hb hcomes hfault
        cases hblock.symm.trans hb
        rw [hcalm op t hcomes] at hfault
        cases hfault

theorem delivered_deliverAt_iff (s : WalkState V) (vector : U8) (addr : U64) :
    Delivered s vector addr (deliverAt s vector addr).state ↔ deliverable s vector = true := by
  have hd := delivered_iff { s with guest := { s.guest with curAddr := addr } } vector addr
  constructor
  · intro h
    exact hd.mp ⟨h.1, h.2, h.3, h.4, h.5⟩
  · intro h
    obtain ⟨h₁, h₂, h₃, h₄, h₅⟩ := hd.mpr h
    exact ⟨h₁, h₂, h₃, h₄, h₅⟩

theorem returns_deliverAt (s : WalkState V) (vector : U8) (addr addr' : U64)
    (vector' : U8) :
    returns (deliverAt s vector addr).result ≠ some (.guest (.exception addr' vector')) := by
  intro h
  have hcalm := deliverInterrupt_not_exception
    { s with guest := { s.guest with curAddr := addr } } vector addr
  unfold deliverAt at h
  cases hr : (deliverInterrupt { s with guest := { s.guest with curAddr := addr } } vector
      addr).result with
  | «continue» =>
    rw [hr] at h
    cases h
  | exit e =>
    rw [hr] at h hcalm
    cases h
    cases hcalm

theorem deliversInGuest_iff {s s' : State V} {act : Act Y V} (hmode : s.vcpu.mode = .real16)
    (hstep : step M s act = some s') : DeliversInGuest M s act s' ↔ CanDeliver M s act := by
  cases turn_of_step hstep with
  | @resume v returned hanswered => exact deliversInGuest_iff_of_resume
  | @takeIrq v returned vector hpending hopen =>
    apply deliversInGuest_iff_of_idle ready_ne_raised rfl
    intro addr vector' hret
    unfold takeIrq at hret
    dsimp only at hret
    split at hret
    · cases hret
    · rename_i x hx
      cases hret
      apply returns_deliverAt v.state vector v.state.guest.rip addr vector'
      rw [hx]
      rfl
  | @dispatch v returned fetched hallowed =>
    cases fetched with
    | interpreted ir => exact deliversInGuest_iff_of_block rfl (dispatch_ne_resume _) rfl hmode
    | compiled code =>
      -- real mode is never compiled
      have hno : (v.mode != .real16) = true := hallowed
      rw [hmode] at hno
      cases hno
    | miss code =>
      cases code with
      | some code =>
        have hno : (v.mode != .real16) = true := hallowed
        rw [hmode] at hno
        cases hno
      | none =>
        cases hlift : Lift.liftBlock M.lifter v.mode v.mem v.fetch with
        | error e =>
          have hidle : State.interprets M ⟨v, .ready, returned⟩ (.dispatch (.miss none)) = none := by
            simp only [State.interprets, hlift]
            rfl
          apply deliversInGuest_iff_of_idle ready_ne_raised hidle
          intro addr vector hret
          simp only [dispatch, hlift] at hret
          cases e <;> cases hret
        | ok ir =>
          have hblock : State.interprets M ⟨v, .ready, returned⟩ (.dispatch (.miss none)) =
              some (tagged v v.fetch.pa ir.guestLen, ir) := by
            simp only [State.interprets, hlift]
            rfl
          have hrun : dispatch M v (.miss none) =
              runInterpreted M (tagged v v.fetch.pa ir.guestLen) ir := by
            simp only [dispatch, hlift]
          rw [hrun]
          exact deliversInGuest_iff_of_block rfl (dispatch_ne_resume _) hblock hmode
  | @deliverException v returned addr vector =>
    have hidle : State.interprets M ⟨v, .raised addr vector, returned⟩ .deliverException = none :=
      rfl
    -- no block runs here: all that counts is whether the pending exception gets through
    constructor
    · intro h
      refine ⟨?_, ?_, ?_⟩
      · rintro _ _ ⟨⟩
        exact (delivered_deliverAt_iff v.state vector addr).mp (h.raised addr vector rfl)
      · intro v' ir' hb
        cases hidle.symm.trans hb
      · intro v' ir' op t hr
        cases hr
    · intro h
      refine ⟨?_, ?_, ?_, ?_⟩
      · intro addr' vector'
        exact returns_deliverAt v.state vector addr addr' vector'
      · rintro _ _ ⟨⟩
        exact (delivered_deliverAt_iff v.state vector addr).mpr (h.raised addr vector rfl)
      · intro v' ir' hb
        cases hidle.symm.trans hb
      · intro v' ir' op t addr' vector' hb
        cases hidle.symm.trans hb
  | @link v returned cached =>
    have hlinking : ∀ addr vector, Phase.linking ≠ .raised addr vector := by
      intro addr vector h
      cases h
    apply deliversInGuest_iff_of_idle hlinking rfl
    intro addr vector hret
    cases cached with
    | true => cases hret
    | false =>
      simp only [Bool.false_eq_true, if_false, relink] at hret
      split at hret
      · rename_i e _
        cases e <;> cases hret
      · cases hret
  | _ =>
    apply deliversInGuest_iff_of_idle ready_ne_raised rfl
    intro addr vector hret
    cases hret

/-- Along every run of a real-mode vcpu no call of `run` returns with an exception and every
exception is delivered through the table, exactly when every delivery has its words backed and no
instruction that an MMIO answer completes raises an exception. -/
theorem exceptions_delivered_run (v : Vcpu V) (hmode : v.mode = .real16) (acts : List (Act Y V)) :
    AllSteps (step M) (fun s act => ∀ s', step M s act = some s' → DeliversInGuest M s act s')
        (atHead v none) acts ↔
      AllSteps (step M) (fun s act => (step M s act).isSome → CanDeliver M s act)
        (atHead v none) acts := by
  apply allSteps_congr (fun s => s.vcpu.mode = .real16)
  · intro s act s' hs hstep
    rw [mode_of_turn (turn_of_step hstep)]
    exact hs
  · intro s act hs
    constructor
    · intro h hsome
      obtain ⟨s', hs'⟩ := Option.isSome_iff_exists.mp hsome
      exact (deliversInGuest_iff hs hs').mp (h s' hs')
    · intro h s' hs'
      apply (deliversInGuest_iff hs hs').mpr
      apply h
      rw [hs']
      rfl
  · exact hmode

variable (M : Machine Y V)

/-- The interrupt is pending and has not been taken, or it has been taken once and came through. -/
def Serviced (s : State V) (vector : U8) (mid : List (Act Y V)) (s' : State V) : Prop :=
  (s'.vcpu.pendingIrq = some vector ∧ Act.takeIrq ∉ mid) ∨
    (s'.vcpu.pendingIrq = none ∧ ∃ l₁ l₂ t t', mid = l₁ ++ .takeIrq :: l₂ ∧ Act.takeIrq ∉ l₁ ∧
      Act.takeIrq ∉ l₂ ∧ run (step M) s l₁ = some t ∧ step M t .takeIrq = some t' ∧
      Delivered t.vcpu.state vector t.vcpu.state.guest.rip t'.vcpu.state)

variable {M}

theorem pendingIrq_of_step {t t' : State V} {act : Act Y V} (hstep : step M t act = some t')
    (hinject : ∀ w, act ≠ .injectIrq w) (htake : act ≠ .takeIrq) :
    t'.vcpu.pendingIrq = t.vcpu.pendingIrq := by
  cases turn_of_step hstep with
  | injectIrq => exact absurd rfl (hinject _)
  | takeIrq => exact absurd rfl htake
  | resume => exact (keeps_resume _).irq
  | dispatch => exact (keeps_dispatch _ _).irq
  | @link v returned cached =>
    cases cached with
    | true => rfl
    | false => exact (keeps_relink v).irq
  | _ => rfl

theorem takeIrq_of_step {t t' : State V} (hstep : step M t .takeIrq = some t') :
    ∃ vector, t.vcpu.pendingIrq = some vector ∧ t'.vcpu.pendingIrq = none ∧
      (Delivered t.vcpu.state vector t.vcpu.state.guest.rip t'.vcpu.state ↔
        deliverable t.vcpu.state vector = true) ∧
      (deliverable t.vcpu.state vector = false → t'.returned.isSome = true) := by
  cases turn_of_step hstep with
  | @takeIrq v returned vector hpending hopen =>
    have hstate : (takeIrq v vector).vcpu.state =
        (deliverAt v.state vector v.state.guest.rip).state := by
      unfold takeIrq
      dsimp only
      split <;> rfl
    refine ⟨vector, hpending, ?_, ?_, ?_⟩
    · unfold takeIrq
      dsimp only
      split <;> rfl
    · rw [hstate]
      exact delivered_deliverAt_iff v.state vector v.state.guest.rip
    · intro hno
      -- the delivery did not go on, so the loop returned its exit
      have hcases := deliverInterrupt_cases
        { v.state with guest := { v.state.guest with curAddr := v.state.guest.rip } } vector
        v.state.guest.rip
      rcases hcases with ⟨hyes, -⟩ | ⟨-, x, hx, -⟩
      · have hsame : deliverable v.state vector = true := hyes
        rw [hno] at hsame
        cases hsame
      · have hresult : (deliverAt v.state vector v.state.guest.rip).result = .exit x := hx
        unfold takeIrq
        dsimp only
        rw [hresult]
        rfl

theorem pendingIrq_of_run {s t : State V} {mid : List (Act Y V)}
    (hs : s.vcpu.pendingIrq = some vector) (hlast : ∀ w, Act.injectIrq w ∉ mid)
    (hrun : run (step M) s mid = some t) :
    t.vcpu.pendingIrq = some vector ∨ t.vcpu.pendingIrq = none := by
  induction mid using reverseRecOn generalizing t with
  | nil =>
    cases hrun
    exact Or.inl hs
  | append_singleton mid act ih =>
    obtain ⟨u, hu, hstep⟩ := run_concat.mp hrun
    have hmid : ∀ w, Act.injectIrq w ∉ mid := fun w hw => hlast w (mem_append_left _ hw)
    have hact : ∀ w, act ≠ .injectIrq w := by
      rintro w rfl
      exact hlast w (mem_append_right _ mem_cons_self)
    by_cases htake : act = .takeIrq
    · subst htake
      obtain ⟨-, -, hnone, -⟩ := takeIrq_of_step hstep
      exact Or.inr hnone
    · rw [pendingIrq_of_step hstep hact htake]
      exact ih hmid hu

theorem Serviced.step {s t t' : State V} {mid : List (Act Y V)}
    {act : Act Y V} (h : Serviced M s vector mid t) (hrun : run (step M) s mid = some t)
    (hstep : step M t act = some t') (hact : ∀ w, act ≠ .injectIrq w)
    (hok : act = .takeIrq → deliverable t.vcpu.state vector = true) :
    Serviced M s vector (mid ++ [act]) t' := by
  by_cases htake : act = .takeIrq
  · subst htake
    obtain ⟨w, hw, hnone, hdelivered, -⟩ := takeIrq_of_step hstep
    rcases h with ⟨hpending, hmid⟩ | ⟨hpending, -⟩
    · cases hw.symm.trans hpending
      exact Or.inr ⟨hnone, mid, [], t, t', rfl, hmid, not_mem_nil, hrun, hstep,
        hdelivered.mpr (hok rfl)⟩
    · cases hw.symm.trans hpending
  · have hsame := pendingIrq_of_step hstep hact htake
    have hlast : Act.takeIrq ∉ [act] := by
      intro hmem
      exact htake (List.mem_singleton.mp hmem).symm
    rcases h with ⟨hpending, hmid⟩ | ⟨hpending, l₁, l₂, u, u', rfl, h₁, h₂, hu, hu', hd⟩
    · refine Or.inl ⟨hsame.trans hpending, ?_⟩
      rw [mem_append]
      rintro (hmem | hmem)
      · exact hmid hmem
      · exact hlast hmem
    · refine Or.inr ⟨hsame.trans hpending, l₁, l₂ ++ [act], u, u', ?_, h₁, ?_, hu, hu', hd⟩
      · rw [List.append_assoc, List.cons_append]
      · rw [mem_append]
        rintro (hmem | hmem)
        · exact h₂ hmem
        · exact hlast hmem

/-- After an injection that no later one overwrites, at every return of `run` the vector is pending
or was delivered once, exactly when the words of the delivery are backed whenever it is taken. -/
theorem irq_serviced_run (s₀ s : State V) (vector : U8)
    (hinject : step M s₀ (.injectIrq vector) = some s) (post : List (Act Y V))
    (hlast : ∀ w, Act.injectIrq w ∉ post) :
    (∀ mid s', mid <+: post → run (step M) s mid = some s' → s'.returned.isSome →
        Serviced M s vector mid s') ↔
      ∀ mid t, mid ++ [.takeIrq] <+: post → run (step M) s mid = some t →
        (step M t .takeIrq).isSome → deliverable t.vcpu.state vector = true := by
  have hs : s.vcpu.pendingIrq = some vector := by
    cases turn_of_step hinject
    rfl
  constructor
  · intro hall mid t hmid hrun hsome
    obtain ⟨t', ht'⟩ := Option.isSome_iff_exists.mp hsome
    obtain ⟨w, hw, hnone, hdelivered, hreturns⟩ := takeIrq_of_step ht'
    have hinit : mid <+: post := (prefix_append mid [.takeIrq]).trans hmid
    have hvector : w = vector := by
      have hclean : ∀ w, Act.injectIrq w ∉ mid := fun w hmem => hlast w (hinit.subset hmem)
      rcases pendingIrq_of_run hs hclean hrun with h | h
      · exact Option.some.inj (hw.symm.trans h)
      · cases hw.symm.trans h
    subst hvector
    by_contra hno
    have hfalse : deliverable t.vcpu.state w = false := Bool.not_eq_true _ ▸ hno
    -- the failed delivery returns, and by then nothing is pending
    rcases hall (mid ++ [.takeIrq]) t' hmid (run_concat.mpr ⟨t, hrun, ht'⟩) (hreturns hfalse) with
      ⟨hpending, -⟩ | ⟨-, l₁, l₂, u, u', hsplit, h₁, h₂, hu, hu', hd⟩
    · cases hnone.symm.trans hpending
    · rcases eq_nil_or_concat l₂ with rfl | ⟨l₂, b, rfl⟩
      · obtain ⟨rfl, -⟩ := append_inj' hsplit rfl
        cases hrun.symm.trans hu
        cases ht'.symm.trans hu'
        exact hno (hdelivered.mp hd)
      · have hb : Act.takeIrq = b := by
          have hsplit' : mid ++ [Act.takeIrq] = (l₁ ++ .takeIrq :: l₂) ++ [b] := by
            rw [hsplit, concat_eq_append, List.append_assoc, List.cons_append]
          obtain ⟨-, hlast⟩ := append_inj' hsplit' rfl
          exact List.singleton_inj.mp hlast
        apply h₂
        rw [hb, concat_eq_append]
        exact mem_append_right _ mem_cons_self
  · intro hok mid
    -- the invariant holds after every prefix, not only at the returns
    suffices hinv : ∀ s', mid <+: post → run (step M) s mid = some s' → Serviced M s vector mid s' by
      intro s' hmid hrun _
      exact hinv s' hmid hrun
    induction mid using reverseRecOn with
    | nil =>
      intro s' _ hrun
      cases hrun
      exact Or.inl ⟨hs, not_mem_nil⟩
    | append_singleton mid act ih =>
      intro s' hmid hrun
      obtain ⟨t, ht, hstep⟩ := run_concat.mp hrun
      have hinit : mid <+: post := (prefix_append mid [act]).trans hmid
      refine (ih t hinit ht).step ht hstep ?_ ?_
      · rintro w rfl
        exact hlast w (hmid.subset (mem_append_right _ mem_cons_self))
      · rintro rfl
        apply hok mid t hmid ht
        rw [hstep]
        rfl

/-- `div word ptr [bx]` in 16-bit code. -/
def divWord (ip : U64) : Insn :=
  { ip, len := 2, codeSize := .code16, mnemonic := .div
    operands := [.memory]
    mem := { base := .gpr rbx .b2, size := 2 } }

def divDecoder : Decoder := .ofOpcode .real16 0xf7 0x37 divWord fun _ => ⟨rfl, rfl, rfl⟩

def divMachine : Machine Empty Unit :=
  { lifter := ⟨divDecoder, fun _ _ => unsupportedInsn, false⟩
    sem := fun _ g => (.ok g, fun _ => none)
    clearMmioParts := id }

theorem divRegions_le :
    ∀ r ∈ [Region.mk 0 0x800 .ram, ⟨0x1000, 2, .ram⟩, ⟨0x2000, 0x10, .trap⟩], r.stop ≤ 0x10000 := by
  decide

/-- A guest that divides by a device register at `0x2000`. The table at 0 and a stack below `0x800`
are RAM. -/
def dividesByDevice : Vcpu Unit :=
  let s := WalkState.zero () (.small _ divRegions_le fun a =>
    if a = 0x1000 then 0xf7 else if a = 0x1001 then 0x37 else 0)
  { state := { s with guest := { (s.guest.setGpr rbx 0x2000).setGpr rsp 0x800 with rip := 0x1000 } }
    mode := .real16 }

def answersZero : List (Act Empty Unit) :=
  [.dispatch (.miss none), .completeMmioRead 0, .resume]

/-- `aam 0`, which raises a divide error. -/
def aamZero : OpBlock (OtherOp Empty) :=
  { guestStart := 0x1000, guestLen := 2, ops := [.plain (.insnStart 0x1000), .bcd (.aam 0)] }

theorem aamZero_delivers : AllSteps (step divMachine)
      (fun s act => ∀ s', step divMachine s act = some s' → DeliversInGuest divMachine s act s')
      (atHead dividesByDevice none) [.dispatch (.interpreted aamZero), .deliverException] ∧
    (run (step divMachine) (atHead dividesByDevice none)
        [.dispatch (.interpreted aamZero), .deliverException]).map
      (fun s => (s.returned, s.vcpu.ip, s.vcpu.state.guest.gpr rsp)) = some (none, 0, 0x7fa) := by
  refine ⟨(exceptions_delivered_run dividesByDevice rfl _).mpr ⟨fun _ => ?_, ?_⟩, by decide⟩
  · refine ⟨fun _ _ h => absurd h (ready_ne_raised _ _), ?_,
      fun _ _ _ _ h => absurd h (dispatch_ne_resume _)⟩
    intro v ir h op t vector savedIp hcomes hgate
    cases h
    obtain _ | ⟨h, _ | ⟨_, ⟨⟩⟩⟩ := hcomes <;> cases hgate
  · intro s' hs'
    cases hs'
    refine ⟨fun _ => ⟨?_, fun _ _ h => (by cases h), fun _ _ _ _ h => (by cases h)⟩,
      fun _ _ => trivial⟩
    intro addr vector h
    cases h
    decide

/-- The divide error of the completed instruction is returned to the embedder. -/
theorem divide_error_returned :
    (run (step divMachine) (atHead dividesByDevice none) answersZero).map
        (fun s => (s.returned, s.vcpu.ip, s.vcpu.state.guest.gpr rsp)) =
      some (some (.guest (.exception 0x1000 0)), 0x1000, 0x800) := by
  decide

/-- The same guest with interrupts on, and its stack where `sp` says. -/
def interruptsOn (sp : U64) : Vcpu Unit :=
  let v := dividesByDevice
  { v with state :=
    { guest := v.state.guest.setGpr rsp sp
      flags := { v.state.flags with ifl := true } } }

def timerPending (sp : U64) : State Unit :=
  atHead { interruptsOn sp with pendingIrq := some 8 } none

/-- The frame of the timer interrupt has been pushed when `run` next returns. -/
theorem timer_serviced :
    ∃ s', run (step divMachine) (timerPending 0x800) [.takeIrq, .exhaust] = some s' ∧
      s'.returned = some .budgetExhausted ∧
      Serviced divMachine (timerPending 0x800) 8 [.takeIrq, .exhaust] s' := by
  refine ⟨_, rfl, rfl, ?_⟩
  apply (irq_serviced_run (atHead (interruptsOn 0x800) none) (timerPending 0x800) 8 rfl
    [.takeIrq, .exhaust] (by simp)).mpr _ _ _ (List.prefix_refl _) rfl rfl
  intro mid t hmid hrun _
  cases mid with
  | nil =>
    cases hrun
    decide
  | cons act mid =>
    rw [List.cons_append, List.cons_prefix_cons] at hmid
    cases mid <;> simp at hmid

/-- The stack is not mapped: the vector is gone and nothing was pushed. -/
theorem irq_dropped :
    (run (step divMachine) (atHead (interruptsOn 0x5000) none) [.injectIrq 8, .takeIrq]).map
        (fun s => (s.returned, s.vcpu.pendingIrq, s.vcpu.ip, s.vcpu.state.guest.gpr rsp)) =
      some (some (.guest (.unmappedMemory 0x4ffe .write)), none, 0x1000, 0x5000) := by
  decide

end X86Jit.Run
