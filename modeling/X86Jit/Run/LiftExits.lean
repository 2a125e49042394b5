import X86Jit.Interp.RipFree
import X86Jit.Lift.ElideSound
import X86Jit.Run.Vcpu

/-! Where a vcpu stands when `run` reports an instruction it cannot lift or fetch, and whether the
instructions before it have been executed. A block is lifted whole before any of its instructions
runs. -/
namespace X86Jit.Run
open X86Jit.Lib X86Jit.Lift

def RunExit.liftAddr : RunExit → Option U64
  | .unknownInstruction addr _ | .executeFault addr => some addr
  | _ => none

theorem liftAddr_liftExit (e : LiftError) : (liftExit e).liftAddr = some e.addr := by
  cases e <;> rfl

variable {e : RunExit}

theorem liftAddr_returns {r : StepResult} (h : returns r = some e) : e.liftAddr = none := by
  cases r with
  | «continue» => cases h
  | exit x =>
    cases h
    rfl

variable {fa : FetchAddr} {addr : U64} {Y V : Type} (M : Machine Y V)

def Window (mem : Memory) (fa : FetchAddr) (code : List U8) (full : Bool) : Prop :=
  mem.codeSlice fa.pa blockFetchWindow = some code ∧ full = (code.length == blockFetchWindow)

/-- On the straight line of code at `fa`, an instruction that cannot be lifted is the first. -/
def NoLaterGap (v : Vcpu V) (fa : FetchAddr) : Prop :=
  ∀ code full l code' ip d e, Window v.mem fa code full →
    Line M.lifter v.mode full code (BitVec.ofNat 64 fa.ip) .empty l code' ip d → code' ≠ [] →
      advance M.lifter v.mode full code' ip d = .fail e → l = []

theorem Window.length_le {mem : Memory} {code : List U8} {full : Bool}
    (h : Window mem fa code full) : code.length ≤ blockFetchWindow := by
  obtain ⟨hslice, -⟩ := h
  obtain ⟨r, -, rfl⟩ := Option.map_eq_some_iff.mp hslice
  rw [List.length_map, List.length_range]
  omega

variable {M}

theorem line_eq_nil {mode : CpuMode} {full : Bool} {code code' : List U8} {ip : U64}
    {d d' : Draft (OtherOp Y)} {l : List Insn} (hcode : code.length ≤ blockFetchWindow)
    (h : Line M.lifter mode full code ip d l code' ip d') : l = [] := by
  obtain ⟨hip, hlen, hcount⟩ := h.ip_eq
  have hsum : (l.map Insn.len).sum ≤ blockFetchWindow := by omega
  have hzero : BitVec.ofNat 64 (l.map Insn.len).sum = 0 := by
    have h' : ip + 0 = ip + BitVec.ofNat 64 (l.map Insn.len).sum := by
      rw [← hip]
      exact BitVec.add_zero ip
    exact (BitVec.add_right_inj _).mp h' |>.symm
  have hnat := congrArg BitVec.toNat hzero
  rw [BitVec.toNat_ofNat, Nat.mod_eq_of_lt (lt_of_le_of_lt hsum (by decide))] at hnat
  rw [← List.length_eq_zero_iff]
  have hz : (l.map Insn.len).sum = 0 := hnat
  omega

variable {v : Vcpu V}

/-- A block that cannot be lifted is reported at its start exactly when no later instruction
is to blame. -/
theorem addr_eq_iff_of_liftBlock_error {e : LiftError}
    (h : Lift.liftBlock M.lifter v.mode v.mem fa = .error e) :
    BitVec.ofNat 64 fa.ip = e.addr ↔ NoLaterGap M v fa := by
  unfold Lift.liftBlock at h
  cases hslice : v.mem.codeSlice fa.pa blockFetchWindow with
  | none =>
    -- nothing mapped at the start: there is no line at all
    rw [hslice] at h
    cases h
    refine ⟨fun _ => ?_, fun _ => rfl⟩
    intro code full l code' ip d e hwindow
    rw [hwindow.1] at hslice
    cases hslice
  | some code =>
    rw [hslice] at h
    have hwindow : Window v.mem fa code (code.length == blockFetchWindow) := ⟨hslice, rfl⟩
    have hloop : liftLoop M.lifter v.mode (code.length == blockFetchWindow) code.length code
        (BitVec.ofNat 64 fa.ip) .empty = .error e := by
      cases hl : liftLoop M.lifter v.mode (code.length == blockFetchWindow) code.length code
          (BitVec.ofNat 64 fa.ip) .empty with
      | ok d =>
        simp only [hl] at h
        cases h
      | error e' =>
        simp only [hl] at h
        cases h
        rfl
    obtain ⟨l, code', ip, d, hline, hne, hfail⟩ := line_of_liftLoop_error hloop
    have haddr := addr_of_advance_fail hfail
    constructor
    · intro heq code₁ full₁ l₁ code₁' ip₁ d₁ e₁ hwindow₁ hline₁ hne₁ hfail₁
      -- both failures are the one the loop found
      obtain ⟨hslice₁, rfl⟩ := hwindow₁
      cases hslice.symm.trans hslice₁
      have hloop₁ := liftLoop_error_of_line hline₁ hne₁ hfail₁ le_rfl
      cases hloop.symm.trans hloop₁
      have haddr₁ := addr_of_advance_fail hfail₁
      rw [heq, haddr₁] at hline₁
      exact line_eq_nil hwindow.length_le hline₁
    · intro hgap
      obtain rfl := hgap code _ l code' ip d e hwindow hline hne hfail
      cases hline
      exact haddr.symm

theorem noLaterGap_of_liftBlock_ok {ir : OpBlock (OtherOp Y)}
    (h : Lift.liftBlock M.lifter v.mode v.mem fa = .ok ir) : NoLaterGap M v fa := by
  intro code full l code' ip d e hwindow hline hne hfail
  obtain ⟨hslice, rfl⟩ := hwindow
  have hloop := liftLoop_error_of_line hline hne hfail le_rfl
  unfold Lift.liftBlock at h
  simp only [hslice, hloop] at h
  cases h

theorem addr_of_liftOne_error {L : Lifter Y} {mode : CpuMode} {mem : Memory}
    {e : LiftError} (h : liftOne L mode mem fa = .error e) : e.addr = BitVec.ofNat 64 fa.ip := by
  unfold liftOne at h
  dsimp only at h
  split at h
  · cases h
    rfl
  · cases h
    rfl
  · split at h
    · cases h
    · cases h
    · rename_i hfail
      cases h
      exact addr_of_advance_fail hfail

variable {v : Vcpu V}

theorem ip_of_stepOne (h : (stepOne M v).2 = some e) (haddr : e.liftAddr = some addr) :
    (stepOne M v).1.ip = addr := by
  unfold stepOne at h ⊢
  split at h
  · rename_i err hlift
    cases h
    rw [liftAddr_liftExit, Option.some.injEq] at haddr
    rw [← haddr, addr_of_liftOne_error hlift]
    rfl
  · -- the instruction was lifted, so its exit is not about lifting
    rw [liftAddr_returns h] at haddr
    cases haddr

theorem liftAddr_of_runInterpreted {ir : OpBlock (OtherOp Y)}
    (h : (runInterpreted M v ir).returned = some e) : e.liftAddr = none := by
  unfold runInterpreted at h
  dsimp only at h
  split at h
  · split at h
    · cases h
    · cases h
      rfl
  · exact liftAddr_returns h

theorem ip_of_runCompiled {code : Compiled V}
    (h : (runCompiled M v code).returned = some e) (haddr : e.liftAddr = some addr) :
    (runCompiled M v code).vcpu.ip = addr := by
  unfold runCompiled at h ⊢
  cases hcode : (code v.state).2 <;> simp only [hcode] at h ⊢
  case «defer» => exact ip_of_stepOne h haddr
  all_goals
    cases h
    try cases haddr

theorem ip_of_resume (h : (resume M v).returned = some e) (haddr : e.liftAddr = some addr) :
    (resume M v).vcpu.ip = addr := by
  unfold resume at h ⊢
  cases hstep : (stepOne M v).2 with
  | none =>
    simp only [hstep] at h
    cases h
  | some e' =>
    simp only [hstep] at h ⊢
    cases h
    exact ip_of_stepOne hstep haddr

theorem dispatch_miss_iff {code : Option (Compiled V)} :
    (∀ e addr, (dispatch M v (.miss code)).returned = some e → e.liftAddr = some addr →
      (dispatch M v (.miss code)).vcpu.ip = addr) ↔ NoLaterGap M v v.fetch := by
  cases hlift : Lift.liftBlock M.lifter v.mode v.mem v.fetch with
  | error err =>
    simp only [dispatch, hlift]
    rw [← addr_eq_iff_of_liftBlock_error hlift]
    constructor
    · intro h
      exact h (liftExit err) err.addr rfl (liftAddr_liftExit err)
    · intro h e addr he haddr
      cases he
      rw [liftAddr_liftExit, Option.some.injEq] at haddr
      rw [← haddr]
      exact h
  | ok ir =>
    refine ⟨fun _ => noLaterGap_of_liftBlock_ok hlift, fun _ e addr he haddr => ?_⟩
    cases code with
    | none =>
      simp only [dispatch, hlift] at he
      rw [liftAddr_of_runInterpreted he] at haddr
      cases haddr
    | some code =>
      simp only [dispatch, hlift] at he ⊢
      exact ip_of_runCompiled he haddr

theorem relink_iff (hmode : v.mode ≠ .real16) :
    (∀ e addr, (relink M v).returned = some e → e.liftAddr = some addr →
      (relink M v).vcpu.ip = addr) ↔ NoLaterGap M v (.flat v.state.guest.rip.toNat) := by
  have hfetch : v.fetch = .flat v.state.guest.rip.toNat := by
    unfold Vcpu.fetch
    cases hm : v.mode with
    | real16 => exact absurd hm hmode
    | long64 => rfl
    | compat32 => rfl
  have hip : v.ip = BitVec.ofNat 64 (FetchAddr.flat v.state.guest.rip.toNat).ip := by
    rw [Vcpu.ip, hfetch]
  cases hlift : Lift.liftBlock M.lifter v.mode v.mem (.flat v.state.guest.rip.toNat) with
  | error err =>
    simp only [relink, hlift]
    rw [← addr_eq_iff_of_liftBlock_error hlift, ← hip]
    constructor
    · intro h
      exact h (liftExit err) err.addr rfl (liftAddr_liftExit err)
    · intro h e addr he haddr
      cases he
      rw [liftAddr_liftExit, Option.some.injEq] at haddr
      rw [← haddr]
      exact h
  | ok ir =>
    refine ⟨fun _ => noLaterGap_of_liftBlock_ok hlift, fun _ e addr he _ => ?_⟩
    simp only [relink, hlift] at he
    cases he

variable (M : Machine Y V)

/-- A step that returns with an instruction it could not lift or fetch leaves the vcpu on
that instruction. -/
def ReportsInPlace (s : State V) (act : Act Y V) : Prop :=
  ∀ s' e addr, step M s act = some s' → s'.returned = some e → e.liftAddr = some addr →
    s'.vcpu.ip = addr

/-- The block the loop is about to lift, if it does, has no gap after its first
instruction. -/
def NoGapAhead (s : State V) (act : Act Y V) : Prop :=
  match s.phase, act with
  | .ready, .dispatch (.miss _) => NoLaterGap M s.vcpu s.vcpu.fetch
  | .linking, .link false => NoLaterGap M s.vcpu (.flat s.vcpu.state.guest.rip.toNat)
  | _, _ => True

def LiftsWhole (s : State V) (act : Act Y V) : Prop :=
  (step M s act).isSome → NoGapAhead M s act

def LinksFlat (s : State V) : Prop := s.phase = .linking → s.vcpu.mode ≠ .real16

variable {M}

theorem linksFlat_step {s s' : State V} {act : Act Y V} (h : LinksFlat s)
    (hstep : step M s act = some s') : LinksFlat s' := by
  have hturn := turn_of_step hstep
  intro hphase
  rw [mode_of_turn hturn]
  cases hturn with
  | dispatch hallowed => exact allowed_of_linking hallowed hphase
  | @link v returned cached => exact h rfl
  | @resume v returned hanswered =>
    have hready : (resume M v).phase = .ready := by
      unfold resume
      dsimp only
      split <;> rfl
    rw [hready] at hphase
    cases hphase
  | @takeIrq v returned vector hpending hopen =>
    have hready : (takeIrq v vector).phase = .ready := by
      unfold takeIrq
      dsimp only
      split <;> rfl
    rw [hready] at hphase
    cases hphase
  | _ => cases hphase

theorem liftAddr_of_takeIrq {vector : U8}
    (h : (takeIrq v vector).returned = some e) : e.liftAddr = none := by
  unfold takeIrq at h
  dsimp only at h
  split at h
  · cases h
  · cases h
    rfl

theorem reportsInPlace_iff {s : State V} (hs : LinksFlat s) (act : Act Y V) :
    ReportsInPlace M s act ↔ LiftsWhole M s act := by
  cases hstep : step M s act with
  | none =>
    constructor
    · intro _ hsome
      rw [hstep] at hsome
      cases hsome
    · intro _ s' e addr hs'
      rw [hstep] at hs'
      cases hs'
  | some t =>
    have hreports : ReportsInPlace M s act ↔
        ∀ e addr, t.returned = some e → e.liftAddr = some addr → t.vcpu.ip = addr := by
      constructor
      · intro h e addr he haddr
        exact h t e addr hstep he haddr
      · intro h s' e addr hs' he haddr
        cases hstep.symm.trans hs'
        exact h e addr he haddr
    have hlifts : LiftsWhole M s act ↔ NoGapAhead M s act := by
      unfold LiftsWhole
      rw [hstep]
      exact ⟨fun h => h rfl, fun h _ => h⟩
    rw [hreports, hlifts]
    -- only a miss and a link that is not cached lift a block
    cases turn_of_step hstep with
    | @dispatch v returned fetched hallowed =>
      cases fetched with
      | interpreted ir =>
        refine iff_of_true ?_ trivial
        intro e addr he haddr
        rw [liftAddr_of_runInterpreted he] at haddr
        cases haddr
      | compiled code =>
        refine iff_of_true ?_ trivial
        intro e addr he haddr
        exact ip_of_runCompiled he haddr
      | miss code => exact dispatch_miss_iff
    | @link v returned cached =>
      cases cached with
      | true =>
        refine iff_of_true ?_ trivial
        intro e addr he
        cases he
      | false => exact relink_iff (hs rfl)
    | resume hanswered =>
      refine iff_of_true ?_ trivial
      intro e addr he haddr
      exact ip_of_resume he haddr
    | takeIrq hpending hopen =>
      refine iff_of_true ?_ trivial
      intro e addr he haddr
      rw [liftAddr_of_takeIrq he] at haddr
      cases haddr
    | deliverException =>
      refine iff_of_true ?_ trivial
      intro e addr he haddr
      rw [liftAddr_returns he] at haddr
      cases haddr
    | exhaust =>
      refine iff_of_true ?_ trivial
      intro e addr he haddr
      cases he
      cases haddr
    | _ =>
      refine iff_of_true ?_ trivial
      intro e addr he
      cases he

section Effects
variable (M)

/-- The instructions up to the end of the block, with every flag they write. -/
def wholeBlock (v : Vcpu V) : Except LiftError (OpBlock (OtherOp Y)) :=
  Lift.liftBlock { M.lifter with keepFlags := true } v.mode v.mem v.fetch

def wholeInsn (v : Vcpu V) : Except LiftError (OpBlock (OtherOp Y)) :=
  liftOne { M.lifter with keepFlags := true } v.mode v.mem v.fetch

/-- The instructions carried out one after the other, up to an op that leaves. -/
def executed (ir : OpBlock (OtherOp Y)) (s : WalkState V) : WalkState V :=
  (endWalk ir.blockEnd (walk (exec M.sem ir.blockEnd) ir.ops (enterBlock ir s))).state

/-- A flag whose write the pass drops is not looked at by an op that the pass does not know for a
reader, and not left to the outside. -/
def FlagsKept (ir : OpBlock (OtherOp Y)) (s : WalkState V) : Prop :=
  M.lifter.keepFlags = false →
    match walked M.sem ir s with
    | .fell _ => HiddenReadsLive M.sem ir s ir.ops.length
    | .left k _ => HiddenReadsLive M.sem ir s k ∧ ∀ x, staleAt M.sem ir s k x = false

/-- What runs is interpreted, is what the code at the vcpu lifts to now, and keeps its flags. -/
def Faithful (s : State V) (act : Act Y V) : Prop :=
  let v := s.vcpu
  match s.phase, act with
  | .ready, .dispatch (.interpreted ir) =>
    Lift.liftBlock M.lifter v.mode v.mem v.fetch = .ok ir ∧
      ∀ w, wholeBlock M v = .ok w → FlagsKept M w v.state
  | .ready, .dispatch (.miss none) =>
    ∀ w, wholeBlock M v = .ok w → FlagsKept M w (tagged v v.fetch.pa w.guestLen).state
  | .ready, .resume => ∀ w, wholeInsn M v = .ok w → FlagsKept M w v.state
  | .ready, .dispatch _ => False
  | _, _ => True

/-- The state `t` is that after the instructions, if there are any that can be lifted. -/
def After (lifted : Except LiftError (OpBlock (OtherOp Y)))
    (enter : OpBlock (OtherOp Y) → WalkState V) (s t : WalkState V) : Prop :=
  match lifted with
  | .ok w => SameOff (fun _ => false) (executed M w (enter w)) t
  | .error _ => t = s

/-- A step that runs code leaves the vcpu as its instructions do. The one that answers an access
drops the answers after it. -/
def TakesEffect (s : State V) (act : Act Y V) : Prop :=
  let v := s.vcpu
  ∀ s', step M s act = some s' →
    match s.phase, act with
    | .ready, .dispatch (.interpreted _) =>
      After M (wholeBlock M v) (fun _ => v.state) v.state s'.vcpu.state
    | .ready, .dispatch (.miss none) => After M (wholeBlock M v)
        (fun w => (tagged v v.fetch.pa w.guestLen).state) v.state s'.vcpu.state
    | .ready, .resume => ∃ t, After M (wholeInsn M v) (fun _ => v.state) v.state t ∧
      (s'.vcpu.state = t ∨ s'.vcpu.state =
        { t with guest := { t.guest with ext := M.clearMmioParts t.guest.ext } })
    | _, _ => True

variable {M}

theorem liftLoop_keepFlags {L : Lifter Y} (keep : Bool) {mode : CpuMode} {full : Bool} {fuel : ℕ}
    {code : List U8} {ip : U64} {d : Draft (OtherOp Y)} :
    liftLoop { L with keepFlags := keep } mode full fuel code ip d =
      liftLoop L mode full fuel code ip d := by
  induction fuel generalizing code ip d with
  | zero => rfl
  | succ fuel ih =>
    cases code with
    | nil => rfl
    | cons b code =>
      unfold liftLoop
      have hadvance : advance { L with keepFlags := keep } mode full (b :: code) ip d =
          advance L mode full (b :: code) ip d := rfl
      rw [hadvance]
      split
      · rfl
      · rfl
      · exact ih

theorem liftBlock_eq : Lift.liftBlock M.lifter v.mode v.mem v.fetch =
    (wholeBlock M v).map (elided M.lifter.keepFlags) := by
  unfold wholeBlock Lift.liftBlock
  cases v.mem.codeSlice v.fetch.pa blockFetchWindow with
  | none => rfl
  | some code =>
    dsimp only
    rw [liftLoop_keepFlags (L := M.lifter) true]
    cases liftLoop M.lifter v.mode (code.length == blockFetchWindow) code.length code
      (BitVec.ofNat 64 v.fetch.ip) .empty <;> rfl

theorem liftOne_eq : liftOne M.lifter v.mode v.mem v.fetch =
    (wholeInsn M v).map (elided M.lifter.keepFlags) := by
  unfold wholeInsn liftOne
  have hadvance (code : List U8) (ip : U64) (d : Draft (OtherOp Y)) :
      advance { M.lifter with keepFlags := true } v.mode false code ip d =
        advance M.lifter v.mode false code ip d := rfl
  simp only [hadvance]
  split
  · rfl
  · rfl
  · split <;> rfl

/-- The block the pass has gone over leaves what its instructions leave. -/
theorem FlagsKept.executed_same {ir : OpBlock (OtherOp Y)} {s : WalkState V}
    (h : FlagsKept M ir s) : SameOff (fun _ => false) (executed M ir s)
      (interpretBlock M.sem (elided M.lifter.keepFlags ir) s).state := by
  have hwalk : executed M ir s = (interpretBlock M.sem ir s).state := by
    unfold executed interpretBlock walkOps
    dsimp only
    cases walk (exec M.sem ir.blockEnd) ir.ops (enterBlock ir s) <;> rfl
  rw [hwalk]
  cases hkeep : M.lifter.keepFlags with
  | true => exact sameOff_refl _ _
  | false =>
    have hkept := h hkeep
    cases hw : walked M.sem ir s with
    | fell t =>
      rw [hw] at hkept
      exact (preserved_of_fell hw hkept).state
    | left k e =>
      rw [hw] at hkept
      exact (preserved_of_left hw hkept.1 hkept.2).state

theorem state_runInterpreted (v : Vcpu V) (ir : OpBlock (OtherOp Y)) :
    (runInterpreted M v ir).vcpu.state = (interpretBlock M.sem ir v.state).state := by
  unfold runInterpreted
  dsimp only
  split
  · split <;> rfl
  · rfl

theorem takesEffect {s : State V} {act : Act Y V} (h : Faithful M s act) : TakesEffect M s act := by
  intro s' hstep
  cases turn_of_step hstep with
  | @dispatch v returned fetched hallowed =>
    cases fetched with
    | interpreted ir =>
      obtain ⟨hlift, hkept⟩ := h
      rw [liftBlock_eq] at hlift
      dsimp only
      cases hw : wholeBlock M v with
      | error e =>
        rw [hw] at hlift
        cases hlift
      | ok w =>
        rw [hw] at hlift
        cases hlift
        change SameOff _ (executed M w v.state) (runInterpreted M v _).vcpu.state
        rw [state_runInterpreted]
        exact (hkept w hw).executed_same
    | compiled code => exact absurd h id
    | miss code =>
      cases code with
      | some code => exact absurd h id
      | none =>
        dsimp only
        cases hw : wholeBlock M v with
        | error e =>
          simp only [dispatch, liftBlock_eq, hw]
          rfl
        | ok w =>
          simp only [dispatch, liftBlock_eq, hw]
          change SameOff _ (executed M w _) (runInterpreted M _ _).vcpu.state
          rw [state_runInterpreted]
          exact FlagsKept.executed_same (h w hw)
  | @resume v returned hanswered =>
    dsimp only
    refine ⟨(stepOne M v).1.state, ?_, ?_⟩
    · unfold stepOne
      rw [liftOne_eq]
      cases hw : wholeInsn M v with
      | error e => rfl
      | ok w => exact (h w hw).executed_same
    · unfold resume
      dsimp only
      split
      · exact .inl rfl
      · exact .inr rfl
  | _ => trivial

end Effects

/-- Along every run, each instruction reported as unknown or not mapped is the one the vcpu stands
on, exactly when no block the run lifts has a gap after its first instruction. And along every run
that is interpreted from the code as it is, with no dropped flag looked at, each step leaves the
vcpu as the instructions it has gone over do, so that all before the reported one have taken
effect. -/
theorem reports_in_place_run (v : Vcpu V) (acts : List (Act Y V)) :
    (AllSteps (step M) (ReportsInPlace M) (atHead v none) acts ↔
      AllSteps (step M) (LiftsWhole M) (atHead v none) acts) ∧
    (AllSteps (step M) (Faithful M) (atHead v none) acts →
      AllSteps (step M) (TakesEffect M) (atHead v none) acts) := by
  have hstart : LinksFlat (atHead v none) := nofun
  constructor
  · apply allSteps_congr LinksFlat
    · intro s act s' hs hstep
      exact linksFlat_step hs hstep
    · intro s act hs
      exact reportsInPlace_iff hs act
    · exact hstart
  · intro h
    exact h.imp (fun _ => True) (fun _ _ _ _ _ _ => trivial) (fun _ _ _ => takesEffect) trivial

def incEax (ip : U64) (codeSize : CodeSize) : Insn :=
  { ip, len := 2, codeSize, mnemonic := .inc
    operands := [.register (.gpr rax .b4)] }

/-- The part of the decoder that two opcodes need: `ff c0`, and `06`, which is invalid in
64-bit code. -/
def incDecoder : Decoder where
  decode mode code ip :=
    match code with
    | 0xff :: 0xc0 :: _ => .insn (incEax ip (codeSizeOf mode))
    | _ => .invalid .invalidInstruction 1
  reports := by
    intro mode code ip insn h
    split at h
    · cases h
      exact ⟨rfl, Nat.two_pos, Nat.le_add_left 2 _, rfl⟩
    · cases h

def incMachine : Machine Empty Unit :=
  { lifter := ⟨incDecoder, fun _ _ => unsupportedInsn, false⟩
    sem := fun _ g => (.ok g, fun _ => none)
    clearMmioParts := id }

theorem threeBytes_le : ∀ r ∈ [Region.mk 0x1000 3 .ram], r.stop ≤ 0x10000 := by decide

/-- `inc eax` at `0x1000` with the byte `06` after it. -/
def incThenInvalid : Vcpu Unit :=
  let s := WalkState.zero () (.small _ threeBytes_le fun a =>
    if a = 0x1000 then 0xff else if a = 0x1001 then 0xc0 else 0x06)
  { state := { s with guest := { s.guest with rip := 0x1000 } }
    mode := .long64 }

/-- The run reports the second instruction, and the first is not executed. -/
theorem gap_reported_early :
    (step incMachine (atHead incThenInvalid none) (.dispatch (.miss none))).map
        (fun s => (s.returned, s.vcpu.ip, s.vcpu.state.guest.gpr rax)) =
      some (some (.executeFault 0x1002), 0x1000, 0) := by
  decide

end X86Jit.Run
