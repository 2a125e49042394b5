import X86Jit.Interp.Exec
import X86Jit.Lift.Block

/-! The dispatch loop of one vcpu and the calls its embedder makes. What the translation cache
holds and what compiled code does are parameters of a step. -/
namespace X86Jit.Run
open X86Jit.Lib X86Jit.Lift

/-- Only a failed lift gives the two last exits: the interpreter and compiled code report an
unmapped access as a read or a write. -/
inductive RunExit
  | guest (e : Exit)
  | budgetExhausted
  | unknownInstruction (addr : U64) (len : ℕ)
  | executeFault (addr : U64)
  deriving DecidableEq, Repr

def liftExit : LiftError → RunExit
  | .unsupported addr len => .unknownInstruction addr len
  | .decodeFault addr => .executeFault addr

/-- What a compiled block ends with. Following a filled link is part of the block. -/
inductive RetCode
  | continue
  | link
  | syscall
  | hlt
  | unmapped (addr : U64) (write : Bool)
  | defer
  | exception (vector : U8)
  deriving DecidableEq, Repr

/-- The lifter, the ops the interpreter takes as given, and what it drops of the answered parts of a
vector access. -/
structure Machine (Y V : Type) where
  lifter : Lifter Y
  sem : OtherOps (OtherOp Y) V
  clearMmioParts : V → V

/-- A vcpu. The budget and the counters are left out; that the budget is used up is a step
of its own. -/
structure Vcpu (V : Type) where
  state : WalkState V
  mode : CpuMode
  pendingIrq : Option U8 := none
  stiShadow : Bool := false

abbrev Compiled (V : Type) := WalkState V → WalkState V × RetCode

/-- What the cache gives for the address of the vcpu; a miss is lifted and then interpreted
or compiled. -/
inductive Fetched (Y V : Type)
  | interpreted (ir : OpBlock (OtherOp Y))
  | compiled (code : Compiled V)
  | miss (code : Option (Compiled V))

variable {Y V : Type} (M : Machine Y V)

namespace Vcpu
variable (v : Vcpu V)

def fetch : FetchAddr := .forMode v.mode v.state.guest.rip.toNat v.state.guest.cs.toNat

def mem : Memory := v.state.guest.mem

def ip : U64 := BitVec.ofNat 64 v.fetch.ip

def mmioAnswered : Bool :=
  v.state.guest.pendingMmio.isSome || v.state.guest.pendingMmioWrite

def interruptible : Bool :=
  v.state.flags.ifl && v.state.guest.pendingMmio.isNone && !v.state.guest.pendingMmioWrite &&
    v.state.guest.pendingPortIn.isNone && !v.stiShadow

end Vcpu

def returns : StepResult → Option RunExit
  | .continue => none
  | .exit e => some (.guest e)

variable (v : Vcpu V)

def interpret (ir : OpBlock (OtherOp Y)) : Vcpu V × StepResult :=
  let r := interpretBlock M.sem ir v.state
  ({ v with state := r.state, stiShadow := r.info.stiShadow }, r.result)

def stepOne : Vcpu V × Option RunExit :=
  match liftOne M.lifter v.mode v.mem v.fetch with
  | .error e => ({ v with stiShadow := false }, some (liftExit e))
  | .ok ir =>
    let r := interpret M v ir
    (r.1, returns r.2)

def deliverAt (s : WalkState V) (vector : U8) (addr : U64) : Stop (WalkState V) :=
  deliverInterrupt { s with guest := { s.guest with curAddr := addr } } vector addr

/-- At the head, with an exception of a real-mode block in hand, or after a compiled block whose
link is empty. -/
inductive Phase
  | ready
  | raised (addr : U64) (vector : U8)
  | linking
  deriving DecidableEq, Repr

/-- A vcpu in its loop, and what `run` returned in the last step if it did. -/
structure State (V : Type) where
  vcpu : Vcpu V
  phase : Phase
  returned : Option RunExit

def atHead (returned : Option RunExit) : State V := ⟨v, .ready, returned⟩

def resume : State V :=
  let r := stepOne M v
  match r.2 with
  | some e => atHead r.1 (some e)
  | none =>
    let g := r.1.state.guest
    let state := { r.1.state with guest := { g with ext := M.clearMmioParts g.ext } }
    atHead { r.1 with state } none

/-- Take the pending hardware interrupt. It is no longer pending from here on. -/
def takeIrq (vector : U8) : State V :=
  let e := deliverAt v.state vector v.state.guest.rip
  let v' : Vcpu V := { v with state := e.state, pendingIrq := none }
  match e.result with
  | .continue => atHead { v' with stiShadow := false } none
  | .exit x => atHead v' (some (.guest x))

def deliverException (addr : U64) (vector : U8) : State V :=
  let e := deliverAt v.state vector addr
  atHead { v with state := e.state } (returns e.result)

def runInterpreted (ir : OpBlock (OtherOp Y)) : State V :=
  let r := interpret M v ir
  match r.2 with
  | .exit (.exception addr vector) =>
    if v.mode = .real16 then ⟨r.1, .raised addr vector, none⟩
    else atHead r.1 (some (.guest (.exception addr vector)))
  | result => atHead r.1 (returns result)

def runCompiled (code : Compiled V) : State V :=
  let r := code v.state
  let v' : Vcpu V := { v with state := r.1 }
  match r.2 with
  | .continue => atHead v' none
  | .link => ⟨v', .linking, none⟩
  | .syscall => atHead v' (some (.guest .syscall))
  | .hlt => atHead v' (some (.guest .hlt))
  | .unmapped addr write =>
    atHead v' (some (.guest (.unmappedMemory addr (if write then .write else .read))))
  | .defer =>
    -- the shadow of `sti` is not taken over here
    let r := stepOne M v'
    atHead { r.1 with stiShadow := v.stiShadow } r.2
  | .exception vector => atHead v' (some (.guest (.exception v'.state.guest.rip vector)))

def tagged (pa len : ℕ) : Vcpu V :=
  { v with state := { v.state with guest := { v.state.guest with mem := v.mem.markCode pa len } } }

def relink : State V :=
  let rip := v.state.guest.rip.toNat
  match Lift.liftBlock M.lifter v.mode v.mem (.flat rip) with
  | .error e => atHead v (some (liftExit e))
  | .ok ir => atHead (tagged v rip ir.guestLen) none

def dispatch (fetched : Fetched Y V) : State V :=
  match fetched with
  | .interpreted ir => runInterpreted M v ir
  | .compiled code => runCompiled M v code
  | .miss code =>
    match Lift.liftBlock M.lifter v.mode v.mem v.fetch with
    | .error e => atHead v (some (liftExit e))
    | .ok ir =>
      let v' := tagged v v.fetch.pa ir.guestLen
      match code with
      | some code => runCompiled M v' code
      | none => runInterpreted M v' ir

inductive Act (Y V : Type)
  | injectIrq (vector : U8)
  | completeMmioRead (value : U64)
  | completeMmioWrite
  | completePortIn (value : U64)
  | embedder (f : WalkState V → WalkState V)
  | exhaust
  | resume
  | takeIrq
  | dispatch (fetched : Fetched Y V)
  | deliverException
  | link (cached : Bool)

def completePortIn (s : WalkState V) (value : U64) : WalkState V :=
  match s.guest.pendingPortIn with
  | some size =>
    { s with guest := { s.guest.setGpr rax (writeGpr (s.guest.gpr rax) value size) with
      pendingPortIn := none } }
  | none => s

def Fetched.allowed (mode : CpuMode) : Fetched Y V → Bool
  | .interpreted _ | .miss none => true
  | .compiled _ | .miss (some _) => mode != .real16

/-- The loop looks for an answered access first, then for an interrupt it may take, and only then
fetches. -/
def step (s : State V) (act : Act Y V) : Option (State V) :=
  let v := s.vcpu
  let guest (state : WalkState V) : State V := { s with vcpu := { v with state }, returned := none }
  match s.phase, act with
  | .ready, .injectIrq vector =>
    some { s with vcpu := { v with pendingIrq := some vector }, returned := none }
  | .ready, .completeMmioRead value =>
    some (guest { v.state with guest := { v.state.guest with pendingMmio := some value } })
  | .ready, .completeMmioWrite =>
    some (guest { v.state with guest := { v.state.guest with pendingMmioWrite := true } })
  | .ready, .completePortIn value => some (guest (completePortIn v.state value))
  | .ready, .embedder f => some (guest (f v.state))
  | .ready, .exhaust => some (atHead v (some .budgetExhausted))
  | .ready, .resume => if v.mmioAnswered then some (Run.resume M v) else none
  | .ready, .takeIrq =>
    if v.mmioAnswered then none
    else
      match v.pendingIrq with
      | some vector => if v.interruptible then some (Run.takeIrq v vector) else none
      | none => none
  | .ready, .dispatch fetched =>
    if v.mmioAnswered || (v.pendingIrq.isSome && v.interruptible) then none
    else if fetched.allowed v.mode then some (Run.dispatch M v fetched) else none
  | .raised addr vector, .deliverException => some (Run.deliverException v addr vector)
  | .linking, .link cached => some (if cached then atHead v none else relink M v)
  | _, _ => none

inductive Turn : State V → Act Y V → State V → Prop
  | injectIrq {v returned vector} :
      Turn ⟨v, .ready, returned⟩ (.injectIrq vector) (atHead { v with pendingIrq := some vector } none)
  | completeMmioRead {v returned value} :
      Turn ⟨v, .ready, returned⟩ (.completeMmioRead value) (atHead { v with
        state := { v.state with guest := { v.state.guest with pendingMmio := some value } } } none)
  | completeMmioWrite {v returned} :
      Turn ⟨v, .ready, returned⟩ .completeMmioWrite (atHead { v with
        state := { v.state with guest := { v.state.guest with pendingMmioWrite := true } } } none)
  | completePortIn {v returned value} :
      Turn ⟨v, .ready, returned⟩ (.completePortIn value)
        (atHead { v with state := Run.completePortIn v.state value } none)
  | embedder {v returned f} :
      Turn ⟨v, .ready, returned⟩ (.embedder f) (atHead { v with state := f v.state } none)
  | exhaust {v returned} :
      Turn ⟨v, .ready, returned⟩ .exhaust (atHead v (some .budgetExhausted))
  | resume {v returned} (hanswered : v.mmioAnswered = true) :
      Turn ⟨v, .ready, returned⟩ .resume (Run.resume M v)
  | takeIrq {v returned vector} (hpending : v.pendingIrq = some vector)
      (hopen : v.interruptible = true) :
      Turn ⟨v, .ready, returned⟩ .takeIrq (Run.takeIrq v vector)
  | dispatch {v returned fetched} (hallowed : fetched.allowed v.mode = true) :
      Turn ⟨v, .ready, returned⟩ (.dispatch fetched) (Run.dispatch M v fetched)
  | deliverException {v returned addr vector} :
      Turn ⟨v, .raised addr vector, returned⟩ .deliverException
        (Run.deliverException v addr vector)
  | link {v returned cached} :
      Turn ⟨v, .linking, returned⟩ (.link cached) (if cached then atHead v none else relink M v)

variable {M}

theorem turn_of_step {s s' : State V} {act : Act Y V} (h : step M s act = some s') :
    Turn M s act s' := by
  obtain ⟨v, phase, returned⟩ := s
  cases phase with
  | raised addr vector =>
    cases act <;> cases h
    exact .deliverException
  | linking =>
    cases act <;> cases h
    exact .link
  | ready =>
    cases act with
    | injectIrq vector => cases h; exact .injectIrq
    | completeMmioRead value => cases h; exact .completeMmioRead
    | completeMmioWrite => cases h; exact .completeMmioWrite
    | completePortIn value => cases h; exact .completePortIn
    | embedder f => cases h; exact .embedder
    | exhaust => cases h; exact .exhaust
    | deliverException => cases h
    | link cached => cases h
    | resume =>
      simp only [step] at h
      split at h
      · rename_i hanswered
        cases h
        exact .resume hanswered
      · cases h
    | takeIrq =>
      simp only [step] at h
      split at h
      · cases h
      · split at h
        · rename_i vector hpending
          split at h
          · rename_i hopen
            cases h
            exact .takeIrq hpending hopen
          · cases h
        · cases h
    | dispatch fetched =>
      simp only [step] at h
      split at h
      · cases h
      · split at h
        · rename_i hallowed
          cases h
          exact .dispatch hallowed
        · cases h

/-! The parts of a vcpu that running code leaves alone. -/

theorem mode_stepOne : (stepOne M v).1.mode = v.mode := by
  unfold stepOne
  split <;> rfl

theorem pendingIrq_stepOne : (stepOne M v).1.pendingIrq = v.pendingIrq := by
  unfold stepOne
  split <;> rfl

structure Keeps (v : Vcpu V) (s' : State V) : Prop where
  mode : s'.vcpu.mode = v.mode
  irq : s'.vcpu.pendingIrq = v.pendingIrq

theorem keeps_resume : Keeps v (resume M v) := by
  unfold resume
  dsimp only
  split
  · exact ⟨mode_stepOne v, pendingIrq_stepOne v⟩
  · exact ⟨mode_stepOne v, pendingIrq_stepOne v⟩

theorem keeps_runInterpreted (ir : OpBlock (OtherOp Y)) : Keeps v (runInterpreted M v ir) := by
  unfold runInterpreted
  dsimp only
  split
  · split
    · exact ⟨rfl, rfl⟩
    · exact ⟨rfl, rfl⟩
  · exact ⟨rfl, rfl⟩

theorem keeps_runCompiled (code : Compiled V) : Keeps v (runCompiled M v code) := by
  unfold runCompiled
  dsimp only
  split
  case h_6 => exact ⟨mode_stepOne _, pendingIrq_stepOne _⟩
  all_goals exact ⟨rfl, rfl⟩

theorem keeps_dispatch (fetched : Fetched Y V) : Keeps v (dispatch M v fetched) := by
  cases fetched with
  | interpreted ir => exact keeps_runInterpreted v ir
  | compiled code => exact keeps_runCompiled v code
  | miss code =>
    unfold dispatch
    dsimp only
    split
    · exact ⟨rfl, rfl⟩
    · cases code with
      | some code =>
        obtain ⟨hmode, hirq⟩ := keeps_runCompiled (M := M) (tagged v v.fetch.pa _) code
        exact ⟨hmode, hirq⟩
      | none =>
        obtain ⟨hmode, hirq⟩ := keeps_runInterpreted (M := M) (tagged v v.fetch.pa _) _
        exact ⟨hmode, hirq⟩

theorem keeps_relink : Keeps v (relink M v) := by
  unfold relink
  dsimp only
  split <;> exact ⟨rfl, rfl⟩

theorem mode_takeIrq (vector : U8) : (takeIrq v vector).vcpu.mode = v.mode := by
  unfold takeIrq
  dsimp only
  split <;> rfl

theorem mode_of_turn {s s' : State V} {act : Act Y V} (h : Turn M s act s') :
    s'.vcpu.mode = s.vcpu.mode := by
  cases h with
  | resume => exact (keeps_resume _).mode
  | takeIrq => exact mode_takeIrq _ _
  | dispatch => exact (keeps_dispatch _ _).mode
  | @link v _ cached =>
    cases cached with
    | true => rfl
    | false => exact (keeps_relink v).mode
  | _ => rfl

theorem allowed_of_linking {v : Vcpu V} {fetched : Fetched Y V}
    (hallowed : fetched.allowed v.mode = true) (h : (dispatch M v fetched).phase = .linking) :
    v.mode ≠ .real16 := by
  have hinterp : ∀ (v : Vcpu V) (ir : OpBlock (OtherOp Y)),
      (runInterpreted M v ir).phase ≠ .linking := by
    intro v ir
    unfold runInterpreted
    dsimp only
    split
    · split <;> exact nofun
    · exact nofun
  cases fetched with
  | interpreted ir => exact absurd h (hinterp v ir)
  | compiled code => simpa [Fetched.allowed] using hallowed
  | miss code =>
    cases code with
    | some code => simpa [Fetched.allowed] using hallowed
    | none =>
      unfold dispatch at h
      dsimp only at h
      split at h
      · cases h
      · exact absurd h (hinterp _ _)

end X86Jit.Run
