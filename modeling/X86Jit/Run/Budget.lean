import X86Jit.Lift.Region
import X86Jit.Lift.Restart
import X86Jit.Run.Vcpu

/-! The budget of a run, in guest blocks. A region is handed what is left as fuel and hands the
rest back. -/
namespace X86Jit.Run
open X86Jit.Lib X86Jit.Lift

/-- How the code of a block ends: it goes on at RIP, the rest of an instruction has been
single-stepped, or the run returns. -/
inductive BodyEnd
  | goes
  | defers
  | exits
  deriving DecidableEq, Repr

variable {Y V : Type}

abbrev Ir (Y : Type) := OpBlock (OtherOp Y)

abbrev BlockCode (Y V : Type) := Ir Y → WalkState V → WalkState V × BodyEnd

/-- The blocks that have begun, the last one first, with the state they began in. -/
abbrev Begun (Y V : Type) := List (Ir Y × WalkState V)

inductive Found (Y : Type)
  | interpreted (ir : Ir Y)
  | single (ir : Ir Y)
  | region (entry : Ir Y) (blocks : List (Ir Y))

structure Called (Y V : Type) where
  state : WalkState V
  fuel : ℕ
  begun : Begun Y V
  ends : BodyEnd

variable (M : Machine Y V) (code : BlockCode Y V)

def interpreted : BlockCode Y V := fun ir s =>
  let r := interpretBlock M.sem ir s
  (r.state, if r.result = .continue then .goes else .exits)

/-- A jump or branch to a block of the region stays inside. -/
def nextInside (blocks : List (Ir Y)) (ir : Ir Y) (r : WalkState V × BodyEnd) : Option (Ir Y) :=
  if r.2 = .goes ∧ r.1.guest.rip ∈ staticSuccs ir then
    blocks.find? fun b => b.guestStart == r.1.guest.rip
  else none

/-- From the gate of a block on: without fuel the region returns with RIP on the block. -/
def callRegion (blocks : List (Ir Y)) : ℕ → Ir Y → WalkState V → Begun Y V → Called Y V
  | 0, _, s, begun => ⟨s, 0, begun, .goes⟩
  | fuel + 1, ir, s, begun =>
    let r := code ir s
    match nextInside blocks ir r with
    | some next => callRegion blocks fuel next r.1 ((ir, s) :: begun)
    | none => ⟨r.1, fuel, (ir, s) :: begun, r.2⟩

def callSingle (fuel : ℕ) (ir : Ir Y) (s : WalkState V) (begun : Begun Y V) : Called Y V :=
  ⟨(code ir s).1, fuel, (ir, s) :: begun, (code ir s).2⟩

/-- Which code runs the blocks of a unit. -/
def Found.blockCode : Found Y → BlockCode Y V
  | interpreted _ => Run.interpreted M
  | single _ | region _ _ => code

def Found.call (fuel : ℕ) (s : WalkState V) (begun : Begun Y V) (u : Found Y) : Called Y V :=
  match u with
  | interpreted ir | single ir => callSingle (u.blockCode M code) fuel ir s begun
  | region entry blocks => callRegion (u.blockCode M code) blocks fuel entry s begun

structure Loop (Y V : Type) where
  state : WalkState V
  blocksRun : ℕ
  begun : Begun Y V
  running : Bool

/-- A unit is called, or something else is charged as a block: an answered access that is
single-stepped, or an interrupt that is delivered. -/
inductive LoopAct (Y V : Type)
  | call (u : Found Y)
  | charge (s : WalkState V)

/-- A call of a unit whose blocks are run by code that meets `P`. -/
def LoopAct.Calls (P : BlockCode Y V → Prop) : LoopAct Y V → Prop
  | call u => P (u.blockCode M code)
  | charge _ => False

variable {M code} in
theorem LoopAct.Calls.imp {P Q : BlockCode Y V → Prop} {a : LoopAct Y V} (h : a.Calls M code P)
    (hPQ : ∀ f, P f → Q f) : a.Calls M code Q := by
  cases a with
  | call u => exact hPQ _ h
  | charge s => exact h

variable {M code} in
theorem LoopAct.Calls.of_units {P : BlockCode Y V → Prop} {a : LoopAct Y V}
    (h : a.Calls M code fun _ => True) (hinterpreted : P (interpreted M)) (hcode : P code) :
    a.Calls M code P := by
  cases a with
  | charge s => exact h.elim
  | call u =>
    cases u with
    | interpreted ir => exact hinterpreted
    | single ir | region entry blocks => exact hcode

namespace Loop

def start (s : WalkState V) : Loop Y V := ⟨s, 0, [], true⟩

/-- The budget is looked at before every call: at the head of the outer loop, and in the inner
one after the call before. -/
def turn (b : ℕ) (l : Loop Y V) (a : LoopAct Y V) : Option (Loop Y V) :=
  if l.running = true ∧ l.blocksRun < b then
    match a with
    | .call u =>
      let quantum := b - l.blocksRun
      let c := u.call M code quantum l.state l.begun
      some ⟨c.state, l.blocksRun + max (quantum - c.fuel) 1, c.begun, c.ends != .exits⟩
    | .charge s => some { l with state := s, blocksRun := l.blocksRun + 1 }
  else none

def Exhausted (b : ℕ) (l : Loop Y V) : Prop := l.running = true ∧ b ≤ l.blocksRun

end Loop

/-- One block from RIP on, translated from the bytes that are there and run by `f`. -/
def guestBlock (f : BlockCode Y V) (mode : CpuMode) (s : WalkState V) : WalkState V :=
  match Lift.liftBlock M.lifter mode s.guest.mem (.flat s.guest.rip.toNat) with
  | .ok ir => (f ir s).1
  | .error _ => s

/-- A block that began was the translation of the bytes at RIP. -/
def Fresh (mode : CpuMode) (p : Ir Y × WalkState V) : Prop :=
  Lift.liftBlock M.lifter mode p.2.guest.mem (.flat p.2.guest.rip.toNat) = .ok p.1

/-- Without what the interpreter sets afresh when it enters a block, and compiled code does not
have. -/
def between (s : WalkState V) : WalkState V := enterBlock (⟨0, 0, []⟩ : Ir Empty) s

def SameGuest (s t : WalkState V) : Prop := between s = between t

/-- Run by `f`, a fresh block goes from each of the first `b` states of `x` to the next one. -/
def Leads (mode : CpuMode) (R : WalkState V → WalkState V → Prop) (x : ℕ → WalkState V) (b : ℕ)
    (f : BlockCode Y V) : Prop :=
  ∀ k < b, ∀ ir s, R s (x k) → Fresh M mode (ir, s) → R (f ir s).1 (x (k + 1))

/-- The states before and after each block of a run by `f` alone. -/
def orbit (f : BlockCode Y V) (mode : CpuMode) (s : WalkState V) (k : ℕ) : WalkState V :=
  (guestBlock M f mode)^[k] s

section Calls
variable (fuel : ℕ) (s : WalkState V) (begun : Begun Y V)

theorem callRegion_spent (blocks : List (Ir Y)) (ir : Ir Y) :
    let c := callRegion code blocks fuel ir s begun
    c.begun.length + c.fuel = begun.length + fuel ∧ c.fuel ≤ fuel - 1 ∧ begun <:+ c.begun := by
  induction fuel generalizing ir s begun with
  | zero => exact ⟨rfl, le_rfl, List.suffix_refl _⟩
  | succ fuel ih =>
    have hcons : begun <:+ (ir, s) :: begun := List.suffix_cons _ _
    simp only [callRegion]
    split
    · rename_i next hnext
      obtain ⟨hlen, hfuel, hsuffix⟩ := ih (code ir s).1 ((ir, s) :: begun) next
      rw [List.length_cons] at hlen
      exact ⟨by omega, by omega, hcons.trans hsuffix⟩
    · exact ⟨Nat.succ_add_eq_add_succ _ _, le_rfl, hcons⟩

theorem Found.call_spent (u : Found Y) (hfuel : 0 < fuel) :
    let c := u.call M code fuel s begun
    c.begun.length = begun.length + max (fuel - c.fuel) 1 ∧ begun <:+ c.begun := by
  have hblock (f : BlockCode Y V) (ir : Ir Y) :
      let c := callSingle f fuel ir s begun
      c.begun.length = begun.length + max (fuel - c.fuel) 1 ∧ begun <:+ c.begun := by
    refine ⟨?_, List.suffix_cons _ _⟩
    simp [callSingle]
  cases u with
  | interpreted ir => exact hblock _ ir
  | single ir => exact hblock _ ir
  | region entry blocks =>
    obtain ⟨hlen, hspent, hsuffix⟩ := callRegion_spent code fuel s begun blocks entry
    refine ⟨?_, hsuffix⟩
    change (callRegion code blocks fuel entry s begun).begun.length = _ + max (_ - _) 1
    change _ = _ + max (fuel - (callRegion code blocks fuel entry s begun).fuel) 1
    omega

variable {M code} {fuel s begun} {mode : CpuMode} {R : WalkState V → WalkState V → Prop}
variable {x : ℕ → WalkState V} {b : ℕ}

theorem callRegion_tracks (hf : Leads M mode R x b code) (blocks : List (Ir Y)) (ir : Ir Y)
    (hs : R s (x begun.length)) (hb : begun.length + fuel ≤ b) :
    let c := callRegion code blocks fuel ir s begun
    (∀ p ∈ c.begun, Fresh M mode p) → R c.state (x c.begun.length) := by
  induction fuel generalizing ir s begun with
  | zero => exact fun _ => hs
  | succ fuel ih =>
    simp only [callRegion]
    split
    · rename_i next hnext
      intro hall
      have hsuffix := (callRegion_spent code fuel (code ir s).1 ((ir, s) :: begun) blocks next).2.2
      have hfresh := hall _ (hsuffix.subset List.mem_cons_self)
      exact ih next (hf _ (by omega) ir s hs hfresh) (by rw [List.length_cons]; omega) hall
    · intro hall
      exact hf _ (by omega) ir s hs (hall _ List.mem_cons_self)

theorem Found.call_tracks (u : Found Y) (hu : Leads M mode R x b (u.blockCode M code))
    (hs : R s (x begun.length)) (hfuel : 0 < fuel) (hb : begun.length + fuel ≤ b) :
    let c := u.call M code fuel s begun
    (∀ p ∈ c.begun, Fresh M mode p) → R c.state (x c.begun.length) := by
  intro c hall
  cases u with
  | interpreted ir | single ir =>
    exact hu _ (by omega) ir s hs (hall _ List.mem_cons_self)
  | region entry blocks => exact callRegion_tracks hu blocks entry hs hb hall

end Calls

variable {M code} {b : ℕ} {l l' : Loop Y V} {a : LoopAct Y V}

/-- No block begins that is not charged, and no more is charged than the budget. -/
structure Loop.Inv (b : ℕ) (l : Loop Y V) : Prop where
  charged : l.begun.length ≤ l.blocksRun
  within : l.blocksRun ≤ b

theorem Loop.turn_inv (h : l.Inv b) (hturn : l.turn M code b a = some l') : l'.Inv b := by
  unfold turn at hturn
  split at hturn
  · rename_i hopen
    have hfuel : 0 < b - l.blocksRun := by omega
    cases a with
    | charge s =>
      cases hturn
      exact ⟨Nat.le_succ_of_le h.charged, hopen.2⟩
    | call u =>
      obtain ⟨hlen, -⟩ := u.call_spent M code (b - l.blocksRun) l.state l.begun hfuel
      have hcharged := h.charged
      cases hturn
      exact ⟨by dsimp only; omega, by dsimp only; omega⟩
  · cases hturn

variable {mode : CpuMode} {R : WalkState V → WalkState V → Prop} {x : ℕ → WalkState V}

/-- Only blocks have been charged. Where all of them were fresh the guest is at the state of `x`
with their number. -/
def Loop.Tracks (M : Machine Y V) (mode : CpuMode) (R : WalkState V → WalkState V → Prop)
    (x : ℕ → WalkState V) (l : Loop Y V) : Prop :=
  l.blocksRun = l.begun.length ∧
    ((∀ p ∈ l.begun, Fresh M mode p) → R l.state (x l.begun.length))

theorem Loop.turn_tracks (h : l.Tracks M mode R x) (ha : a.Calls M code (Leads M mode R x b))
    (hturn : l.turn M code b a = some l') : l'.Tracks M mode R x := by
  cases a with
  | charge s => exact ha.elim
  | call u =>
    unfold turn at hturn
    split at hturn
    · rename_i hopen
      have hfuel : 0 < b - l.blocksRun := by omega
      have hb : l.begun.length + (b - l.blocksRun) ≤ b := by
        rw [← h.1]
        omega
      obtain ⟨hlen, hsuffix⟩ := u.call_spent M code (b - l.blocksRun) l.state l.begun hfuel
      cases hturn
      refine ⟨?_, fun hall => ?_⟩
      · dsimp only
        rw [hlen, h.1]
      · exact u.call_tracks ha (h.2 fun p hp => hall p (hsuffix.subset hp)) hfuel hb hall
    · cases hturn

theorem Loop.tracks_of_run {s : WalkState V} {acts : List (LoopAct Y V)} (hR : R s (x 0))
    (hacts : ∀ a ∈ acts, a.Calls M code (Leads M mode R x b))
    (hrun : run (Loop.turn M code b) (.start s) acts = some l) : l.Tracks M mode R x :=
  run_invariant_of (Loop.Tracks M mode R x) _ (fun _ _ _ => Loop.turn_tracks) ⟨rfl, fun _ => hR⟩
    hacts hrun

section Agreement
variable {f : BlockCode Y V} {s t : WalkState V}

theorem orbit_succ (k : ℕ) : orbit M f mode s (k + 1) = guestBlock M f mode (orbit M f mode s k) :=
  Function.iterate_succ_apply' _ k s

theorem guestBlock_of_fresh {ir : Ir Y} (h : Fresh M mode (ir, s)) :
    guestBlock M f mode s = (f ir s).1 := by
  unfold Fresh at h
  rw [guestBlock, h]

theorem leads_orbit : Leads M mode Eq (orbit M f mode s) b f := by
  rintro k - ir t rfl hfresh
  rw [orbit_succ, guestBlock_of_fresh hfresh]

theorem SameGuest.congr {α : Type} (h : SameGuest s t) (g : WalkState V → α) :
    g (between s) = g (between t) :=
  congrArg g h

theorem SameGuest.rip (h : SameGuest s t) : s.guest.rip = t.guest.rip :=
  h.congr fun u => u.guest.rip

theorem SameGuest.mem (h : SameGuest s t) : s.guest.mem = t.guest.mem :=
  h.congr fun u => u.guest.mem

/-- The interpreter does not look at what it sets afresh. -/
theorem SameGuest.interpreted (h : SameGuest s t) (ir : Ir Y) :
    interpreted M ir s = interpreted M ir t := by
  unfold Run.interpreted interpretBlock
  have henter : enterBlock ir s = enterBlock ir t := h.congr (enterBlock ir)
  rw [henter]

theorem interpreted_leads :
    Leads M mode SameGuest (orbit M (interpreted M) mode s) b (interpreted M) := by
  intro k _ ir t ht hfresh
  have hfresh' : Fresh M mode (ir, orbit M (interpreted M) mode s k) := by
    unfold Fresh at hfresh ⊢
    rw [← ht.rip, ← ht.mem]
    exact hfresh
  rw [orbit_succ, guestBlock_of_fresh hfresh', ht.interpreted ir]
  rfl

end Agreement

/-- A run with a budget of `b` blocks never begins more, and the counter stays within the budget.
If nothing but blocks was charged, a run that uses up the budget has begun exactly `b` blocks.
If moreover every block was fresh, then single blocks and regions, in any mix, leave the state that
`b` single blocks leave, whatever the compiled code of a block does, and so does the interpreter;
compiled code that follows the interpreter from block to block ends where the interpreter does. -/
theorem budget_exact (M : Machine Y V) (code : BlockCode Y V) (mode : CpuMode) (b : ℕ)
    (s : WalkState V) (acts : List (LoopAct Y V)) (l : Loop Y V)
    (hrun : run (Loop.turn M code b) (.start s) acts = some l) :
    l.begun.length ≤ l.blocksRun ∧ l.blocksRun ≤ b ∧
      ((∀ a ∈ acts, a.Calls M code fun _ => True) → l.Exhausted b → l.begun.length = b ∧
        ((∀ p ∈ l.begun, Fresh M mode p) →
          (∀ f, (∀ a ∈ acts, a.Calls M code (· = f)) → l.state = orbit M f mode s b) ∧
          (Leads M mode SameGuest (orbit M (interpreted M) mode s) b code →
            SameGuest l.state (orbit M (interpreted M) mode s b)))) := by
  have hinv : l.Inv b :=
    run_invariant (Loop.Inv b) (fun _ _ _ => Loop.turn_inv) ⟨le_rfl, Nat.zero_le b⟩ hrun
  refine ⟨hinv.charged, hinv.within, fun hcalls hspent => ?_⟩
  have hlen : l.begun.length = b := by
    have htracks : l.Tracks M mode (fun _ _ => True) fun _ => s :=
      Loop.tracks_of_run trivial (fun a ha => (hcalls a ha).imp fun _ _ _ _ _ _ _ _ => trivial) hrun
    rw [← htracks.1]
    exact le_antisymm hinv.within hspent.2
  refine ⟨hlen, fun hfresh => ⟨fun f hf => ?_, fun hcode => ?_⟩⟩
  · have htracks : l.Tracks M mode Eq (orbit M f mode s) :=
      Loop.tracks_of_run rfl (fun a ha => (hf a ha).imp fun _ hg => hg ▸ leads_orbit) hrun
    rw [htracks.2 hfresh, hlen]
  · have htracks : l.Tracks M mode SameGuest (orbit M (interpreted M) mode s) :=
      Loop.tracks_of_run rfl (fun a ha => (hcalls a ha).of_units interpreted_leads hcode) hrun
    rw [← hlen]
    exact htracks.2 hfresh

def jmpMachine : Machine Empty Ext :=
  { lifter := jmpLifter, sem := otherOps noForeign, clearMmioParts := id }

/-- The compiled code of a block that is a direct jump: RIP is stored. -/
def storeTarget : BlockCode Empty Ext := fun ir s =>
  match staticSuccs ir with
  | [target] => ({ s with guest := { s.guest with rip := target } }, .goes)
  | _ => (s, .exits)

def jmpState (rip : U64) : WalkState Ext :=
  let s := WalkState.zero Ext.zero jmpMemory
  { s with guest := { s.guest with rip } }

def jmpBack : Ir Empty :=
  ⟨0x1002, 2, [.plain (.insnStart 0x1002), .plain (.jump (.imm 0x1000))]⟩

theorem storeTarget_step {s : WalkState Ext} {ir : Ir Empty} {rip : U64} (jump : Ir Empty)
    (target : U64)
    (hjump : Lift.liftBlock jmpLifter .long64 jmpMemory (.flat rip.toNat) = .ok jump)
    (htarget : staticSuccs jump = [target]) (hs : SameGuest s (jmpState rip))
    (hfresh : Fresh jmpMachine .long64 (ir, s)) :
    SameGuest (storeTarget ir s).1 (jmpState target) := by
  have hir : Lift.liftBlock jmpLifter .long64 jmpMemory (.flat rip.toNat) = .ok ir := by
    rw [Fresh, hs.rip, hs.mem] at hfresh
    exact hfresh
  cases hjump.symm.trans hir
  rw [storeTarget, htarget]
  exact hs.congr fun u => { u with guest := { u.guest with rip := target } }

set_option maxRecDepth 100000 in
theorem storeTarget_leads : Leads jmpMachine .long64 SameGuest
    (orbit jmpMachine (interpreted jmpMachine) .long64 (jmpState 0x1000)) 3 storeTarget := by
  intro k hk ir s hs hfresh
  match k, hk with
  | 0, _ | 2, _ => exact storeTarget_step jmpBlock 0x1002 rfl rfl hs hfresh
  | 1, _ => exact storeTarget_step jmpBack 0x1000 rfl rfl hs hfresh

def jmpLoop : Loop Empty Ext :=
  let s := jmpState 0x1000
  let t := jmpState 0x1002
  ⟨t, 3, [(jmpBlock, s), (jmpBack, t), (jmpBlock, s)], true⟩

set_option maxRecDepth 100000 in
/-- Two jumps to each other, as a region with fuel for three blocks. -/
theorem jump_loop_spends_three : jmpLoop.begun.length = 3 ∧
      jmpLoop.state = orbit jmpMachine storeTarget .long64 (jmpState 0x1000) 3 ∧
      SameGuest jmpLoop.state
        (orbit jmpMachine (interpreted jmpMachine) .long64 (jmpState 0x1000) 3) := by
  have hrun : run (Loop.turn jmpMachine storeTarget 3) (.start (jmpState 0x1000))
      [.call (.region jmpBlock [jmpBlock, jmpBack])] = some jmpLoop := rfl
  have hfresh : ∀ p ∈ jmpLoop.begun, Fresh jmpMachine .long64 p := by
    simp only [jmpLoop, List.forall_mem_cons]
    exact ⟨rfl, rfl, rfl, List.forall_mem_nil _⟩
  obtain ⟨-, -, hspent⟩ := budget_exact jmpMachine storeTarget .long64 3 _ _ jmpLoop hrun
  obtain ⟨hlen, hstate⟩ := hspent (by simp [LoopAct.Calls]) ⟨rfl, le_rfl⟩
  obtain ⟨hcode, hfollows⟩ := hstate hfresh
  exact ⟨hlen, hcode storeTarget (by simp [LoopAct.Calls, Found.blockCode]),
    hfollows storeTarget_leads⟩

/-- `add [rbx], eax` and short jumps. -/
def patchDecoder : Decoder where
  decode mode code ip :=
    match addDecoder.decode mode code ip with
    | .insn insn => .insn insn
    | _ => jmpDecoder.decode mode code ip
  reports := by
    intro mode code ip insn h
    split at h
    · rename_i found hadd
      cases h
      exact addDecoder.reports hadd
    · exact jmpDecoder.reports h

def patchMachine : Machine Empty Ext :=
  { lifter := ⟨patchDecoder, fun _ _ => unsupportedInsn, false⟩
    sem := otherOps noForeign
    clearMmioParts := id }

theorem patchRegions_le : ∀ r ∈ [Region.mk 0x1000 10 .ram], r.stop ≤ 0x10000 := by decide

/-- The block at `0x1000` adds 4 to the offset of the jump at `0x1006` that leads back to it, and
jumps there. -/
def patchState : WalkState Ext :=
  let s := WalkState.zero Ext.zero (.small _ patchRegions_le fun a =>
    [0x01, 0x03, 0xeb, 0x02, 0, 0, 0xeb, 0xf8].getD (a - 0x1000) 0)
  { s with guest := { (s.guest.setGpr rbx 0x1006).setGpr rax 0x400 with rip := 0x1000 } }

def patchBlock : Ir Empty :=
  ⟨0x1000, 4, addBlock.ops ++ [.plain (.insnStart 0x1002), .plain (.jump (.imm 0x1006))]⟩

def jumpBlock (target : U64) : Ir Empty :=
  ⟨0x1006, 2, [.plain (.insnStart 0x1006), .plain (.jump (.imm target))]⟩

set_option maxRecDepth 100000 in
/-- The two blocks form a region with a loop. With a budget of two blocks the region stops at
`0x1000`, having run the jump as it was translated; single blocks and the interpreter run the jump
as it has become and stop at `0x1004`. -/
theorem region_stops_elsewhere :
    let stops (units : List (Found Empty)) :=
      (run (Loop.turn patchMachine (interpreted patchMachine) 2) (.start patchState)
        (units.map .call)).map fun l => (l.running, l.blocksRun, l.begun.length, l.state.guest.rip)
    let region : IrRegion (OtherOp Empty) := ⟨0x1000, [patchBlock, jumpBlock 0x1000], true⟩
    liftRegion patchMachine.lifter .long64 patchState.guest.mem 0x1000 ⟨16, 256⟩ 16 =
        .ok (some region) ∧
      Fresh patchMachine .long64 (patchBlock, patchState) ∧
      Fresh patchMachine .long64
        (jumpBlock 0x1004, guestBlock patchMachine (interpreted patchMachine) .long64 patchState) ∧
      stops [.region patchBlock region.blocks] = some (true, 2, 2, 0x1000) ∧
      stops [.single patchBlock, .single (jumpBlock 0x1004)] = some (true, 2, 2, 0x1004) ∧
      stops [.interpreted patchBlock, .interpreted (jumpBlock 0x1004)] =
        some (true, 2, 2, 0x1004) := by
  exact ⟨rfl, rfl, rfl, by decide +kernel, by decide +kernel, by decide +kernel⟩

end X86Jit.Run
