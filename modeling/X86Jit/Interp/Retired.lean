import X86Jit.Interp.Delivery
import X86Jit.Interp.X87

/-! The count of retired instructions. The walk counts an instruction when the next one starts,
and the last one by whether RIP has moved off it. -/
namespace X86Jit
open X86Jit.Lib

inductive Ending
  | trapped
  | faulted
  | jumped
  | done
  deriving DecidableEq, Repr

variable {X V : Type}

/-- A gate that saves the instruction's own IP is a fault: the handler returns to it. An exception
past the instruction is a trap that follows it. -/
def IrOp.ending (s : WalkState V) (r : StepResult) (op : IrOp X) : Ending :=
  match op.gate s with
  | some (_, savedIp) =>
    if r.refused then .trapped
    else if savedIp.setWidth 16 = s.guest.curAddr.setWidth 16 then .faulted else .done
  | none =>
    match op with
    | .plain (.jump _) => .jumped
    | .plain (.farJump cs _) =>
      if (s.guest.readVal cs).setWidth 16 = s.guest.cs then .jumped else .done
    | .plain (.trap _ advance) => if advance = 0 then .trapped else .done
    | _ => if r.refused then .trapped else .done

def IrOp.isStart : IrOp X → Bool
  | .plain (.insnStart _) => true
  | _ => false

variable (sem : OtherOps X V) (blockEnd : U64)

/-- The instructions completed in a run, with `n` of them begun before: all but a last one that was
not completed or that jumps to itself. -/
def completedFrom : ℕ → List (IrOp X) → WalkState V → ℕ
  | n, [], _ => n
  | n, op :: rest, s =>
    match exec sem blockEnd op s with
    | .ok t => completedFrom (if op.isStart then n + 1 else n) rest t
    | .error e =>
      match op.ending s e.result with
      | .done => n
      | .jumped => if op.next blockEnd s = s.guest.curAddr then n - 1 else n
      | .trapped | .faulted => n - 1

/-- A refused vector op that leaves RIP alone has it on its own instruction already. -/
def RipStands (keeps : X → Bool) (s : WalkState V) : IrOp X → Prop
  | .set (.other x) => keeps x = true → s.guest.rip = s.guest.curAddr
  | _ => True

/-- The last op of the run does not go from a completed instruction to that instruction, nor from
one that faulted to a handler elsewhere, and a refused one stands on its instruction. -/
def RipTells (keeps : X → Bool) : List (IrOp X) → WalkState V → Prop
  | [], s => s.guest.started = true → blockEnd ≠ s.guest.curAddr
  | op :: rest, s =>
    match exec sem blockEnd op s with
    | .ok t => RipTells keeps rest t
    | .error e => s.guest.started = true →
      match op.ending s e.result with
      | .done => op.next blockEnd s ≠ s.guest.curAddr
      | .faulted => op.next blockEnd s = s.guest.curAddr
      | .trapped => RipStands keeps s op
      | .jumped => True

def completed (ir : OpBlock X) (s : WalkState V) : ℕ :=
  completedFrom sem ir.blockEnd 0 ir.ops (enterBlock ir s)

/-- The instruction is still the same. If it was refused RIP is on it, and otherwise RIP is at
`next`. -/
def Trapped (next : U64) (g : Guest V) (e : Stop (Guest V)) : Prop :=
  e.state.marks = g.marks ∧ e.state.rip = if e.result.refused then g.curAddr else next

instance (next : U64) : Leaving (Trapped (V := V) next) where
  congr {g g' e} h := by
    rintro ⟨hmarks, hrip⟩
    have haddr : g'.curAddr = g.curAddr := congrArg Prod.fst h
    rw [haddr] at hrip
    exact ⟨hmarks.trans h, hrip⟩
  trap _ t _ _ access _ := ⟨rfl, by cases t <;> cases access <;> rfl⟩

def Refused (keeps : Bool) (g : Guest V) (e : Stop (Guest V)) : Prop :=
  e.state.marks = g.marks ∧ e.result.refused = true ∧
    e.state.rip = if keeps then g.rip else g.curAddr

/-- The vector, x87 and identification ops leave only if they are refused, with RIP on their
instruction or, those that `keeps` names, where it was: the memory form of the wide Galois-field
product is the one that does not set it. -/
def OtherOps.Stay (sem : OtherOps X V) (keeps : X → Bool) : Prop :=
  ∀ op g, Within (Refused (keeps op)) g id (sem op g).1

def Lift.OtherOp.keeps {Y : Type} (keeps : Y → Bool) : Lift.OtherOp Y → Bool
  | .foreign op => keeps op
  | _ => false

theorem otherOps_stay {Y : Type} {foreign : OtherOps Y Ext} {keeps : Y → Bool}
    (h : foreign.Stay keeps) : (otherOps foreign).Stay (Lift.OtherOp.keeps keeps) := by
  intro op g
  cases op with
  | fxState addr restore =>
    change Within (Refused false) g id (execFxState g addr restore)
    unfold execFxState
    dsimp only
    split <;> split <;> first | rfl | exact ⟨rfl, rfl, rfl⟩
  | foreign op => exact h op g
  | cpuid | xgetbv => rfl

theorem x87_stay {K : Type} (u : X87 K) : OtherOps.Stay u.exec fun _ => false := by
  intro op g
  unfold X87.exec
  dsimp only
  repeat' split
  all_goals first | rfl | exact ⟨rfl, rfl, rfl⟩

variable {s : WalkState V} {op : IrOp X}

theorem stays_of_not_other (sem : OtherOps X V) (blockEnd : U64) (s : WalkState V)
    (hother : ∀ x, op ≠ .set (.other x)) (hstart : op.isStart = false)
    (htrap : ∀ vector advance, op ≠ .plain (.trap vector advance)) :
    Stays (Trapped (op.next blockEnd s)) s (exec sem blockEnd op s) := by
  refine exec_stays (fun e hmarks hgo hrip => ⟨hmarks, ?_⟩) ?_ htrap hother fun _ _ => ⟨rfl, rfl⟩
  · rw [hgo]
    exact hrip
  · rintro addr rfl
    cases hstart

variable {sem : OtherOps X V} {blockEnd : U64} {keeps : X → Bool}

def Begun (n : ℕ) (g : Guest V) : Prop := g.started = decide (0 < n) ∧ g.retired = n - 1

variable {n : ℕ} {g : Guest V}

theorem Begun.of_marks {g' : Guest V} (h : Begun n g) (hm : g'.marks = g.marks) : Begun n g' := by
  have hretired : g'.retired = g.retired := congrArg (fun p => p.2.1) hm
  have hstarted : g'.started = g.started := congrArg (fun p => p.2.2) hm
  exact ⟨hstarted.trans h.1, hretired.trans h.2⟩

theorem Begun.start (h : Begun n g) (addr : U64) : Begun (n + 1) (execInsnStart g addr) := by
  refine ⟨by simp [execInsnStart], ?_⟩
  simp only [execInsnStart, h.1, h.2]
  rcases n with - | n <;> simp

def tally (g : Guest V) : ℕ := if g.started && g.rip != g.curAddr then g.retired + 1 else g.retired

theorem tally_eq (h : Begun n g) : tally g = if g.rip = g.curAddr then n - 1 else n := by
  simp only [tally, h.1, h.2]
  rcases n with - | n
  · simp
  · by_cases hrip : g.rip = g.curAddr <;> simp [hrip]

theorem pred_eq_iff (h : Begun n g) {P : Prop} [Decidable P] {k : ℕ}
    (hk : k = if P then n - 1 else n) :
    tally g = k ↔ (g.started = true → (g.rip = g.curAddr ↔ P)) := by
  rw [tally_eq h, hk, h.1]
  rcases n with - | n
  · simp
  · by_cases hrip : g.rip = g.curAddr <;> by_cases hP : P <;> simp [hrip, hP]

theorem refused_of_trapped {r : StepResult}
    (h : op.ending s r = .trapped) (htrap : ∀ vector advance, op ≠ .plain (.trap vector advance)) :
    r.refused = true := by
  unfold IrOp.ending at h
  split at h
  · split at h
    · assumption
    · split at h <;> cases h
  · split at h
    · cases h
    · split at h <;> cases h
    · exact absurd rfl (htrap _ _)
    · split at h
      · assumption
      · cases h

theorem trapped_of_refused {e : Stop (WalkState V)} (h : exec sem blockEnd op s = .error e)
    (htrap : ∀ vector advance, op ≠ .plain (.trap vector advance))
    (hr : e.result.refused = true) : op.ending s e.result = .trapped := by
  unfold IrOp.ending
  split
  · rw [if_pos hr]
  · split
    · cases h
      cases hr
    · cases h
      cases hr
    · exact absurd rfl (htrap _ _)
    · rw [if_pos hr]

/-- A completed instruction leaves RIP at the address its last op goes to, and a refused one on
itself if RIP stands there. -/
theorem exec_error (hsem : sem.Stay keeps) {e : Stop (WalkState V)}
    (h : exec sem blockEnd op s = .error e) : e.state.guest.marks = s.guest.marks ∧
      (op.ending s e.result ≠ .trapped → e.state.guest.rip = op.next blockEnd s) ∧
      (op.ending s e.result = .trapped →
        (e.state.guest.rip = s.guest.curAddr ↔ RipStands keeps s op)) := by
  by_cases htrap : ∃ vector advance, op = .plain (.trap vector advance)
  · obtain ⟨vector, advance, rfl⟩ := htrap
    cases h
    refine ⟨rfl, fun _ => rfl, fun hend => iff_of_true ?_ trivial⟩
    have hzero : advance = 0 := by simpa [IrOp.ending, IrOp.gate] using hend
    rw [hzero]
    exact BitVec.add_zero _
  have hnot (vector advance : U8) : op ≠ .plain (.trap vector advance) :=
    fun hop => htrap ⟨vector, advance, hop⟩
  by_cases hother : ∃ x, op = .set (.other x)
  · obtain ⟨x, rfl⟩ := hother
    have hstays := Within.withFlags (hsem x s.guest) (s.flags.write (sem x s.guest).2)
    change Stays _ s (exec sem blockEnd (.set (.other x)) s) at hstays
    rw [h] at hstays
    obtain ⟨hmarks, hrefused, hrip⟩ := hstays
    have hrip : e.state.guest.rip = if keeps x then s.guest.rip else s.guest.curAddr := hrip
    refine ⟨hmarks, fun hend => absurd (trapped_of_refused h hnot hrefused) hend, fun _ => ?_⟩
    rw [hrip]
    cases hk : keeps x <;> simp [RipStands, hk]
  · have hplain (x : X) : op ≠ .set (.other x) := fun hx => hother ⟨x, hx⟩
    have hstart : op.isStart = false := by
      cases op with
      | plain op => cases op <;> first | rfl | cases h
      | _ => rfl
    have hstays := stays_of_not_other sem blockEnd s hplain hstart hnot
    rw [h] at hstays
    obtain ⟨hmarks, hrip⟩ := hstays
    refine ⟨hmarks, fun hend => ?_, fun hend => iff_of_true ?_ ?_⟩
    · have hgo : e.result.refused = false := by
        by_contra hr
        exact hend (trapped_of_refused h hnot (by simpa using hr))
      rwa [if_neg (by simp [hgo])] at hrip
    · rwa [if_pos (refused_of_trapped hend hnot)] at hrip
    · unfold RipStands
      split
      · exact absurd rfl (hplain _)
      · trivial

theorem begun_of_ok (hsem : sem.Stay keeps) {t : WalkState V}
    (hn : Begun n s.guest) (h : exec sem blockEnd op s = .ok t) :
    Begun (if op.isStart then n + 1 else n) t.guest := by
  cases hstart : op.isStart with
  | true =>
    cases op with
    | plain op =>
      cases op with
      | insnStart addr =>
        cases h
        exact hn.start addr
      | _ => cases hstart
    | _ => cases hstart
  | false =>
    refine hn.of_marks ?_
    by_cases hother : ∃ x, op = .set (.other x)
    · obtain ⟨x, rfl⟩ := hother
      have hstays := Within.withFlags (hsem x s.guest) (s.flags.write (sem x s.guest).2)
      change Stays _ s (exec sem blockEnd (.set (.other x)) s) at hstays
      rwa [h] at hstays
    · have hstays := stays_of_not_other sem blockEnd s
        (fun x hx => hother ⟨x, hx⟩) hstart (by rintro vector advance rfl; cases h)
      rwa [h] at hstays

def walkEnd (sem : OtherOps X V) (blockEnd : U64) (ops : List (IrOp X)) (s : WalkState V) :
    Stop (WalkState V) :=
  match walk (exec sem blockEnd) ops s with
  | .fell t => goTo t blockEnd
  | .left _ e => e

theorem tally_walkEnd_iff (hsem : sem.Stay keeps) (ops : List (IrOp X)) (hn : Begun n s.guest) :
    tally (walkEnd sem blockEnd ops s).state.guest = completedFrom sem blockEnd n ops s ↔
      RipTells sem blockEnd keeps ops s := by
  induction ops generalizing s n with
  | nil =>
    have hb : Begun n (goTo s blockEnd).state.guest := hn
    rw [walkEnd, walk, pred_eq_iff (P := False) hb (by simp [completedFrom])]
    simp [RipTells, goTo]
  | cons op rest ih =>
    cases hx : exec sem blockEnd op s with
    | ok t =>
      have hend : walkEnd sem blockEnd (op :: rest) s = walkEnd sem blockEnd rest t := by
        rw [walkEnd, walkEnd, walk_cons_ok hx]
        cases walk (exec sem blockEnd) rest t <;> rfl
      simp only [hend, completedFrom, RipTells, hx]
      exact ih (begun_of_ok hsem hn hx)
    | error e =>
      obtain ⟨hmarks, hgone, htrapped⟩ := exec_error hsem hx
      have haddr : e.state.guest.curAddr = s.guest.curAddr := congrArg Prod.fst hmarks
      have hstarted : e.state.guest.started = s.guest.started :=
        congrArg (fun p => p.2.2) hmarks
      have hend : walkEnd sem blockEnd (op :: rest) s = e := by
        rw [walkEnd, walk_cons_error hx]
      have hb : Begun n e.state.guest := hn.of_marks hmarks
      simp only [hend, completedFrom, RipTells, hx]
      cases hending : op.ending s e.result with
      | done =>
        rw [pred_eq_iff (P := False) hb (by simp), haddr, hstarted, hgone (by simp [hending])]
        simp
      | jumped =>
        rw [pred_eq_iff (P := op.next blockEnd s = s.guest.curAddr) hb rfl, haddr,
          hgone (by simp [hending])]
        simp
      | trapped =>
        rw [pred_eq_iff (P := True) hb (by simp), haddr, hstarted, htrapped hending]
        simp
      | faulted =>
        rw [pred_eq_iff (P := True) hb (by simp), haddr, hstarted, hgone (by simp [hending])]
        simp

/-- The reported count is the number of completed instructions exactly where RIP tells; then none is
missed or counted twice over any sequence of runs. -/
theorem retired_exact_iff (hsem : sem.Stay keeps) : (∀ (ir : OpBlock X) (s : WalkState V),
      (interpretBlock sem ir s).info.retired = completed sem ir s ↔
        RipTells sem ir.blockEnd keeps ir.ops (enterBlock ir s)) ∧
    ∀ runs : List (OpBlock X × WalkState V),
      (∀ r ∈ runs, RipTells sem r.1.blockEnd keeps r.1.ops (enterBlock r.1 r.2)) →
        (runs.map fun r => (interpretBlock sem r.1 r.2).info.retired).sum =
          (runs.map fun r => completed sem r.1 r.2).sum := by
  have hiff (ir : OpBlock X) (s : WalkState V) :
      (interpretBlock sem ir s).info.retired = completed sem ir s ↔
        RipTells sem ir.blockEnd keeps ir.ops (enterBlock ir s) :=
    tally_walkEnd_iff hsem ir.ops ⟨rfl, rfl⟩
  refine ⟨hiff, fun runs h => ?_⟩
  congr 1
  apply List.map_congr_left
  intro r hr
  exact (hiff r.1 r.2).2 (h r hr)

/-- A vector op that is refused and leaves RIP alone, as the one instruction of its block. -/
theorem refused_alone_counted :
    let ir : OpBlock Unit :=
      { guestStart := 0x100
        guestLen := 6
        ops := [.plain (.insnStart 0x100), .set (.other ())] }
    let s : WalkState Unit := WalkState.zero () (Memory.small [] nofun fun _ => 0)
    let sem : OtherOps Unit Unit := fun _ g =>
      (.error ⟨g, .exit (.unmappedMemory 0x8000 .read)⟩, fun _ => none)
    sem.Stay (fun _ => true) ∧
      (interpretBlock sem ir { s with guest := { s.guest with rip := 0x100 } }).info.retired =
        completed sem ir { s with guest := { s.guest with rip := 0x100 } } := by
  intro ir s sem
  have hstay : sem.Stay fun _ => true := fun _ _ => ⟨rfl, rfl, rfl⟩
  exact ⟨hstay, ((retired_exact_iff hstay).1 ir _).2 fun _ _ => rfl⟩

/-- `loop` on itself counts its register down and is not counted. -/
theorem loop_to_itself_not_counted :
    let ir : OpBlock Empty :=
      { guestStart := 0x100
        guestLen := 2
        ops := [.plain (.insnStart 0x100), .loopCx .loop 0x100 0x102] }
    let s : WalkState Unit := WalkState.zero () (Memory.small [] nofun fun _ => 0)
    (interpretBlock (fun op => op.elim) ir s).info.retired = 0 ∧
      completed (fun op => op.elim) ir s = 1 := by
  decide

end X86Jit
