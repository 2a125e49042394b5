import X86Jit.Jit.StoreReports
import X86Jit.Lib.Runs

/-! The dispatch loop around compiled units. A store onto translated code is only acted on at the
top of the outer loop. -/
namespace X86Jit.Jit
open X86Jit.Lib

/-- The static targets of its last op: two of a branch, one of a direct jump, none of any other. -/
structure RegionBlock where
  start : ℕ
  targets : List ℕ
  deriving DecidableEq, Repr

inductive CompiledUnit
  | single (start : ℕ)
  | region (entry : ℕ) (blocks : List RegionBlock)
  deriving DecidableEq, Repr

def CompiledUnit.internal (u : CompiledUnit) (block target : ℕ) : Bool :=
  match u with
  | .single _ => false
  | .region _ blocks =>
    blocks.any (fun b => b.start == block && b.targets.contains target) &&
      blocks.any (fun b => b.start == target)

/-- A unit being called, with the quantum it was handed and the fuel left of it. -/
structure Call where
  unit : CompiledUnit
  quantum : ℕ
  fuel : ℕ
  deriving DecidableEq, Repr

/-- At the top of the outer loop, past `handle_smc`, at the top of the inner loop, at the fuel gate
of a region block, or inside a guest block. -/
inductive DispatchPhase
  | stopped
  | outer
  | drained
  | chain (u : CompiledUnit)
  | gate (c : Call) (block : ℕ)
  | body (c : Call) (block : ℕ)
  deriving DecidableEq, Repr

/-- A ghost, `owed`, says that a store of compiled code has landed on a tagged page since
`handle_smc` last ran. -/
structure Dispatcher where
  mem : Memory
  phase : DispatchPhase
  budget : Option ℕ
  blocksRun : ℕ
  owed : Bool

inductive Leave
  | back
  | chain (u : CompiledUnit)
  | exit
  deriving DecidableEq, Repr

inductive DispatchAct
  | run (budget : Option ℕ)
  | drain
  | exhaust
  | fail
  | interpret
  | dispatch (u : CompiledUnit)
  | unchain
  | call
  | gate
  | store (op : StoreOp)
  | edge (target : ℕ)
  | leave (l : Leave)
  | other (mem : Memory) (drained : Bool)

def drainMem (m : Memory) : Memory :=
  m.takeDirtyCode.1.foldl Memory.clearCodePage m.takeDirtyCode.2

def landsOnCode (m : Memory) (s : JitMem) : Bool :=
  s.puts.any fun r => (List.range r.2).any fun i => (r.1.toNat + i) / codePageSize ∈ m.codePage

namespace Dispatcher

def boot (m : Memory) : Dispatcher :=
  { mem := m, phase := .stopped, budget := none, blocksRun := 0, owed := false }

variable (d : Dispatcher)

def exhausted : Bool :=
  match d.budget with
  | some b => b ≤ d.blocksRun
  | none => false

def quantum : ℕ :=
  match d.budget with
  | some b => b - d.blocksRun
  | none => 2 ^ 64 - 1

def charge (c : Call) : Dispatcher :=
  { d with blocksRun := d.blocksRun + max (c.quantum - c.fuel) 1 }

/-- A region starts at the gate of its entry block, a single block has none. -/
def enter (u : CompiledUnit) : DispatchPhase :=
  match u with
  | .single start => .body ⟨u, d.quantum, d.quantum⟩ start
  | .region entry _ => .gate ⟨u, d.quantum, d.quantum⟩ entry

def afterReturn : Leave → DispatchPhase
  | .back => .outer
  | .chain u => if d.exhausted then .stopped else .chain u
  | .exit => .stopped

/-- A deferred access is single-stepped by the interpreter, which leaves the chain. -/
def retLeave : Ret → Option Leave
  | .next => none
  | .mmioDefer => some .back
  | .unmapped _ => some .exit
  | .exception _ => some .exit

def leave (c : Call) (l : Leave) : Dispatcher :=
  { d.charge c with phase := (d.charge c).afterReturn l }

def store (mmio : MmioWindow) (d : Dispatcher) (c : Call) (op : StoreOp) : Dispatcher :=
  let out := op.run mmio (JitMem.enter d.mem)
  let d' := { d with mem := out.1.mem, owed := d.owed || landsOnCode d.mem out.1 }
  match retLeave out.2 with
  | none => d'
  | some l => d'.leave c l

/-- The rest of the machine may change memory in any way but forgets a dirty page only by running
`handle_smc` itself. -/
def step (mmio : MmioWindow) (d : Dispatcher) (a : DispatchAct) : Option Dispatcher :=
  match d.phase, a with
  | .stopped, .run budget => some { d with phase := .outer, budget := budget, blocksRun := 0 }
  | .outer, .exhaust => if d.exhausted then some { d with phase := .stopped } else none
  | .outer, .drain =>
    if d.exhausted then none
    else some { d with mem := drainMem d.mem, phase := .drained, owed := false }
  | .drained, .fail => some { d with phase := .stopped }
  | .drained, .interpret => some { d with phase := .outer, blocksRun := d.blocksRun + 1 }
  | .drained, .dispatch u => some { d with phase := .chain u }
  | .chain _, .unchain => if d.mem.hasDirtyCode then some { d with phase := .outer } else none
  | .chain u, .call => if d.mem.hasDirtyCode then none else some { d with phase := d.enter u }
  | .gate c block, .gate =>
    if c.fuel = 0 then some (d.leave c .back)
    else some { d with phase := .body { c with fuel := c.fuel - 1 } block }
  | .body c _, .store op => some (d.store mmio c op)
  | .body c block, .edge target =>
    if c.unit.internal block target then some { d with phase := .gate c target } else none
  | .body c _, .leave l => some (d.leave c l)
  | _, .other mem drained =>
    if drained || d.mem.dirty.isEmpty || !mem.dirty.isEmpty then
      some { d with mem := mem, owed := d.owed && !drained }
    else none
  | _, _ => none

/-- A region block past its gate, a single block that is called, or an interpreted one. -/
def StartsBlock (a : DispatchAct) : Prop :=
  match d.phase, a with
  | .gate c _, .gate => c.fuel ≠ 0
  | .chain (.single _), .call => d.mem.hasDirtyCode = false
  | .drained, .interpret => True
  | _, _ => False

/-- Every store is reported, and a region that stored onto translated code has no fuel left when it
goes on to its next block. -/
def Timely (mmio : MmioWindow) (d : Dispatcher) (a : DispatchAct) : Prop :=
  match d.phase, a with
  | .body _ _, .store op => AllReported d.mem (op.run mmio (JitMem.enter d.mem)).1
  | .body c block, .edge target => c.unit.internal block target = true → d.owed = true → c.fuel = 0
  | _, _ => True

/-- Every store meets the condition of its op, and one that lands on translated code is made by a
block from which the unit goes on to none of its own. -/
def Tame (mmio : MmioWindow) (d : Dispatcher) (a : DispatchAct) : Prop :=
  match d.phase, a with
  | .body c block, .store op => op.Covered d.mem ∧
    (landsOnCode d.mem (op.run mmio (JitMem.enter d.mem)).1 = true →
      ∀ target, c.unit.internal block target = false)
  | _, _ => True

end Dispatcher

variable {mmio : MmioWindow} {m : Memory} {d d' : Dispatcher} {a : DispatchAct}

theorem wrote_of_landsOnCode {s : JitMem} (h : landsOnCode m s = true) :
    ∃ b, s.Wrote b ∧ b / codePageSize ∈ m.codePage := by
  obtain ⟨r, hr, hany⟩ := List.any_eq_true.mp h
  obtain ⟨i, hi, hcode⟩ := List.any_eq_true.mp hany
  rw [List.mem_range] at hi
  exact ⟨r.1.toNat + i, ⟨r, hr, by omega, by omega⟩, of_decide_eq_true hcode⟩

theorem StoreOp.dirty_of_landsOnCode {op : StoreOp}
    (hrep : AllReported m (op.run mmio (JitMem.enter m)).1)
    (h : landsOnCode m (op.run mmio (JitMem.enter m)).1 = true) :
    (op.run mmio (JitMem.enter m)).1.mem.dirty ≠ [] := by
  obtain ⟨b, hw, hcode⟩ := wrote_of_landsOnCode h
  exact List.ne_nil_of_mem (((op.run_ran mmio m).noted _ (hrep b hw (Or.inl hcode))).1 hcode)

theorem StoreOp.dirty_of_dirty (op : StoreOp) (h : m.dirty ≠ []) :
    (op.run mmio (JitMem.enter m)).1.mem.dirty ≠ [] := by
  obtain ⟨p, hp⟩ := List.exists_mem_of_ne_nil _ h
  exact List.ne_nil_of_mem ((op.run_ran mmio m).dirty p hp)

namespace Dispatcher

/-- An owed invalidation is on the dirty list, and finds no fuel at a region's gate. -/
structure Inv (d : Dispatcher) : Prop where
  dirty : d.owed = true → d.mem.dirty ≠ []
  drained : d.phase = .drained → d.owed = false
  gate : ∀ c block, d.phase = .gate c block → d.owed = true → c.fuel = 0

theorem boot_inv (m : Memory) : (boot m).Inv := by
  refine ⟨?_, ?_, ?_⟩
  · intro h
    cases h
  · intro h
    cases h
  · intro c block h
    cases h

theorem Inv.of_dirty (hdirty : d.owed = true → d.mem.dirty ≠ []) (h : d.phase ≠ .drained)
    (h' : ∀ c block, d.phase ≠ .gate c block) : d.Inv :=
  ⟨hdirty, fun hp => absurd hp h, fun c block hp => absurd hp (h' c block)⟩

theorem afterReturn_ne (d : Dispatcher) (l : Leave) :
    d.afterReturn l ≠ .drained ∧ ∀ c block, d.afterReturn l ≠ .gate c block := by
  cases l with
  | back => exact ⟨nofun, nofun⟩
  | exit => exact ⟨nofun, nofun⟩
  | chain u =>
    unfold afterReturn
    dsimp only
    split
    · exact ⟨nofun, nofun⟩
    · exact ⟨nofun, nofun⟩

theorem leave_inv (c : Call) (l : Leave) (h : d.owed = true → d.mem.dirty ≠ []) :
    (d.leave c l).Inv :=
  Inv.of_dirty h ((d.charge c).afterReturn_ne l).1 ((d.charge c).afterReturn_ne l).2

theorem store_inv {c : Call} {block : ℕ} {op : StoreOp} (hphase : d.phase = .body c block)
    (h : d.Inv) (hrep : AllReported d.mem (op.run mmio (JitMem.enter d.mem)).1) :
    (d.store mmio c op).Inv := by
  let out := op.run mmio (JitMem.enter d.mem)
  have hdirty : (d.owed || landsOnCode d.mem out.1) = true → out.1.mem.dirty ≠ [] := by
    intro howed
    rcases Bool.or_eq_true _ _ ▸ howed with howed | hlands
    · exact op.dirty_of_dirty (h.dirty howed)
    · exact op.dirty_of_landsOnCode hrep hlands
  unfold store
  dsimp only
  split
  · apply Inv.of_dirty hdirty
    · rw [hphase]
      exact nofun
    · rw [hphase]
      exact nofun
  · exact leave_inv c _ hdirty

theorem enter_ne_drained (d : Dispatcher) (u : CompiledUnit) : d.enter u ≠ .drained := by
  cases u <;> exact nofun

theorem step_inv (h : d.Inv) (hok : Timely mmio d a) (hstep : step mmio d a = some d') :
    d'.Inv := by
  have hmove : ∀ p n, p ≠ .drained → (∀ c block, p ≠ .gate c block) →
      Inv { d with phase := p, blocksRun := n } := by
    intro p n hp hp'
    exact Inv.of_dirty h.dirty hp hp'
  cases a with
  | run budget =>
    cases hp : d.phase <;> simp only [step, hp, reduceCtorEq, Option.some.injEq] at hstep
    subst hstep
    exact Inv.of_dirty h.dirty nofun nofun
  | drain =>
    cases hp : d.phase <;> simp only [step, hp, reduceCtorEq] at hstep
    split at hstep
    · cases hstep
    · -- `handle_smc` settles what is owed
      cases hstep
      refine ⟨nofun, fun _ => rfl, ?_⟩
      intro c block _ howed
      cases howed
  | exhaust =>
    cases hp : d.phase <;> simp only [step, hp, reduceCtorEq] at hstep
    split at hstep
    · cases hstep
      exact hmove .stopped _ nofun nofun
    · cases hstep
  | fail =>
    cases hp : d.phase <;> simp only [step, hp, reduceCtorEq] at hstep
    cases hstep
    exact hmove .stopped _ nofun nofun
  | interpret =>
    cases hp : d.phase <;> simp only [step, hp, reduceCtorEq] at hstep
    cases hstep
    exact hmove .outer _ nofun nofun
  | dispatch u =>
    cases hp : d.phase <;> simp only [step, hp, reduceCtorEq] at hstep
    cases hstep
    exact hmove (.chain u) _ nofun nofun
  | unchain =>
    cases hp : d.phase <;> simp only [step, hp, reduceCtorEq] at hstep
    split at hstep
    · cases hstep
      exact hmove .outer _ nofun nofun
    · cases hstep
  | call =>
    cases hp : d.phase <;> simp only [step, hp, reduceCtorEq] at hstep
    case chain u =>
      split at hstep
      · cases hstep
      · rename_i hclean
        cases hstep
        -- the inner loop has just seen an empty dirty list
        have hfree : d.owed ≠ true := by
          intro howed
          apply h.dirty howed
          simpa [Memory.hasDirtyCode] using hclean
        refine ⟨h.dirty, ?_, ?_⟩
        · intro hd
          exact absurd hd (d.enter_ne_drained u)
        · intro c block _ howed
          exact absurd howed hfree
  | gate =>
    cases hp : d.phase <;> simp only [step, hp, reduceCtorEq] at hstep
    case gate c block =>
      split at hstep
      · cases hstep
        exact leave_inv c .back h.dirty
      · cases hstep
        exact hmove (.body { c with fuel := c.fuel - 1 } block) _ nofun nofun
  | store op =>
    cases hp : d.phase <;> simp only [step, hp, reduceCtorEq] at hstep
    cases hstep
    simp only [Timely, hp] at hok
    exact store_inv hp h hok
  | edge target =>
    cases hp : d.phase <;> simp only [step, hp, reduceCtorEq] at hstep
    split at hstep
    · rename_i hinternal
      cases hstep
      simp only [Timely, hp] at hok
      refine ⟨h.dirty, nofun, ?_⟩
      intro c block hgate howed
      cases hgate
      exact hok hinternal howed
    · cases hstep
  | leave l =>
    cases hp : d.phase <;> simp only [step, hp, reduceCtorEq] at hstep
    cases hstep
    exact leave_inv _ l h.dirty
  | other mem drained =>
    have hother : (drained || d.mem.dirty.isEmpty || !mem.dirty.isEmpty) = true ∧
        d' = { d with mem := mem, owed := d.owed && !drained } := by
      cases hp : d.phase <;> simp only [step, hp, Option.ite_none_right_eq_some] at hstep <;>
        exact ⟨hstep.1, (Option.some.inj hstep.2).symm⟩
    obtain ⟨hallowed, rfl⟩ := hother
    -- what is owed stays on the list, unless somebody else has drained it
    have howed : ∀ {x : Bool}, (d.owed && x) = true → d.owed = true := fun hx =>
      (Bool.and_eq_true _ _ ▸ hx).1
    refine ⟨?_, ?_, ?_⟩
    · intro hx
      have hdirty := h.dirty (howed hx)
      intro hnil
      rw [hnil] at hallowed
      simp only [List.isEmpty_nil, Bool.not_true, Bool.or_false, Bool.or_eq_true,
        List.isEmpty_iff] at hallowed
      rcases hallowed with hdrained | hclean
      · rw [hdrained, Bool.not_true, Bool.and_false] at hx
        cases hx
      · exact hdirty hclean
    · intro hd
      rw [h.drained hd, Bool.false_and]
    · intro c block hg hx
      exact h.gate c block hg (howed hx)

theorem not_owed_of_startsBlock (h : d.Inv) (hs : StartsBlock d a) : d.owed = false := by
  unfold StartsBlock at hs
  split at hs
  · rename_i c block hp
    by_contra howed
    exact hs (h.gate c block hp (by simpa using howed))
  · by_contra howed
    apply h.dirty (by simpa using howed)
    simpa [Memory.hasDirtyCode] using hs
  · rename_i hp
    exact h.drained hp
  · cases hs

/-- An invalidation is owed at no gate, and in no block that the unit follows by one of its own. -/
structure Confined (d : Dispatcher) : Prop where
  inv : d.Inv
  gate : ∀ c block, d.phase = .gate c block → d.owed = false
  body : ∀ c block, d.phase = .body c block → d.owed = true →
    ∀ target, c.unit.internal block target = false

theorem boot_confined (m : Memory) : (boot m).Confined :=
  ⟨boot_inv m, nofun, nofun⟩

theorem Confined.timely (h : d.Confined) (hok : Tame mmio d a) : Timely mmio d a := by
  unfold Timely
  split
  · rename_i hp
    simp only [Tame, hp] at hok
    exact StoreOp.reported_of_covered mmio _ hok.1
  · rename_i c block target hp
    intro hinternal howed
    rw [h.body c block hp howed] at hinternal
    cases hinternal
  · trivial

theorem Confined.of_phase (hinv : d.Inv) (hgate : ∀ c block, d.phase ≠ .gate c block)
    (hbody : ∀ c block, d.phase ≠ .body c block) : d.Confined :=
  ⟨hinv, fun c block hp => absurd hp (hgate c block), fun c block hp => absurd hp (hbody c block)⟩

theorem leave_ne (c : Call) (l : Leave) :
    (∀ c' block, (d.leave c l).phase ≠ .gate c' block) ∧
      ∀ c' block, (d.leave c l).phase ≠ .body c' block := by
  cases l with
  | back => exact ⟨nofun, nofun⟩
  | exit => exact ⟨nofun, nofun⟩
  | chain u =>
    unfold leave afterReturn
    dsimp only
    split
    · exact ⟨nofun, nofun⟩
    · exact ⟨nofun, nofun⟩

theorem leave_confined {c : Call} {l : Leave} (h : (d.leave c l).Inv) : (d.leave c l).Confined :=
  Confined.of_phase h (leave_ne c l).1 (leave_ne c l).2

theorem store_confined {c : Call} {block : ℕ} {op : StoreOp} (hphase : d.phase = .body c block)
    (h : d.Confined) (hinv : (d.store mmio c op).Inv)
    (hlands : landsOnCode d.mem (op.run mmio (JitMem.enter d.mem)).1 = true →
      ∀ target, c.unit.internal block target = false) : (d.store mmio c op).Confined := by
  unfold store at hinv ⊢
  dsimp only at hinv ⊢
  cases hleave : retLeave (op.run mmio (JitMem.enter d.mem)).2 with
  | some l =>
    rw [hleave] at hinv
    exact leave_confined hinv
  | none =>
    rw [hleave] at hinv
    refine ⟨hinv, fun _ _ hp => ?_, fun c' block' hp howed => ?_⟩
    · rw [hphase] at hp
      cases hp
    · rw [hphase] at hp
      cases hp
      rcases Bool.or_eq_true _ _ ▸ howed with howed | hland
      · exact h.body c block hphase howed
      · exact hlands hland

theorem step_confined (h : d.Confined) (hok : Tame mmio d a) (hstep : step mmio d a = some d') :
    d'.Confined := by
  have hinv := step_inv h.inv (h.timely hok) hstep
  unfold step at hstep
  split at hstep
  case h_8 u hp =>
    split at hstep
    · cases hstep
    · rename_i hclean
      cases hstep
      have hfree : d.owed = false := by
        by_contra howed
        apply h.inv.dirty (by simpa using howed)
        simpa [Memory.hasDirtyCode] using hclean
      refine ⟨hinv, fun _ _ _ => hfree, ?_⟩
      intro c block _ howed
      rw [hfree] at howed
      cases howed
  case h_9 c block hp =>
    split at hstep
    · cases hstep
      exact leave_confined hinv
    · cases hstep
      refine ⟨hinv, nofun, ?_⟩
      intro c' block' _ howed
      rw [h.gate c block hp] at howed
      cases howed
  case h_10 c block op hp =>
    cases hstep
    simp only [Tame, hp] at hok
    exact store_confined hp h hinv hok.2
  case h_11 c block target hp =>
    split at hstep
    · rename_i hinternal
      cases hstep
      refine ⟨hinv, fun _ _ _ => ?_, nofun⟩
      by_contra howed
      rw [h.body c block hp (by simpa using howed)] at hinternal
      cases hinternal
    · cases hstep
  case h_12 c block l hp =>
    cases hstep
    exact leave_confined hinv
  case h_13 mem drained =>
    split at hstep
    · cases hstep
      refine ⟨hinv, fun c block hp => ?_, fun c block hp howed => ?_⟩
      · rw [h.gate c block hp, Bool.false_and]
      · exact h.body c block hp (Bool.and_eq_true _ _ ▸ howed).1
    · cases hstep
  all_goals
    try split at hstep
    all_goals
      cases hstep <;> exact Confined.of_phase hinv nofun nofun

end Dispatcher

open Dispatcher

/-- In every run in which stores are reported and a region that stored onto translated code is out
of fuel at its next internal edge, no guest block starts while such a store waits for `handle_smc`.
-/
theorem blocks_wait_for_drain (mmio : MmioWindow) (m : Memory) (l : List DispatchAct)
    (hok : AllSteps (Dispatcher.step mmio) (Timely mmio) (boot m) l) :
    AllSteps (Dispatcher.step mmio) (fun d a => StartsBlock d a → d.owed = false) (boot m) l :=
  hok.imp Inv (fun _ _ _ => step_inv) (fun _ _ h _ => not_owed_of_startsBlock h) (boot_inv m)

/-- So it is enough that a block which stores onto translated code ends its unit's call. -/
theorem blocks_wait_of_confined (mmio : MmioWindow) (m : Memory) (l : List DispatchAct)
    (hok : AllSteps (Dispatcher.step mmio) (Tame mmio) (boot m) l) :
    AllSteps (Dispatcher.step mmio) (fun d a => StartsBlock d a → d.owed = false) (boot m) l :=
  hok.imp Confined (fun _ _ _ => step_confined) (fun _ _ h _ => not_owed_of_startsBlock h.inv)
    (boot_confined m)

theorem codeOnPageOne_covered :
    GateCovers {p | p ∈ codeOnPageOne.codePage} codeOnPageOne.codeRange := by
  have hkeeps : KeepsSkew ∅ 1 := ⟨.inr fun h => h.1, fun h => h.2.1⟩
  have htracks : Tracks (insert 1 ∅) (Memory.widenCodeRange 0 1) :=
    Tracks.widen (.inl ⟨rfl, by decide⟩) (by decide) nofun hkeeps
  have hpages : {p | p ∈ codeOnPageOne.codePage} = insert 1 ∅ := by
    ext p
    have hone : codeOnPageOne.codePage = {1} := by decide
    rw [hone]
    simp
  rw [hpages]
  exact htracks.gateCovers

/-- A loop of two blocks in sixteen bytes of code. -/
def twoBlocks : CompiledUnit := .region 0x1000 [⟨0x1000, [0x1008]⟩, ⟨0x1008, [0x1000]⟩]

theorem one_block_budget_waits :
    AllSteps (Dispatcher.step none) (fun d a => StartsBlock d a → d.owed = false) (boot codeOnPageOne)
      [.run (some 1), .drain, .dispatch twoBlocks, .call, .gate, .store (.store 0x1008 0x90 .b1),
        .edge 0x1008, .gate] := by
  apply blocks_wait_for_drain
  refine .cons trivial rfl (.cons trivial rfl (.cons trivial rfl (.cons trivial rfl
    (.cons trivial rfl (.cons ?_ rfl (.cons ?_ rfl (.cons trivial rfl trivial)))))))
  · exact StoreOp.inlined_reported none _ rfl codeOnPageOne_covered
  · intro _ _
    rfl

theorem region_runs_patched_block :
    ¬ AllSteps (Dispatcher.step none) (fun d a => StartsBlock d a → d.owed = false) (boot codeOnPageOne)
      [.run none, .drain, .dispatch twoBlocks, .call, .gate, .store (.store 0x1008 0x90 .b1),
        .edge 0x1008, .gate] := by
  intro h
  have h1 := h.2 _ rfl
  have h2 := h1.2 _ rfl
  have h3 := h2.2 _ rfl
  have h4 := h3.2 _ rfl
  have h5 := h4.2 _ rfl
  have h6 := h5.2 _ rfl
  have h7 := h6.2 _ rfl
  have hfree := h7.1 (by change 2 ^ 64 - 1 - 1 ≠ 0; decide)
  cases hfree

end X86Jit.Jit
