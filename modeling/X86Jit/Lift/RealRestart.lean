import X86Jit.Interp.RealStack
import X86Jit.Lift.Arranged
import X86Jit.Lift.Restart

/-! The instructions of real mode that save or restore a frame, run again after a trap. -/
namespace X86Jit

variable {V : Type} {s s₁ s₂ : WalkState V}

theorem ReadOnly.refl (s : WalkState V) : ReadOnly s s := ⟨rfl⟩

theorem ReadOnly.trans (h : ReadOnly s s₁) (h' : ReadOnly s₁ s₂) : ReadOnly s s₂ := by
  constructor
  rw [h'.rest, h.rest]

end X86Jit

namespace X86Jit.Lift
open X86Jit.Lib

variable {V : Type} (insn : Insn)

def Insn.movesFrame : Bool :=
  match insn.mnemonic with
  | .pusha | .popa | .enter | .pushf | .popf | .iret | .retf | .int | .int3 | .into => true
  | .call => isFarCall insn
  | _ => false

/-- An instruction that is too long for real mode pushes the frame of its fault. -/
def Insn.firstSlot (g : Guest V) : U64 :=
  if maxInsnLen286 < insn.len then g.frameAddr 2
  else
    match insn.mnemonic with
    | .popa | .popf | .iret | .retf => g.topAddr
    | _ => g.frameAddr 2

variable (addrSize : Size) (g : Guest V)

def pointerOffset : U64 :=
  BitVec.ofNat 64 (insn.mem.offset g addrSize)

def pointerAddr : U64 :=
  pointerOffset insn addrSize g + BitVec.ofNat 64 (addedBase g insn)

def Insn.callsPointer : Prop :=
  ¬maxInsnLen286 < insn.len ∧ insn.mnemonic = .call ∧ insn.op 0 = .memory

def Insn.ReadsPointer : Prop :=
  insn.callsPointer ∧ ¬LimitFails insn (pointerOffset insn addrSize g)

/-- One of the accesses up to the first word of the frame is not backed, and no answer is taken for
one of them. -/
def Insn.TrapsFirst : Prop :=
  (insn.ReadsPointer addrSize g ∧ g.pendingMmio = none ∧
    ∃ addr ∈ [pointerAddr insn addrSize g, pointerAddr insn addrSize g + 2, g.frameAddr 2],
      g.mem.backed addr .b2 = false) ∨
  (¬insn.ReadsPointer addrSize g ∧ g.mem.backed (insn.firstSlot g) .b2 = false)

def withMem {V : Type} (s : WalkState V) (m : Memory) : WalkState V :=
  { s with guest := { s.guest with mem := m } }

/-- Every register and flag is as before, and whatever is mapped by then, the block runs as if it
had not been tried. -/
structure AsBefore {X V : Type} (sem : OtherOps X V) (ir : OpBlock X) (s s' : WalkState V) :
    Prop where
  gpr : s'.guest.gpr = s.guest.gpr
  cs : s'.guest.cs = s.guest.cs
  ds : s'.guest.ds = s.guest.ds
  es : s'.guest.es = s.guest.es
  ss : s'.guest.ss = s.guest.ss
  flags : s.flags.SameArch s'.flags
  again : ∀ m, interpretBlock sem ir (withMem s' m) = interpretBlock sem ir (withMem s m)

variable {X : Type} {sem : OtherOps X V} {ir : OpBlock X} {ip : U64} {s s₁ s' : WalkState V}

theorem readOnly_of_temps {t : Temp} (h : TempsFrom t s s') : ReadOnly s s' := by
  constructor
  rw [h.rest]

theorem asBefore_of_early (hip : s.guest.rip = ip) (h : ReadOnly (startInsn ir ip s) s₁)
    (hpending : s₁.guest.pendingMmio = s.guest.pendingMmio)
    (hs' : s' = { s₁ with guest := { s₁.guest with rip := s₁.guest.curAddr } }) :
    AsBefore sem ir s s' := by
  have hrest : s₁ = { startInsn ir ip s with guest := { (startInsn ir ip s).guest with
      temps := s₁.guest.temps } } := by
    have hsame : (startInsn ir ip s).guest.pendingMmio = s₁.guest.pendingMmio := hpending.symm
    rw [h.rest, ← hsame]
  rw [hrest] at hs'
  subst hs'
  refine ⟨rfl, rfl, rfl, rfl, rfl, .refl _, ?_⟩
  intro m
  have hrip : s.guest = { s.guest with rip := ip } := by rw [← hip]
  have henter : enterBlock ir (withMem s m) =
      enterBlock ir (withMem { s with guest := { s.guest with rip := ip } } m) := by rw [← hrip]
  unfold interpretBlock
  rw [henter]
  rfl

theorem asBefore_iff_first (hip : s.guest.rip = ip) (h : ReadOnly (startInsn ir ip s) s₁)
    (hpending : s₁.guest.pendingMmio = s.guest.pendingMmio) {first : U64}
    (hfirst : s₁.FirstDecides first s') :
    AsBefore sem ir s s' ↔ s.guest.mem.backed first .b2 = false := by
  have hmem : s₁.guest.mem = s.guest.mem := by
    rw [h.rest]
    rfl
  have hgpr : s₁.guest.gpr = s.guest.gpr := by
    rw [h.rest]
    rfl
  constructor
  · intro hbefore
    rw [← Bool.not_eq_true]
    intro hbacked
    rw [← hmem] at hbacked
    exact hfirst.late hbacked (congrFun (hbefore.gpr.trans hgpr.symm) rsp)
  · intro hno
    rw [← hmem] at hno
    exact asBefore_of_early hip h hpending (hfirst.early hno)

theorem asBefore_iff_single {op : IrOp X} (hops : ir.ops = [.plain (.insnStart ip), op])
    (hip : s.guest.rip = ip) {first : U64}
    (hfirst : firstWord (startInsn ir ip s).guest op = some first)
    (ht : (interpretBlock sem ir s).result.isTrap = true) :
    AsBefore sem ir s (interpretBlock sem ir s).state ↔ s.guest.mem.backed first .b2 = false := by
  have hleft : (walk (exec sem ir.blockEnd) [op] (startInsn ir ip s)).Meets (fun _ => True)
      fun e => e.result.isTrap = true → (startInsn ir ip s).FirstDecides first e.state := by
    cases he : exec sem ir.blockEnd op (startInsn ir ip s) with
    | ok s₂ =>
      rw [walk_cons_ok he]
      trivial
    | error e =>
      rw [walk_cons_error he]
      exact exec_trap_first hfirst he
  have hexit : (interpretBlock sem ir s).result ≠ .continue := by
    intro hcontinue
    rw [hcontinue] at ht
    cases ht
  exact asBefore_iff_first hip (.refl _) rfl (interpretBlock_left hops hleft hexit ht)

variable {Y : Type} {insn : Insn} {t : Temp} {r : Emitted (IrOp (OtherOp Y)) Bool}

theorem code_of_frame (hmoves : insn.movesFrame = true) (hlen : ¬maxInsnLen286 < insn.len)
    (hpointer : ¬insn.callsPointer) {foreign : Insn → CpuMode → LiftM (OtherOp Y) Bool}
    (hr : liftInsn foreign insn .real16 t = .ok r) :
    ∃ op, r.ops = [op] ∧ ∀ g : Guest V, firstWord g op = some (insn.firstSlot g) := by
  unfold liftInsn at hr
  unfold Insn.firstSlot
  simp only [if_neg hlen]
  unfold liftReal16 at hr
  unfold Insn.movesFrame at hmoves
  split at hmoves
  case h_11 hm =>
    rw [hm] at hr
    simp only [hmoves] at hr
    obtain ⟨r₁, r₂, h₁, h₂, rfl⟩ := Emit.bind_ok.mp hr
    cases h₂
    unfold liftFarCallReal16 farTarget at h₁
    cases hop : insn.op 0 with
    | farBranch16 selector offset =>
      rw [hop] at h₁
      cases h₁
      exact ⟨_, rfl, fun g => by rw [hm]; rfl⟩
    | memory => exact absurd ⟨hlen, hm, hop⟩ hpointer
    | _ =>
      rw [hop] at h₁
      cases h₁
  case h_12 => cases hmoves
  all_goals
    rename_i hm
    rw [hm] at hr
    cases hr
    exact ⟨_, rfl, fun g => by rw [hm]; rfl⟩

variable {blockEnd : U64} {Q : Stop (WalkState V) → Prop} {addrSize : Size} {a : U64}

structure PointerRead (a : U64) (s s' : WalkState V) : Prop where
  rest : ReadOnly s s'
  pending : s'.guest.pendingMmio = none
  first : s.guest.pendingMmio = none → s.guest.mem.backed a .b2 = true
  second : s.guest.mem.backed (a + 2) .b2 = true

/-- A word of the pointer at `a` is not there. Only the first may come from the embedder. -/
structure PointerTrap (a : U64) (s : WalkState V) (e : Stop (WalkState V)) : Prop where
  state : ∃ s₁, ReadOnly s s₁ ∧ s₁.guest.pendingMmio = none ∧
    e.state = { s₁ with guest := { s₁.guest with rip := s₁.guest.curAddr } }
  unbacked : ∃ addr ∈ [a, a + 2], s.guest.mem.backed addr .b2 = false
  empty : s.guest.mem.regions = [] →
    e.result = .exit (.unmappedMemory (if s.guest.pendingMmio.isSome then a + 2 else a) .read)

theorem backed_of_empty {m : Memory} (h : m.regions = []) (addr : U64) (size : Size) :
    m.backed addr size = false := by
  unfold Memory.backed Memory.regionFor
  rw [h]
  rfl

theorem read_of_empty {m : Memory} (h : m.regions = []) (addr : U64) (size : Size) :
    m.read addr size = .error .unmapped := by
  unfold Memory.read Memory.regionFor
  rw [h]
  rfl

theorem LoadTraps.pointer {addr : U64} {e : Stop (WalkState V)}
    (h : LoadTraps s₁ addr .b2 e) (hrest : ReadOnly s s₁) (hmem : addr ∈ [a, a + 2])
    (hempty : s.guest.mem.regions = [] →
      addr = if s.guest.pendingMmio.isSome then a + 2 else a) : PointerTrap a s e := by
  obtain ⟨hpending, hunbacked, trap, hread, rfl⟩ := h
  have hsame : s₁.guest.mem = s.guest.mem := by rw [hrest.rest]
  rw [hsame] at hunbacked hread
  refine ⟨⟨s₁, hrest, hpending, rfl⟩, ⟨addr, hmem, hunbacked⟩, ?_⟩
  intro hregions
  cases hread.symm.trans (read_of_empty hregions addr .b2)
  rw [← hempty hregions]
  rfl

theorem farTarget_ensures (hop : insn.op 0 = .memory) (h : insn.mem.Faithful .real16 addrSize)
    (hlimit : ∀ s', TempsFrom t s s' → LimitFails insn (pointerOffset insn addrSize s.guest) →
      Q (protectionFault insn s'))
    (htrap : ∀ e, ¬LimitFails insn (pointerOffset insn addrSize s.guest) →
      PointerTrap (pointerAddr insn addrSize s.guest) s e → Q e) :
    Emit.Ensures (exec sem blockEnd) (farTarget insn) t s
      (fun _ _ s' => ¬LimitFails insn (pointerOffset insn addrSize s.guest) ∧
        PointerRead (pointerAddr insn addrSize s.guest) s s') Q := by
  unfold farTarget
  rw [hop]
  apply Emit.Ensures.bind
  refine (effectiveAddress_checked h hlimit).seq ?_
  rintro addr t₁ s₁ ⟨haddr, hfine⟩
  have hfirst : s₁.guest.readVal addr = pointerAddr insn addrSize s.guest := haddr.value
  have hs₁ : ReadOnly s s₁ := readOnly_of_temps haddr.frame
  have hpending : s₁.guest.pendingMmio = s.guest.pendingMmio := by rw [haddr.frame.rest]
  have hmem₁ : s₁.guest.mem = s.guest.mem := by rw [haddr.frame.rest]
  refine (emitLoad_cases ?_).seq ?_
  · intro e he
    apply htrap e hfine
    rw [hfirst] at he
    refine he.pointer hs₁ (by simp) ?_
    intro _
    have hnone := he.pending
    rw [hpending] at hnone
    rw [hnone]
    rfl
  intro v₁ t₂ s₂ h₂
  have hs₂ : ReadOnly s s₂ := by
    refine hs₁.trans ⟨?_⟩
    rw [h₂.frame.rest]
    rfl
  have hnone₂ : s₂.guest.pendingMmio = none := by
    rw [h₂.frame.rest]
    rfl
  have hbacked : s.guest.pendingMmio = none →
      s.guest.mem.backed (pointerAddr insn addrSize s.guest) .b2 = true := by
    intro hnone
    rw [← hfirst, ← hmem₁]
    exact h₂.backed (hpending.trans hnone)
  refine addAddr_ensures.seq ?_
  intro addr' t₃ s₃ h₃
  have hsecond : s₃.guest.readVal addr' = pointerAddr insn addrSize s.guest + 2 := by
    rw [h₃.value, h₂.frame.readVal haddr.below]
    change s₁.guest.readVal addr + 2 = _
    rw [hfirst]
  have hs₃ : ReadOnly s s₃ := hs₂.trans (readOnly_of_temps h₃.frame)
  have hnone₃ : s₃.guest.pendingMmio = none := by
    rw [h₃.frame.rest]
    exact hnone₂
  refine (emitLoad_cases ?_).seq ?_
  · intro e he
    apply htrap e hfine
    rw [hsecond] at he
    refine he.pointer hs₃ (by simp) ?_
    -- in empty memory the first word came from the embedder
    intro hregions
    cases hp : s.guest.pendingMmio with
    | some v => rfl
    | none =>
      have hyes := hbacked hp
      rw [backed_of_empty hregions] at hyes
      cases hyes
  intro v₂ t₄ s₄ h₄
  refine .pure (.pure ⟨hfine, ?_⟩)
  have hmem₃ : s₃.guest.mem = s.guest.mem := by rw [hs₃.rest]
  refine ⟨?_, ?_, hbacked, ?_⟩
  · refine hs₃.trans ⟨?_⟩
    rw [h₄.frame.rest]
    rfl
  · rw [h₄.frame.rest]
    rfl
  · rw [← hmem₃, ← hsecond]
    exact h₄.backed hnone₃

variable {sem : OtherOps (OtherOp Y) V}

/-- In the fault of its limit check, on the pointer, or on the frame. -/
inductive CallTrap (insn : Insn) (addrSize : Size) (s : WalkState V) (e : Stop (WalkState V)) : Prop
  | limit (h : LimitFails insn (pointerOffset insn addrSize s.guest)) (s₁ : WalkState V)
      (hread : ReadOnly s s₁) (hpending : s₁.guest.pendingMmio = s.guest.pendingMmio)
      (hfirst : s₁.FirstDecides (s.guest.frameAddr 2) e.state)
  | pointer (h : ¬LimitFails insn (pointerOffset insn addrSize s.guest))
      (htrap : PointerTrap (pointerAddr insn addrSize s.guest) s e)
  | frame (h : ¬LimitFails insn (pointerOffset insn addrSize s.guest)) (s₁ : WalkState V)
      (hread : PointerRead (pointerAddr insn addrSize s.guest) s s₁)
      (hfirst : s₁.FirstDecides (s.guest.frameAddr 2) e.state)

theorem frameAddr_of_readOnly (h : ReadOnly s s₁) : s₁.guest.frameAddr 2 = s.guest.frameAddr 2 := by
  rw [h.rest]
  rfl

theorem liftFarCall_traps (sem : OtherOps (OtherOp Y) V) (blockEnd : U64)
    (hop : insn.op 0 = .memory) (h : insn.mem.Faithful .real16 addrSize) :
    Emit.Ensures (exec sem blockEnd) (ending (liftFarCallReal16 insn)) t s (fun _ _ _ => True)
      fun e => e.result.isTrap = true → CallTrap insn addrSize s e := by
  apply Emit.Ensures.bind
  refine (farTarget_ensures hop h ?_ ?_).seq ?_
  · intro s₁ hs₁ hfails ht
    have hread : ReadOnly s s₁ := readOnly_of_temps hs₁
    refine .limit hfails s₁ hread (by rw [hs₁.rest]) ?_
    rw [← frameAddr_of_readOnly hread]
    exact deliver_first ht
  · intro e hfine htrap _
    exact .pointer hfine htrap
  · rintro ⟨cs, ip⟩ t₁ s₁ ⟨hfine, hread⟩
    apply Emit.Ensures.push
    · intro s₂ hok
      exact .pure trivial
    · intro e he ht
      refine .frame hfine s₁ hread ?_
      rw [← frameAddr_of_readOnly hread.rest]
      exact exec_trap_first rfl he ht

theorem liftFarCall_empty (sem : OtherOps (OtherOp Y) V) (blockEnd : U64)
    (hop : insn.op 0 = .memory)
    (h : insn.mem.Faithful .real16 addrSize) (hempty : s.guest.mem.regions = [])
    (hfine : ¬LimitFails insn (pointerOffset insn addrSize s.guest)) :
    Emit.Ensures (exec sem blockEnd) (ending (liftFarCallReal16 insn)) t s (fun _ _ _ => False)
      fun e => e.result = .exit (.unmappedMemory
        (if s.guest.pendingMmio.isSome then pointerAddr insn addrSize s.guest + 2
          else pointerAddr insn addrSize s.guest) .read) := by
  apply Emit.Ensures.bind
  refine (farTarget_ensures hop h ?_ ?_).seq ?_
  · intro s₁ _ hfails
    exact absurd hfails hfine
  · intro e _ htrap
    exact htrap.empty hempty
  · rintro ⟨cs, ip⟩ t₁ s₁ ⟨-, hread⟩
    have hsecond := hread.second
    rw [backed_of_empty hempty] at hsecond
    cases hsecond

variable {ir : OpBlock (OtherOp Y)}

theorem pointerOffset_congr {g g' : Guest V} (addrSize : Size) (h : g'.gpr = g.gpr) :
    pointerOffset insn addrSize g' = pointerOffset insn addrSize g := by
  have hnumber (reg : Register) : reg.number g' = reg.number g := by
    cases reg with
    | gpr i size => exact congrArg (fun gpr => (gpr i).toNat % 2 ^ size.bits) h
    | _ => rfl
  unfold pointerOffset MemoryOperand.offset
  rw [hnumber, hnumber]

theorem AsBefore.pointerAddr (h : AsBefore sem ir s s')
    (hcode : insn.codeSize = .code16) (addrSize : Size) :
    pointerAddr insn addrSize s'.guest = pointerAddr insn addrSize s.guest := by
  have hselector : addedSelector s'.guest insn.mem.segment =
      addedSelector s.guest insn.mem.segment := by
    cases insn.mem.segment with
    | es => exact h.es
    | cs => exact h.cs
    | ss => exact h.ss
    | ds => exact h.ds
    | fs | gs => rfl
  unfold Lift.pointerAddr addedBase
  rw [pointerOffset_congr addrSize h.gpr, if_pos hcode, if_pos hcode, hselector]

theorem not_asBefore_of_answer (hops : ir.ops = .plain (.insnStart insn.ip) :: r.ops)
    (hr : ending (liftFarCallReal16 insn) 0 = .ok r) (hcode : insn.codeSize = .code16)
    (hop : insn.op 0 = .memory) (h : insn.mem.Faithful .real16 addrSize)
    (hfine : ¬LimitFails insn (pointerOffset insn addrSize s.guest))
    (hsome : s.guest.pendingMmio.isSome = true) (hnone : s'.guest.pendingMmio = none) :
    ¬AsBefore sem ir s s' := by
  intro hbefore
  let m : Memory := .fresh 0x10000 0 smallSpan_le
  have hresult (u : WalkState V) (hu : ¬LimitFails insn (pointerOffset insn addrSize u.guest)) :
      (interpretBlock sem ir (withMem u m)).result = .exit (.unmappedMemory
        (if u.guest.pendingMmio.isSome then pointerAddr insn addrSize u.guest + 2
          else pointerAddr insn addrSize u.guest) .read) := by
    have hwalk := liftFarCall_empty (s := startInsn ir insn.ip (withMem u m)) sem ir.blockEnd hop
      h rfl hu r hr
    rcases interpretBlock_ends hops hwalk with ⟨-, hfalse, -⟩ | hleft
    · exact hfalse.elim
    · exact hleft
  -- the address is a matter of registers, which are the same
  have hoffset : pointerOffset insn addrSize s'.guest = pointerOffset insn addrSize s.guest :=
    pointerOffset_congr addrSize hbefore.gpr
  have haddr := hbefore.pointerAddr hcode addrSize
  have hagain := congrArg Interpreted.result (hbefore.again m)
  rw [hresult s hfine, hresult s' (by rw [hoffset]; exact hfine), hnone, hsome, haddr] at hagain
  simp only [Option.isSome_none, Bool.false_eq_true, if_false, if_true, StepResult.exit.injEq,
    Exit.unmappedMemory.injEq, and_true] at hagain
  exact absurd (BitVec.add_right_eq_self.mp hagain.symm) (by decide)

theorem asBefore_iff_pointer (hops : ir.ops = .plain (.insnStart insn.ip) :: r.ops)
    (hr : ending (liftFarCallReal16 insn) 0 = .ok r) (hcode : insn.codeSize = .code16)
    (hcalls : insn.callsPointer) (h : insn.mem.Faithful .real16 addrSize)
    (hip : s.guest.rip = insn.ip) (ht : (interpretBlock sem ir s).result.isTrap = true) :
    AsBefore sem ir s (interpretBlock sem ir s).state ↔ insn.TrapsFirst addrSize s.guest := by
  have hop : insn.op 0 = .memory := hcalls.2.2
  have hslot : insn.firstSlot s.guest = s.guest.frameAddr 2 := by
    unfold Insn.firstSlot
    rw [if_neg hcalls.1, hcalls.2.1]
  have hexit : (interpretBlock sem ir s).result ≠ .continue := by
    intro hcontinue
    rw [hcontinue] at ht
    cases ht
  have hwalk := liftFarCall_traps (s := startInsn ir insn.ip s) sem ir.blockEnd hop h r hr
  have htrap := interpretBlock_left hops hwalk hexit ht
  cases htrap with
  | limit hfails s₁ hread hpending hfirst =>
    have hnot : ¬insn.ReadsPointer addrSize s.guest := fun hreads => hreads.2 hfails
    unfold Insn.TrapsFirst
    simp only [hnot, false_and, false_or, not_false_eq_true, true_and, hslot]
    exact asBefore_iff_first hip hread hpending hfirst
  | pointer hfine htrap =>
    have hreads : insn.ReadsPointer addrSize s.guest := ⟨hcalls, hfine⟩
    obtain ⟨s₁, hread, hnone, hstate⟩ := htrap.state
    unfold Insn.TrapsFirst
    simp only [hreads, true_and, not_true_eq_false, false_and, or_false]
    cases hp : s.guest.pendingMmio with
    | none =>
      apply iff_of_true
      · exact asBefore_of_early hip hread (hnone.trans hp.symm) hstate
      · obtain ⟨addr, hmem, hno⟩ := htrap.unbacked
        exact ⟨rfl, addr, List.mem_append_left [s.guest.frameAddr 2] hmem, hno⟩
    | some v =>
      apply iff_of_false
      · apply not_asBefore_of_answer hops hr hcode hop h hreads.2 (by rw [hp]; rfl)
        exact (congrArg (fun u => u.guest.pendingMmio) hstate).trans hnone
      · rintro ⟨hcontra, -⟩
        cases hcontra
  | frame hfine s₁ hread hfirst =>
    have hreads : insn.ReadsPointer addrSize s.guest := ⟨hcalls, hfine⟩
    unfold Insn.TrapsFirst
    simp only [hreads, true_and, not_true_eq_false, false_and, or_false]
    cases hp : s.guest.pendingMmio with
    | none =>
      -- both words of the pointer are there
      have hbacked : s.guest.mem.backed (pointerAddr insn addrSize s.guest) .b2 = true :=
        hread.first hp
      have hbacked' : s.guest.mem.backed (pointerAddr insn addrSize s.guest + 2) .b2 = true :=
        hread.second
      simp only [List.mem_cons, List.not_mem_nil, or_false, exists_eq_or_imp, exists_eq_left,
        hbacked, hbacked', Bool.true_eq_false, false_or, true_and]
      exact asBefore_iff_first hip hread.rest (hread.pending.trans hp.symm) hfirst
    | some v =>
      apply iff_of_false
      · intro hbefore
        have hgpr : s₁.guest.gpr = s.guest.gpr := by
          rw [hread.rest.rest]
          rfl
        have hno : s₁.guest.mem.backed (s.guest.frameAddr 2) .b2 = false := by
          rw [← Bool.not_eq_true]
          intro hbacked
          exact hfirst.late hbacked (congrFun (hbefore.gpr.trans hgpr.symm) rsp)
        refine not_asBefore_of_answer hops hr hcode hop h hreads.2 (by rw [hp]; rfl) ?_ hbefore
        exact (congrArg (fun u => u.guest.pendingMmio) (hfirst.early hno)).trans hread.pending
      · rintro ⟨hcontra, -⟩
        cases hcontra

theorem liftFarCall_kept : Kept (ending (liftFarCallReal16 insn) : LiftM (OtherOp Y) Bool) := by
  refine Emit.Gives.bind (T := fun _ l => (elideFrom l).1 = l) ?_ ?_
  · refine Emit.Gives.bind farTarget_early ?_
    rintro ⟨cs, ip⟩ l hl
    apply Emit.Gives.push
    rw [elideFrom_append_of_early hl]
    rfl
  · intro _ l hl
    apply Emit.Gives.pure
    rw [List.append_nil]
    exact hl

/-- An instruction that moves a frame and traps on an access leaves everything as before
exactly if it trapped before its first word went through. -/
theorem trapped_asBefore_iff (L : Lifter Y) (sem : OtherOps (OtherOp Y) V) (m : Memory)
    (fa : FetchAddr) {insn : Insn} (hinsn : insnAt L .real16 m fa = some insn)
    (hmoves : insn.movesFrame = true) {addrSize : Size}
    (hmem : insn.op 0 = .memory → insn.mem.Faithful .real16 addrSize) {ir : OpBlock (OtherOp Y)}
    (hlift : liftOne L .real16 m fa = .ok ir) (s : WalkState V) (hip : s.guest.rip = insn.ip)
    (ht : (interpretBlock sem ir s).result.isTrap = true) :
    AsBefore sem ir s (interpretBlock sem ir s).state ↔ insn.TrapsFirst addrSize s.guest := by
  obtain ⟨-, hcode, hops⟩ := liftOne_ok hinsn hlift
  simp only [elideDeadFlags_cons] at hops
  have helide {l : List (IrOp (OtherOp Y))} (hl : (elideFrom l).1 = l) :
      elideDeadFlags L.keepFlags l = l := by
    unfold elideDeadFlags
    rw [hl, ite_self]
  by_cases hcalls : insn.callsPointer
  · -- a far call through memory reads its pointer before the first push
    obtain ⟨-, r, hr, hops⟩ := hops.resolve_left fun hlong => hcalls.1 hlong.1.2
    have hfar : ending (liftFarCallReal16 insn) 0 = .ok r := by
      have hisfar : isFarCall insn = true := by
        unfold Insn.movesFrame at hmoves
        rw [hcalls.2.1] at hmoves
        exact hmoves
      unfold liftInsn liftReal16 at hr
      rw [hcalls.2.1] at hr
      simp only [hisfar] at hr
      exact hr
    rw [helide (liftFarCall_kept 0 r hfar)] at hops
    exact asBefore_iff_pointer hops hfar hcode hcalls (hmem hcalls.2.2) hip ht
  · have hnot : ¬insn.ReadsPointer addrSize s.guest := fun hreads => hcalls hreads.1
    unfold Insn.TrapsFirst
    simp only [hnot, false_and, false_or, not_false_eq_true, true_and]
    -- the others are one op each, too long ones the op of their fault
    rcases hops with ⟨hlong, hops⟩ | ⟨hshort, r, hr, hops⟩
    · have hslot : insn.firstSlot s.guest = s.guest.frameAddr 2 := if_pos hlong.2
      rw [hslot]
      rw [helide rfl] at hops
      exact asBefore_iff_single hops hip rfl ht
    · have hlen : ¬maxInsnLen286 < insn.len := fun hlong => hshort ⟨trivial, hlong⟩
      obtain ⟨op, hone, hfirst⟩ := code_of_frame hmoves hlen hcalls hr
      have hkept : (elideFrom [op]).1 = [op] := by
        change (elideStep op ([], 0b111111)).1 = [op]
        rw [elideStep_of_ne]
        rintro o rfl
        cases hfirst s.guest
      rw [hone, helide hkept] at hops
      exact asBefore_iff_single hops hip (hfirst _) ht

/-- `int 0x21` in real mode. -/
def intInsn (ip : U64) : Insn :=
  { ip, len := 2, codeSize := .code16, mnemonic := .int
    operands := [.immediate .immediate8 0x21] }

def intDecoder : Decoder := .ofOpcode .real16 0xcd 0x21 intInsn fun _ => ⟨rfl, rfl, rfl⟩

def intLifter : Lifter Empty := ⟨intDecoder, fun _ _ => unsupportedInsn, false⟩

theorem intRegions_le :
    ∀ r ∈ [Region.mk 0x1000 2 .ram, Region.mk 0x2000 0x100 .ram], r.stop ≤ 0x10000 := by decide

def intMemory : Memory :=
  .small _ intRegions_le fun a => if a = 0x1000 then 0xcd else if a = 0x1001 then 0x21 else 0

theorem wholeRegion_le : ∀ r ∈ [Region.mk 0 0x10000 .ram], r.stop ≤ 0x10000 := by decide

def mappedMemory : Memory := .small _ wholeRegion_le intMemory.bytes

def intState (sp : U64) : WalkState Ext :=
  let s := WalkState.zero Ext.zero intMemory
  { guest := { s.guest.setGpr rsp sp with rip := 0x1000, ss := 0x200 }
    flags := { s.flags with ifl := true } }

def intBlock : OpBlock (OtherOp Empty) :=
  { guestStart := 0x1000
    guestLen := 2
    ops := [.plain (.insnStart 0x1000), .intGate 0x21 0x1002] }

/-- With no stack there either, the first push traps and the interrupt can be run again. -/
theorem interrupt_without_stack :
    let out := interpretBlock (otherOps noForeign) intBlock (intState 0x200)
    out.result = .exit (.unmappedMemory 0x21fe .write) ∧
      AsBefore (otherOps noForeign) intBlock (intState 0x200) out.state := by
  have hfirst : (intInsn 0x1000).TrapsFirst .b2 (intState 0x200).guest := .inr ⟨nofun, rfl⟩
  exact ⟨rfl, (trapped_asBefore_iff intLifter (otherOps noForeign) intMemory ⟨0x1000, 0x1000⟩ rfl
    rfl nofun rfl (intState 0x200) rfl rfl).mpr hfirst⟩

/-- The table entry is not there: SP has moved and IF is clear. Run again with the table mapped, the
interrupt pushes a second frame under the first. -/
theorem interrupt_pushes_twice :
    let out := interpretBlock (otherOps noForeign) intBlock (intState 0x100)
    let again := interpretBlock (otherOps noForeign) intBlock (withMem out.state mappedMemory)
    let untried :=
      interpretBlock (otherOps noForeign) intBlock (withMem (intState 0x100) mappedMemory)
    liftOne intLifter .real16 intMemory ⟨0x1000, 0x1000⟩ = .ok intBlock ∧
      out.result = .exit (.unmappedMemory 0x84 .read) ∧ out.state.guest.rip = 0x1000 ∧
      out.state.guest.gpr rsp = 0xfa ∧ out.state.flags.ifl = false ∧
      again.result = .continue ∧ again.state.guest.gpr rsp = 0xf4 ∧
      untried.result = .continue ∧ untried.state.guest.gpr rsp = 0xfa := by
  refine ⟨rfl, rfl, rfl, rfl, rfl, rfl, rfl, rfl, rfl⟩

end X86Jit.Lift
