import X86Jit.Lift.Update

/-! An instruction of the integer core whose memory access is not mapped can be run again, except
an update in place that took a left-over answer of the embedder for its load. -/
namespace X86Jit.Lift
open X86Jit.Lib

variable {insn : Insn} {Y : Type} {L : Lifter Y} {mode : CpuMode} {m : Memory} {fa : FetchAddr}

def insnAt (L : Lifter Y) (mode : CpuMode) (m : Memory) (fa : FetchAddr) : Option Insn :=
  (m.codeSlice fa.pa blockFetchWindow).bind fun code =>
    match L.decoder.decode mode code (BitVec.ofNat 64 fa.ip) with
    | .insn insn => some insn
    | .invalid _ _ => none

theorem liftOne_ok {ir : OpBlock (OtherOp Y)}
    (hinsn : insnAt L mode m fa = some insn) (h : liftOne L mode m fa = .ok ir) :
    insn.ip = BitVec.ofNat 64 fa.ip ∧ insn.codeSize = codeSizeOf mode ∧
      ((mode = .real16 ∧ maxInsnLen286 < insn.len) ∧ ir.ops = elideDeadFlags L.keepFlags
        [.plain (.insnStart insn.ip), .intGate 13 (maskPc insn.ip .real16)] ∨
      ¬(mode = .real16 ∧ maxInsnLen286 < insn.len) ∧ ∃ r, liftInsn L.foreign insn mode 0 = .ok r ∧
        ir.ops = elideDeadFlags L.keepFlags (.plain (.insnStart insn.ip) :: r.ops)) := by
  unfold insnAt at hinsn
  unfold liftOne at h
  cases hcode : m.codeSlice fa.pa blockFetchWindow with
  | none =>
    rw [hcode] at hinsn
    cases hinsn
  | some code =>
    rw [hcode, Option.bind_some] at hinsn
    rw [hcode] at h
    cases code with
    | nil => cases h
    | cons b code =>
      dsimp only at h
      unfold advance at h
      cases hdec : L.decoder.decode mode (b :: code) (BitVec.ofNat 64 fa.ip) with
      | invalid err len =>
        rw [hdec] at hinsn
        cases hinsn
      | insn insn' =>
        rw [hdec] at hinsn h
        cases hinsn
        obtain ⟨hip, -, -, hsize⟩ := L.decoder.reports hdec
        refine ⟨hip, hsize, ?_⟩
        dsimp only at h
        -- in real mode an instruction that is too long is lifted to its fault
        by_cases hlong : mode = .real16 ∧ maxInsnLen286 < insn.len
        · rw [if_pos hlong] at h
          cases h
          rw [← hip]
          exact .inl ⟨hlong, rfl⟩
        · rw [if_neg hlong] at h
          right
          cases hlift : liftInsn L.foreign insn mode (Draft.empty : Draft (OtherOp Y)).next with
          | error e =>
            rw [hlift] at h
            cases h
          | ok r =>
            rw [hlift] at h
            refine ⟨hlong, r, hlift, ?_⟩
            dsimp only at h
            cases hval : r.val <;> rw [hval] at h <;> cases h <;> rfl

theorem liftOne_common (hmode : mode ≠ .real16) {ir : OpBlock (OtherOp Y)}
    (hinsn : insnAt L mode m fa = some insn) (h : liftOne L mode m fa = .ok ir) :
    insn.codeSize ≠ .code16 ∧ ∃ r, liftCommon L.foreign insn mode 0 = .ok r ∧
      ir.ops = elideDeadFlags L.keepFlags (.plain (.insnStart insn.ip) :: r.ops) := by
  obtain ⟨-, hsize, hops⟩ := liftOne_ok hinsn h
  constructor
  · rw [hsize]
    cases mode with
    | real16 => exact absurd rfl hmode
    | long64 | compat32 => nofun
  · obtain ⟨-, r, hr, hops⟩ := hops.resolve_left fun hreal => hmode hreal.1.1
    unfold liftInsn at hr
    rw [if_neg hmode] at hr
    exact ⟨r, hr, hops⟩

theorem elideDeadFlags_cons {X : Type} (disabled : Bool) (ip : U64) (l : List (IrOp X)) :
    elideDeadFlags disabled (.plain (.insnStart ip) :: l) =
      .plain (.insnStart ip) :: elideDeadFlags disabled l := by
  unfold elideDeadFlags
  split <;> rfl

variable {X V : Type} {sem : OtherOps X V} {ir : OpBlock X} {s : WalkState V}

def startInsn (ir : OpBlock X) (ip : U64) (s : WalkState V) : WalkState V :=
  { s with guest := execInsnStart (enterBlock ir s).guest ip }

variable {l : List (IrOp X)} {ip : U64}

theorem interpretBlock_ends (hops : ir.ops = .plain (.insnStart ip) :: l) {P : WalkState V → Prop}
    {R : Stop (WalkState V) → Prop}
    (hl : (walk (exec sem ir.blockEnd) l (startInsn ir ip s)).Meets P R) :
    (∃ t, P t ∧ (interpretBlock sem ir s).result = .continue) ∨
      R ⟨(interpretBlock sem ir s).state, (interpretBlock sem ir s).result⟩ := by
  have hfirst : exec sem ir.blockEnd (.plain (.insnStart ip)) (enterBlock ir s) =
      .ok (startInsn ir ip s) := rfl
  change (∃ t, P t ∧ (walkOps sem ir (enterBlock ir s)).result = .continue) ∨
    R (walkOps sem ir (enterBlock ir s))
  unfold walkOps
  rw [hops, walk_cons_ok hfirst]
  cases hw : walk (exec sem ir.blockEnd) l (startInsn ir ip s) with
  | fell s' =>
    rw [hw] at hl
    exact .inl ⟨s', hl, rfl⟩
  | left k e =>
    rw [hw] at hl
    exact .inr hl

theorem interpretBlock_left
    (hops : ir.ops = .plain (.insnStart ip) :: l) {R : Stop (WalkState V) → Prop}
    (hl : (walk (exec sem ir.blockEnd) l (startInsn ir ip s)).Meets (fun _ => True) R)
    (hexit : (interpretBlock sem ir s).result ≠ .continue) :
    R ⟨(interpretBlock sem ir s).state, (interpretBlock sem ir s).result⟩ := by
  rcases interpretBlock_ends hops hl with ⟨-, -, hcontinue⟩ | hR
  · exact absurd hcontinue hexit
  · exact hR

theorem interpretBlock_unmapped
    (hops : ir.ops = .plain (.insnStart ip) :: l) {R : WalkState V → Prop}
    (hl : (walk (exec sem ir.blockEnd) l (startInsn ir ip s)).Meets (fun _ => True)
      fun e => e.result.isUnmapped = true → R e.state)
    (hu : (interpretBlock sem ir s).result.isUnmapped = true) :
    R (interpretBlock sem ir s).state := by
  refine interpretBlock_left hops hl ?_ hu
  intro hcontinue
  rw [hcontinue] at hu
  cases hu

theorem flagsAfter_startInsn (kind : RmwKind) (insn : Insn) (ip : U64) (v : U64) :
    kind.flagsAfter insn (startInsn ir ip s) v = kind.flagsAfter insn s v := by
  cases kind <;> rfl

/-- After a fault: RIP is on the instruction, and what it could have changed is as before. -/
structure Restartable {V : Type} (insn : Insn) (s s' : WalkState V) : Prop where
  rip : s'.guest.rip = insn.ip
  gpr : s'.guest.gpr = s.guest.gpr
  flags : s.flags.SameArch s'.flags
  bytes : s'.guest.mem.bytes = s.guest.mem.bytes

/-- No answer is pending that an update would take, or the update of the answered value sets the
flags to what they are. -/
def Insn.KeepsFlags {V : Type} (insn : Insn) (s : WalkState V) : Prop :=
  ∀ kind v, insn.updatesMemory = some kind → s.guest.pendingMmio = some v →
    s.flags.SameArch (kind.flagsAfter insn s v)

theorem restartable_of_undone {s s' : WalkState Ext}
    {f : Flags} (h : Undone { startInsn ir insn.ip s with flags := f } s') :
    s'.guest.rip = insn.ip ∧ s'.guest.gpr = s.guest.gpr ∧
      s'.guest.mem.bytes = s.guest.mem.bytes ∧ s'.flags = f :=
  ⟨h.rip, h.gpr, congrArg Memory.bytes h.mem, h.flags⟩

/-- An instruction of the integer core that stops at an unmapped access can be run again exactly if
it does not set flags on a left-over answer. -/
theorem unmapped_restartable_iff (L : Lifter Y) (sem : OtherOps Y Ext) (mode : CpuMode)
    (hmode : mode ≠ .real16) (m : Memory) (fa : FetchAddr) {insn : Insn}
    (hinsn : insnAt L mode m fa = some insn) (henc : insn.Encoded)
    (hcore : insn.mnemonic.isCore = true) {ir : OpBlock (OtherOp Y)}
    (hlift : liftOne L mode m fa = .ok ir) (s : WalkState Ext) {addr : U64} {access : AccessKind}
    (hexit : (interpretBlock (otherOps sem) ir s).result = .exit (.unmappedMemory addr access)) :
    Restartable insn s (interpretBlock (otherOps sem) ir s).state ↔ insn.KeepsFlags s := by
  obtain ⟨hcode, r, hr, hops⟩ := liftOne_common hmode hinsn hlift
  rw [elideDeadFlags_cons] at hops
  have hu : (interpretBlock (otherOps sem) ir s).result.isUnmapped = true := by
    rw [hexit]
    rfl
  cases hupdate : insn.updatesMemory with
  | none =>
    -- the code is in order
    have hordered : ordered false isWhole (elideDeadFlags L.keepFlags r.ops) = true := by
      apply ordered_elideDeadFlags fun _ => isWhole_of_isSteady
      exact liftCommon_ordered (notReal hcode) henc hcore hupdate L.foreign mode 0 r hr
    obtain ⟨hrip, hgpr, hbytes, hflags⟩ :=
      restartable_of_undone (interpretBlock_unmapped hops (walk_ordered hordered) hu)
    apply iff_of_true
    · exact ⟨hrip, hgpr, hflags ▸ Flags.SameArch.refl _, hbytes⟩
    · intro kind v hkind _
      cases hupdate.symm.trans hkind
  | some kind =>
    obtain ⟨hkept, hfaults⟩ := liftCommon_update hcode henc hupdate L.foreign mode
    have helide : elideDeadFlags L.keepFlags r.ops = r.ops := by
      unfold elideDeadFlags
      rw [hkept 0 r hr, ite_self]
    rw [helide] at hops
    have hwalk := hfaults (otherOps sem) ir.blockEnd 0 (startInsn ir insn.ip s) r hr
    obtain ⟨hrip, hgpr, hbytes, hflags⟩ :=
      restartable_of_undone (interpretBlock_unmapped hops hwalk hu)
    have hpending : (startInsn ir insn.ip s).guest.pendingMmio = s.guest.pendingMmio := rfl
    rw [hpending] at hflags
    constructor
    · intro h kind' v hkind hv
      cases hupdate.symm.trans hkind
      rw [hv] at hflags
      have hsame := h.flags
      rw [hflags] at hsame
      have hstart : kind.flagsAfter insn (startInsn ir insn.ip s) v = kind.flagsAfter insn s v :=
        flagsAfter_startInsn kind insn insn.ip v
      exact hsame
    · intro h
      refine ⟨hrip, hgpr, ?_, hbytes⟩
      rw [hflags]
      cases hv : s.guest.pendingMmio with
      | none => exact .refl _
      | some v =>
        change s.flags.SameArch (kind.flagsAfter insn (startInsn ir insn.ip s) v)
        exact h kind v hupdate hv

/-- `add [rbx], eax` in 64-bit code. -/
def addMem (ip : U64) : Insn :=
  { ip, len := 2, codeSize := .code64, mnemonic := .add
    operands := [.memory, .register (.gpr rax .b4)]
    mem := { base := .gpr rbx .b8, size := 4 } }

def addDecoder : Decoder := .ofOpcode .long64 0x01 0x03 addMem fun _ => ⟨rfl, rfl, rfl⟩

def addLifter : Lifter Empty := ⟨addDecoder, fun _ _ => unsupportedInsn, false⟩

def noForeign : OtherOps Empty Ext := fun op => op.elim

theorem addRegions_le : ∀ r ∈ [Region.mk 0x1000 2 .ram], r.stop ≤ 0x10000 := by decide

def addMemory : Memory :=
  .small _ addRegions_le fun a => if a = 0x1000 then 0x01 else if a = 0x1001 then 0x03 else 0

def addState (pending : Option U64) : WalkState Ext :=
  let s := WalkState.zero Ext.zero addMemory
  { s with guest := { s.guest.setGpr rbx 0x4000 with rip := 0x1000, pendingMmio := pending } }

def addBlock : OpBlock (OtherOp Empty) :=
  { guestStart := 0x1000
    guestLen := 2
    ops := [.plain (.insnStart 0x1000), .plain (.readReg 0 .rbx), .plain (.load 1 (.temp 0) .b4),
      .plain (.readReg 2 .rax), alu .add 3 (.temp 1) (.temp 2) .b4 .all,
      .plain (.store (.temp 0) (.temp 3) .b4)] }

theorem addMem_encoded : (addMem 0x1000).Encoded := by
  have hzero (i : ℕ) (h : (addMem 0x1000).isMemory i = true) : i = 0 := by
    match i, h with
    | 0, _ => rfl
    | 1, h => cases h
    | _ + 2, h => cases h
  exact
    { oneMemory := fun i j hi hj => (hzero i hi).trans (hzero j hj).symm
      dest := nofun
      imul := nofun
      second := by decide
      scale := by decide }

/-- A left-over answer of zero is added to a zero in EAX with ZF and PF set: the store faults, and
the instruction can be run again. -/
theorem addMem_restartable :
    let s : WalkState Ext := { addState (some 0) with
      flags := { (addState (some 0)).flags with zf := true, pfSrc := 0 } }
    let out := interpretBlock (otherOps noForeign) addBlock s
    out.result = .exit (.unmappedMemory 0x4000 .write) ∧ Restartable (addMem 0x1000) s out.state := by
  refine ⟨rfl, (unmapped_restartable_iff addLifter noForeign .long64 (by decide) addMemory
    ⟨0x1000, 0x1000⟩ rfl addMem_encoded rfl rfl _ rfl).mpr ?_⟩
  intro kind v hkind hv
  cases hkind
  cases hv
  exact ⟨fun x => by cases x <;> rfl, rfl, rfl⟩

/-- With ZF clear the same instruction cannot: the fault leaves ZF set. -/
theorem stale_answer_sets_flags :
    let out := interpretBlock (otherOps noForeign) addBlock (addState (some 0))
    liftOne addLifter .long64 addMemory ⟨0x1000, 0x1000⟩ = .ok addBlock ∧
      out.result = .exit (.unmappedMemory 0x4000 .write) ∧ out.state.guest.rip = 0x1000 ∧
      (addState (some 0)).flags.zf = false ∧ out.state.flags.zf = true := by
  exact ⟨rfl, rfl, rfl, rfl, rfl⟩

end X86Jit.Lift
