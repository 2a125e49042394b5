import X86Jit.Interp.RipFree
import X86Jit.Lift.FaultAtomic

/-! The order of ops in every mode: loads come before anything that writes more than temps, and
one op may both access memory and write. Only the updates in place do otherwise. -/
namespace X86Jit.Lift
open X86Jit.Lib

variable {Y α β : Type}

def Arranged (Y : Type) (m : LiftM (OtherOp Y) α) : Prop :=
  m.Gives fun _ l => ordered true (fun op => !namesRip op) l = true

variable {op : IrOp (OtherOp Y)}

theorem namesRip_of_isWhole (h : isWhole op = true) : (!namesRip op) = true := by
  unfold namesRip
  split
  · exact h
  · exact h
  · rfl

variable {m : LiftM (OtherOp Y) α} {f : α → LiftM (OtherOp Y) β}

theorem Ordered.arranged (h : Ordered Y true m) : Arranged Y m :=
  h.imp fun _ _ => ordered_mono fun _ => namesRip_of_isWhole

theorem Early.arranged (h : Early Y true m) : Arranged Y m := h.ordered.arranged

theorem Arranged.push (h : namesRip op = false) : Arranged Y (Emit.push op) := by
  apply Emit.Gives.push
  unfold ordered
  split
  · rfl
  · rw [h]
    rfl

theorem Emits.thenArranged (h : Early Y true m) (hf : ∀ a, Arranged Y (f a)) :
    Arranged Y (m >>= f) := by
  refine Emit.Gives.bind h ?_
  intro a l hl
  refine (hf a).imp ?_
  intro b l' hl'
  rw [ordered_append_of_early hl]
  exact hl'

theorem Arranged.then (h : Arranged Y m) (hf : ∀ a, Steady Y (f a)) : Arranged Y (m >>= f) := by
  refine Emit.Gives.bind h ?_
  intro a l hl
  refine (hf a).imp ?_
  intro b l' hl'
  exact ordered_append_of_steady (fun _ h => namesRip_of_isWhole (isWhole_of_isSteady h)) hl hl'

theorem Arranged.straight {m : LiftM _ Unit} (h : Arranged Y m) : Arranged Y (straight m) :=
  h.then fun _ => .pure

theorem Arranged.ending {m : LiftM _ Unit} (h : Arranged Y m) : Arranged Y (ending m) :=
  h.then fun _ => .pure

theorem single_arranged (h : namesRip op = false) : Arranged Y (single op) :=
  (Arranged.push h).then fun _ => .pure

variable {insn : Insn}

theorem real_true : insn.codeSize = .code16 → true = true := fun _ => rfl

theorem loadWordPair_early : Early Y true (loadWordPair insn) := by
  refine (effectiveAddress_early real_true).bind fun addr => ?_
  refine (emitLoad_early addr .b2).bind fun first => ?_
  refine Emits.bind (aluNone_early .add addr (.imm 2) .b8) fun addr' => ?_
  exact (emitLoad_early addr' .b2).bind fun second => .pure

theorem farTarget_early : Early Y true (farTarget insn) := by
  unfold farTarget
  cases insn.op 0 with
  | farBranch16 selector offset => exact .pure
  | memory =>
    refine loadWordPair_early.bind ?_
    rintro ⟨ip, cs⟩
    exact .pure
  | _ => exact .fail

theorem liftMovSregReal16_arranged : Arranged Y (liftMovSregReal16 insn) := by
  unfold liftMovSregReal16
  split
  · rename_i seg hseg
    split
    · exact (Arranged.push rfl).then fun _ => .pure
    · refine (lowerRead_early real_true 1).thenArranged fun src => ?_
      have hne : namesRip (.plain (.writeReg seg src .b2) : IrOp (OtherOp Y)) = false := by
        simp [namesRip, sregOperand_ne_rip hseg]
      exact (Arranged.push hne).then fun _ => .pure
  · apply gives_orUnsupported
    intro seg hseg
    refine (readReg_early (sregOperand_ne_rip hseg)).thenArranged fun sel => ?_
    exact (writeOperand_ordered real_true 0 sel).arranged.then fun _ => .pure

theorem liftCallReal16_arranged : Arranged Y (liftCallReal16 insn) := by
  unfold liftCallReal16
  split
  · exact Early.arranged .fail
  · refine (branchTarget_early real_true .real16).thenArranged fun target => ?_
    refine (readReg_early (by decide)).thenArranged fun sp => Emits.fresh.thenArranged fun newSp => ?_
    refine (Emits.push alu_early).thenArranged fun _ => ?_
    refine (emitSpWrap_early newSp .real16).thenArranged fun _ => ?_
    refine (stackAddr_early _ .real16).thenArranged fun addr => ?_
    refine (Arranged.push rfl).then fun _ => ?_
    exact (Emits.push rfl).bind fun _ => .push rfl

theorem liftRetReal16_arranged : Arranged Y (liftRetReal16 insn) := by
  unfold liftRetReal16
  split
  · exact Early.arranged .fail
  · refine (readReg_early (by decide)).thenArranged fun sp => ?_
    refine (stackAddr_early _ .real16).thenArranged fun loadAddr => ?_
    refine (emitLoad_early loadAddr .b2).thenArranged fun ip => ?_
    refine Emits.fresh.thenArranged fun newSp => (Emits.push alu_early).thenArranged fun _ => ?_
    refine (emitSpWrap_early newSp .real16).thenArranged fun _ => ?_
    exact (Arranged.push rfl).then fun _ => .push rfl

theorem liftLeaveReal16_arranged : Arranged Y liftLeaveReal16 := by
  refine (readReg_early (by decide)).thenArranged fun bp => ?_
  refine (aluNone_early _ _ _ _).thenArranged fun bp16 => ?_
  refine (stackAddr_early _ .real16).thenArranged fun loadAddr => ?_
  refine (emitLoad_early loadAddr .b2).thenArranged fun val => ?_
  refine (aluNone_early _ _ _ _).thenArranged fun newSp => ?_
  exact (Arranged.push rfl).then fun _ => .push rfl

theorem liftBoundReal16_arranged : Arranged Y (liftBoundReal16 insn) := by
  unfold liftBoundReal16
  split
  · exact Early.arranged .fail
  · cases insn.op 0 with
    | register r =>
      apply gives_orUnsupported
      intro reg hreg
      refine (readReg_early (icedToReg_ne_rip hreg)).thenArranged fun index => ?_
      exact loadWordPair_early.thenArranged fun p => .push rfl
    | _ => exact Early.arranged .fail

theorem liftLoadFarPtrReal16_arranged {seg : Reg} (hseg : seg ≠ .rip) :
    Arranged Y (liftLoadFarPtrReal16 insn seg) := by
  unfold liftLoadFarPtrReal16
  cases insn.op 0 with
  | register r =>
    apply gives_orUnsupported
    intro reg hreg
    refine loadWordPair_early.thenArranged fun p => ?_
    have hne : namesRip (.plain (.writeReg reg p.1 .b2) : IrOp (OtherOp Y)) = false := by
      simp [namesRip, icedToReg_ne_rip hreg]
    refine (Arranged.push hne).then fun _ => .push ?_
    simp [isSteady, hseg]
  | _ => exact Early.arranged .fail

theorem liftXlatReal16_arranged : Arranged Y (liftXlatReal16 insn) := by
  have hseg : (icedSegmentReg insn.mem.segment).getD .ds ≠ .rip := by
    cases insn.mem.segment <;> decide
  refine (segBaseShl4_early hseg).thenArranged fun base => ?_
  refine (readReg_early (by decide)).thenArranged fun bx => ?_
  refine (aluNone_early _ _ _ _).thenArranged fun bx => ?_
  refine (readReg_early (by decide)).thenArranged fun ax => ?_
  refine (aluNone_early _ _ _ _).thenArranged fun al => ?_
  refine (aluNone_early _ _ _ _).thenArranged fun sum => ?_
  refine (aluNone_early _ _ _ _).thenArranged fun off => ?_
  refine Emits.thenArranged (aluNone_early .add base off .b8) fun addr => ?_
  exact (emitLoad_early addr .b1).thenArranged fun v => .push rfl

theorem liftSalc_arranged : Arranged Y liftSalc := by
  refine Emits.fresh.thenArranged fun cf => (Emits.push rfl).thenArranged fun _ => ?_
  exact (aluNone_early _ _ _ _).thenArranged fun al => .push rfl

theorem liftReal16_arranged {m : LiftM (OtherOp Y) Bool} (h : liftReal16 insn = some m) :
    Arranged Y m := by
  unfold liftReal16 at h
  generalize insn.mnemonic = mn at h
  cases mn with
  | mov =>
    dsimp only at h
    split at h
    · cases h
      exact liftMovSregReal16_arranged
    · cases h
  | jmp =>
    dsimp only at h
    split at h
    · cases h
      exact Arranged.ending (farTarget_early.thenArranged fun p => .push rfl)
    · cases h
  | call =>
    dsimp only at h
    split at h
    · cases h
      exact Arranged.ending (farTarget_early.thenArranged fun p => .push rfl)
    · cases h
      exact liftCallReal16_arranged.ending
  | ret => cases h; exact liftRetReal16_arranged.ending
  | leave => cases h; exact liftLeaveReal16_arranged.straight
  | bound => cases h; exact liftBoundReal16_arranged.ending
  | salc => cases h; exact liftSalc_arranged.straight
  | xlatb => cases h; exact liftXlatReal16_arranged.straight
  | les | lds => cases h; exact (liftLoadFarPtrReal16_arranged (by decide)).straight
  | enter => cases h; exact (Arranged.push rfl).straight
  | retf | ud2 | int3 | int | into | iret | loop | loope | loopne | jcxz =>
    cases h
    exact (Arranged.push rfl).ending
  | cli | sti | pushf | popf | clc | stc | cmc | daa | das | aaa | aas | aam | aad | pusha | popa =>
    cases h
    exact single_arranged rfl
  | _ => cases h

theorem liftString_arranged (op : StrOp) (elem : Size) (mode : CpuMode) :
    Arranged Y (liftString insn op elem mode) := by
  have hseg : (icedSegmentReg insn.mem.segment).getD .ds ≠ .rip := by
    cases insn.mem.segment <;> decide
  unfold liftString
  split
  · refine (segBaseShl4_early hseg).thenArranged fun dsBase => ?_
    exact (segBaseShl4_early (by decide)).thenArranged fun esBase => .push rfl
  · refine Emits.thenArranged ?_ fun segBase => .push rfl
    unfold stringSegBase
    split <;> first | exact readReg_early (by decide) | exact .pure

theorem X87.lift_arranged {K : Type} (u : X87 K) (mode : CpuMode) :
    Arranged _ (u.lift insn mode) := by
  refine (orUnsupported_early _).thenArranged fun kind => ?_
  have hop (addr : Val) : Arranged _ (do
      Emit.push (.set (.other (.foreign ⟨kind, addr, u.stiOf insn⟩)))
      return false : LiftM (OtherOp (X87Op K)) Bool) :=
    (Arranged.push rfl).then fun _ => .pure
  split
  · exact (effectiveAddress_early real_true).thenArranged hop
  · exact Emits.pure.thenArranged hop

theorem liftInsn_arranged {K : Type} (u : X87 K) (henc : insn.Encoded)
    (hrmw : insn.updatesMemory = none) (mode : CpuMode) :
    Arranged _ (liftInsn u.lift insn mode) := by
  have hcommon : Arranged _ (liftCommon u.lift insn mode) := by
    by_cases hcore : insn.mnemonic.isCore = true
    · exact (liftCommon_ordered real_true henc hcore hrmw u.lift mode).arranged
    · unfold liftCommon
      cases hm : insn.mnemonic with
      | foreign => exact X87.lift_arranged u mode
      | string op elem => exact (liftString_arranged op elem mode).straight
      | _ =>
        rw [hm] at hcore
        exact absurd rfl hcore
  unfold liftInsn
  split
  · cases hreal : (liftReal16 insn : Option (LiftM (OtherOp (X87Op K)) Bool)) with
    | none => exact hcommon
    | some m => exact liftReal16_arranged hreal
  · exact hcommon

end X86Jit.Lift
