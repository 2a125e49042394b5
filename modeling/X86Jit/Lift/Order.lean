import X86Jit.Lift.Dispatch

/-! The order in which an instruction does things. Its code first only computes and loads; then
one op may store, or write a register or a flag; and what follows cannot fault any more. -/
namespace X86Jit.Lift
open X86Jit.Lib Bool

variable {Y : Type}

def isRead : IrOp (OtherOp Y) → Bool
  | .plain (.readReg _ reg) => reg != .rip
  | .plain (.sext _ _ _) | .plain (.bswap _ _ _) | .plain (.load _ _ _) => true
  | .plain (.crc32 _ _ _ _) => true
  | .alu op => op.setFlags == .none
  | .getCond _ _ => true
  | _ => false

/-- The limit checks of real mode, which come before the access they are for. -/
def isCheck : IrOp (OtherOp Y) → Bool
  | .segLimitCheck _ _ _ _ => true
  | _ => false

def isSteady : IrOp (OtherOp Y) → Bool
  | .plain op =>
    match op with
    | .readReg _ reg | .writeReg reg _ _ => reg != .rip
    | .load _ _ _ | .store _ _ _ | .atomicRmw _ _ _ _ _ | .atomicCas _ _ _ _ _
    | .pushaReal | .popaReal | .enterReal _ _ | .call _ _ _ _ | .ret _ _ _
    | .farCall _ _ _ | .farRet _ => false
    | _ => true
  | .set (.other op) =>
    match op with
    | .cpuid | .xgetbv => true
    | _ => false
  | .set _ | .alu _ | .getCond _ _ | .lahf | .setCf _ | .setDf _ | .setIf _ | .bcd _
  | .branch _ _ _ | .loopCx _ _ _ | .syscall _ => true
  | _ => false

/-- The ops that leave everything as it was when their access faults. -/
def isWhole : IrOp (OtherOp Y) → Bool
  | .plain (.store _ _ _) | .plain (.atomicRmw _ _ _ _ _) | .plain (.atomicCas _ _ _ _ _) => true
  | .plain (.call _ _ _ _) | .plain (.ret _ _ _) | .set (.other (.fxState _ _)) => true
  | op => isSteady op

def isEarly (real : Bool) (op : IrOp (OtherOp Y)) : Bool := isRead op || (real && isCheck op)

def ordered (real : Bool) (late : IrOp (OtherOp Y) → Bool) : List (IrOp (OtherOp Y)) → Bool
  | [] => true
  | op :: rest => if isEarly real op then ordered real late rest else late op && rest.all isSteady

variable {real : Bool} {late : IrOp (OtherOp Y) → Bool} {l l' : List (IrOp (OtherOp Y))}

variable {op : IrOp (OtherOp Y)}

theorem isWhole_of_isSteady (h : isSteady op = true) : isWhole op = true := by
  unfold isWhole
  split
  all_goals first
    | rfl
    | exact h

theorem ordered_append_of_early (hl : l.all (isEarly real) = true) :
    ordered real late (l ++ l') = ordered real late l' := by
  induction l with
  | nil => rfl
  | cons op l ih =>
    rw [List.all_cons, and_eq_true] at hl
    rw [List.cons_append, ordered, if_pos hl.1, ih hl.2]

theorem ordered_of_early (hl : l.all (isEarly real) = true) : ordered real late l = true := by
  have h : ordered real late (l ++ []) = ordered real late [] := ordered_append_of_early hl
  rw [List.append_nil] at h
  exact h

theorem ordered_of_steady (hlate : ∀ op, isSteady op = true → late op = true)
    (hl : l.all isSteady = true) : ordered real late l = true := by
  induction l with
  | nil => rfl
  | cons op l ih =>
    rw [List.all_cons, and_eq_true] at hl
    unfold ordered
    split
    · exact ih hl.2
    · rw [hlate op hl.1, hl.2]
      rfl

theorem ordered_append_of_steady (hlate : ∀ op, isSteady op = true → late op = true)
    (hl : ordered real late l = true) (hl' : l'.all isSteady = true) :
    ordered real late (l ++ l') = true := by
  induction l with
  | nil => exact ordered_of_steady hlate hl'
  | cons op l ih =>
    unfold ordered at hl
    rw [List.cons_append, ordered]
    split at hl
    · rename_i hearly
      rw [if_pos hearly]
      exact ih hl
    · rename_i hearly
      rw [and_eq_true] at hl
      rw [if_neg hearly, hl.1, List.all_append, hl.2, hl']
      rfl

theorem ordered_mono {late' : IrOp (OtherOp Y) → Bool}
    (h : ∀ op, late op = true → late' op = true) (hl : ordered real late l = true) :
    ordered real late' l = true := by
  induction l with
  | nil => rfl
  | cons op l ih =>
    unfold ordered at hl ⊢
    split at hl
    · rename_i hearly
      rw [if_pos hearly]
      exact ih hl
    · rename_i hearly
      rw [and_eq_true] at hl
      rw [if_neg hearly, h op hl.1, hl.2]
      rfl

variable {α β : Type}

def Emits (p : IrOp (OtherOp Y) → Bool) (m : LiftM (OtherOp Y) α) : Prop :=
  m.Gives fun _ l => l.all p = true

abbrev Early (Y : Type) (real : Bool) (m : LiftM (OtherOp Y) α) : Prop := Emits (isEarly real) m

abbrev Steady (Y : Type) (m : LiftM (OtherOp Y) α) : Prop := Emits isSteady m

/-- The ops a lift emits are in order, and a fault of the last access undoes it. -/
def Ordered (Y : Type) (real : Bool) (m : LiftM (OtherOp Y) α) : Prop :=
  m.Gives fun _ l => ordered real isWhole l = true

variable {m : LiftM (OtherOp Y) α} {f : α → LiftM (OtherOp Y) β} {a : α}

namespace Emits
variable {p : IrOp (OtherOp Y) → Bool}

theorem pure : Emits p (Pure.pure a) := Emit.Gives.pure rfl

theorem fresh : Emits p Emit.fresh := Emit.Gives.fresh fun _ => rfl

theorem fail : Emits p (unsupportedInsn : LiftM (OtherOp Y) α) := Emit.Gives.fail

theorem push (h : p op = true) : Emits p (Emit.push op) := by
  apply Emit.Gives.push
  rw [List.all_cons, h]
  rfl

theorem bind (h : Emits p m) (hf : ∀ a, Emits p (f a)) : Emits p (m >>= f) := by
  refine Emit.Gives.bind h ?_
  intro a l hl
  refine (hf a).imp ?_
  intro b l' hl'
  rw [List.all_append, hl, hl']
  rfl

end Emits

theorem Early.ordered (h : Early Y real m) : Ordered Y real m := h.imp fun _ _ => ordered_of_early

theorem Steady.ordered (h : Steady Y m) : Ordered Y real m :=
  h.imp fun _ _ => ordered_of_steady fun _ => isWhole_of_isSteady

theorem Ordered.push (h : isWhole op = true) : Ordered Y real (Emit.push op) := by
  apply Emit.Gives.push
  unfold Lift.ordered
  split
  · rfl
  · rw [h]
    rfl

theorem Emits.then (h : Early Y real m) (hf : ∀ a, Ordered Y real (f a)) :
    Ordered Y real (m >>= f) := by
  refine Emit.Gives.bind h ?_
  intro a l hl
  refine (hf a).imp ?_
  intro b l' hl'
  rw [ordered_append_of_early hl]
  exact hl'

theorem Ordered.pure_then (h : Ordered Y real (f a)) : Ordered Y real (Pure.pure a >>= f) := by
  have hpure : (Pure.pure a : LiftM (OtherOp Y) α).Gives fun b l => b = a ∧ l = [] :=
    Emit.Gives.pure ⟨rfl, rfl⟩
  refine Emit.Gives.bind hpure ?_
  rintro b l ⟨rfl, rfl⟩
  exact h

theorem Ordered.then (h : Ordered Y real m) (hf : ∀ a, Steady Y (f a)) :
    Ordered Y real (m >>= f) := by
  refine Emit.Gives.bind h ?_
  intro a l hl
  refine (hf a).imp ?_
  intro b l' hl'
  exact ordered_append_of_steady (fun _ => isWhole_of_isSteady) hl hl'

theorem gives_orUnsupported {X : Type} {o : Option α} {f : α → LiftM X β}
    {S : β → List (IrOp X) → Prop} (h : ∀ a, o = some a → Emit.Gives (f a) S) :
    Emit.Gives (orUnsupported o >>= f) S := by
  intro t r hr
  cases o with
  | none => cases hr
  | some a =>
    obtain ⟨r₁, r₂, h₁, h₂, rfl⟩ := Emit.bind_ok.mp hr
    cases h₁
    exact h a rfl t r₂ h₂

theorem orUnsupported_early (o : Option α) : Early Y real (orUnsupported o) := by
  cases o with
  | none => exact .fail
  | some a => exact .pure

theorem opSize_nil (n : ℕ) :
    Emit.Gives (opSize n : LiftM (OtherOp Y) Size) fun size l => l = [] ∧ size.bytes = n := by
  unfold opSize
  split <;> first | exact Emit.Gives.pure ⟨rfl, rfl⟩ | exact Emit.Gives.fail

theorem opSize_early (n : ℕ) : Early Y real (opSize n) := by
  refine (opSize_nil n).imp ?_
  rintro size l ⟨rfl, -⟩
  rfl

variable {reg : Reg}

theorem readReg_early (h : reg ≠ .rip) : Early Y real (readReg reg) := by
  have hop : ∀ t, isEarly real (.plain (.readReg t reg) : IrOp (OtherOp Y)) = true := by
    intro t
    simp [isEarly, isRead, h]
  exact Emits.fresh.bind fun t => (Emits.push (hop t)).bind fun _ => .pure

theorem alu_early {kind : AluKind} {dst : Temp} {a b : Val} {size : Size} :
    isEarly real (alu kind dst a b size .none : IrOp (OtherOp Y)) = true := by
  rfl

theorem aluNone_early (kind : AluKind) (a b : Val) (size : Size) :
    Early Y real (aluNone kind a b size) :=
  Emits.fresh.bind fun _ => (Emits.push alu_early).bind fun _ => .pure

theorem emitLoad_early (addr : Val) (size : Size) : Early Y real (emitLoad addr size) :=
  Emits.fresh.bind fun _ => (Emits.push rfl).bind fun _ => .pure

variable {r : Register}

theorem icedToReg_ne_rip (h : icedToReg r = some reg) : reg ≠ .rip := by
  rintro rfl
  cases r with
  | gpr i size =>
    have hnone : ∀ j : Fin 16, Reg.fromGprIndex j ≠ .rip := by decide
    exact hnone i (Option.some.inj h)
  | _ => cases h

theorem icedReg_early (r : Register) {f : Val → LiftM _ β} (hf : ∀ a, Early Y real (f a)) :
    Early Y real (do
      let reg ← orUnsupported (icedToReg r)
      let v ← readReg reg
      f v) := by
  apply gives_orUnsupported
  intro reg h
  exact (readReg_early (icedToReg_ne_rip h)).bind hf

variable (insn : Insn)

theorem addrBase_early : Early Y real (addrBase insn) := by
  unfold addrBase
  split
  · exact .pure
  · exact icedReg_early _ fun _ => .pure

theorem scaleIndex_early (idx : Val) : Early Y real (scaleIndex insn idx) := by
  unfold scaleIndex
  split
  · exact .pure
  · exact aluNone_early _ _ _ _

theorem addrIndex_early (acc : Option Val) : Early Y real (addrIndex insn acc) := by
  unfold addrIndex
  split
  · exact .pure
  · refine icedReg_early _ fun idx => (scaleIndex_early insn idx).bind fun scaled => ?_
    cases acc with
    | none => exact .pure
    | some a => exact (aluNone_early _ _ _ _).bind fun _ => .pure

theorem addrDisp_early (acc : Option Val) : Early Y real (addrDisp insn acc) := by
  cases acc with
  | none => exact .pure
  | some a =>
    change Early Y real (if insn.mem.disp = 0 then pure a else addAddr a (.imm insn.mem.disp))
    split
    · exact .pure
    · exact aluNone_early _ _ _ _

theorem truncateAddr_early (addr : Val) : Early Y real (truncateAddr insn addr) := by
  unfold truncateAddr
  split
  · exact .pure
  · exact .pure
  · exact aluNone_early _ _ _ _

theorem effectiveAddressNoSegment_early : Early Y real (effectiveAddressNoSegment insn) := by
  unfold effectiveAddressNoSegment
  split
  · exact .pure
  · split
    · exact .pure
    · refine (addrBase_early insn).bind fun acc => (addrIndex_early insn acc).bind fun acc => ?_
      exact (addrDisp_early insn acc).bind fun addr => truncateAddr_early insn addr

theorem segBaseShl4_early {seg : Reg} (h : seg ≠ .rip) : Early Y real (segBaseShl4 seg) :=
  (readReg_early h).bind fun _ => aluNone_early _ _ _ _

theorem icedSegmentReg_ne_rip {seg : Segment} (h : icedSegmentReg seg = some reg) : reg ≠ .rip := by
  cases seg <;> cases h <;> decide

theorem limitCheck_early (addr : Val) : Early Y true (limitCheck insn addr) := by
  unfold limitCheck
  split <;> first | exact .push rfl | exact .pure

variable {insn}

theorem withSegment_early (hreal : insn.codeSize = .code16 → real = true) (addr : Val) :
    Early Y real (withSegment insn addr) := by
  unfold withSegment
  split
  · rename_i h
    rw [hreal h]
    split
    · exact .pure
    · rename_i seg hseg
      refine (limitCheck_early insn addr).bind fun _ => ?_
      exact (segBaseShl4_early (icedSegmentReg_ne_rip hseg)).bind fun _ => aluNone_early _ _ _ _
  · split
    · exact (readReg_early (by decide)).bind fun _ => aluNone_early _ _ _ _
    · exact (readReg_early (by decide)).bind fun _ => aluNone_early _ _ _ _
    · exact .pure

theorem effectiveAddress_early (hreal : insn.codeSize = .code16 → real = true) :
    Early Y real (effectiveAddress insn) :=
  (effectiveAddressNoSegment_early insn).bind fun addr => withSegment_early hreal addr

theorem stackAddr_early (offset : Val) (mode : CpuMode) :
    Early Y real (stackAddr offset mode) := by
  unfold stackAddr
  split
  · exact (segBaseShl4_early (by decide)).bind fun _ => aluNone_early _ _ _ _
  · exact .pure

theorem highByteParent_ne_rip {parent : Reg} (h : highByteParent r = some parent) :
    parent ≠ .rip := by
  rintro rfl
  cases r with
  | highByte i =>
    have hnone : ∀ j : Fin 16, Reg.fromGprIndex j ≠ .rip := by decide
    exact hnone _ (Option.some.inj h)
  | _ => cases h

theorem lowerRead_early (hreal : insn.codeSize = .code16 → real = true) (i : ℕ) :
    Early Y real (lowerRead insn i) := by
  unfold lowerRead
  split
  · split
    · rename_i parent hparent
      refine (readReg_early (highByteParent_ne_rip hparent)).bind fun p => ?_
      exact (aluNone_early _ _ _ _).bind fun _ => aluNone_early _ _ _ _
    · apply gives_orUnsupported
      intro reg h
      exact readReg_early (icedToReg_ne_rip h)
  · refine (effectiveAddress_early hreal).bind fun addr => (opSize_early _).bind fun size => ?_
    exact emitLoad_early addr size
  · exact .pure
  · exact .fail

def WriteTarget.isRegister : WriteTarget → Bool
  | .reg r _ | .highByte r => r != .rip
  | .mem _ _ => false

def WriteTarget.isNamed : WriteTarget → Bool
  | .mem _ _ => true
  | target => target.isRegister

theorem isRegister_of_highByteParent {parent : Reg}
    (h : highByteParent r = some parent) : (WriteTarget.highByte parent).isRegister = true := by
  have hne := highByteParent_ne_rip h
  simp [WriteTarget.isRegister, hne]

theorem isRegister_of_icedToReg (h : icedToReg r = some reg)
    (size : Size) : (WriteTarget.reg reg size).isRegister = true := by
  have hne := icedToReg_ne_rip h
  simp [WriteTarget.isRegister, hne]

/-- Nothing is emitted for a register target. -/
theorem lowerWriteTarget_named (hreal : insn.codeSize = .code16 → real = true) (i : ℕ) :
    Emit.Gives (lowerWriteTarget insn i : LiftM (OtherOp Y) WriteTarget) fun target l =>
      l.all (isEarly real) = true ∧ target.isNamed = true ∧
        (insn.isMemory i = false → l = [] ∧ target.isRegister = true) := by
  have hregister {target : WriteTarget} (h : target.isRegister = true) :
      Emit.Gives (Pure.pure target : LiftM (OtherOp Y) WriteTarget) fun target l =>
        l.all (isEarly real) = true ∧ target.isNamed = true ∧
          (insn.isMemory i = false → l = [] ∧ target.isRegister = true) := by
    have hnamed : target.isNamed = true := by cases target <;> first | exact h | cases h
    exact Emit.Gives.pure ⟨rfl, hnamed, fun _ => ⟨rfl, h⟩⟩
  unfold lowerWriteTarget
  split
  · split
    · rename_i parent hparent
      exact hregister (isRegister_of_highByteParent hparent)
    · apply gives_orUnsupported
      intro reg hreg
      refine Emit.Gives.bind (opSize_nil _) ?_
      rintro size l ⟨rfl, -⟩
      exact hregister (isRegister_of_icedToReg hreg size)
  · rename_i hmem
    refine Emit.Gives.bind (effectiveAddress_early hreal) ?_
    intro addr l hl
    refine Emit.Gives.bind (opSize_nil _) ?_
    rintro size l' ⟨rfl, -⟩
    refine Emit.Gives.pure ⟨?_, rfl, ?_⟩
    · rw [List.append_nil, List.append_nil]
      exact hl
    · unfold Insn.isMemory
      rw [hmem]
      exact nofun
  · exact Emit.Gives.fail

theorem writeTarget_then (hreal : insn.codeSize = .code16 → real = true) (i : ℕ)
    {f : WriteTarget → LiftM (OtherOp Y) β}
    (hf : ∀ target, target.isNamed = true → Ordered Y real (f target)) :
    Ordered Y real (lowerWriteTarget insn i >>= f) := by
  refine Emit.Gives.bind (lowerWriteTarget_named hreal i) ?_
  rintro target l ⟨hl, hnamed, -⟩
  refine (hf target hnamed).imp ?_
  intro b l' hl'
  rw [ordered_append_of_early hl]
  exact hl'

theorem aluNone_steady (kind : AluKind) (a b : Val) (size : Size) :
    Steady Y (aluNone kind a b size) :=
  Emits.fresh.bind fun _ => (Emits.push rfl).bind fun _ => .pure

theorem emitWrite_steady {target : WriteTarget} (h : target.isRegister = true) (value : Val) :
    Steady Y (emitWrite target value) := by
  cases target with
  | reg reg size => exact .push h
  | mem addr size => cases h
  | highByte parent =>
    have hread : Steady Y (readReg parent) := by
      refine Emits.fresh.bind fun t => Emits.bind (Emits.push ?_) fun _ => .pure
      exact h
    refine hread.bind fun _ => ?_
    refine (aluNone_steady _ _ _ _).bind fun _ => (aluNone_steady _ _ _ _).bind fun _ => ?_
    exact (aluNone_steady _ _ _ _).bind fun _ => (aluNone_steady _ _ _ _).bind fun _ => .push h

theorem emitWrite_ordered {target : WriteTarget} (h : target.isNamed = true) (value : Val) :
    Ordered Y real (emitWrite target value) := by
  cases target with
  | mem addr size => exact .push rfl
  | reg r size =>
    have hreg : (WriteTarget.reg r size).isRegister = true := h
    exact (emitWrite_steady hreg value).ordered
  | highByte parent =>
    have hreg : (WriteTarget.highByte parent).isRegister = true := h
    exact (emitWrite_steady hreg value).ordered

theorem writeOperand_ordered (hreal : insn.codeSize = .code16 → real = true) (i : ℕ)
    (value : Val) : Ordered Y real (writeOperand insn i value) :=
  writeTarget_then hreal i fun _ h => emitWrite_ordered h value

theorem lowerWriteTarget_register {i : ℕ} (h : insn.isMemory i = false) :
    Emit.Gives (lowerWriteTarget insn i : LiftM (OtherOp Y) WriteTarget) fun target l =>
      l = [] ∧ target.isRegister = true :=
  (lowerWriteTarget_named (fun _ => Eq.refl true) i).imp fun _ _ hl => hl.2.2 h

theorem writeOperand_steady {i : ℕ} (h : insn.isMemory i = false) (value : Val) :
    Steady Y (writeOperand insn i value) := by
  refine Emit.Gives.bind (lowerWriteTarget_register h) ?_
  rintro target l ⟨rfl, hreg⟩
  exact emitWrite_steady hreg value

section Integer
variable (hreal : insn.codeSize = .code16 → real = true)
include hreal

theorem liftBinop_ordered (op : AluKind) (flags : FlagMask) (writeBack : Bool)
    (hrmw : insn.isMemory 0 = true → writeBack = true → insn.lock = true) :
    Ordered Y real (liftBinop insn op flags writeBack) := by
  refine (opSize_early _).then fun size => ?_
  split
  · rename_i hmem
    refine (effectiveAddress_early hreal).then fun addr => ?_
    split
    · -- the atomic form: the flags come after the only access
      refine (orUnsupported_early _).then fun rop => (lowerRead_early hreal 1).then fun b => ?_
      refine Emits.fresh.then fun old => (Ordered.push rfl).then fun _ => ?_
      exact Emits.fresh.bind fun _ => .push rfl
    · rename_i hplain
      have hread : writeBack = false := by
        cases writeBack with
        | false => rfl
        | true => exact absurd (hrmw hmem rfl) (by simpa using hplain)
      refine (emitLoad_early addr size).then fun a => (lowerRead_early hreal 1).then fun b => ?_
      refine Emits.fresh.then fun res => (Ordered.push rfl).then fun _ => ?_
      rw [hread]
      exact .pure
  · rename_i hmem
    refine (lowerRead_early hreal 0).then fun a => (lowerRead_early hreal 1).then fun b => ?_
    refine Emits.fresh.then fun res => (Ordered.push rfl).then fun _ => ?_
    split
    · exact writeOperand_steady (not_eq_true _ ▸ hmem) _
    · exact .pure

theorem liftUnaryOp0_ordered (rmwOp : RmwOp)
    (rmwSrc : Val) (recomputeFlags : Bool) (emit : Temp → Val → Size → IrOp (OtherOp Y))
    (hemit : ∀ res a size, isSteady (emit res a size) = true)
    (hrmw : insn.isMemory 0 = true → insn.lock = false →
      ∀ res a size, isEarly real (emit res a size) = true) :
    Ordered Y real (liftUnaryOp0 insn rmwOp rmwSrc recomputeFlags emit) := by
  refine (opSize_early _).then fun size => ?_
  split
  · rename_i hmem
    refine (effectiveAddress_early hreal).then fun addr => ?_
    split
    · refine Emits.fresh.then fun old => (Ordered.push rfl).then fun _ => ?_
      split
      · exact Emits.fresh.bind fun _ => .push (hemit _ _ _)
      · exact .pure
    · rename_i hlock
      have hearly := hrmw hmem (not_eq_true _ ▸ hlock)
      refine (emitLoad_early addr size).then fun a => Emits.fresh.then fun res => ?_
      exact (Emits.push (hearly res a size)).then fun _ => .push rfl
  · rename_i hmem
    refine (lowerRead_early hreal 0).then fun a => Emits.fresh.then fun res => ?_
    refine (Ordered.push (isWhole_of_isSteady (hemit res a size))).then fun _ => ?_
    exact writeOperand_steady (not_eq_true _ ▸ hmem) _

theorem liftDoubleShift_ordered (left : Bool) (hmem : insn.isMemory 0 = false) :
    Ordered Y real (liftDoubleShift insn left) := by
  refine (opSize_early _).then fun size => (lowerRead_early hreal 1).then fun b => ?_
  refine (lowerRead_early hreal 2).then fun count => Emits.fresh.then fun res => ?_
  rw [hmem]
  refine (lowerRead_early hreal 0).then fun a => (Ordered.push rfl).then fun _ => ?_
  exact writeOperand_steady hmem _

omit hreal in
theorem emitMul_ordered (a b : Val) (size : Size) (signed : Bool) (flags : FlagMask) :
    Ordered Y real (emitMul a b size signed flags) :=
  Emits.fresh.then fun _ => Emits.fresh.then fun _ => (Ordered.push rfl).then fun _ => .pure

theorem liftWideningMul_ordered (signed : Bool) :
    Ordered Y real (liftWideningMul insn signed) := by
  refine (opSize_early _).then fun size => (readReg_early (by decide)).then fun a => ?_
  refine (lowerRead_early hreal 0).then fun b => (emitMul_ordered _ _ _ _ _).then fun p => ?_
  dsimp only
  split
  · refine (aluNone_steady _ _ _ _).bind fun _ => (aluNone_steady _ _ _ _).bind fun _ => ?_
    exact .push rfl
  · exact (Emits.push rfl).bind fun _ => .push rfl

theorem liftImul_ordered (hdest : 2 ≤ insn.opCount → insn.isMemory 0 = false) :
    Ordered Y real (liftImul insn) := by
  have htruncated (i j : ℕ) (hmem : insn.isMemory 0 = false) :
      Ordered Y real (do
        let size ← opSize (operandSize insn 0)
        let a ← lowerRead insn i
        let b ← lowerRead insn j
        let p ← emitMul a b size true .cfOf
        writeOperand insn 0 (.temp p.1)) := by
    refine (opSize_early _).then fun size => (lowerRead_early hreal i).then fun a => ?_
    refine (lowerRead_early hreal j).then fun b => (emitMul_ordered _ _ _ _ _).then fun p => ?_
    exact writeOperand_steady hmem _
  unfold liftImul
  split
  · exact liftWideningMul_ordered hreal true
  · rename_i h
    exact htruncated 0 1 (hdest (by omega))
  · rename_i h
    exact htruncated 1 2 (hdest (by omega))
  · exact Early.ordered .fail

theorem liftDiv_ordered (signed : Bool) : Ordered Y real (liftDiv insn signed) := by
  refine (opSize_early _).then fun size => ?_
  split
  · refine (readReg_early (by decide)).then fun rax => (aluNone_early _ _ _ _).then fun hi => ?_
    refine (lowerRead_early hreal 0).then fun divisor => Emits.fresh.then fun quot => ?_
    refine Emits.fresh.then fun rem => (Ordered.push rfl).then fun _ => ?_
    exact (Emits.push rfl).bind fun _ => emitWrite_steady rfl _
  · refine (readReg_early (by decide)).then fun hi => (readReg_early (by decide)).then fun lo => ?_
    refine (lowerRead_early hreal 0).then fun divisor => Emits.fresh.then fun quot => ?_
    refine Emits.fresh.then fun rem => (Ordered.push rfl).then fun _ => ?_
    exact (Emits.push rfl).bind fun _ => .push rfl

theorem liftMulx_ordered (h₀ : insn.isMemory 0 = false) (h₁ : insn.isMemory 1 = false) :
    Ordered Y real (liftMulx insn) := by
  refine (opSize_early _).then fun size => (readReg_early (by decide)).then fun rdx => ?_
  refine (lowerRead_early hreal 2).then fun src => (emitMul_ordered _ _ _ _ _).then fun p => ?_
  exact (writeOperand_steady h₁ _).bind fun _ => writeOperand_steady h₀ _

theorem liftXadd_ordered (h₁ : insn.isMemory 1 = false) :
    Ordered Y real (liftXadd insn) := by
  refine (opSize_early _).then fun size => (lowerRead_early hreal 1).then fun src => ?_
  split
  · refine (effectiveAddress_early hreal).then fun addr => Emits.fresh.then fun old => ?_
    refine (Ordered.push rfl).then fun _ => Emits.fresh.bind fun res => ?_
    exact (Emits.push rfl).bind fun _ => writeOperand_steady h₁ _
  · rename_i hmem
    refine (lowerRead_early hreal 0).then fun dst => Emits.fresh.then fun res => ?_
    refine (Ordered.push rfl).then fun _ => (writeOperand_steady h₁ _).bind fun _ => ?_
    exact writeOperand_steady (not_eq_true _ ▸ hmem) _

theorem liftCmpxchg_ordered : Ordered Y real (liftCmpxchg insn) := by
  unfold liftCmpxchg
  split
  · refine (opSize_early _).then fun size => (effectiveAddress_early hreal).then fun addr => ?_
    refine (lowerRead_early hreal 1).then fun src => (readReg_early (by decide)).then fun acc => ?_
    refine (aluNone_early _ _ _ _).then fun exp => Emits.fresh.then fun old => ?_
    refine (Ordered.push rfl).then fun _ => Emits.fresh.bind fun res => ?_
    exact (Emits.push rfl).bind fun _ => .push rfl
  · exact Early.ordered .fail

theorem liftXchg_ordered (hone : ∀ i j, insn.isMemory i = true → insn.isMemory j = true → i = j) :
    Ordered Y real (liftXchg insn) := by
  have hwith (reg : ℕ) (hreg : insn.isMemory reg = false) :
      Ordered Y real (do
        let size ← opSize (operandSize insn reg)
        let addr ← effectiveAddress insn
        let regVal ← lowerRead insn reg
        let old ← Emit.fresh
        pushPlain (.atomicRmw old addr regVal size .xchg)
        writeOperand insn reg (.temp old)) := by
    refine (opSize_early _).then fun size => (effectiveAddress_early hreal).then fun addr => ?_
    refine (lowerRead_early hreal reg).then fun regVal => Emits.fresh.then fun old => ?_
    exact (Ordered.push rfl).then fun _ => writeOperand_steady hreg _
  have hother {i j : ℕ} (hi : insn.isMemory i = true) (hne : i ≠ j) : insn.isMemory j = false := by
    rw [← not_eq_true]
    intro hj
    exact hne (hone i j hi hj)
  unfold liftXchg
  split
  · rename_i h₀
    exact hwith 1 (hother h₀ (by decide))
  · rename_i h₀
    split
    · rename_i h₁
      exact hwith 0 (hother h₁ (by decide))
    · rename_i h₁
      refine (lowerRead_early hreal 0).then fun a => (lowerRead_early hreal 1).then fun b => ?_
      -- two register targets: nothing is emitted for them before the writes
      refine Steady.ordered ?_
      refine Emit.Gives.bind (lowerWriteTarget_register (not_eq_true _ ▸ h₀)) ?_
      rintro dst₀ l ⟨rfl, hdst₀⟩
      refine Emit.Gives.bind (lowerWriteTarget_register (not_eq_true _ ▸ h₁)) ?_
      rintro dst₁ l ⟨rfl, hdst₁⟩
      exact (emitWrite_steady hdst₀ b).bind fun _ => emitWrite_steady hdst₁ a

theorem btAccess_early (bit : Val) (size : Size) :
    Early Y real (btAccess insn bit size) := by
  refine (effectiveAddress_early hreal).bind fun addr => ?_
  split
  · refine (opSize_early _).bind fun idxSize => ?_
    refine Emits.bind ?_ fun _ => .pure
    refine Emits.fresh.bind fun sext => (Emits.push rfl).bind fun _ => ?_
    exact (aluNone_early _ _ _ _).bind fun off => aluNone_early _ _ _ _
  · exact .pure

omit hreal in
theorem emitMemBt_ordered (ea : Val) (esize : Size) (bit : Val) (op : BtOp)
    (hrmw : op = .test ∨ insn.lock = true) :
    Ordered Y real (emitMemBt insn ea esize bit op) := by
  have hlocked (rmwOp : RmwOp) (invert : Bool) :
      Ordered Y real (do
        let shift ← aluNone .and bit (.imm (BitVec.ofNat 64 (esize.bits - 1))) esize
        let m ← aluNone .shl (.imm 1) shift esize
        let src ← if invert then aluNone .xor m (.imm (sizeMask esize)) esize else pure m
        let old ← Emit.fresh
        pushPlain (.atomicRmw old ea src esize rmwOp)
        let cf ← Emit.fresh
        Emit.push (.set (.bt cf (.temp old) bit esize .test))) := by
    refine (aluNone_early _ _ _ _).then fun shift => (aluNone_early _ _ _ _).then fun m => ?_
    cases invert with
    | true =>
      refine (aluNone_early _ _ _ _).then fun src => Emits.fresh.then fun old => ?_
      exact (Ordered.push rfl).then fun _ => Emits.fresh.bind fun _ => .push rfl
    | false =>
      refine Emits.pure.then fun src => Emits.fresh.then fun old => ?_
      exact (Ordered.push rfl).then fun _ => Emits.fresh.bind fun _ => .push rfl
  unfold emitMemBt
  dsimp only
  split
  · split
    · exact hlocked _ _
    · exact hlocked _ _
    · exact hlocked _ _
    · -- a locked plain test is a plain test
      refine (emitLoad_early _ _).then fun a => Emits.fresh.then fun res => ?_
      exact (Ordered.push rfl).then fun _ => .pure
  · rename_i hlock
    refine (emitLoad_early _ _).then fun a => Emits.fresh.then fun res => ?_
    rw [if_pos (hrmw.resolve_right hlock)]
    exact (Ordered.push rfl).then fun _ => .pure

theorem liftBt_ordered (op : BtOp) (hrmw : insn.isMemory 0 = true → op = .test ∨ insn.lock = true) :
    Ordered Y real (liftBt insn op) := by
  refine (opSize_early _).then fun size => (lowerRead_early hreal 1).then fun bit => ?_
  split
  · rename_i hmem
    refine (btAccess_early hreal bit size).then fun p => ?_
    exact emitMemBt_ordered _ _ _ _ (hrmw hmem)
  · rename_i hmem
    refine (lowerRead_early hreal 0).then fun a => Emits.fresh.then fun res => ?_
    refine (Ordered.push rfl).then fun _ => ?_
    split
    · exact .pure
    · exact writeOperand_steady (not_eq_true _ ▸ hmem) _

theorem liftOp1_ordered (i : ℕ)
    (op : Temp → Val → Size → IrOp (OtherOp Y)) (hop : ∀ t a size, isSteady (op t a size) = true)
    (hdest : insn.isMemory 0 = true → ∀ t a size, isEarly real (op t a size) = true) :
    Ordered Y real (liftOp1 insn i op) := by
  refine (opSize_early _).then fun size => (lowerRead_early hreal i).then fun a => ?_
  refine Emits.fresh.then fun t => ?_
  cases hmem : insn.isMemory 0 with
  | true => exact (Emits.push (hdest hmem t a size)).then fun _ => writeOperand_ordered hreal 0 _
  | false =>
    refine (Ordered.push (isWhole_of_isSteady (hop t a size))).then fun _ => ?_
    exact writeOperand_steady hmem _

theorem liftBitscan_ordered (op : BitScanOp) (hmem : insn.isMemory 0 = false) :
    Ordered Y real (liftBitscan insn op) := by
  refine (opSize_early _).then fun size => (lowerRead_early hreal 1).then fun src => ?_
  refine (lowerRead_early hreal 0).then fun old => Emits.fresh.then fun t => ?_
  exact (Ordered.push rfl).then fun _ => writeOperand_steady hmem _

theorem liftBmi_ordered (op : BmiOp) (hmem : insn.isMemory 0 = false) :
    Ordered Y real (liftBmi insn op) := by
  refine (opSize_early _).then fun size => (lowerRead_early hreal 1).then fun a => ?_
  have hlast (b : Val) : Ordered Y real (do
      let t ← Emit.fresh
      Emit.push (.set (.bmi t a b size op))
      writeOperand insn 0 (.temp t)) :=
    Emits.fresh.then fun t => (Ordered.push rfl).then fun _ => writeOperand_steady hmem _
  split
  · exact (lowerRead_early hreal 2).then hlast
  · exact Emits.pure.then hlast

theorem liftBmiShift_ordered (op : AluKind) : Ordered Y real (liftBmiShift insn op) := by
  refine (opSize_early _).then fun size => (lowerRead_early hreal 1).then fun a => ?_
  refine (lowerRead_early hreal 2).then fun b => Emits.fresh.then fun t => ?_
  exact (Emits.push alu_early).then fun _ => writeOperand_ordered hreal 0 _

theorem liftCrc32_ordered : Ordered Y real (liftCrc32 insn) := by
  refine (lowerRead_early hreal 0).then fun crc => (lowerRead_early hreal 1).then fun src => ?_
  refine (opSize_early _).then fun bytes => Emits.fresh.then fun t => ?_
  exact (Emits.push rfl).then fun _ => writeOperand_ordered hreal 0 _

theorem liftMovbe_ordered : Ordered Y real (liftMovbe insn) := by
  refine (opSize_early _).then fun size => (effectiveAddress_early hreal).then fun addr => ?_
  split
  · refine (emitLoad_early _ _).then fun loaded => Emits.fresh.then fun swapped => ?_
    exact (Emits.push rfl).then fun _ => writeOperand_ordered hreal 0 _
  · refine (lowerRead_early hreal 1).then fun a => Emits.fresh.then fun swapped => ?_
    exact (Emits.push rfl).then fun _ => .push rfl

theorem liftMov_ordered : Ordered Y real (liftMov insn) :=
  (lowerRead_early hreal 1).then fun src => writeOperand_ordered hreal 0 src

theorem liftLea_ordered : Ordered Y real (liftLea insn) :=
  (effectiveAddressNoSegment_early insn).then fun addr => writeOperand_ordered hreal 0 addr

theorem liftMovzx_ordered : Ordered Y real (liftMovzx insn) := by
  refine (opSize_early _).then fun size => (lowerRead_early hreal 1).then fun v => ?_
  exact (aluNone_early _ _ _ _).then fun z => writeOperand_ordered hreal 0 z

theorem liftMovsx_ordered : Ordered Y real (liftMovsx insn) := by
  refine (opSize_early _).then fun size => (lowerRead_early hreal 1).then fun v => ?_
  refine Emits.fresh.then fun s => (Emits.push rfl).then fun _ => ?_
  exact writeOperand_ordered hreal 0 _

omit hreal in
theorem liftCbwFamily_ordered (src dst : Size) : Ordered Y real (liftCbwFamily src dst) := by
  refine (readReg_early (by decide)).then fun rax => Emits.fresh.then fun s => ?_
  exact (Emits.push rfl).then fun _ => .push rfl

omit hreal in
theorem liftSignIntoDx_ordered (size : Size) : Ordered Y real (liftSignIntoDx size) := by
  refine (readReg_early (by decide)).then fun rax => ?_
  exact (aluNone_early _ _ _ _).then fun s => .push rfl

theorem liftSetcc_ordered (cond : Cond) : Ordered Y real (liftSetcc insn cond) :=
  Emits.fresh.then fun _ => (Emits.push rfl).then fun _ => writeOperand_ordered hreal 0 _

theorem liftCmovcc_ordered (cond : Cond) : Ordered Y real (liftCmovcc insn cond) := by
  refine (lowerRead_early hreal 1).then fun src => (lowerRead_early hreal 0).then fun dst => ?_
  refine Emits.fresh.then fun c => (Emits.push rfl).then fun _ => ?_
  refine (aluNone_early _ _ _ _).then fun m => (aluNone_early _ _ _ _).then fun diff => ?_
  refine (aluNone_early _ _ _ _).then fun sel => (aluNone_early _ _ _ _).then fun res => ?_
  exact writeOperand_ordered hreal 0 _

theorem liftStmxcsr_ordered : Ordered Y real (liftStmxcsr insn) :=
  (effectiveAddress_early hreal).then fun _ => .push rfl

omit hreal in
theorem liftRdtsc_ordered : Ordered Y real liftRdtsc :=
  (Ordered.push rfl).then fun _ => .push rfl

theorem liftFxState_ordered (restore : Bool) : Ordered Y real (liftFxState insn restore) :=
  (effectiveAddress_early hreal).then fun _ => .push rfl

end Integer

section Control
variable (hreal : insn.codeSize = .code16 → real = true)
include hreal

omit hreal in
theorem emitSpWrap_early (sp : Temp) (mode : CpuMode) :
    Early Y real (emitSpWrap sp mode) := by
  cases mode with
  | long64 => exact .pure
  | compat32 => exact .push alu_early
  | real16 => exact .push alu_early

omit hreal in
theorem sregOperand_ne_rip {i : ℕ} {seg : Reg} (h : sregOperand insn i = some seg) :
    seg ≠ .rip := by
  unfold sregOperand at h
  split at h
  · exact icedSegmentReg_ne_rip h
  · cases h

theorem liftPush_ordered (mode : CpuMode) : Ordered Y real (liftPush insn mode) := by
  refine (opSize_early _).then fun size => ?_
  have hstore (src : Val) : Ordered Y real (do
      let rsp ← readReg .rsp
      let newRsp ← Emit.fresh
      Emit.push (alu .sub newRsp rsp (.imm (BitVec.ofNat 64 size.bytes)) .b8 .none)
      emitSpWrap newRsp mode
      let addr ← stackAddr (.temp newRsp) mode
      pushPlain (.store addr src size)
      pushPlain (.writeReg .rsp (.temp newRsp) (spWriteSize mode))) := by
    refine (readReg_early (by decide)).then fun rsp => Emits.fresh.then fun newRsp => ?_
    refine (Emits.push alu_early).then fun _ => (emitSpWrap_early newRsp mode).then fun _ => ?_
    refine (stackAddr_early _ mode).then fun addr => (Ordered.push rfl).then fun _ => ?_
    exact .push rfl
  split
  · rename_i seg hseg
    exact (readReg_early (sregOperand_ne_rip hseg)).then hstore
  · exact (lowerRead_early hreal 0).then hstore

omit hreal in
theorem popWrites_ordered {writeback : PlainOp}
    (hsteady : isSteady (.plain writeback : IrOp (OtherOp Y)) = true) (val : Val)
    (dst : WriteTarget) : dst.isNamed = true → Ordered Y real (match dst with
      | .mem addr size => do
        emitWrite (.mem addr size) val
        pushPlain writeback
      | dst => do
        pushPlain writeback
        emitWrite dst val) := by
  intro hdst
  cases dst with
  | mem addr size => exact (Ordered.push rfl).then fun _ => .push hsteady
  | reg r size =>
    have hreg : (WriteTarget.reg r size).isRegister = true := hdst
    exact (Ordered.push (isWhole_of_isSteady hsteady)).then fun _ => emitWrite_steady hreg _
  | highByte parent =>
    have hreg : (WriteTarget.highByte parent).isRegister = true := hdst
    exact (Ordered.push (isWhole_of_isSteady hsteady)).then fun _ => emitWrite_steady hreg _

theorem liftPop_ordered (mode : CpuMode) : Ordered Y real (liftPop insn mode) := by
  have hsreg {seg : Reg} (h : sregOperand insn 0 = some seg) :
      (WriteTarget.reg seg .b2).isNamed = true := by
    have hne := sregOperand_ne_rip h
    simp [WriteTarget.isNamed, WriteTarget.isRegister, hne]
  refine (opSize_early _).then fun size => (readReg_early (by decide)).then fun rsp => ?_
  refine (stackAddr_early _ mode).then fun addr => (emitLoad_early _ _).then fun val => ?_
  refine Emits.fresh.then fun newRsp => (Emits.push alu_early).then fun _ => ?_
  dsimp only
  split
  · refine (emitSpWrap_early newRsp mode).then fun _ => ?_
    split
    · rename_i seg hseg
      exact Ordered.pure_then (popWrites_ordered rfl val _ (hsreg hseg))
    · exact writeTarget_then hreal 0 fun dst hdst => popWrites_ordered rfl val dst hdst
  · split
    · rename_i seg hseg
      exact Ordered.pure_then (popWrites_ordered rfl val _ (hsreg hseg))
    · exact writeTarget_then hreal 0 fun dst hdst => popWrites_ordered rfl val dst hdst

omit hreal in
theorem liftLeave_ordered (mode : CpuMode) : Ordered Y real (liftLeave insn mode) := by
  refine (readReg_early (by decide)).then fun rbp => (emitLoad_early _ _).then fun val => ?_
  refine (aluNone_early _ _ _ _).then fun newRsp => (Ordered.push rfl).then fun _ => ?_
  exact .push rfl

theorem branchTarget_early (mode : CpuMode) : Early Y real (branchTarget insn mode) := by
  unfold branchTarget
  split
  · exact .pure
  · refine (lowerRead_early hreal 0).bind fun target => ?_
    split
    · exact aluNone_early _ _ _ _
    · split
      · exact aluNone_early _ _ _ _
      · exact .pure

omit hreal in
theorem callRetSlot_early (mode : CpuMode) : Early Y real (callRetSlot insn mode) := by
  unfold callRetSlot
  split
  all_goals first
    | exact .pure
    | exact .fail

theorem liftJmp_ordered (mode : CpuMode) : Ordered Y real (liftJmp insn mode) :=
  (branchTarget_early hreal mode).then fun _ => .push rfl

theorem liftCall_ordered (mode : CpuMode) : Ordered Y real (liftCall insn mode) := by
  refine (callRetSlot_early mode).then fun slot => ?_
  exact (branchTarget_early hreal mode).then fun _ => .push rfl

omit hreal in
theorem liftRet_ordered (mode : CpuMode) : Ordered Y real (liftRet insn mode) :=
  (callRetSlot_early mode).then fun _ => .push rfl

omit hreal in
theorem liftPortIo_ordered (dirOut : Bool) : Ordered Y real (liftPortIo insn dirOut) := by
  have hport (i : ℕ) : Early Y real (portOperand insn i) := by
    unfold portOperand
    split
    · exact .pure
    · exact (readReg_early (by decide)).bind fun _ => aluNone_early _ _ _ _
    · exact .fail
  refine (opSize_early _).then fun size => ?_
  split
  · exact Early.ordered .fail
  · refine (hport _).then fun port => ?_
    cases dirOut with
    | true => exact (readReg_early (by decide)).then fun _ => .push rfl
    | false => exact Emits.pure.then fun _ => .push rfl

omit hreal in
theorem liftInt_ordered : Ordered Y real (liftInt insn) := by
  unfold liftInt
  split
  · exact .push rfl
  · exact .push rfl

end Control

/-- How an instruction updates memory in place: the flags its result sets. -/
inductive RmwKind
  | binop (op : AluKind) (flags : FlagMask)
  | step (op : AluKind)
  | neg
  | double (left : Bool)
  | bit (op : BtOp)
  deriving DecidableEq, Repr

/-- The instructions that load their destination, set flags and store it back. -/
def Mnemonic.rmwKind : Mnemonic → Option RmwKind
  | .add => some (.binop .add .all)
  | .adc => some (.binop .adc .all)
  | .sub => some (.binop .sub .all)
  | .sbb => some (.binop .sbb .all)
  | .and => some (.binop .and .all)
  | .or => some (.binop .or .all)
  | .xor => some (.binop .xor .all)
  | .shl | .sal => some (.binop .shl .shift)
  | .shr => some (.binop .shr .shift)
  | .sar => some (.binop .sar .shift)
  | .rol => some (.binop .rol .cfOf)
  | .ror => some (.binop .ror .cfOf)
  | .rcl => some (.binop .rcl .cfOf)
  | .rcr => some (.binop .rcr .cfOf)
  | .inc => some (.step .add)
  | .dec => some (.step .sub)
  | .neg => some .neg
  | .shld => some (.double true)
  | .shrd => some (.double false)
  | .bts => some (.bit .set)
  | .btr => some (.bit .reset)
  | .btc => some (.bit .complement)
  | _ => none

/-- The lock prefix makes the update one atomic op; the double shifts have no such form. -/
def RmwKind.plain (lock : Bool) : RmwKind → Bool
  | .double _ => true
  | _ => !lock

def Insn.updatesMemory (insn : Insn) : Option RmwKind :=
  if insn.isMemory 0 then insn.mnemonic.rmwKind.filter (RmwKind.plain insn.lock) else none

def Mnemonic.registerDest : Mnemonic → Bool
  | .popcnt | .bsf | .bsr | .tzcnt | .lzcnt | .mulx => true
  | .andn | .blsi | .blsr | .blsmsk | .bextr | .bzhi | .pdep | .pext => true
  | _ => false

/-- One memory operand at most, none in the place of these registers, and a scale of one to eight.
-/
structure Insn.Encoded (insn : Insn) : Prop where
  oneMemory : ∀ i j, insn.isMemory i = true → insn.isMemory j = true → i = j
  dest : insn.mnemonic.registerDest = true → insn.isMemory 0 = false
  imul : insn.mnemonic = .imul → 2 ≤ insn.opCount → insn.isMemory 0 = false
  second : insn.mnemonic = .mulx ∨ insn.mnemonic = .xadd → insn.isMemory 1 = false
  scale : insn.mem.scale ∈ [1, 2, 4, 8]

section Dispatch
variable (hreal : insn.codeSize = .code16 → real = true)
include hreal

variable {m : LiftM (OtherOp Y) Unit}

omit hreal in
theorem straight_ordered (h : Ordered Y real m) : Ordered Y real (straight m) :=
  h.then fun _ => .pure

omit hreal in
theorem ending_ordered (h : Ordered Y real m) : Ordered Y real (ending m) :=
  h.then fun _ => .pure

omit hreal in
theorem single_ordered (h : isWhole op = true) : Ordered Y real (single op) :=
  (Ordered.push h).then fun _ => .pure

def Mnemonic.isCore : Mnemonic → Bool
  | .foreign | .string _ _ => false
  | _ => true

variable {kind : RmwKind}

omit hreal in
theorem plain_of_updatesMemory (hkind : insn.mnemonic.rmwKind = some kind)
    (hrmw : insn.updatesMemory = none) (hmem : insn.isMemory 0 = true) :
    kind.plain insn.lock = false := by
  unfold Insn.updatesMemory at hrmw
  rw [hmem, hkind, if_pos rfl, Option.filter_eq_none_iff] at hrmw
  exact not_eq_true _ ▸ hrmw _ rfl

omit hreal in
theorem locked_of_updatesMemory (hkind : insn.mnemonic.rmwKind = some kind)
    (hlock : kind.plain insn.lock = !insn.lock) (hrmw : insn.updatesMemory = none)
    (hmem : insn.isMemory 0 = true) : insn.lock = true := by
  have hplain := plain_of_updatesMemory hkind hrmw hmem
  rw [hlock] at hplain
  simpa using hplain

theorem binop_ordered {op : AluKind}
    {flags : FlagMask} (hkind : insn.mnemonic.rmwKind = some (.binop op flags))
    (hrmw : insn.updatesMemory = none) :
    Ordered Y real (straight (liftBinop insn op flags true)) := by
  apply straight_ordered
  apply liftBinop_ordered hreal
  intro hmem _
  exact locked_of_updatesMemory hkind rfl hrmw hmem

theorem compare_ordered (op : AluKind) :
    Ordered Y real (straight (liftBinop insn op .all false)) := by
  apply straight_ordered
  apply liftBinop_ordered hreal
  intro _ h
  cases h

theorem unary_ordered
    (hkind : insn.mnemonic.rmwKind = some kind) (hlock : kind.plain insn.lock = !insn.lock)
    (hrmw : insn.updatesMemory = none) (rmwOp : RmwOp) (rmwSrc : Val)
    (emit : Temp → Val → Size → IrOp (OtherOp Y))
    (hemit : ∀ res a size, isSteady (emit res a size) = true) :
    Ordered Y real (straight (liftUnaryOp0 insn rmwOp rmwSrc true emit)) := by
  apply straight_ordered
  apply liftUnaryOp0_ordered hreal _ _ _ _ hemit
  intro hmem hplain
  rw [locked_of_updatesMemory hkind hlock hrmw hmem] at hplain
  cases hplain

theorem not_ordered : Ordered Y real (straight (liftNot insn)) := by
  apply straight_ordered
  apply liftUnaryOp0_ordered hreal
  · intro res a size
    rfl
  · intro _ _ res a size
    exact alu_early

theorem double_ordered {left : Bool}
    (hkind : insn.mnemonic.rmwKind = some (.double left)) (hrmw : insn.updatesMemory = none) :
    Ordered Y real (straight (liftDoubleShift insn left)) := by
  apply straight_ordered
  apply liftDoubleShift_ordered hreal
  rw [← not_eq_true]
  intro hmem
  cases plain_of_updatesMemory hkind hrmw hmem

theorem bit_ordered {op : BtOp} (hkind : op = .test ∨ insn.mnemonic.rmwKind = some (.bit op))
    (hrmw : insn.updatesMemory = none) : Ordered Y real (straight (liftBt insn op)) := by
  apply straight_ordered
  apply liftBt_ordered hreal
  intro hmem
  rcases hkind with htest | hkind
  · exact Or.inl htest
  · exact Or.inr (locked_of_updatesMemory hkind rfl hrmw hmem)

omit hreal in
theorem registerDest_ordered (henc : insn.Encoded) (hdest : insn.mnemonic.registerDest = true)
    (h : insn.isMemory 0 = false → Ordered Y real m) : Ordered Y real (straight m) :=
  straight_ordered (h (henc.dest hdest))

/-- The code of every instruction of the core is in order, unless it updates memory in place
without a lock. -/
theorem liftCommon_ordered (henc : insn.Encoded)
    (hcore : insn.mnemonic.isCore = true) (hrmw : insn.updatesMemory = none)
    (foreign : Insn → CpuMode → LiftM (OtherOp Y) Bool) (mode : CpuMode) :
    Ordered Y real (liftCommon foreign insn mode) := by
  unfold liftCommon
  cases hm : insn.mnemonic with
  | nop | endbr64 | endbr32 | pause | wait | rdsspd | rdsspq | prefetchnta | prefetcht0 | prefetcht1
  | prefetcht2 | prefetchw | prefetchwt1 | mfence | lfence | sfence | ldmxcsr | vldmxcsr =>
    exact Early.ordered .pure
  | mov | movnti => exact straight_ordered (liftMov_ordered hreal)
  | lea => exact straight_ordered (liftLea_ordered hreal)
  | add | adc | sub | sbb | and | or | xor | shl | sal | shr | sar | rol | ror | rcl | rcr =>
    exact binop_ordered hreal (by rw [hm]; rfl) hrmw
  | cmp | test => exact compare_ordered hreal _
  | shld | shrd => exact double_ordered hreal (by rw [hm]; rfl) hrmw
  | inc | dec | neg =>
    exact unary_ordered hreal (by rw [hm]; rfl) rfl hrmw _ _ _ fun _ _ _ => rfl
  | not => exact not_ordered hreal
  | mul => exact straight_ordered (liftWideningMul_ordered hreal false)
  | imul => exact straight_ordered (liftImul_ordered hreal (henc.imul hm))
  | div | idiv => exact straight_ordered (liftDiv_ordered hreal _)
  | bswap =>
    exact straight_ordered (liftOp1_ordered hreal 0 _ (fun _ _ _ => rfl) fun _ _ _ _ => rfl)
  | movbe => exact straight_ordered (liftMovbe_ordered hreal)
  | andn | blsi | blsr | blsmsk | bextr | bzhi | pdep | pext =>
    exact registerDest_ordered henc (by rw [hm]; rfl) (liftBmi_ordered hreal _)
  | shlx | shrx | sarx | rorx => exact straight_ordered (liftBmiShift_ordered hreal _)
  | mulx =>
    refine registerDest_ordered henc (by rw [hm]; rfl) fun h₀ => ?_
    exact liftMulx_ordered hreal h₀ (henc.second (Or.inl hm))
  | xchg => exact straight_ordered (liftXchg_ordered hreal henc.oneMemory)
  | xadd => exact straight_ordered (liftXadd_ordered hreal (henc.second (Or.inr hm)))
  | cmpxchg => exact straight_ordered (liftCmpxchg_ordered hreal)
  | cpuid | xgetbv | std | cld | lahf | sahf => exact single_ordered rfl
  | rdtsc => exact straight_ordered liftRdtsc_ordered
  | bsf | bsr | tzcnt | lzcnt =>
    exact registerDest_ordered henc (by rw [hm]; rfl) (liftBitscan_ordered hreal _)
  | popcnt =>
    refine registerDest_ordered henc (by rw [hm]; rfl) fun h₀ => ?_
    refine liftOp1_ordered hreal 1 _ (fun _ _ _ => rfl) fun hmem => ?_
    rw [h₀] at hmem
    cases hmem
  | crc32 => exact straight_ordered (liftCrc32_ordered hreal)
  | stmxcsr | vstmxcsr => exact straight_ordered (liftStmxcsr_ordered hreal)
  | fxsave | fxsave64 | fxrstor | fxrstor64 => exact straight_ordered (liftFxState_ordered hreal _)
  | bt => exact bit_ordered hreal (Or.inl rfl) hrmw
  | bts | btr | btc => exact bit_ordered hreal (Or.inr (by rw [hm]; rfl)) hrmw
  | movzx => exact straight_ordered (liftMovzx_ordered hreal)
  | movsx | movsxd => exact straight_ordered (liftMovsx_ordered hreal)
  | cbw | cwde | cdqe => exact straight_ordered (liftCbwFamily_ordered _ _)
  | cwd | cdq | cqo => exact straight_ordered (liftSignIntoDx_ordered _)
  | push => exact straight_ordered (liftPush_ordered hreal mode)
  | pop => exact straight_ordered (liftPop_ordered hreal mode)
  | jmp => exact ending_ordered (liftJmp_ordered hreal mode)
  | call => exact ending_ordered (liftCall_ordered hreal mode)
  | ret => exact ending_ordered (liftRet_ordered mode)
  | leave => exact straight_ordered (liftLeave_ordered mode)
  | syscall | hlt | ud2 | int3 | int1 => exact ending_ordered (.push rfl)
  | portIn | portOut => exact ending_ordered (liftPortIo_ordered _)
  | int => exact ending_ordered liftInt_ordered
  | jcc cond => exact ending_ordered (.push rfl)
  | setcc cond => exact straight_ordered (liftSetcc_ordered hreal cond)
  | cmovcc cond => exact straight_ordered (liftCmovcc_ordered hreal cond)
  | foreign | string =>
    rw [hm] at hcore
    cases hcore
  | _ => exact Early.ordered .fail

end Dispatch

end X86Jit.Lift
