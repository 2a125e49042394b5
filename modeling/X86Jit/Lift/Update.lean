import X86Jit.Lift.FaultAtomic

/-! The updates of memory in place: load, compute with flags, store. The store goes where the load
came from, so it faults only after a load that took a value the embedder had supplied. -/
namespace X86Jit.Lift
open X86Jit.Lib Size

variable {a : Val}

variable {X V : Type} {sem : OtherOps X V} {blockEnd : U64} {t : Temp} {s : WalkState V}
  {Q : Stop (WalkState V) → Prop} {insn : Insn}

def Operand.value (g : Guest V) : Operand → U64
  | .register r =>
    match highByteParent r with
    | some parent => (g.readReg parent >>> 8) &&& 0xff
    | none => ((icedToReg r).map g.readReg).getD 0
  | .immediate _ v => v
  | _ => 0

theorem execAlu_shr_b8 (a b c : U64) (f : Flags) :
    execAlu .shr .b8 .none a b c f = ([a >>> (c &&& 63).toNat], f) := by
  simp only [execAlu, execShr, and_mask_b8]
  rfl

theorem TempsFrom.value {s' : WalkState V} (h : TempsFrom t s s') (o : Operand) :
    o.value s'.guest = o.value s.guest := by
  rw [h.rest]
  rfl

theorem lowerRead_ensures {i : ℕ} (hmem : insn.isMemory i = false) :
    Emit.Ensures (exec sem blockEnd) (lowerRead insn i) t s
      (Yields t s ((insn.op i).value s.guest)) Q := by
  unfold lowerRead Insn.isMemory at *
  cases hop : insn.op i with
  | register r =>
    dsimp only [Operand.value]
    cases highByteParent r with
    | some parent =>
      -- the second byte: shifted down and cut off
      refine (readReg_ensures parent).seq ?_
      intro p t₁ s₁ hp
      have hcount : ((8 : U64) &&& 63).toNat = 8 := by decide
      have hshr : execAlu .shr .b8 .none (s₁.guest.readVal p) (s₁.guest.readVal (.imm 8))
          (s₁.guest.readVal (.imm 8)) s₁.flags = ([s.guest.readReg parent >>> 8], s₁.flags) := by
        rw [execAlu_shr_b8, hp.value]
        simp only [Guest.readVal, hcount]
      refine (aluNone_ensures hshr).seq ?_
      intro sh t₂ s₂ hsh
      have hand : execAlu .and .b8 .none (s₂.guest.readVal sh) (s₂.guest.readVal (.imm 0xff))
          (s₂.guest.readVal (.imm 0xff)) s₂.flags =
          ([(s.guest.readReg parent >>> 8) &&& 0xff], s₂.flags) := by
        rw [execAlu_and_b8, hsh.value]
        rfl
      refine (aluNone_ensures hand).imp ?_ fun _ => id
      intro a t₃ s₃ ha
      exact (hp.then hsh).then ha
    | none =>
      cases hreg : icedToReg r with
      | none => exact .bind .fail
      | some reg => exact .bind (.pure (readReg_ensures reg))
  | immediate kind v => exact .pure ⟨le_rfl, TempsFrom.refl t s, trivial, rfl⟩
  | memory =>
    rw [hop] at hmem
    cases hmem
  | _ => exact .fail

def ofBytes : ℕ → Size
  | 1 => .b1
  | 2 => .b2
  | 4 => .b4
  | _ => .b8

theorem opSize_ensures (n : ℕ) : Emit.Ensures (exec sem blockEnd) (opSize n) t s
      (fun size t' s' => size = ofBytes n ∧ t = t' ∧ s = s') Q := by
  unfold opSize
  split <;> first | exact .pure ⟨rfl, rfl, rfl⟩ | exact .fail

def Somewhere (t : Temp) (s : WalkState V) (a : Val) (t' : Temp) (s' : WalkState V) : Prop :=
  Yields t s (s'.guest.readVal a) a t' s'

theorem Yields.somewhere {w : U64} {t' : Temp} {s' : WalkState V}
    (h : Yields t s w a t' s') : Somewhere t s a t' s' :=
  ⟨h.next, h.frame, h.below, rfl⟩

theorem effectiveAddressNoSegment_ensures (hscale : insn.mem.scale ∈ [1, 2, 4, 8]) :
    Emit.Ensures (exec sem blockEnd) (effectiveAddressNoSegment insn) t s (Somewhere t s) Q := by
  have himm (v : U64) : Emit.Ensures (exec sem blockEnd) (pure (.imm v) : LiftM X Val) t s
      (Somewhere t s) Q :=
    .pure ⟨le_rfl, TempsFrom.refl t s, trivial, rfl⟩
  have hregs (hbase : insn.mem.base = .none ∨ ∃ i size, insn.mem.base = .gpr i size)
      (hindex : insn.mem.index = .none ∨ ∃ i size, insn.mem.index = .gpr i size) :
      Emit.Ensures (exec sem blockEnd) (effectiveAddressNoSegment insn) t s
        (Somewhere t s) Q :=
    (registers_ensures hbase hindex hscale).imp (fun _ _ _ h => h.somewhere) fun _ => id
  by_cases hrip : insn.mem.base = .rip
  · unfold effectiveAddressNoSegment
    rw [if_pos hrip]
    exact himm _
  by_cases heip : insn.mem.base = .eip
  · unfold effectiveAddressNoSegment
    rw [if_neg hrip, if_pos heip]
    exact himm _
  -- a register that is no general one makes the lift fail
  have hreg (r : Register) : r = .none ∨ (∃ i size, r = .gpr i size) ∨
      (r ≠ .none ∧ icedToReg r = none) := by
    cases r with
    | none => exact Or.inl rfl
    | gpr i size => exact Or.inr (Or.inl ⟨i, size, rfl⟩)
    | _ => exact Or.inr (Or.inr ⟨nofun, rfl⟩)
  rcases hreg insn.mem.base with hb | hb | ⟨hne, hnone⟩
  · rcases hreg insn.mem.index with hi | hi | ⟨hne', hnone'⟩
    · exact hregs (Or.inl hb) (Or.inl hi)
    · exact hregs (Or.inl hb) (Or.inr hi)
    · unfold effectiveAddressNoSegment
      rw [if_neg hrip, if_neg heip]
      refine (addrBase_ensures (Or.inl hb)).seq ?_
      intro acc t₁ s₁ _
      refine .bind ?_
      unfold addrIndex
      rw [if_neg hne', hnone']
      exact .bind .fail
  · rcases hreg insn.mem.index with hi | hi | ⟨hne', hnone'⟩
    · exact hregs (Or.inr hb) (Or.inl hi)
    · exact hregs (Or.inr hb) (Or.inr hi)
    · unfold effectiveAddressNoSegment
      rw [if_neg hrip, if_neg heip]
      refine (addrBase_ensures (Or.inr hb)).seq ?_
      intro acc t₁ s₁ _
      refine .bind ?_
      unfold addrIndex
      rw [if_neg hne', hnone']
      exact .bind .fail
  · unfold effectiveAddressNoSegment addrBase
    rw [if_neg hrip, if_neg heip, if_neg hne, hnone]
    exact .bind (.bind .fail)

theorem effectiveAddress_somewhere (hscale : insn.mem.scale ∈ [1, 2, 4, 8])
    (hcode : insn.codeSize ≠ .code16) : Emit.Ensures (exec sem blockEnd) (effectiveAddress insn) t s
      (Somewhere t s) Q := by
  refine (effectiveAddressNoSegment_ensures hscale).seq ?_
  intro a t₁ s₁ ha
  refine (withSegment_ensures ha.below fun _ h => absurd h hcode).imp ?_ fun _ => id
  intro a' t₂ s₂ ha'
  exact (ha.then ha').somewhere

variable {α β : Type} {t₀ : Temp}

/-- Started at temp `t₀` or later, the lift gives a value of which `P` holds. -/
def From (t₀ : Temp) (P : α → Prop) (m : LiftM X α) : Prop :=
  ∀ t r, t₀ ≤ t → m t = .ok r → t₀ ≤ r.next ∧ P r.val

variable {P : α → Prop}

theorem From.pure {a : α} (h : P a) : From t₀ P (Pure.pure a : LiftM X α) := by
  intro t r ht hr
  cases hr
  exact ⟨ht, h⟩

theorem From.fail : From t₀ P (unsupportedInsn : LiftM X α) := by
  intro t r ht hr
  cases hr

theorem From.push {op : IrOp X} : From t₀ (fun _ => True) (Emit.push op : LiftM X Unit) := by
  intro t r ht hr
  cases hr
  exact ⟨ht, trivial⟩

theorem From.fresh : From t₀ (fun u => t₀ ≤ u) (Emit.fresh : LiftM X ℕ) := by
  intro t r ht hr
  cases hr
  exact ⟨ht.trans (Nat.le_succ t), ht⟩

theorem From.bind {P' : β → Prop} {m : LiftM X α} {f : α → LiftM X β}
    (h : From t₀ P m) (hf : ∀ a, P a → From t₀ P' (f a)) : From t₀ P' (m >>= f) := by
  intro t r ht hr
  obtain ⟨r₁, r₂, h₁, h₂, rfl⟩ := Emit.bind_ok.mp hr
  obtain ⟨ht₁, ha⟩ := h t r₁ ht h₁
  exact hf r₁.val ha r₁.next r₂ ht₁ h₂

def Val.FromOn (t₀ : Temp) : Val → Prop
  | .temp u => t₀ ≤ u
  | .imm _ => True

theorem readReg_from (reg : Reg) : From (X := X) t₀ (Val.FromOn t₀) (readReg reg) :=
  From.fresh.bind fun _ hu => From.push.bind fun _ _ => .pure hu

theorem aluNone_from (kind : AluKind) (a b : Val) (size : Size) :
    From (X := X) t₀ (Val.FromOn t₀) (aluNone kind a b size) :=
  From.fresh.bind fun _ hu => From.push.bind fun _ _ => .pure hu

theorem orUnsupported_from (o : Option α) :
    From t₀ (fun _ => True) (orUnsupported o : LiftM X α) := by
  cases o with
  | none => exact .fail
  | some a => exact .pure trivial

theorem addrBase_from :
    From t₀ (fun acc => ∀ a, acc = some a → Val.FromOn t₀ a) (addrBase insn : LiftM X _) := by
  unfold addrBase
  split
  · exact .pure nofun
  · refine (orUnsupported_from _).bind fun reg _ => (readReg_from reg).bind fun v hv => .pure ?_
    intro a ha
    cases ha
    exact hv

theorem scaleIndex_from {idx : Val} (h : Val.FromOn t₀ idx) :
    From (X := X) t₀ (Val.FromOn t₀) (scaleIndex insn idx) := by
  unfold scaleIndex
  split
  · exact .pure h
  · exact aluNone_from _ _ _ _

theorem addrIndex_from {acc : Option Val} (hacc : ∀ a, acc = some a → Val.FromOn t₀ a) :
    From t₀ (fun acc => ∀ a, acc = some a → Val.FromOn t₀ a) (addrIndex insn acc : LiftM X _) := by
  have hsome (v : Val) (hv : Val.FromOn t₀ v) :
      From t₀ (fun acc => ∀ a, acc = some a → Val.FromOn t₀ a) (pure (some v) : LiftM X _) := by
    apply From.pure
    intro a ha
    cases ha
    exact hv
  unfold addrIndex
  split
  · exact .pure hacc
  · refine (orUnsupported_from _).bind fun reg _ => (readReg_from reg).bind fun idx hidx => ?_
    refine (scaleIndex_from hidx).bind fun scaled hscaled => ?_
    cases acc with
    | none => exact hsome scaled hscaled
    | some a => exact (aluNone_from _ _ _ _).bind hsome

theorem addrDisp_from {acc : Option Val} (hacc : ∀ a, acc = some a → Val.FromOn t₀ a) :
    From (X := X) t₀ (Val.FromOn t₀) (addrDisp insn acc) := by
  cases acc with
  | none => exact .pure trivial
  | some a =>
    change From t₀ _ (if insn.mem.disp = 0 then pure a else addAddr a (.imm insn.mem.disp))
    split
    · exact .pure (hacc a rfl)
    · exact aluNone_from _ _ _ _

theorem truncateAddr_from (h : Val.FromOn t₀ a) :
    From (X := X) t₀ (Val.FromOn t₀) (truncateAddr insn a) := by
  unfold truncateAddr
  split
  · exact .pure h
  · exact .pure trivial
  · exact aluNone_from _ _ _ _

theorem effectiveAddressNoSegment_from :
    From (X := X) t₀ (Val.FromOn t₀) (effectiveAddressNoSegment insn) := by
  unfold effectiveAddressNoSegment
  split
  · exact .pure trivial
  · split
    · exact .pure trivial
    · refine addrBase_from.bind fun acc hacc => (addrIndex_from hacc).bind fun acc' hacc' => ?_
      exact (addrDisp_from hacc').bind fun a ha => truncateAddr_from ha

theorem effectiveAddress_from (hcode : insn.codeSize ≠ .code16) :
    From (X := X) t₀ (Val.FromOn t₀) (effectiveAddress insn) := by
  refine effectiveAddressNoSegment_from.bind fun a ha => ?_
  unfold withSegment
  rw [if_neg hcode]
  split
  · exact (readReg_from _).bind fun _ _ => aluNone_from _ _ _ _
  · exact (readReg_from _).bind fun _ _ => aluNone_from _ _ _ _
  · exact .pure ha

variable {after : U64 → Flags} {size : Size} {addr : Val} {res : Temp}

theorem ensures_with_from {m : LiftM X α} {P : α → Temp → WalkState V → Prop}
    {S : α → Prop} (h : Emit.Ensures (exec sem blockEnd) m t s P Q) (hm : From t S m) :
    Emit.Ensures (exec sem blockEnd) m t s (fun a t' s' => P a t' s' ∧ S a) Q := by
  intro r hr
  refine (h r hr).imp ?_ fun _ => id
  intro s' hP
  exact ⟨hP, (hm t r le_rfl hr).2⟩

def answered (s : WalkState V) : WalkState V :=
  { s with guest := { s.guest with pendingMmio := none } }

structure Loads (t : Temp) (s : WalkState V) (addr : U64) (size : Size) (a : Val) (t' : Temp)
    (s' : WalkState V) : Prop where
  next : t ≤ t'
  frame : TempsFrom t (answered s) s'
  below : Val.Below t' a
  value : ∀ v, s.guest.pendingMmio = some v → s'.guest.readVal a = v &&& mask size
  backed : s.guest.pendingMmio = none → s.guest.mem.backed addr size = true

def FaultsWith (s : WalkState V) (after : U64 → Flags) (e : Stop (WalkState V)) : Prop :=
  e.result.isUnmapped = true →
    Undone { s with flags := s.guest.pendingMmio.elim s.flags after } e.state

theorem answered_of_none (h : s.guest.pendingMmio = none) : answered s = s := by
  unfold answered
  rw [← h]

structure LoadTraps (s : WalkState V) (addr : U64) (size : Size) (e : Stop (WalkState V)) :
    Prop where
  pending : s.guest.pendingMmio = none
  unbacked : s.guest.mem.backed addr size = false
  stop : ∃ trap, s.guest.mem.read addr size = .error trap ∧
    e = ⟨⟨(s.guest.trapOut trap addr size .read 0).state, s.flags⟩,
      (s.guest.trapOut trap addr size .read 0).result⟩

theorem emitLoad_cases (hQ : ∀ e, LoadTraps s (s.guest.readVal addr) size e → Q e) :
    Emit.Ensures (exec sem blockEnd) (emitLoad addr size) t s
      (Loads t s (s.guest.readVal addr) size) Q := by
  have hload : exec sem blockEnd (.plain (.load t addr size) : IrOp X) s =
      withFlags s.flags (execLoad s.guest t addr size) := rfl
  refine .bind (.fresh (.bind (.push ?_ ?_)))
  · intro s' hok
    rw [hload] at hok
    unfold execLoad at hok
    refine .pure ?_
    cases hp : s.guest.pendingMmio with
    | some v =>
      rw [hp] at hok
      cases hok
      refine ⟨Nat.le_succ t, ?_, Nat.lt_succ_self t, ?_, ?_⟩
      · exact (TempsFrom.refl t (answered s)).setTemp le_rfl _
      · intro v' hv
        cases hp.symm.trans hv
        exact Function.update_self t _ _
      · intro hnone
        cases hp.symm.trans hnone
    | none =>
      rw [hp] at hok
      unfold Guest.loadOr at hok
      cases hread : s.guest.mem.read (s.guest.readVal addr) size with
      | error trap =>
        rw [hread] at hok
        cases hok
      | ok v =>
        rw [hread] at hok
        cases hok
        refine ⟨Nat.le_succ t, ?_, Nat.lt_succ_self t, ?_, ?_⟩
        · rw [answered_of_none hp]
          exact (TempsFrom.refl t s).setTemp le_rfl _
        · intro v' hv
          cases hp.symm.trans hv
        · intro _
          exact Memory.read_ok_iff.mp ⟨v, hread⟩
  · intro e he
    rw [hload] at he
    unfold execLoad at he
    -- a load that has an answer to take does not fault
    cases hp : s.guest.pendingMmio with
    | some v =>
      rw [hp] at he
      cases he
    | none =>
      rw [hp] at he
      unfold Guest.loadOr at he
      cases hread : s.guest.mem.read (s.guest.readVal addr) size with
      | ok v =>
        rw [hread] at he
        cases he
      | error trap =>
        rw [hread] at he
        cases he
        refine hQ _ ⟨hp, ?_, trap, hread, rfl⟩
        rw [← Bool.not_eq_true]
        intro hbacked
        obtain ⟨v, hv⟩ := Memory.read_ok_iff.mpr hbacked
        cases hread.symm.trans hv

theorem emitLoad_ensures : Emit.Ensures (exec sem blockEnd) (emitLoad addr size) t s
      (Loads t s (s.guest.readVal addr) size) (FaultsWith s after) := by
  apply emitLoad_cases
  rintro _ ⟨hp, -, trap, -, rfl⟩ _
  rw [hp]
  exact undone_trapOut s trap _ size .read 0

theorem readVal_setTemp {g : Guest V} (h : a ≠ .temp res) (v : U64) :
    (g.setTemp res v).readVal a = g.readVal a := by
  cases a with
  | temp u =>
    have hu : u ≠ res := fun hu => h (congrArg Val.temp hu)
    exact Function.update_of_ne hu v g.temps
  | imm i => rfl

theorem Val.Below.ne (h : Val.Below t a) (hres : t ≤ res) : a ≠ .temp res := by
  rintro rfl
  exact absurd h (Nat.not_lt.mpr hres)

theorem flagged_store_ensures {s₁ : WalkState V} {op : IrOp X} {v : U64} {f : Flags}
    (hframe : TempsFrom t₀ (answered s) s₁) (haddr : Val.Below t₀ addr) (hne : addr ≠ .temp res)
    (hback : s.guest.pendingMmio = none → s.guest.mem.backed (s.guest.readVal addr) size = true)
    (hop : exec sem blockEnd op s₁ = .ok ⟨s₁.guest.setTemp res v, f⟩)
    (hf : ∀ a, s.guest.pendingMmio = some a → f = after a) :
    Emit.Ensures (exec sem blockEnd)
      (do Emit.push op; pushPlain (.store addr (.temp res) size)) t s₁
      (fun _ _ _ => True) (FaultsWith s after) := by
  refine .bind (.push_ok hop (.push (fun _ _ => trivial) ?_))
  intro e he hu
  let s₂ : WalkState V := ⟨s₁.guest.setTemp res v, f⟩
  have hval : s₂.guest.readVal addr = s.guest.readVal addr := by
    rw [show s₂.guest.readVal addr = s₁.guest.readVal addr from readVal_setTemp hne v]
    exact hframe.readVal haddr
  have hmem : s₂.guest.mem = s.guest.mem := by
    change (s₁.guest.setTemp res v).mem = _
    rw [hframe.rest]
    rfl
  have hundone : Undone s₂ e.state :=
    undone_withFlags s₂ (fun e' h' _ => undone_execStore s₂ h') he hu
  cases hp : s.guest.pendingMmio with
  | none =>
    -- the store is where the load was
    obtain ⟨m, hm⟩ := (Memory.write_ok_iff (v := s₂.guest.readVal (.temp res))).mpr (hback hp)
    change withFlags f (execStore s₂.guest addr (.temp res) size) = .error e at he
    unfold execStore at he
    rw [hval, hmem, hm] at he
    cases he
  | some a =>
    obtain ⟨hrip, hgpr, hmem₂, hflags⟩ := hundone
    refine ⟨?_, ?_, ?_, ?_⟩
    · rw [hrip]
      change s₁.guest.curAddr = _
      rw [hframe.rest]
      rfl
    · rw [hgpr]
      change s₁.guest.gpr = _
      rw [hframe.rest]
      rfl
    · exact hmem₂.trans hmem
    · rw [hflags]
      exact hf a hp

theorem FaultsWith.of_frame {s₁ : WalkState V} {e : Stop (WalkState V)}
    (h : TempsFrom t s s₁) (he : FaultsWith s₁ after e) : FaultsWith s after e := by
  intro hu
  obtain ⟨hrip, hgpr, hmem, hflags⟩ := he hu
  rw [h.rest] at hrip hgpr hmem hflags
  exact ⟨hrip, hgpr, hmem, hflags⟩

theorem exec_alu_single (sem : OtherOps X V) (blockEnd : U64) {kind : AluKind}
    (h : ∀ signed, kind ≠ .mul signed) (res : Temp) (a b count : Val) (size : Size) (m : FlagMask)
    (s : WalkState V) :
    ∃ v, exec sem blockEnd (.alu ⟨kind, [res], a, b, count, size, m⟩ : IrOp X) s =
      .ok ⟨s.guest.setTemp res v, (execAlu kind size m (s.guest.readVal a) (s.guest.readVal b)
        (s.guest.readVal count) s.flags).2⟩ := by
  cases kind with
  | mul signed => exact absurd rfl (h signed)
  | _ => exact ⟨_, rfl⟩

section Lifts

def btSize (insn : Insn) : Size :=
  match insn.op 1 with
  | .register _ => .b1
  | _ => ofBytes (operandSize insn 0)

def RmwKind.flagsAfter (insn : Insn) (s : WalkState V) (v : U64) : RmwKind → Flags
  | .binop op flags =>
    let size := ofBytes (operationSize insn)
    let b := (insn.op 1).value s.guest
    (execAlu op size flags (v &&& mask size) b b s.flags).2
  | .step op =>
    let size := ofBytes (operandSize insn 0)
    (execAlu op size .allButCf (v &&& mask size) 1 1 s.flags).2
  | .neg =>
    let size := ofBytes (operandSize insn 0)
    (execAlu .sub size .all 0 (v &&& mask size) (v &&& mask size) s.flags).2
  | .double left =>
    let size := ofBytes (operandSize insn 0)
    (execAlu (.doubleShift left) size .shift (v &&& mask size) ((insn.op 1).value s.guest)
      ((insn.op 2).value s.guest) s.flags).2
  | .bit _ =>
    let bit := (insn.op 1).value s.guest &&& BitVec.ofNat 64 ((btSize insn).bits - 1)
    { s.flags with cf := ((v &&& mask (btSize insn)) >>> bit.toNat) &&& 1 != 0 }

variable (hscale : insn.mem.scale ∈ [1, 2, 4, 8]) (hcode : insn.codeSize ≠ .code16)
  (hmem : insn.isMemory 0 = true)
include hscale hcode hmem

theorem liftBinop_update (hmem₁ : insn.isMemory 1 = false) (hlock : insn.lock = false)
    {op : AluKind} (hop : ∀ signed, op ≠ .mul signed) (flags : FlagMask) :
    Emit.Ensures (exec sem blockEnd) (liftBinop insn op flags true) t s (fun _ _ _ => True)
      (FaultsWith s fun v => RmwKind.flagsAfter insn s v (.binop op flags)) := by
  refine (opSize_ensures _).seq ?_
  rintro size t' s' ⟨rfl, rfl, rfl⟩
  rw [if_pos hmem]
  refine (effectiveAddress_somewhere hscale hcode).seq ?_
  intro addr t₁ s₁ haddr
  rw [hlock]
  apply Emit.Ensures.imp _ (fun _ _ _ => id) fun _ => FaultsWith.of_frame haddr.frame
  refine emitLoad_ensures.seq ?_
  intro a t₂ s₂ ha
  refine (lowerRead_ensures hmem₁).seq ?_
  intro b t₃ s₃ hb
  refine .bind (.fresh ?_)
  have hframe : TempsFrom t₁ (answered s₁) s₃ := ha.frame.trans hb.frame ha.next
  have hne : addr ≠ .temp t₃ := haddr.below.ne (ha.next.trans hb.next)
  obtain ⟨v, hexec⟩ := exec_alu_single sem blockEnd hop t₃ a b b
    (ofBytes (operationSize insn)) flags s₃
  refine flagged_store_ensures hframe haddr.below hne ha.backed hexec ?_
  intro w hw
  have hbv : (insn.op 1).value s₂.guest = (insn.op 1).value s.guest := by
    rw [ha.frame.value]
    exact haddr.frame.value _
  have hflags : s₃.flags = s.flags := hframe.flags.trans haddr.frame.flags
  rw [hb.frame.readVal ha.below, ha.value w hw, hb.value, hbv, hflags]
  rfl

theorem liftUnaryOp0_update (hlock : insn.lock = false)
    (rmwOp : RmwOp) (rmwSrc : Val) (recompute : Bool) {emit : Temp → Val → Size → IrOp X}
    (hemit : ∀ res a (s₁ : WalkState V), s₁.flags = s.flags →
      ∃ v f, exec sem blockEnd (emit res a (ofBytes (operandSize insn 0))) s₁ =
        .ok ⟨s₁.guest.setTemp res v, f⟩ ∧
        ∀ w, s₁.guest.readVal a = w &&& mask (ofBytes (operandSize insn 0)) → f = after w) :
    Emit.Ensures (exec sem blockEnd) (liftUnaryOp0 insn rmwOp rmwSrc recompute emit) t s
      (fun _ _ _ => True) (FaultsWith s after) := by
  refine (opSize_ensures _).seq ?_
  rintro size t' s' ⟨rfl, rfl, rfl⟩
  rw [if_pos hmem]
  refine (effectiveAddress_somewhere hscale hcode).seq ?_
  intro addr t₁ s₁ haddr
  rw [hlock]
  apply Emit.Ensures.imp _ (fun _ _ _ => id) fun _ => FaultsWith.of_frame haddr.frame
  refine emitLoad_ensures.seq ?_
  intro a t₂ s₂ ha
  refine .bind (.fresh ?_)
  have hflags : s₂.flags = s.flags := ha.frame.flags.trans haddr.frame.flags
  obtain ⟨v, f, hexec, hf⟩ := hemit t₂ a s₂ hflags
  refine flagged_store_ensures ha.frame haddr.below (haddr.below.ne ha.next) ha.backed hexec ?_
  intro w hw
  exact hf w (ha.value w hw)

theorem liftIncdec_update (hlock : insn.lock = false)
    {op : AluKind} (hop : ∀ signed, op ≠ .mul signed) :
    Emit.Ensures (exec sem blockEnd) (liftIncdec insn op) t s (fun _ _ _ => True)
      (FaultsWith s fun v => RmwKind.flagsAfter insn s v (.step op)) := by
  apply liftUnaryOp0_update hscale hcode hmem hlock
  intro res a s₁ hflags
  obtain ⟨v, hexec⟩ := exec_alu_single sem blockEnd hop res a (.imm 1) (.imm 1)
    (ofBytes (operandSize insn 0)) .allButCf s₁
  refine ⟨v, _, hexec, ?_⟩
  intro w hw
  rw [hw, hflags]
  rfl

theorem liftNeg_update (hlock : insn.lock = false) :
    Emit.Ensures (exec sem blockEnd) (liftNeg insn) t s (fun _ _ _ => True)
      (FaultsWith s fun v => RmwKind.flagsAfter insn s v .neg) := by
  apply liftUnaryOp0_update hscale hcode hmem hlock
  intro res a s₁ hflags
  have hsub : ∀ signed, AluKind.sub ≠ .mul signed := nofun
  obtain ⟨v, hexec⟩ := exec_alu_single sem blockEnd hsub res (.imm 0) a a
    (ofBytes (operandSize insn 0)) .all s₁
  refine ⟨v, _, hexec, ?_⟩
  intro w hw
  rw [hw, hflags]
  rfl

theorem liftDoubleShift_update (hmem₁ : insn.isMemory 1 = false) (hmem₂ : insn.isMemory 2 = false)
    (left : Bool) : Emit.Ensures (exec sem blockEnd) (liftDoubleShift insn left) t s
      (fun _ _ _ => True) (FaultsWith s fun v => RmwKind.flagsAfter insn s v (.double left)) := by
  refine (opSize_ensures _).seq ?_
  rintro size t' s' ⟨rfl, rfl, rfl⟩
  -- the other operands are read before the address
  refine (lowerRead_ensures hmem₁).seq ?_
  intro b t₁ s₁ hb
  refine (lowerRead_ensures hmem₂).seq ?_
  intro count t₂ s₂ hcount
  refine .bind (.fresh ?_)
  rw [if_pos hmem]
  refine (ensures_with_from (effectiveAddress_somewhere hscale hcode)
    (effectiveAddress_from hcode)).seq ?_
  rintro addr t₃ s₃ ⟨haddr, hfrom⟩
  have hframe₂ : TempsFrom t s s₂ := hb.frame.trans hcount.frame hb.next
  have hnext₂ : t ≤ t₂ := hb.next.trans hcount.next
  have hnext₃ : t₂ ≤ t₃ := (Nat.le_succ t₂).trans haddr.next
  have hframe₃ : TempsFrom t s s₃ := hframe₂.trans haddr.frame (hnext₂.trans (Nat.le_succ t₂))
  apply Emit.Ensures.imp _ (fun _ _ _ => id) fun _ => FaultsWith.of_frame hframe₃
  refine emitLoad_ensures.seq ?_
  intro a t₄ s₄ ha
  have hdouble : ∀ signed, AluKind.doubleShift left ≠ .mul signed := nofun
  obtain ⟨v, hexec⟩ := exec_alu_single sem blockEnd hdouble t₂ a b count
    (ofBytes (operandSize insn 0)) .shift s₄
  have hne : addr ≠ .temp t₂ := by
    rintro rfl
    exact absurd hfrom (Nat.not_succ_le_self t₂)
  refine flagged_store_ensures ha.frame haddr.below hne ha.backed hexec ?_
  intro w hw
  -- what was read before the load is still there
  have hbv : s₄.guest.readVal b = (insn.op 1).value s.guest := by
    rw [ha.frame.readVal (hb.below.mono (hcount.next.trans hnext₃))]
    change s₃.guest.readVal b = _
    rw [haddr.frame.readVal (hb.below.mono (hcount.next.trans (Nat.le_succ t₂))),
      hcount.frame.readVal hb.below, hb.value]
  have hcountv : s₄.guest.readVal count = (insn.op 2).value s.guest := by
    rw [ha.frame.readVal (hcount.below.mono hnext₃)]
    change s₃.guest.readVal count = _
    rw [haddr.frame.readVal (hcount.below.mono (Nat.le_succ t₂)), hcount.value, hb.frame.value]
  have hflags : s₄.flags = s.flags := ha.frame.flags.trans hframe₃.flags
  rw [ha.value w hw, hbv, hcountv, hflags]
  rfl

omit hmem in
theorem btAccess_somewhere {bit : Val} :
    Emit.Ensures (exec sem blockEnd) (btAccess insn bit (ofBytes (operandSize insn 0))) t s
      (fun p t' s' => Somewhere t s p.1 t' s' ∧ p.2 = btSize insn) Q := by
  unfold btAccess btSize
  refine (effectiveAddress_somewhere hscale hcode).seq ?_
  intro addr t₁ s₁ haddr
  cases insn.op 1 with
  | register r =>
    refine (opSize_ensures _).seq ?_
    rintro idxSize t' s' ⟨rfl, rfl, rfl⟩
    refine (btStringAddr_ensures haddr.below _).seq ?_
    intro ea t₂ s₂ hea
    exact .pure ⟨(haddr.then hea).somewhere, rfl⟩
  | _ => exact .pure ⟨haddr, rfl⟩

theorem liftBt_update (hmem₁ : insn.isMemory 1 = false) (hlock : insn.lock = false) {op : BtOp}
    (hop : op ≠ .test) : Emit.Ensures (exec sem blockEnd) (liftBt insn op) t s
      (fun _ _ _ => True) (FaultsWith s fun v => RmwKind.flagsAfter insn s v (.bit op)) := by
  refine (opSize_ensures _).seq ?_
  rintro size t' s' ⟨rfl, rfl, rfl⟩
  refine (lowerRead_ensures hmem₁).seq ?_
  intro bit t₁ s₁ hbit
  rw [if_pos hmem]
  refine (btAccess_somewhere hscale hcode).seq ?_
  rintro ⟨ea, esize⟩ t₂ s₂ ⟨hea, rfl⟩
  have hframe₂ : TempsFrom t s s₂ := hbit.frame.trans hea.frame hbit.next
  apply Emit.Ensures.imp _ (fun _ _ _ => id) fun _ => FaultsWith.of_frame hframe₂
  unfold emitMemBt
  rw [hlock]
  refine emitLoad_ensures.seq ?_
  intro a t₃ s₃ ha
  refine .bind (.fresh ?_)
  rw [if_neg hop]
  have hexec : exec sem blockEnd (.set (.bt t₃ a bit (btSize insn) op)) s₃ =
      .ok ⟨s₃.guest.setTemp t₃ _, s₃.flags.write
        (execBt s₃.guest t₃ a bit (btSize insn) op).2⟩ := rfl
  refine flagged_store_ensures ha.frame hea.below (hea.below.ne ha.next) ha.backed hexec ?_
  intro w hw
  have hbitv : s₃.guest.readVal bit = (insn.op 1).value s.guest := by
    rw [ha.frame.readVal (hbit.below.mono hea.next)]
    change s₂.guest.readVal bit = _
    rw [hea.frame.readVal hbit.below, hbit.value]
  have hflags : s₃.flags = s.flags := ha.frame.flags.trans hframe₂.flags
  unfold execBt
  rw [ha.value w hw, hbitv, hflags]
  rfl

end Lifts

section Kept
variable {Y : Type}

theorem notReal (hcode : insn.codeSize ≠ .code16) : insn.codeSize = .code16 → false = true :=
  fun h => absurd h hcode

variable (hcode : insn.codeSize ≠ .code16) (hmem : insn.isMemory 0 = true)
  (hlock : insn.lock = false)
include hcode hmem hlock

theorem liftBinop_kept (op : AluKind) {flags : FlagMask}
    (hflags : flags.bits &&& 0b111111 = flags.bits) :
    Kept (liftBinop insn op flags true : LiftM (OtherOp Y) Unit) := by
  refine (opSize_early _).thenKept fun size => ?_
  rw [if_pos hmem]
  refine (effectiveAddress_early (notReal hcode)).thenKept fun addr => ?_
  rw [hlock]
  refine (emitLoad_early addr size).thenKept fun a => ?_
  refine (lowerRead_early (notReal hcode) 1).thenKept fun b => ?_
  refine Emits.fresh.thenKept fun res => ?_
  apply kept_flagged_store
  intro o ho
  cases ho
  exact hflags

theorem liftUnaryOp0_kept (rmwOp : RmwOp) (rmwSrc : Val) (recompute : Bool)
    {emit : Temp → Val → Size → IrOp (OtherOp Y)}
    (hemit : ∀ res a size o, emit res a size = .alu o →
      o.setFlags.bits &&& 0b111111 = o.setFlags.bits) :
    Kept (liftUnaryOp0 insn rmwOp rmwSrc recompute emit) := by
  refine (opSize_early _).thenKept fun size => ?_
  rw [if_pos hmem]
  refine (effectiveAddress_early (notReal hcode)).thenKept fun addr => ?_
  rw [hlock]
  refine (emitLoad_early addr size).thenKept fun a => Emits.fresh.thenKept fun res => ?_
  exact kept_flagged_store (hemit res a size) _ _ _

theorem liftIncdec_kept (op : AluKind) : Kept (liftIncdec insn op : LiftM (OtherOp Y) Unit) := by
  apply liftUnaryOp0_kept hcode hmem hlock
  intro res a size o ho
  cases ho
  exact (by decide : FlagMask.allButCf.bits &&& 0b111111 = FlagMask.allButCf.bits)

theorem liftNeg_kept : Kept (liftNeg insn : LiftM (OtherOp Y) Unit) := by
  apply liftUnaryOp0_kept hcode hmem hlock
  intro res a size o ho
  cases ho
  exact (by decide : FlagMask.all.bits &&& 0b111111 = FlagMask.all.bits)

omit hlock in
theorem liftDoubleShift_kept
    (left : Bool) : Kept (liftDoubleShift insn left : LiftM (OtherOp Y) Unit) := by
  refine (opSize_early _).thenKept fun size => ?_
  refine (lowerRead_early (notReal hcode) 1).thenKept fun b => ?_
  refine (lowerRead_early (notReal hcode) 2).thenKept fun count => ?_
  refine Emits.fresh.thenKept fun res => ?_
  rw [if_pos hmem]
  refine (effectiveAddress_early (notReal hcode)).thenKept fun addr => ?_
  refine (emitLoad_early addr size).thenKept fun a => ?_
  apply kept_flagged_store
  intro o ho
  cases ho
  exact (by decide : FlagMask.shift.bits &&& 0b111111 = FlagMask.shift.bits)

theorem liftBt_kept {op : BtOp} (hop : op ≠ .test) :
    Kept (liftBt insn op : LiftM (OtherOp Y) Unit) := by
  refine (opSize_early _).thenKept fun size => ?_
  refine (lowerRead_early (notReal hcode) 1).thenKept fun bit => ?_
  rw [if_pos hmem]
  refine (btAccess_early (notReal hcode) bit size).thenKept ?_
  rintro ⟨ea, esize⟩
  unfold emitMemBt
  rw [hlock]
  refine (emitLoad_early ea esize).thenKept fun a => Emits.fresh.thenKept fun result => ?_
  rw [if_neg hop]
  apply kept_flagged_store
  intro o ho
  cases ho

end Kept

variable {Y : Type}

/-- The flag pass keeps the code of an update, and a fault shows the flags of the answered value. -/
structure IsUpdate (insn : Insn) (kind : RmwKind) (m : LiftM (OtherOp Y) Bool) : Prop where
  kept : Kept m
  faults : ∀ {V : Type} (sem : OtherOps (OtherOp Y) V) (blockEnd : U64) (t : Temp)
    (s : WalkState V), Emit.Ensures (exec sem blockEnd) m t s (fun _ _ _ => True)
      (FaultsWith s fun v => kind.flagsAfter insn s v)

variable {kind : RmwKind}

theorem isUpdate_straight {m : LiftM (OtherOp Y) Unit} (hkept : Kept m)
    (hfaults : ∀ {V : Type} (sem : OtherOps (OtherOp Y) V) (blockEnd : U64) (t : Temp)
      (s : WalkState V), Emit.Ensures (exec sem blockEnd) m t s (fun _ _ _ => True)
        (FaultsWith s fun v => kind.flagsAfter insn s v)) : IsUpdate insn kind (straight m) := by
  refine ⟨hkept.straight, ?_⟩
  intro V sem blockEnd t s
  refine (hfaults sem blockEnd t s).seq ?_
  intro _ t' s' _
  exact .pure trivial

theorem updatesMemory_cases (h : insn.updatesMemory = some kind) :
    insn.isMemory 0 = true ∧ insn.mnemonic.rmwKind = some kind ∧ kind.plain insn.lock = true := by
  unfold Insn.updatesMemory at h
  split at h
  · rename_i hmem
    obtain ⟨hkind, hplain⟩ := Option.filter_eq_some_iff.mp h
    exact ⟨hmem, hkind, hplain⟩
  · cases h

theorem liftCommon_update (hcode : insn.codeSize ≠ .code16) (henc : insn.Encoded)
    (h : insn.updatesMemory = some kind)
    (foreign : Insn → CpuMode → LiftM (OtherOp Y) Bool) (mode : CpuMode) :
    IsUpdate insn kind (liftCommon foreign insn mode) := by
  obtain ⟨hmem, hkind, hplain⟩ := updatesMemory_cases h
  have hscale := henc.scale
  have hother (i : ℕ) (hi : i ≠ 0) : insn.isMemory i = false := by
    rw [← Bool.not_eq_true]
    intro hmem'
    exact hi (henc.oneMemory i 0 hmem' hmem)
  have hmem₁ := hother 1 (by decide)
  have hmem₂ := hother 2 (by decide)
  have hbinop (op : AluKind) (flags : FlagMask) (hop : ∀ signed, op ≠ .mul signed)
      (hflags : flags.bits &&& 0b111111 = flags.bits) (hlock : insn.lock = false) :
      IsUpdate insn (.binop op flags) (straight (liftBinop (X := OtherOp Y) insn op flags true)) :=
    isUpdate_straight (liftBinop_kept hcode hmem hlock op hflags) fun _ _ _ _ =>
      liftBinop_update hscale hcode hmem hmem₁ hlock hop flags
  have hstep (op : AluKind) (hop : ∀ signed, op ≠ .mul signed) (hlock : insn.lock = false) :
      IsUpdate insn (.step op) (straight (liftIncdec (X := OtherOp Y) insn op)) :=
    isUpdate_straight (liftIncdec_kept hcode hmem hlock op) fun _ _ _ _ =>
      liftIncdec_update hscale hcode hmem hlock hop
  have hdouble (left : Bool) :
      IsUpdate insn (.double left) (straight (liftDoubleShift (X := OtherOp Y) insn left)) :=
    isUpdate_straight (liftDoubleShift_kept hcode hmem left) fun _ _ _ _ =>
      liftDoubleShift_update hscale hcode hmem hmem₁ hmem₂ left
  have hbit (op : BtOp) (hop : op ≠ .test) (hlock : insn.lock = false) :
      IsUpdate insn (.bit op) (straight (liftBt (X := OtherOp Y) insn op)) :=
    isUpdate_straight (liftBt_kept hcode hmem hlock hop) fun _ _ _ _ =>
      liftBt_update hscale hcode hmem hmem₁ hlock hop
  unfold liftCommon
  cases hm : insn.mnemonic with
  | add | adc | sub | sbb | and | or | xor | shl | sal | shr | sar | rol | ror | rcl | rcr =>
    rw [hm] at hkind
    cases hkind
    exact hbinop _ _ nofun (by decide) (by simpa [RmwKind.plain] using hplain)
  | inc | dec =>
    rw [hm] at hkind
    cases hkind
    exact hstep _ nofun (by simpa [RmwKind.plain] using hplain)
  | neg =>
    rw [hm] at hkind
    cases hkind
    have hlock : insn.lock = false := by simpa [RmwKind.plain] using hplain
    exact isUpdate_straight (liftNeg_kept hcode hmem hlock) fun _ _ _ _ =>
      liftNeg_update hscale hcode hmem hlock
  | shld | shrd =>
    rw [hm] at hkind
    cases hkind
    exact hdouble _
  | bts | btr | btc =>
    rw [hm] at hkind
    cases hkind
    exact hbit _ nofun (by simpa [RmwKind.plain] using hplain)
  | _ =>
    rw [hm] at hkind
    cases hkind

end X86Jit.Lift
