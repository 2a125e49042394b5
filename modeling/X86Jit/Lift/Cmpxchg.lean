import X86Jit.Interp.Atomics
import X86Jit.Lift.Update

/-! What the code lifted for `cmpxchg` on memory does. It has no branch. -/
namespace X86Jit.Lift
open X86Jit.Lib Function Memory

variable {X V : Type} {s : WalkState V} {insn : Insn} {size : Size}

/-- The accumulator was compared with `old`, which stood at `addr`: if they are equal, `src` is
stored and no register changes, else the accumulator takes `old` as a register of that size does. -/
structure Exchanged (s s' : WalkState V) (addr src old : U64) (size : Size) : Prop where
  bytes : s'.guest.mem.bytes = if old = s.guest.gpr rax &&& mask size then
    (s.guest.mem.setBytes addr.toNat (leBytes src size.bytes)).bytes else s.guest.mem.bytes
  gpr : s'.guest.gpr = if old = s.guest.gpr rax &&& mask size then s.guest.gpr
    else update s.guest.gpr rax (writeGpr (s.guest.gpr rax) old size)
  zf : s'.flags.zf = decide (old = s.guest.gpr rax &&& mask size)
  flags : ∀ x, s'.flags.get x = (exactSub size (s.guest.gpr rax) old 0).flag size x

theorem writeGpr_own (v : U64) (size : Size) :
    writeGpr v (v &&& mask size) size = v ↔ size ≠ .b4 ∨ v.toNat < 2 ^ 32 := by
  have hmerge (m : U64) : (v &&& ~~~m) ||| ((v &&& m) &&& m) = v := by
    rw [BitVec.and_assoc, BitVec.and_self]
    apply BitVec.eq_of_getLsbD_eq
    intro i hi
    simp only [BitVec.getLsbD_or, BitVec.getLsbD_and, BitVec.getLsbD_not, hi, decide_true,
      Bool.true_and]
    cases v.getLsbD i <;> cases m.getLsbD i <;> rfl
  cases size with
  | b8 => exact iff_of_true (and_mask_b8 v) (.inl (by decide))
  | b4 =>
    change (v &&& 0xffffffff) &&& 0xffffffff = v ↔ _
    rw [BitVec.and_assoc, BitVec.and_self, ← BitVec.toNat_inj, BitVec.toNat_and]
    refine Iff.trans ?_ (or_iff_right (not_not.mpr rfl)).symm
    change v.toNat &&& 2 ^ 32 - 1 = v.toNat ↔ _
    rw [Nat.and_two_pow_sub_one_eq_mod]
    omega
  | b1 | b2 => exact iff_of_true (hmerge _) (.inl (by decide))

def operandAddr (s : WalkState V) (insn : Insn) (addrSize : Size) : U64 :=
  BitVec.ofNat 64 (insn.mem.offset s.guest addrSize) + BitVec.ofNat 64 (addedBase s.guest insn)

theorem exec_atomicCas {addr exp src : Val} {a v old : U64} {r : Region} (sem : OtherOps X V)
    (blockEnd : U64) (t : Temp) (haddr : s.guest.readVal addr = a) (hsrc : s.guest.readVal src = v)
    (hr : s.guest.mem.regionFor a.toNat size.bytes = some r) (hram : r.kind = .ram)
    (hold : s.guest.mem.loadLe a.toNat size.bytes = old) : ∃ g : Guest V,
      exec sem blockEnd (.plain (.atomicCas t addr exp src size)) s =
        .ok ⟨g.setTemp t old, s.flags⟩ ∧ g.gpr = s.guest.gpr ∧ g.temps = s.guest.temps ∧
      g.mem.bytes = if old = s.guest.readVal exp &&& mask size then
        (s.guest.mem.setBytes a.toNat (leBytes v size.bytes)).bytes
        else s.guest.mem.bytes := by
  have hmask := loadLe_and_mask s.guest.mem a.toNat size
  rw [hold] at hmask
  let stored := if old = s.guest.readVal exp &&& mask size then
    s.guest.mem.setBytes a.toNat (leBytes v size.bytes) else s.guest.mem
  refine ⟨{ s.guest with mem := stored.noteWrite a.toNat size.bytes }, ?_, rfl, rfl,
    (noteWrite_sameTags _ _ _).bytes.trans (apply_ite bytes _ _ _)⟩
  simp only [exec, PlainOp.exec, execAtomicCas, haddr, hsrc, atomicCas, atomic, hr,
    hram, hold, hmask, stored]
  by_cases hsame : old = s.guest.readVal exp &&& mask size
  · simp only [if_pos hsame]
    rfl
  · simp only [if_neg hsame]
    rfl

theorem exactSub_zf (a old : U64) (hold : old &&& mask size = old) :
    (exactSub size a old 0).flag size .zf = decide (old = a &&& mask size) := by
  have ha := toNat_and_mask_lt a size
  have hb := toNat_and_mask_lt old size
  rw [Exact.flag, decide_eq_decide, Exact.res, exactSub, unsigned_eq, unsigned_eq, hold,
    ← BitVec.toNat_inj]
  rw [hold] at hb
  cases size <;> simp only [Size.bits, Size.bytes] at * <;> omega

section
variable {mode : CpuMode} {addrSize : Size} (hmem : insn.isMemory 0 = true)
  (hsize : operandSize insn 0 = size.bytes) (h : insn.mem.Faithful mode addrSize)
  (hsrc : (∃ i, insn.op 1 = .register (.gpr i size)) ∨
    size = .b1 ∧ ∃ i, insn.op 1 = .register (.highByte i))
include hmem hsize h hsrc

theorem liftCmpxchg_total : (liftCmpxchg insn : LiftM X Unit).Total := by
  have hread : (lowerRead insn 1 : LiftM X Val).Total := by
    unfold lowerRead
    rcases hsrc with ⟨i, hop⟩ | ⟨-, i, hop⟩
    · rw [hop]
      exact .bind .pure fun _ => readReg_total _
    · rw [hop]
      exact .bind (readReg_total _) fun _ => .bind aluNone_total fun _ => aluNone_total
  unfold liftCmpxchg
  rw [if_pos hmem, hsize, opSize_bytes]
  exact .bind .pure fun _ => .bind (effectiveAddress_total h) fun _ => .bind hread fun _ =>
    .bind (readReg_total _) fun _ => .bind aluNone_total fun _ => .bind .fresh fun _ =>
    .bind .push fun _ => .bind .fresh fun _ => .bind .push fun _ => .push

variable {r : Region} (sem : OtherOps X V) (blockEnd : U64) (t : Temp)
  (hlimit : insn.codeSize = .code16 →
    ¬PastLimit insn (BitVec.ofNat 64 (insn.mem.offset s.guest addrSize)))
  (hr : s.guest.mem.regionFor (operandAddr s insn addrSize).toNat size.bytes = some r)
  (hram : r.kind = .ram)
include hlimit hr hram

/-- RAX is written on both outcomes. -/
theorem liftCmpxchg_ensures {a old : U64} (ha : operandAddr s insn addrSize = a)
    (hold : s.guest.mem.loadLe a.toNat size.bytes = old) :
    Emit.Ensures (exec sem blockEnd) (liftCmpxchg insn) t s (fun _ _ s' =>
      s'.guest.mem.bytes = (if old = s.guest.gpr rax &&& mask size then
        (s.guest.mem.setBytes a.toNat (leBytes ((insn.op 1).value s.guest) size.bytes)).bytes
        else s.guest.mem.bytes) ∧
      s'.guest.gpr = update s.guest.gpr rax (writeGpr (s.guest.gpr rax) old size) ∧
      ∀ x, s'.flags.get x = (exactSub size (s.guest.gpr rax) old 0).flag size x)
      fun _ => False := by
  have hreg : insn.isMemory 1 = false := by
    unfold Insn.isMemory
    rcases hsrc with ⟨i, hop⟩ | ⟨-, i, hop⟩ <;> rw [hop] <;> rfl
  rw [ha] at hr
  unfold liftCmpxchg
  rw [if_pos hmem, hsize, opSize_bytes]
  refine .bind (.pure ?_)
  refine (effectiveAddress_ensures h fun _ h16 => hlimit h16).seq ?_
  intro addr t₁ s₁ haddr
  refine (lowerRead_ensures hreg).seq ?_
  intro src t₂ s₂ hsrc
  refine (readReg_ensures .rax).seq ?_
  intro acc t₃ s₃ hacc
  refine (aluNone_ensures (execAlu_and_b8 _ _ _ _)).seq ?_
  intro exp t₄ s₄ hexp
  -- up to here only temps were written
  have hsecond := haddr.then hsrc
  have hframe := ((hsecond.then hacc).then hexp).frame
  have hmem₄ : s₄.guest.mem = s.guest.mem := by rw [hframe.rest]
  have haddr' : s₄.guest.readVal addr = a :=
    (((hsrc.frame.trans hacc.frame hsrc.next).trans hexp.frame (hsrc.next.trans hacc.next)).readVal
      haddr.below).trans (haddr.value.trans ha)
  have hsrc' : s₄.guest.readVal src = (insn.op 1).value s.guest := by
    rw [(hacc.frame.trans hexp.frame hacc.next).readVal hsrc.below, hsrc.value, haddr.frame.value]
  have hexp' : s₄.guest.readVal exp = s.guest.gpr rax &&& mask size := by
    rw [hexp.value, hacc.value, hsecond.frame.rest]
    rfl
  rw [← hmem₄] at hr hold
  obtain ⟨g, hcas, hgpr, htemps, hbytes⟩ :=
    exec_atomicCas sem blockEnd t₄ haddr' hsrc' hr hram hold
  rw [hexp', BitVec.and_assoc, BitVec.and_self, hmem₄] at hbytes
  have hexp₅ : (g.setTemp t₄ old).readVal exp = s.guest.gpr rax &&& mask size := by
    rw [((TempsFrom.refl t₄ ⟨g, s₄.flags⟩).setTemp le_rfl old).readVal hexp.below, ← hexp']
    cases exp with
    | temp u => exact congrFun htemps u
    | imm v => rfl
  have hold₅ : (g.setTemp t₄ old).readVal (.temp t₄) = old := update_self t₄ _ g.temps
  have hregs (v : U64) : update g.gpr rax (writeGpr (g.gpr rax)
      (((g.setTemp t₄ old).setTemp (t₄ + 1) v).readVal (.temp t₄)) size) =
      update s.guest.gpr rax (writeGpr (s.guest.gpr rax) old size) := by
    rw [hgpr, show s₄.guest.gpr = s.guest.gpr by rw [hframe.rest]]
    exact congrArg (fun v => update s.guest.gpr rax (writeGpr (s.guest.gpr rax) v size))
      ((update_of_ne (Nat.lt_succ_self t₄).ne _ _).trans hold₅)
  refine .bind (.fresh (.bind (.push_ok hcas ?_)))
  refine .bind (.fresh (.bind (.push_ok rfl ?_)))
  refine .push_ok rfl ⟨hbytes, hregs _, ?_⟩
  intro x
  have hcut : exactSub size (s.guest.gpr rax &&& mask size) old 0 =
      exactSub size (s.guest.gpr rax) old 0 := by
    simp only [exactSub, Size.unsigned, Size.signed, setWidth_and_mask]
  rw [← hcut]
  refine Eq.trans ?_ ((aluSub_gives size (s.guest.gpr rax &&& mask size) old
    (show (0 : U64).toNat ≤ 1 from Nat.zero_le 1)).flag x)
  refine (get_apply _ _ _ _).trans ?_
  rw [FlagMask.has_all, if_pos rfl]
  exact congrArg₂ (fun a b => (aluSub a b 0 size).get x) hexp₅ hold₅

end

/-- `cmpxchg [rbx], ecx`. -/
def exchangeEcx : Insn :=
  { ip := 0x1000, len := 3, codeSize := .code64, mnemonic := .cmpxchg
    operands := [.memory, .register (.gpr rcx .b4)]
    mem := { base := .gpr rbx .b8, size := 4 } }

/-- The operand is zero and ECX is 7. -/
def exchangeState (acc : U64) : WalkState Unit :=
  let s := WalkState.zero () (.small [⟨0x2000, 8, .ram⟩] (by decide) fun _ => 0)
  { s with guest := ((s.guest.setGpr rbx 0x2000).setGpr rcx 7).setGpr rax acc }

theorem exchangeEcx_faithful : exchangeEcx.mem.Faithful .long64 .b8 :=
  { width := .inl ⟨rfl, .inr rfl⟩
    base := .inr (.inl ⟨rbx, rfl⟩)
    index := .inl rfl
    scale := List.mem_cons_self
    absolute := fun hbase => by cases hbase }

end X86Jit.Lift
