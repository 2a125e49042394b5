import X86Jit.Jit.AluCommon

/-! Addition, subtraction and the logic ops: both back ends compute the same value and
candidates, the carry and the adjust flag by different formulas. -/
namespace X86Jit.Jit
open X86Jit.Clif X86Jit.Lib BitVec Size

section AddSub
variable (a b c : U64) (size : Size)

theorem addSubValue_add_res :
    (addSubValue (a &&& mask size) (b &&& mask size) c size false).1 = (aluAdd a b c size).res := by
  have ha := toNat_and_mask_lt a size
  have hb := toNat_and_mask_lt b size
  apply eq_of_toNat_eq
  rw [aluAdd_res_toNat a b c size]
  generalize a &&& mask size = am at ha ⊢
  generalize b &&& mask size = bm at hb ⊢
  cases size <;>
    simp only [addSubValue, bits, bytes, emitMask_eq, toNat_and_mask, toNat_add,
      Nat.reduceLeDiff, if_true, if_false, Bool.false_eq_true] at * <;> omega

theorem addSubValue_add_cf (hc : c.toNat ≤ 1) :
    (addSubValue (a &&& mask size) (b &&& mask size) c size false).2 =
      flagByte (aluAdd a b c size).cf := by
  have ha := toNat_and_mask_lt a size
  have hb := toNat_and_mask_lt b size
  rw [aluAdd_cf a b c size hc]
  generalize a &&& mask size = am at ha ⊢
  generalize b &&& mask size = bm at hb ⊢
  by_cases h8 : 8 ≤ size.bytes
  · -- the carry of the full-width sum shows in one of the two comparisons
    simp only [addSubValue, Bool.false_eq_true, if_false, if_pos h8, icmpUlt, flagByte_or,
      flagByte_inj, ult_eq_decide, toNat_add, ← Bool.decide_or, decide_eq_decide]
    cases size <;> simp only [bits, bytes] at * <;> omega
  · simp only [addSubValue, Bool.false_eq_true, if_false, if_neg h8, ireduce_bit, flagByte_inj,
      getLsbD, Nat.testBit_eq_decide_div_mod_eq, toNat_add, decide_eq_decide]
    cases size <;> simp only [bits, bytes] at * <;> omega

theorem addSubValue_sub_res (hc : c.toNat ≤ 1) :
    (addSubValue (a &&& mask size) (b &&& mask size) c size true).1 = (aluSub a b c size).res := by
  apply eq_of_toNat_eq
  rw [aluSub_res_toNat a b c size hc]
  simp only [addSubValue, if_true, emitMask_eq, toNat_and_mask _ size, toNat_sub]
  cases size <;> simp only [bits, bytes] at * <;> omega

theorem addSubValue_sub_cf (hc : c.toNat ≤ 1) :
    (addSubValue (a &&& mask size) (b &&& mask size) c size true).2 =
      flagByte (aluSub a b c size).cf := by
  simp only [addSubValue, aluSub, if_true, icmpUlt, flagByte_or, flagByte_inj,
    ult_eq_decide, toNat_sub, toNat_add, toNat_setWidth,
    ← Bool.decide_or, decide_eq_decide]
  omega

theorem afSrc_test (x y z : U64) : (afSrc x y z &&& 0x10 != 0) =
      decide ((x.toNat / 16 + y.toNat / 16 + z.toNat / 16) % 2 = 1) := by
  have h : (afSrc x y z &&& 0x10 != 0) = (x ^^^ y ^^^ z).getLsbD 4 := by
    have h := and_one_shiftLeft_bne_zero (afSrc x y z) 4 (by decide)
    have h16 : (1#8 <<< 4) = (0x10 : U8) := by decide
    rw [h16] at h
    rw [h, afSrc, ireduce]
    simp
  rw [h, getLsbD_xor, getLsbD_xor]
  simp only [getLsbD, Nat.testBit_eq_decide_div_mod_eq]
  exact xor_decide_odd _ _ _

theorem aluAdd_af :
    (afSrc (a &&& mask size) (b &&& mask size) (aluAdd a b c size).res &&& 0x10 != 0) =
      (aluAdd a b c size).af := by
  have h16 : (0x10 : U64) = 1#64 <<< 4 := by decide
  rw [afSrc_test, aluAdd_res_toNat]
  simp only [aluAdd]
  rw [h16, and_sixteen_test _ (by decide)]
  simp only [toNat_add, toNat_and_nibble, decide_eq_decide]
  -- the carry out of bit 3 is what bit 4 of the sum adds to the operands' bit 4
  cases size <;> simp only [bits, bytes] at * <;> omega

theorem aluSub_af (hc : c.toNat ≤ 1) :
    (afSrc (a &&& mask size) (b &&& mask size) (aluSub a b c size).res &&& 0x10 != 0) =
      (aluSub a b c size).af := by
  rw [afSrc_test, aluSub_res_toNat a b c size hc]
  simp only [aluSub, ult_eq_decide, toNat_add, toNat_and_nibble, decide_eq_decide]
  cases size <;> simp only [bits, bytes] at * <;> omega

end AddSub

section Agreement
variable {f : Flags} {fb : FlagBytes} (h : fb.Represents f)
variable (a b c : U64) (size : Size) (m : FlagMask)
include h

theorem add_agree (hc : c.toNat ≤ 1) :
    Agree ((aluAdd a b c size).res, apply f m (aluAdd a b c size))
      (addSub fb a b c size m false) := by
  have hres := addSubValue_add_res a b c size
  have hcf := addSubValue_add_cf a b c size hc
  simp only [addSub, emitMask_eq]
  refine ⟨hres, (FlagBytes.represents_storeFlags_iff h _ _ _).mpr ?_⟩
  intro x _
  cases x
  case cf => exact hcf
  case af =>
    simp only [hres]
    exact aluAdd_af a b c size
  all_goals
    simp only [hres, emitMsb_eq, icmpEq, pfSrc]
    rfl

theorem sub_agree (hc : c.toNat ≤ 1) :
    Agree ((aluSub a b c size).res, apply f m (aluSub a b c size))
      (addSub fb a b c size m true) := by
  have hres := addSubValue_sub_res a b c size hc
  have hcf := addSubValue_sub_cf a b c size hc
  simp only [addSub, emitMask_eq]
  refine ⟨hres, (FlagBytes.represents_storeFlags_iff h _ _ _).mpr ?_⟩
  intro x _
  cases x
  case cf => exact hcf
  case af =>
    simp only [hres]
    exact aluSub_af a b c size hc
  all_goals
    simp only [hres, emitMsb_eq, icmpEq, pfSrc]
    rfl

theorem logic_agree (r : U64) :
    Agree ((aluLogic r size).res, apply f m (aluLogic r size)) (logic fb r size m) := by
  simp only [logic, emitMask_eq]
  refine ⟨rfl, (FlagBytes.represents_storeFlags_iff h _ _ _).mpr ?_⟩
  intro x _
  cases x
  case af => exact zero_af_test
  all_goals
    simp only [emitMsb_eq, icmpEq, pfSrc]
    rfl

end Agreement

end X86Jit.Jit
