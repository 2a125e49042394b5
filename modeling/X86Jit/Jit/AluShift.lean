import X86Jit.Jit.AluCommon

/-! Shifts. The emitted code shifts by amounts taken modulo 64 where the interpreter
guards the count. -/
namespace X86Jit.Jit
open X86Jit.Clif X86Jit.Lib BitVec Nat

theorem bit_eq (v amount : U64) : bit v amount = flagByte (v.getLsbD (amount.toNat % 64)) :=
  ireduce_bit v _

theorem shiftFlagBytes_shows (res : U64) (size : Size) (cf of : Bool) (x : Flag) :
    (shiftFlagBytes res size (flagByte cf) (flagByte of)).Shows x
      ((shiftResult res size cf of).get x) := by
  cases x
  case af => exact zero_af_test
  all_goals
    simp only [shiftFlagBytes, emitMsb_eq, icmpEq, pfSrc]
    rfl

section Shifts
variable {f : Flags} {fb : FlagBytes} (h : fb.Represents f)
variable (a b count : U64) (size : Size) (m : FlagMask)

theorem pred_toNat {cnt : U64} (h0 : cnt ≠ 0) : (cnt + -1).toNat = cnt.toNat - 1 := by
  have hn : cnt.toNat ≠ 0 := fun hn => h0 (eq_of_toNat_eq hn)
  have h1 : (-1 : U64).toNat = 2 ^ 64 - 1 := by decide
  rw [toNat_add]
  omega

include h

theorem shl_agree : Agree (execShl f a count size m) (emitShift fb .shl a count size m) := by
  have hlt := toNat_and_shiftMask_lt count size
  have hb := Size.bits_pos size
  simp only [execShl, emitShift, emitMask_eq, emitShiftCount_eq, shiftValue, ishl]
  generalize count &&& shiftMask size = cnt at hlt ⊢
  generalize a &&& mask size = vm
  rw [mod_eq_of_lt hlt]
  refine (commit_agree_iff h m).mpr ?_
  intro h0 x _
  have hn : cnt.toNat ≠ 0 := fun hn => h0 (eq_of_toNat_eq hn)
  -- the bit shifted out last; past the operand width it is zero on both sides
  have hcf : select (icmpUle cnt (BitVec.ofNat 64 size.bits))
      (bit vm (irsub cnt (BitVec.ofNat 64 size.bits))) 0 =
      flagByte (decide (cnt.toNat ≤ size.bits) && (vm >>> (size.bits - cnt.toNat)) &&& 1 != 0) := by
    rw [shiftRight_and_one_bne_zero, icmpUle, select_flagByte, bit_eq, ule_eq_decide]
    have hsz : (BitVec.ofNat 64 size.bits).toNat = size.bits := by
      rw [toNat_ofNat]
      omega
    rw [hsz]
    by_cases hle : cnt.toNat ≤ size.bits
    · have hsub : (irsub cnt (BitVec.ofNat 64 size.bits)).toNat % 64 = size.bits - cnt.toNat := by
        rw [irsub, toNat_sub]
        omega
      simp only [hle, decide_true, if_true, hsub, Bool.true_and]
    · simp [hle]
  simp only [shiftCfOf, hcf, emitMsb_eq, flagByte_xor]
  exact shiftFlagBytes_shows _ _ _ _ _

theorem shr_agree : Agree (execShr f a count size m) (emitShift fb .shr a count size m) := by
  have hlt := toNat_and_shiftMask_lt count size
  simp only [execShr, emitShift, emitMask_eq, emitShiftCount_eq, shiftValue, ushr]
  generalize count &&& shiftMask size = cnt at hlt ⊢
  rw [mod_eq_of_lt hlt]
  refine (commit_agree_iff h m).mpr ?_
  intro h0 x _
  simp only [shiftCfOf, bit_eq, pred_toNat h0, mod_eq_of_lt (by omega : cnt.toNat - 1 < 64),
    emitMsb_eq, shiftRight_and_one_bne_zero]
  exact shiftFlagBytes_shows _ _ _ _ _

theorem sar_agree : Agree (execSar f a count size m) (emitShift fb .sar a count size m) := by
  have hlt := toNat_and_shiftMask_lt count size
  simp only [execSar, emitShift, emitMask_eq, emitShiftCount_eq, shiftValue, sshr,
    emitSignExtend_eq]
  generalize count &&& shiftMask size = cnt at hlt ⊢
  rw [mod_eq_of_lt hlt]
  refine (commit_agree_iff h m).mpr ?_
  intro h0 x _
  simp only [shiftCfOf, bit_eq, pred_toNat h0, mod_eq_of_lt (by omega : cnt.toNat - 1 < 64),
    emitSignExtend_eq, shiftRight_and_one_bne_zero]
  exact shiftFlagBytes_shows _ _ _ false _

end Shifts

section DoubleShift
variable (size : Size)

theorem fill_past_width (v : U64) (hv : v.toNat < 2 ^ size.bits) (k : ℕ) (hk : size.bits ≤ k) :
    v >>> k = 0 ∧ (v <<< k) &&& mask size = 0 := by
  constructor
  · apply eq_of_toNat_eq
    rw [toNat_ushiftRight, shiftRight_eq_div_pow]
    exact Nat.div_eq_of_lt (hv.trans_le (Nat.pow_le_pow_right (by decide) hk))
  · apply eq_of_toNat_eq
    have hb := (Size.bits_pos size).2
    rw [toNat_and_mask, toNat_shiftLeft, Nat.shiftLeft_eq,
      mod_mod_of_dvd _ (pow_dvd_pow 2 hb)]
    exact mod_eq_zero_of_dvd ((pow_dvd_pow 2 hk).mul_left _)

theorem getLsbD_past_width (v : U64) (hv : v.toNat < 2 ^ size.bits) (k : ℕ) (hk : size.bits ≤ k) :
    v.getLsbD k = false :=
  Nat.testBit_lt_two_pow (hv.trans_le (Nat.pow_le_pow_right (by decide) hk))

theorem irsub_bits_mod (cnt : U64) (h0 : cnt ≠ 0) (hlt : cnt.toNat < 64) :
    (irsub cnt (BitVec.ofNat 64 size.bits)).toNat % 64 =
      if cnt.toNat ≤ size.bits then size.bits - cnt.toNat else 64 + size.bits - cnt.toNat := by
  have hn : cnt.toNat ≠ 0 := fun hn => h0 (eq_of_toNat_eq hn)
  have hb := Size.bits_pos size
  rw [irsub, toNat_sub, toNat_ofNat]
  split <;> omega

/-- The fill agrees at every count but the operand width, where the interpreter fills with zero and
the emitted code with all of `v`. -/
theorem fill_agree (v cnt : U64) (hv : v.toNat < 2 ^ size.bits) (h0 : cnt ≠ 0)
    (hlt : cnt.toNat < 64) (left : Bool) :
    (if left then ushr v (irsub cnt (BitVec.ofNat 64 size.bits))
      else ishl v (irsub cnt (BitVec.ofNat 64 size.bits))) &&& mask size =
    (if cnt.toNat = size.bits then v else if cnt.toNat < size.bits then
      (if left then v >>> (size.bits - cnt.toNat) else v <<< (size.bits - cnt.toNat)) else 0) &&&
        mask size := by
  simp only [ushr, ishl, irsub_bits_mod size cnt h0 hlt]
  rcases Nat.lt_trichotomy cnt.toNat size.bits with hc | hc | hc
  · simp [hc.le, hc, hc.ne]
  · simp [hc]
  · obtain ⟨hr, hl⟩ := fill_past_width size v hv (64 + size.bits - cnt.toNat) (by omega)
    simp only [if_neg hc.not_ge, if_neg hc.ne', if_neg hc.not_gt]
    cases left
    · simpa using hl
    · simp [hr]

theorem low_part_zero (v cnt : U64) (hv : v.toNat < 2 ^ size.bits) (hc : cnt.toNat = size.bits)
    (left : Bool) :
    (if left then v <<< cnt.toNat else v >>> cnt.toNat) &&& mask size = 0 := by
  obtain ⟨hr, hl⟩ := fill_past_width size v hv cnt.toNat hc.ge
  cases left
  · simp [hr]
  · simpa using hl

variable {f : Flags} {fb : FlagBytes} (h : fb.Represents f)
variable (a b count : U64) (left : Bool) (m : FlagMask)
include h

theorem doubleShift_commit_iff (v v' : U64) (cf s : Bool) :
    Agree
        (if !m.isNone then
          (v', apply f m (shiftResult v' size cf ((v' &&& signBit size != 0) ^^ s)))
        else (v', f))
        (if m.isNone then (v, fb) else
          (v, storeFlags fb m (shiftFlagBytes v size (flagByte cf)
            (flagByte ((v &&& signBit size != 0) ^^ s))))) ↔
      v = v' := by
  by_cases hm : m.isNone = true
  · simp [hm, Agree, h]
  · simp only [hm, Bool.false_eq_true, if_false, Bool.not_false, if_true]
    refine ⟨fun hag => hag.1, ?_⟩
    rintro rfl
    refine ⟨rfl, (FlagBytes.represents_storeFlags_iff h _ _ _).mpr ?_⟩
    intro x _
    exact shiftFlagBytes_shows _ _ _ _ _

/-- `shld`/`shrd`: the back ends differ exactly when the masked count is the operand
width and the fill is not zero. -/
theorem doubleShift_agree_iff :
    Agree (execDoubleShift f a b count size m left) (emitDoubleShift fb a b count size left m) ↔
      ((count &&& shiftMask size).toNat = size.bits → b &&& mask size = 0) := by
  have hlt := toNat_and_shiftMask_lt count size
  have ha := toNat_and_mask_lt a size
  have hb := toNat_and_mask_lt b size
  have hbits := Size.bits_pos size
  simp only [execDoubleShift, emitDoubleShift, emitMask_eq, emitShiftCount_eq]
  have hmb : b &&& mask size &&& mask size = b &&& mask size := by
    rw [BitVec.and_assoc, BitVec.and_self]
  generalize count &&& shiftMask size = cnt at hlt ⊢
  generalize a &&& mask size = va at ha ⊢
  generalize b &&& mask size = vb at hb hmb ⊢
  by_cases h0 : cnt = 0
  · subst h0
    have hne : (0 : U64).toNat ≠ size.bits := by
      change 0 ≠ size.bits
      omega
    have hz : icmpEq (0 : U64) 0 = flagByte true := rfl
    simp only [hz, flagByte_ne_zero, if_true, ite_self]
    exact ⟨fun _ hc => absurd hc hne, fun _ => ⟨rfl, h⟩⟩
  · have hn : cnt.toNat ≠ 0 := fun hn => h0 (eq_of_toNat_eq hn)
    have hz : icmpEq cnt 0 = flagByte false := by
      rw [icmpEq, beq_false_of_ne h0]
    have hfill := fill_agree size vb cnt hb h0 hlt left
    -- the emitted value splits into the same low part and the fill
    have hval : (if left then ishl va cnt ||| ushr vb (irsub cnt (BitVec.ofNat 64 size.bits))
          else ushr va cnt ||| ishl vb (irsub cnt (BitVec.ofNat 64 size.bits))) &&& mask size =
        ((if left then va <<< cnt.toNat else va >>> cnt.toNat) ||| (if cnt.toNat = size.bits
          then vb else if cnt.toNat < size.bits then (if left then vb >>> (size.bits - cnt.toNat)
            else vb <<< (size.bits - cnt.toNat)) else 0)) &&& mask size := by
      rw [BitVec.and_or_distrib_right, ← hfill, ← BitVec.and_or_distrib_right]
      cases left <;> simp [ishl, ushr, mod_eq_of_lt hlt]
    have hcf : (if left then bit va (irsub cnt (BitVec.ofNat 64 size.bits))
        else bit va (cnt + -1)) = flagByte (if left then
          decide (cnt.toNat ≤ size.bits) && (va >>> (size.bits - cnt.toNat)) &&& 1 != 0
          else (va >>> (cnt.toNat - 1)) &&& 1 != 0) := by
      simp only [bit_eq, irsub_bits_mod size cnt h0 hlt, pred_toNat h0, shiftRight_and_one_bne_zero,
        mod_eq_of_lt (by omega : cnt.toNat - 1 < 64)]
      cases left
      · simp
      · by_cases hle : cnt.toNat ≤ size.bits
        · simp [hle]
        · have hpast := getLsbD_past_width size va ha (64 + size.bits - cnt.toNat) (by omega)
          simp [hle, hpast]
    simp only [hz, select_flagByte, flagByte_ne_zero, Bool.false_eq_true, if_false, if_neg hn,
      hval, hcf, emitMsb_eq, flagByte_xor]
    rw [doubleShift_commit_iff size h]
    by_cases hc : cnt.toNat = size.bits
    · have hlo := low_part_zero size va cnt ha hc left
      rw [if_pos hc, if_neg hc.not_lt, BitVec.and_or_distrib_right, BitVec.and_or_distrib_right,
        hlo, hmb]
      simp [hc]
    · simp [hc]

end DoubleShift

end X86Jit.Jit
