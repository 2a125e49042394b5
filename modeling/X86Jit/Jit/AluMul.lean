import Mathlib.Algebra.Order.Ring.Abs
import Mathlib.Tactic.NormNum
import X86Jit.Jit.AluCommon

/-! Widening multiplication. Below the full width the emitted code multiplies in 64 bits,
at the full width it takes the high half from a separate instruction. -/
namespace X86Jit.Jit
open X86Jit.Clif X86Jit.Lib BitVec

theorem maskImm_eq (size : Size) : maskImm size = mask size := by
  cases size <;> decide

theorem toInt_signExtend_bounds (v : U64) (size : Size) (h : size.bytes < 8) :
    -(2 : ℤ) ^ 31 ≤ (signExtend v size).toInt ∧ (signExtend v size).toInt < 2 ^ 31 := by
  have hb : (v <<< (64 - size.bits)).toInt < 2 ^ 63 := toInt_lt
  have hl : -(2 ^ 63) ≤ (v <<< (64 - size.bits)).toInt := le_toInt _
  rw [signExtend, if_neg (Nat.not_le.mpr h), toInt_sshiftRight, Int.shiftRight_eq_div_pow]
  cases size <;> simp only [Size.bits, Size.bytes] at * <;> omega

theorem toInt_product (v u : U64) (size : Size) (h : size.bytes < 8) :
    (signExtend v size * signExtend u size).toInt =
      (signExtend v size).toInt * (signExtend u size).toInt := by
  obtain ⟨hv, hv'⟩ := toInt_signExtend_bounds v size h
  obtain ⟨hu, hu'⟩ := toInt_signExtend_bounds u size h
  rw [toInt_mul]
  generalize (signExtend v size).toInt = x at *
  generalize (signExtend u size).toInt = y at *
  have hb : |x * y| ≤ 2 ^ 31 * 2 ^ 31 := by
    rw [abs_mul]
    exact mul_le_mul (abs_le.mpr ⟨hv, hv'.le⟩) (abs_le.mpr ⟨hu, hu'.le⟩) (abs_nonneg y) (by norm_num)
  obtain ⟨hlo, hhi⟩ := abs_le.mp hb
  exact Int.bmod_eq_of_le (by omega) (by omega)

theorem sshiftRight_and_mask (x : U64) (size : Size) (h : size.bytes < 8) :
    x.sshiftRight size.bits &&& mask size = (x >>> size.bits) &&& mask size := by
  apply eq_of_getLsbD_eq
  intro i hi
  by_cases hm : (mask size).getLsbD i = true
  · have hlt : i < size.bits := by
      by_contra hge
      have hp : (mask size).toNat < 2 ^ size.bits := by
        rw [toNat_mask]
        exact Nat.sub_lt (Nat.two_pow_pos _) (by decide)
      have hz : (mask size).getLsbD i = false := Nat.testBit_lt_two_pow
        (hp.trans_le (Nat.pow_le_pow_right (by decide) (Nat.not_lt.mp hge)))
      simp [hz] at hm
    have hsum : size.bits + i < 64 := by
      cases size <;> simp only [Size.bits, Size.bytes] at * <;> omega
    simp [getLsbD_sshiftRight, hsum, Nat.not_le.mpr hi]
  · simp [hm]

theorem hi_ne_sign_iff (p : ℤ) (hlo : -(2 : ℤ) ^ 126 ≤ p) (hhi : p ≤ 2 ^ 126) :
    BitVec.ofInt 64 (p >>> (64 : ℕ)) = (BitVec.ofInt 64 p).sshiftRight 63 ↔
      p = (BitVec.ofInt 64 p).toInt := by
  rw [← toInt_inj, toInt_sshiftRight, toInt_ofInt, toInt_ofInt,
    Int.shiftRight_eq_div_pow, Int.shiftRight_eq_div_pow, Int.bmod_def, Int.bmod_def]
  split <;> split <;> omega

section Values
variable (a b : U64) (size : Size) (signed : Bool)

def product : ℤ :=
  if signed then (signExtend (a &&& mask size) size).toInt * (signExtend (b &&& mask size) size).toInt
  else ((a &&& mask size).toNat * (b &&& mask size).toNat : ℕ)

def productLo : U64 := BitVec.ofInt 64 (product a b size signed) &&& mask size

def productHi : U64 := BitVec.ofInt 64 (product a b size signed >>> size.bits) &&& mask size

def productSpills : Bool :=
  if signed then product a b size signed != (signExtend (productLo a b size signed) size).toInt
  else productHi a b size signed != 0

theorem ofInt_product : BitVec.ofInt 64 (product a b size signed) =
    if signed then signExtend a size * signExtend b size
    else (a &&& mask size) * (b &&& mask size) := by
  cases signed
  · simp only [product, Bool.false_eq_true, if_false]
    rw [ofInt_natCast, ofNat_mul, ofNat_toNat, ofNat_toNat,
      setWidth_eq, setWidth_eq]
  · simp only [product, if_true, ofInt_mul, ofInt_toInt, signExtend_and_mask]

theorem product_unsigned_shift (n : ℕ) : BitVec.ofInt 64 (product a b size false >>> n) =
      BitVec.ofNat 64 (((a &&& mask size).toNat * (b &&& mask size).toNat) >>> n) := by
  rfl

theorem emitMul_narrow (fb : FlagBytes) (m : FlagMask) (h : size.bytes < 8) :
    emitMul fb a b size signed m =
      if m.isNone then ((productLo a b size signed, productHi a b size signed), fb)
      else ((productLo a b size signed, productHi a b size signed), storeFlags fb m
        { cf := flagByte (productSpills a b size signed), pfSrc := pfSrcZero, afSrc := 0, zf := 0,
          sf := 0, of := flagByte (productSpills a b size signed) }) := by
  have hlo := ofInt_product a b size signed
  cases signed
  case false =>
    have hhi := product_unsigned_shift a b size size.bits
    -- both factors are below 2^32, so the product does not wrap
    have hprod : ((a &&& mask size) * (b &&& mask size)) >>> size.bits =
        BitVec.ofNat 64 (((a &&& mask size).toNat * (b &&& mask size).toNat) >>> size.bits) := by
      have ha := toNat_and_mask_lt a size
      have hb := toNat_and_mask_lt b size
      have h32 : 2 ^ size.bits ≤ 2 ^ 32 := by
        cases size <;> simp only [Size.bits, Size.bytes] at * <;> omega
      have hlt : (a &&& mask size).toNat * (b &&& mask size).toNat < 2 ^ 64 := by
        calc (a &&& mask size).toNat * (b &&& mask size).toNat
            < 2 ^ 32 * 2 ^ 32 := Nat.mul_lt_mul'' (ha.trans_le h32) (hb.trans_le h32)
          _ = 2 ^ 64 := by norm_num
      apply eq_of_toNat_eq
      rw [toNat_ushiftRight, toNat_mul, Nat.mod_eq_of_lt hlt, toNat_ofNat,
        Nat.mod_eq_of_lt]
      exact (Nat.shiftRight_le _ _).trans_lt hlt
    simp only [emitMul, if_pos h, Bool.false_eq_true, if_false, maskImm_eq, hprod, productSpills,
      productLo, productHi, hlo, hhi, icmpNe]
  case true =>
    have hp : product a b size true = (signExtend a size * signExtend b size).toInt := by
      rw [toInt_product a b size h, product, if_pos rfl, signExtend_and_mask, signExtend_and_mask]
    have hhi : productHi a b size true =
        (signExtend a size * signExtend b size) >>> size.bits &&& mask size := by
      rw [← sshiftRight_and_mask _ size h, productHi, hp]
      rfl
    have hspill : icmpNe (signExtend a size * signExtend b size)
        (signExtend (signExtend a size * signExtend b size &&& mask size) size) =
        flagByte (productSpills a b size true) := by
      simp only [icmpNe, flagByte_inj, productSpills, if_true, productLo, hlo]
      rw [hp, Bool.eq_iff_iff]
      simp only [bne_iff_ne, ne_eq, toInt_inj]
    simp only [emitMul, if_pos h, if_true, emitSignExtend_eq, maskImm_eq, hspill, hhi,
      productLo, hlo]

theorem emitMul_wide (fb : FlagBytes) (m : FlagMask) (h : ¬ size.bytes < 8) :
    emitMul fb a b size signed m =
      if m.isNone then ((productLo a b size signed, productHi a b size signed), fb)
      else ((productLo a b size signed, productHi a b size signed), storeFlags fb m
        { cf := flagByte (productSpills a b size signed), pfSrc := pfSrcZero, afSrc := 0, zf := 0,
          sf := 0, of := flagByte (productSpills a b size signed) }) := by
  have hsize : size = .b8 := by
    cases size <;> first | rfl | exact absurd (by decide) h
  subst hsize
  have hlo := ofInt_product a b .b8 signed
  have hm (v : U64) : v &&& mask .b8 = v := and_allOnes
  have hse (v : U64) : signExtend v .b8 = v := rfl
  have hbits : Size.b8.bits = 64 := rfl
  cases signed
  case false =>
    have hhi := product_unsigned_shift a b .b8 64
    simp only [emitMul, if_neg h, Bool.false_eq_true, if_false, umulhi, productSpills, productLo,
      productHi, hm, hlo, hbits, hhi, icmpNe]
  case true =>
    have hp : product a b .b8 true = a.toInt * b.toInt := by
      simp only [product, if_true, hm, hse]
    have hbound : |product a b .b8 true| ≤ 2 ^ 63 * 2 ^ 63 := by
      have ha : |a.toInt| ≤ 2 ^ 63 := abs_le.mpr ⟨le_toInt a, BitVec.toInt_lt.le⟩
      have hb : |b.toInt| ≤ 2 ^ 63 := abs_le.mpr ⟨le_toInt b, BitVec.toInt_lt.le⟩
      rw [hp, abs_mul]
      exact mul_le_mul ha hb (abs_nonneg _) (by norm_num)
    obtain ⟨hl, hu⟩ := abs_le.mp hbound
    have hspill := hi_ne_sign_iff (product a b .b8 true) (by omega) (by omega)
    have hlo' : BitVec.ofInt 64 (a.toInt * b.toInt) = a * b := by
      rw [← hp, hlo, if_pos rfl, hse, hse]
    rw [hp, hlo'] at hspill
    have hov : icmpNe (smulhi a b) ((a * b).sshiftRight 63) =
        flagByte (productSpills a b .b8 true) := by
      simp only [icmpNe, flagByte_inj, productSpills, if_true, productLo, hm, hse, hp, hlo']
      rw [Bool.eq_iff_iff]
      simp only [bne_iff_ne, ne_eq, smulhi, hspill]
    have hhi : productHi a b .b8 true = smulhi a b := by
      rw [productHi, hm, hp]
      rfl
    simp only [emitMul, if_neg h, if_true, hov, productLo, hhi, hm, hp, hlo']

end Values

theorem mul_agree {f : Flags} {fb : FlagBytes} (h : fb.Represents f) (a b : U64) (size : Size)
    (m : FlagMask) (signed : Bool) :
    Agree (execMul f a b size m signed) (emitMul fb a b size signed m) := by
  have hex : execMul f a b size m signed =
      if !m.isNone then ((productLo a b size signed, productHi a b size signed),
        apply f m (cfOf (productLo a b size signed) (productSpills a b size signed)
          (productSpills a b size signed)))
      else ((productLo a b size signed, productHi a b size signed), f) := rfl
  have hem := if h8 : size.bytes < 8 then emitMul_narrow a b size signed fb m h8
    else emitMul_wide a b size signed fb m h8
  rw [hex, hem]
  by_cases hm : m.isNone = true
  · simp [hm, Agree, h]
  · simp only [hm, Bool.false_eq_true, if_false, Bool.not_false, if_true]
    refine ⟨rfl, (FlagBytes.represents_storeFlags_iff h _ _ _).mpr ?_⟩
    intro x _
    cases x
    case pf =>
      change evenParity 1 = false
      decide
    case af => exact zero_af_test
    all_goals rfl

end X86Jit.Jit
