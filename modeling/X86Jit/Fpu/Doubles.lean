import X86Jit.Fpu.Correct
import X86Jit.Fpu.Encode
import X86Jit.Lib.Binary
import X86Jit.Lib.Bits

/-! The conversion of an 80-bit value to a double. Below the normal range it computes how far to
shift from an exponent that the first rounding may already have raised. -/
namespace X86Jit.F80
open X86Jit.Lib X86Jit.Lib.Rounding Nat

def binary64 : Binary := ⟨52, -1022⟩

def infCode : ℕ := 0x7ff0000000000000

def doubleBits (sign : Bool) (c : ℕ) : U64 :=
  (if sign then 0x8000000000000000 else 0) ||| BitVec.ofNat 64 c

structure Value where
  val : F80
  le_sig : val.cls = .normal → 2 ^ 63 ≤ val.sig.toNat

/-- The nearest double, an infinity beyond the largest, and for a NaN a quiet one with the upper
bits of the payload. -/
structure DoubleOf (a : F80) (d : U64) : Prop where
  zero : a.cls = .zero → d = doubleBits a.sign 0
  inf : a.cls = .inf → d = doubleBits a.sign infCode
  normal : a.cls = .normal →
    ∃ c, Nearest binary64.val a.magnitude c ∧ d = doubleBits a.sign (min c infCode)
  nan : a.cls = .nan →
    d = doubleBits a.sign (infCode + 2 ^ 51 + a.sig.toNat / 2 ^ 11 % 2 ^ 51)

def carries (a : F80) : Bool := 2 ^ 64 - 2 ^ 10 ≤ a.sig.toNat

/-- A NaN must be quiet already. Among the denormals the significand must not carry, and a number
above one half of the smallest must not be below that. -/
def convertsRight (a : F80) : Bool :=
  match a.cls with
  | .nan => a.sig.getLsbD 62
  | .normal =>
    !(-1075 ≤ a.exp && a.exp ≤ -1024 && a.carries) && !(a.exp == -1075 && 2 ^ 63 < a.sig.toNat)
  | _ => true

variable {m d : ℕ}

def roundUnits (m d : ℕ) : ℕ :=
  m / 2 ^ d +
    if 2 ^ (d - 1) < m % 2 ^ d ∨ m % 2 ^ d = 2 ^ (d - 1) ∧ m / 2 ^ d % 2 = 1 then 1 else 0

theorem goesUp_units (hd : 0 < d) : nearestEven.GoesUp false (m / 2 ^ d) ((m % 2 ^ d : ℕ) / 2 ^ d) ↔
      2 ^ (d - 1) < m % 2 ^ d ∨ m % 2 ^ d = 2 ^ (d - 1) ∧ m / 2 ^ d % 2 = 1 := by
  obtain ⟨habove, htie⟩ := half_unit hd ((m % 2 ^ d : ℕ) : ℝ)
  unfold GoesUp
  rw [habove, htie, Nat.cast_lt, Nat.cast_inj, Nat.not_even_iff]

open Classical in
theorem nearest_units {j : ℕ} (hd : 0 < d) (hk : m / 2 ^ d < 2 ^ 53)
    (h : j = 0 ∨ 2 ^ 52 ≤ m / 2 ^ d) :
    Nearest binary64.val (m * 2 ^ (-1074 + j - d : ℤ)) (j * 2 ^ 52 + roundUnits m d) := by
  have hpow : (0 : ℝ) < 2 ^ d := pow_pos two_pos d
  have hmod : ((m % 2 ^ d : ℕ) : ℝ) < 2 ^ d := by
    exact_mod_cast mod_lt m (Nat.two_pow_pos d)
  have hnear := Binary.nearest_parts (F := binary64) (j := j)
    (by decide) hk h (by positivity) ((div_lt_one hpow).mpr hmod)
  have hmag : (m : ℝ) * 2 ^ (-1074 + j - d : ℤ) =
      ((m / 2 ^ d : ℕ) + (m % 2 ^ d : ℕ) / 2 ^ d) * 2 ^ (binary64.emin - binary64.bits + j) := by
    have hsplit : (m : ℝ) = ((m / 2 ^ d : ℕ) + (m % 2 ^ d : ℕ) / 2 ^ d) * 2 ^ d := by
      rw [add_mul, div_mul_cancel₀ _ hpow.ne']
      exact_mod_cast (div_add_mod' m (2 ^ d)).symm
    have hexp : binary64.emin - binary64.bits + j = d + (-1074 + j - d) := by
      change (-1022 : ℤ) - 52 + j = _
      ring
    rw [hexp, zpow_add₀ two_ne_zero, zpow_natCast, ← mul_assoc, ← hsplit]
  have hcode : j * 2 ^ 52 + roundUnits m d = j * 2 ^ binary64.bits + m / 2 ^ d +
      if nearestEven.GoesUp false (m / 2 ^ d) ((m % 2 ^ d : ℕ) / 2 ^ d) then 1 else 0 := by
    unfold roundUnits
    rw [← add_assoc]
    simp only [goesUp_units hd]
    rfl
  rw [hmag, hcode]
  exact hnear

theorem toNat_one_shiftLeft {n : ℕ} (h : n < 64) : ((1 <<< n : ℕ) : U64).toNat = 2 ^ n := by
  change (1 <<< n) % 2 ^ 64 = 2 ^ n
  rw [one_shiftLeft, mod_eq_of_lt (Nat.pow_lt_pow_right one_lt_two h)]

theorem toNat_low_bits (v : U64) {n : ℕ} (h : n < 64) :
    (v &&& (((1 <<< n : ℕ) : U64) - 1)).toNat = v.toNat % 2 ^ n := by
  have hpos : 0 < 2 ^ n := Nat.two_pow_pos n
  have hmask : (((1 <<< n : ℕ) : U64) - 1).toNat = 2 ^ n - 1 := by
    rw [BitVec.toNat_sub_of_le, toNat_one_shiftLeft h]
    · rfl
    · rw [BitVec.le_def, toNat_one_shiftLeft h]
      exact hpos
  rw [BitVec.toNat_and, hmask, and_two_pow_sub_one_eq_mod]

theorem toNat_roundShift (v : U64) {n : ℕ} (h₀ : 0 < n) (h : n < 64) :
    (roundShift v n).toNat = roundUnits v.toNat n := by
  have hshift : (v >>> n).toNat = v.toNat / 2 ^ n := by
    rw [BitVec.toNat_ushiftRight, shiftRight_eq_div_pow]
  have hsmall : v.toNat / 2 ^ n < 2 ^ 63 := by
    rw [Nat.div_lt_iff_lt_mul (Nat.two_pow_pos n)]
    calc v.toNat < 2 ^ 63 * 2 ^ 1 := v.isLt
      _ ≤ 2 ^ 63 * 2 ^ n := mul_le_mul_left _ (Nat.pow_le_pow_right two_pos h₀)
  have hnext : (v >>> n + 1).toNat = v.toNat / 2 ^ n + 1 := by
    have hone : (1 : U64).toNat = 1 := rfl
    rw [BitVec.toNat_add, hshift]
    apply mod_eq_of_lt
    omega
  have hhalf : ((1 <<< (n - 1) : ℕ) : U64).toNat = 2 ^ (n - 1) :=
    toNat_one_shiftLeft (by omega)
  have hodd : (v >>> n &&& 1 != 0) = decide (v.toNat / 2 ^ n % 2 = 1) := by
    rw [and_one_bne_zero, ← hshift, BitVec.getLsbD, testBit_eq_decide_div_mod_eq, Nat.pow_zero,
      Nat.div_one]
  have hdecides {dropped half : U64} (hdropped : dropped.toNat = v.toNat % 2 ^ n)
      (hhalf : half.toNat = 2 ^ (n - 1)) :
      (half.ult dropped || (dropped == half && v >>> n &&& 1 != 0)) = true ↔
        2 ^ (n - 1) < v.toNat % 2 ^ n ∨
          v.toNat % 2 ^ n = 2 ^ (n - 1) ∧ v.toNat / 2 ^ n % 2 = 1 := by
    rw [Bool.or_eq_true, Bool.and_eq_true, hodd, BitVec.ult, hhalf, hdropped, decide_eq_true_iff,
      decide_eq_true_iff, beq_iff_eq, ← BitVec.toNat_inj, hhalf, hdropped]
  have hup := hdecides (toNat_low_bits v h) hhalf
  unfold roundShift roundUnits
  rw [if_neg h₀.ne', if_neg (not_le.mpr h)]
  by_cases hgoes : 2 ^ (n - 1) < v.toNat % 2 ^ n ∨
      v.toNat % 2 ^ n = 2 ^ (n - 1) ∧ v.toNat / 2 ^ n % 2 = 1
  · rw [if_pos (hup.mpr hgoes), if_pos hgoes, hnext]
  · rw [if_neg (mt hup.mp hgoes), if_neg hgoes, hshift, add_zero]

variable {a : F80}

def nearestCode (a : F80) : ℕ :=
  if -1022 ≤ a.exp then (a.exp + 1022).toNat * 2 ^ 52 + roundUnits a.sig.toNat 11
  else roundUnits a.sig.toNat (-1011 - a.exp).toNat

theorem nearest_magnitude (hsig : 2 ^ 63 ≤ a.sig.toNat) :
    Nearest binary64.val a.magnitude a.nearestCode := by
  unfold magnitude nearestCode
  by_cases hnormal : -1022 ≤ a.exp
  · have hexp : a.exp - 63 = -1074 + ((a.exp + 1022).toNat) - (11 : ℕ) := by omega
    rw [if_pos hnormal, hexp]
    exact nearest_units (by decide) (by omega) (.inr (by omega))
  · have hexp : a.exp - 63 = -1074 + ((0 : ℕ) : ℤ) - ((-1011 - a.exp).toNat) := by omega
    have hunits : a.sig.toNat / 2 ^ (-1011 - a.exp).toNat < 2 ^ 53 := by
      rw [Nat.div_lt_iff_lt_mul (Nat.two_pow_pos _)]
      calc a.sig.toNat < 2 ^ 53 * 2 ^ 11 := a.sig.isLt
        _ ≤ 2 ^ 53 * 2 ^ (-1011 - a.exp).toNat :=
          mul_le_mul_left _ (Nat.pow_le_pow_right two_pos (by omega))
    have hnear := nearest_units (by omega) hunits (.inl rfl)
    rw [zero_mul, zero_add, ← hexp] at hnear
    rw [if_neg hnormal]
    exact hnear

theorem roundUnits_bounds (hsig : 2 ^ 63 ≤ a.sig.toNat) : 2 ^ 52 ≤ roundUnits a.sig.toNat 11 ∧
      (roundUnits a.sig.toNat 11 = 2 ^ 53 ∧ a.carries = true ∨
        roundUnits a.sig.toNat 11 < 2 ^ 53 ∧ a.carries = false) := by
  have hlt := a.sig.isLt
  unfold roundUnits carries
  generalize a.sig.toNat = m at hsig hlt
  rw [decide_eq_true_iff, decide_eq_false_iff_not]
  split
  · omega
  · omega

/-- The code that the conversion computes. A carry has raised the exponent before it is looked
at. -/
def codeOf (a : F80) : ℕ :=
  let biased := a.exp + (if a.carries then 1 else 0) + 1023
  if 0x7ff ≤ biased then infCode
  else if biased ≤ 0 then
    if 64 ≤ (12 - biased).toNat then 0 else roundUnits a.sig.toNat (12 - biased).toNat
  else biased.toNat * 2 ^ 52 + if a.carries then 0 else roundUnits a.sig.toNat 11 - 2 ^ 52

theorem ofNat_fields {e f : ℕ} (hf : f < 2 ^ 52) :
    BitVec.ofNat 64 (e * 2 ^ 52 + f) = (BitVec.ofNat 64 e <<< 52) ||| BitVec.ofNat 64 f := by
  apply BitVec.eq_of_toNat_eq
  have hf64 : f % 2 ^ 64 = f := mod_eq_of_lt (hf.trans (by decide))
  have hshift : (BitVec.ofNat 64 e <<< 52).toNat = e % 2 ^ 12 * 2 ^ 52 := by
    rw [BitVec.toNat_shiftLeft, BitVec.toNat_ofNat]
    omega
  have hor : e % 2 ^ 12 * 2 ^ 52 ||| f = e % 2 ^ 12 * 2 ^ 52 + f := by
    rw [← shiftLeft_eq, shiftLeft_add_eq_or_of_lt hf]
  rw [BitVec.toNat_or, hshift, BitVec.toNat_ofNat, BitVec.toNat_ofNat, hf64]
  omega

theorem pack_eq (a : F80) (sign : U64) (biased : ℤ) {f : U64} (hf : f.toNat < 2 ^ 52) :
    (if 0x7ff ≤ biased then sign ||| 0x7ff0000000000000
      else if biased ≤ 0 then
        if 64 ≤ (1 - biased).toNat + 11 then sign
        else sign ||| roundShift a.sig ((1 - biased).toNat + 11)
      else sign ||| (BitVec.ofInt 64 biased <<< 52) ||| f) =
    sign ||| BitVec.ofNat 64 (if 0x7ff ≤ biased then infCode
      else if biased ≤ 0 then
        if 64 ≤ (12 - biased).toNat then 0 else roundUnits a.sig.toNat (12 - biased).toNat
      else biased.toNat * 2 ^ 52 + f.toNat) := by
  by_cases hinf : 0x7ff ≤ biased
  · rw [if_pos hinf, if_pos hinf]
    rfl
  · rw [if_neg hinf, if_neg hinf]
    by_cases hlow : biased ≤ 0
    · have hshift : (1 - biased).toNat + 11 = (12 - biased).toNat := by omega
      rw [if_pos hlow, if_pos hlow, hshift]
      by_cases hfar : 64 ≤ (12 - biased).toNat
      · rw [if_pos hfar, if_pos hfar]
        exact BitVec.or_zero.symm
      · have hround := toNat_roundShift a.sig (n := (12 - biased).toNat) (by omega) (by omega)
        rw [if_neg hfar, if_neg hfar, ← hround, BitVec.ofNat_toNat, BitVec.setWidth_eq]
    · have hint : BitVec.ofInt 64 biased = BitVec.ofNat 64 biased.toNat := by
        rw [← BitVec.ofInt_natCast, Int.toNat_of_nonneg (by omega)]
      rw [if_neg hlow, if_neg hlow, ofNat_fields hf, hint, BitVec.ofNat_toNat, BitVec.setWidth_eq,
        BitVec.or_assoc]

theorem toF64_normal (hcls : a.cls = .normal) (hsig : 2 ^ 63 ≤ a.sig.toNat) :
    toF64 a = doubleBits a.sign a.codeOf := by
  obtain ⟨hlow, hbounds⟩ := roundUnits_bounds hsig
  have hm : (roundShift a.sig 11).toNat = roundUnits a.sig.toNat 11 :=
    toNat_roundShift a.sig (by decide) (by decide)
  have hfrac (v : U64) : (v &&& 0xfffffffffffff).toNat = v.toNat % 2 ^ 52 := by
    have hmask : (0xfffffffffffff : U64).toNat = 2 ^ 52 - 1 := rfl
    rw [BitVec.toNat_and, hmask, and_two_pow_sub_one_eq_mod]
  have hlt (v : U64) : (v &&& 0xfffffffffffff).toNat < 2 ^ 52 := by
    rw [hfrac]
    exact mod_lt _ (Nat.two_pow_pos 52)
  have hshift : (roundShift a.sig 11 >>> 53).toNat = roundUnits a.sig.toNat 11 / 2 ^ 53 := by
    rw [BitVec.toNat_ushiftRight, shiftRight_eq_div_pow, hm]
  unfold toF64 codeOf doubleBits
  rw [hcls]
  dsimp only
  rcases hbounds with ⟨heq, hcarries⟩ | ⟨hsmall, hcarries⟩
  · -- the carry leaves no fraction
    have htop : roundShift a.sig 11 >>> 53 ≠ 0 := by
      intro hzero
      rw [hzero, heq] at hshift
      exact absurd hshift (by decide)
    have hnone : (roundShift a.sig 11 >>> 1 &&& 0xfffffffffffff).toNat = 0 := by
      rw [hfrac, BitVec.toNat_ushiftRight, hm, heq]
      rfl
    rw [if_pos htop, hcarries]
    have hpack := pack_eq a (if a.sign then 0x8000000000000000 else 0) (a.exp + 1 + 1023)
      (hlt (roundShift a.sig 11 >>> 1))
    rw [hnone] at hpack
    exact hpack
  · have htop : ¬roundShift a.sig 11 >>> 53 ≠ 0 := by
      rw [not_not]
      apply BitVec.eq_of_toNat_eq
      rw [hshift, div_eq_of_lt hsmall]
      rfl
    have hrest : (roundShift a.sig 11 &&& 0xfffffffffffff).toNat =
        roundUnits a.sig.toNat 11 - 2 ^ 52 := by
      rw [hfrac]
      omega
    rw [if_neg htop, hcarries, if_neg Bool.false_ne_true, if_neg Bool.false_ne_true, add_zero]
    have hpack := pack_eq a (if a.sign then 0x8000000000000000 else 0) (a.exp + 1023)
      (hlt (roundShift a.sig 11))
    rw [hrest] at hpack
    exact hpack

theorem roundUnits_carried (hlow : 2 ^ 64 - 2 ^ 10 ≤ m) (hhigh : m < 2 ^ 64)
    (hd : 12 ≤ d) (hd' : d ≤ 64) : roundUnits m d = 2 ^ (64 - d) := by
  have hunit : 2 ^ d = 2 * 2 ^ (d - 1) := by
    rw [← pow_succ']
    congr 1
    omega
  have hhalf : 2 ^ 11 ≤ 2 ^ (d - 1) := Nat.pow_le_pow_right two_pos (by omega)
  have hwhole : 2 ^ (64 - d) * 2 ^ d = 2 ^ 64 := by
    rw [← Nat.pow_add, Nat.sub_add_cancel hd']
  have hcount : 0 < 2 ^ (64 - d) := Nat.two_pow_pos _
  obtain ⟨q, hq⟩ := exists_eq_add_one_of_ne_zero hcount.ne'
  -- what is missing to the power of two is less than half a unit
  have hm : m = m + 2 ^ d - 2 ^ 64 + q * 2 ^ d := by
    rw [hq, succ_mul] at hwhole
    omega
  have hrest : m + 2 ^ d - 2 ^ 64 < 2 ^ d := by omega
  have hdiv : m / 2 ^ d = q := by
    rw [hm, add_mul_div_right _ _ (Nat.two_pow_pos d), div_eq_of_lt hrest, zero_add]
  have hmod : m % 2 ^ d = m + 2 ^ d - 2 ^ 64 := by
    nth_rewrite 1 [hm]
    rw [add_mul_mod_self_right, mod_eq_of_lt hrest]
  have hup : 2 ^ (d - 1) < m % 2 ^ d := by omega
  unfold roundUnits
  rw [if_pos (.inl hup), hdiv, hq]

theorem roundUnits_far (hm : m < 2 ^ 64) (hd : 65 ≤ d) : roundUnits m d = 0 := by
  have hhalf : 2 ^ 64 ≤ 2 ^ (d - 1) := Nat.pow_le_pow_right two_pos (by omega)
  have hunit : 2 ^ (d - 1) ≤ 2 ^ d := Nat.pow_le_pow_right two_pos (by omega)
  unfold roundUnits
  rw [div_eq_of_lt (by omega), mod_eq_of_lt (by omega), if_neg (by omega)]

theorem roundUnits_le (hm : m < 2 ^ 64) (hd : 12 ≤ d) : roundUnits m d ≤ 2 ^ 52 := by
  have hunits : m / 2 ^ d < 2 ^ 52 := by
    rw [Nat.div_lt_iff_lt_mul (Nat.two_pow_pos _)]
    calc m < 2 ^ 52 * 2 ^ 12 := hm
      _ ≤ 2 ^ 52 * 2 ^ d := mul_le_mul_left _ (Nat.pow_le_pow_right two_pos hd)
  unfold roundUnits
  split
  · exact hunits
  · exact hunits.le

theorem roundUnits_last (hm : m < 2 ^ 64) : roundUnits m 64 = if 2 ^ 63 < m then 1 else 0 := by
  unfold roundUnits
  rw [div_eq_of_lt hm, mod_eq_of_lt hm]
  simp

theorem codeOf_eq (hsig : 2 ^ 63 ≤ a.sig.toNat) (hexp : -1023 ≤ a.exp)
    (hcarries : a.exp = -1023 → a.carries = true) : a.codeOf = min a.nearestCode infCode := by
  obtain ⟨hlow, hbounds⟩ := roundUnits_bounds hsig
  have hinf : infCode = 0x7ff * 2 ^ 52 := rfl
  unfold codeOf nearestCode
  dsimp only
  rcases hbounds with ⟨heq, hc⟩ | ⟨hsmall, hc⟩
  · have hbiased : ¬a.exp + 1 + 1023 ≤ 0 := by omega
    rw [hc, if_pos rfl, if_pos rfl]
    by_cases hnormal : -1022 ≤ a.exp
    · rw [if_pos hnormal, heq]
      split
      · omega
      · omega
    · -- the largest number below the smallest normal one rounds up to it
      have hexp' : a.exp = -1023 := by omega
      have hunits : roundUnits a.sig.toNat (-1011 - a.exp).toNat = 2 ^ 52 := by
        rw [hexp']
        exact roundUnits_carried (of_decide_eq_true hc) a.sig.isLt (by decide) (by decide)
      rw [if_neg hnormal, hunits, hexp']
      rfl
  · have hnormal : -1022 ≤ a.exp := by
      by_contra hlt
      rw [hcarries (by omega)] at hc
      cases hc
    have hbiased : ¬a.exp + 0 + 1023 ≤ 0 := by omega
    rw [hc, if_neg Bool.false_ne_true, if_neg Bool.false_ne_true]
    split
    · omega
    · omega

theorem codeOf_low (hexp : a.exp + (if a.carries then 1 else 0) ≤ -1023) :
    a.codeOf = let d := (-1011 - a.exp - if a.carries then 1 else 0).toNat
      if 64 ≤ d then 0 else roundUnits a.sig.toNat d := by
  have hshift : (12 - (a.exp + (if a.carries then 1 else 0) + 1023)).toNat =
      (-1011 - a.exp - if a.carries then 1 else 0).toNat := by
    congr 1
    ring
  unfold codeOf
  rw [if_neg (by omega), if_pos (by omega), hshift]

theorem nearestCode_low (hexp : a.exp ≤ -1023) :
    min a.nearestCode infCode = roundUnits a.sig.toNat (-1011 - a.exp).toNat := by
  have hunits := roundUnits_le a.sig.isLt (d := (-1011 - a.exp).toNat) (by omega)
  have hinf : infCode = 0x7ff * 2 ^ 52 := rfl
  have hnormal : ¬-1022 ≤ a.exp := by omega
  unfold nearestCode
  rw [if_neg hnormal]
  apply min_eq_left
  omega

/-- The nearest code, except where the shift is computed from a raised exponent or a number is left
out that rounds up to the smallest denormal. -/
theorem codeOf_eq_iff (hsig : 2 ^ 63 ≤ a.sig.toNat) : a.codeOf = min a.nearestCode infCode ↔
      ¬(-1075 ≤ a.exp ∧ a.exp ≤ -1024 ∧ a.carries = true) ∧
        ¬(a.exp = -1075 ∧ 2 ^ 63 < a.sig.toNat) := by
  have hlt := a.sig.isLt
  cases hc : a.carries with
  | true =>
    have hm : 2 ^ 64 - 2 ^ 10 ≤ a.sig.toNat := of_decide_eq_true hc
    by_cases hexp : -1023 ≤ a.exp
    · apply iff_of_true (codeOf_eq hsig hexp fun _ => hc)
      omega
    · have hlow := codeOf_low (by rw [hc, if_pos rfl]; omega)
      rw [hc, if_pos rfl] at hlow
      rw [hlow, nearestCode_low (by omega)]
      by_cases hfar : 64 ≤ (-1011 - a.exp - 1).toNat
      · rw [if_pos hfar, roundUnits_far hlt (by omega)]
        apply iff_of_true rfl
        omega
      · -- one bit too few is shifted out, so that the result is twice what it should be
        have hdouble : 64 - (-1011 - a.exp - 1).toNat = 64 - (-1011 - a.exp).toNat + 1 := by omega
        rw [if_neg hfar, roundUnits_carried hm hlt (by omega) (by omega),
          roundUnits_carried hm hlt (by omega) (by omega), hdouble, pow_succ]
        have hpos : 0 < 2 ^ (64 - (-1011 - a.exp).toNat) := Nat.two_pow_pos _
        apply iff_of_false
        · omega
        · intro h
          exact h.1 ⟨by omega, by omega, rfl⟩
  | false =>
    by_cases hexp : -1022 ≤ a.exp
    · apply iff_of_true (codeOf_eq hsig (by omega) (by omega))
      omega
    · have hlow := codeOf_low (by rw [hc, if_neg Bool.false_ne_true]; omega)
      rw [hc, if_neg Bool.false_ne_true, sub_zero] at hlow
      rw [hlow, nearestCode_low (by omega)]
      simp only [Bool.false_eq_true, and_false, not_false_eq_true, true_and]
      by_cases hfar : 64 ≤ (-1011 - a.exp).toNat
      · rw [if_pos hfar]
        by_cases hlast : a.exp = -1075
        · have hd : (-1011 - a.exp).toNat = 64 := by omega
          rw [hd, roundUnits_last hlt]
          split
          · omega
          · omega
        · rw [roundUnits_far hlt (by omega)]
          omega
      · rw [if_neg hfar]
        apply iff_of_true rfl
        omega

theorem toNat_doubleBits {sign : Bool} {c : ℕ} (hc : c < 2 ^ 63) :
    (doubleBits sign c).toNat = (if sign then 2 ^ 63 else 0) + c := by
  have hmod : c % 2 ^ 64 = c := mod_eq_of_lt (hc.trans (by decide))
  unfold doubleBits
  rw [BitVec.toNat_or, BitVec.toNat_ofNat, hmod]
  cases sign with
  | false => simp
  | true =>
    have hor := two_pow_add_eq_or_of_lt hc 1
    exact hor.symm

theorem doubleBits_inj {sign : Bool} {c c' : ℕ} (hc : c < 2 ^ 63) (hc' : c' < 2 ^ 63)
    (h : doubleBits sign c = doubleBits sign c') : c = c' := by
  have heq := congrArg BitVec.toNat h
  rw [toNat_doubleBits hc, toNat_doubleBits hc'] at heq
  omega

theorem codeOf_lt (hsig : 2 ^ 63 ≤ a.sig.toNat) : a.codeOf < 2 ^ 63 := by
  obtain ⟨-, hbounds⟩ := roundUnits_bounds hsig
  have hinf : infCode = 0x7ff * 2 ^ 52 := rfl
  unfold codeOf
  dsimp only
  generalize a.exp + (if a.carries then 1 else 0) + 1023 = biased
  by_cases hlow : biased ≤ 0
  · have hunits := roundUnits_le a.sig.isLt (d := (12 - biased).toNat) (by omega)
    rw [if_neg (by omega), if_pos hlow]
    split
    · exact Nat.two_pow_pos 63
    · omega
  · rw [if_neg hlow]
    have hrest : (if a.carries then 0 else roundUnits a.sig.toNat 11 - 2 ^ 52) < 2 ^ 52 := by
      rcases hbounds with ⟨-, hc⟩ | ⟨hsmall, hc⟩
      · rw [hc, if_pos rfl]
        exact Nat.two_pow_pos 52
      · rw [hc, if_neg Bool.false_ne_true]
        omega
    split
    · omega
    · omega

theorem doubleOf_normal_iff (hcls : a.cls = .normal) (hsig : 2 ^ 63 ≤ a.sig.toNat) :
    DoubleOf a (toF64 a) ↔ convertsRight a = true := by
  have hcond : convertsRight a = true ↔
      ¬(-1075 ≤ a.exp ∧ a.exp ≤ -1024 ∧ a.carries = true) ∧
        ¬(a.exp = -1075 ∧ 2 ^ 63 < a.sig.toNat) := by
    unfold convertsRight
    rw [hcls, Bool.and_eq_true, Bool.not_eq_true', Bool.not_eq_true', ← Bool.not_eq_true,
      ← Bool.not_eq_true]
    simp only [Bool.and_eq_true, decide_eq_true_eq, beq_iff_eq, and_assoc]
  have hinf : infCode < 2 ^ 63 := by decide
  have hmin : min a.nearestCode infCode < 2 ^ 63 := (min_le_right _ _).trans_lt hinf
  have hnear := nearest_magnitude hsig
  rw [hcond, ← codeOf_eq_iff hsig, toF64_normal hcls hsig]
  constructor
  · intro h
    obtain ⟨c, hc, hbits⟩ := h.normal hcls
    rw [Nearest.unique binary64.val_strictMono hc hnear] at hbits
    exact doubleBits_inj (codeOf_lt hsig) hmin hbits
  · intro h
    refine ⟨?_, ?_, fun _ => ⟨a.nearestCode, hnear, by rw [h]⟩, ?_⟩
    all_goals
      rw [hcls]
      intro hne
      cases hne

theorem toF64_nan (hcls : a.cls = .nan) : toF64 a = doubleBits a.sign (infCode +
    if a.sig.toNat / 2 ^ 11 % 2 ^ 52 = 0 then 1 else a.sig.toNat / 2 ^ 11 % 2 ^ 52) := by
  have hpayload : a.sig >>> 11 &&& 0xfffffffffffff =
      BitVec.ofNat 64 (a.sig.toNat / 2 ^ 11 % 2 ^ 52) := by
    have hmask : (0xfffffffffffff : U64).toNat = 2 ^ 52 - 1 := rfl
    apply BitVec.eq_of_toNat_eq
    rw [BitVec.toNat_and, hmask, and_two_pow_sub_one_eq_mod, BitVec.toNat_ushiftRight,
      shiftRight_eq_div_pow, BitVec.toNat_ofNat]
    omega
  have hmod : a.sig.toNat / 2 ^ 11 % 2 ^ 52 < 2 ^ 52 := mod_lt _ (Nat.two_pow_pos 52)
  unfold toF64 doubleBits
  rw [hcls]
  dsimp only
  rw [hpayload]
  generalize a.sig.toNat / 2 ^ 11 % 2 ^ 52 = n at hmod
  have hinf : infCode = 0x7ff * 2 ^ 52 := rfl
  have hzero : BitVec.ofNat 64 n = 0 ↔ n = 0 := by
    rw [← BitVec.toNat_inj]
    change n % 2 ^ 64 = 0 ↔ n = 0
    omega
  have hif : (if BitVec.ofNat 64 n = 0 then 1 else BitVec.ofNat 64 n) =
      BitVec.ofNat 64 (if n = 0 then 1 else n) := by
    rw [apply_ite (BitVec.ofNat 64)]
    simp only [hzero]
    rfl
  have hlt : (if n = 0 then 1 else n) < 2 ^ 52 := by
    split
    · decide
    · exact hmod
  rw [hif, hinf, ofNat_fields hlt, ← BitVec.or_assoc]
  rfl

theorem doubleOf_nan_iff (hcls : a.cls = .nan) : DoubleOf a (toF64 a) ↔ convertsRight a = true := by
  have hright : DoubleOf a (toF64 a) ↔
      toF64 a = doubleBits a.sign (infCode + 2 ^ 51 + a.sig.toNat / 2 ^ 11 % 2 ^ 51) := by
    constructor
    · intro h
      exact h.nan hcls
    · intro h
      refine ⟨?_, ?_, ?_, fun _ => h⟩
      all_goals
        rw [hcls]
        intro hne
        cases hne
  have hbit : convertsRight a = true ↔ a.sig.toNat / 2 ^ 62 % 2 = 1 := by
    unfold convertsRight
    rw [hcls]
    change a.sig.toNat.testBit 62 = true ↔ _
    rw [testBit_eq_decide_div_mod_eq, decide_eq_true_iff]
  have hinf : infCode = 0x7ff * 2 ^ 52 := rfl
  have hlt := a.sig.isLt
  rw [hright, hbit, toF64_nan hcls]
  generalize a.sig.toNat = n at hlt
  constructor
  · intro h
    have hcode := doubleBits_inj (by split <;> omega) (by omega) h
    split at hcode
    · omega
    · omega
  · intro h
    congr 1
    rw [if_neg (by omega)]
    omega

theorem doubleOf_plain (hnormal : a.cls ≠ .normal) (hnan : a.cls ≠ .nan) :
    DoubleOf a (toF64 a) where
  zero := by
    intro h
    unfold toF64 doubleBits
    rw [h]
    exact BitVec.or_zero.symm
  inf := by
    intro h
    unfold toF64 doubleBits
    rw [h]
    rfl
  normal := fun h => absurd h hnormal
  nan := fun h => absurd h hnan

theorem convertsRight_plain (hnormal : a.cls ≠ .normal) (hnan : a.cls ≠ .nan) :
    convertsRight a = true := by
  unfold convertsRight
  split
  case h_1 h => exact absurd h hnan
  case h_2 h => exact absurd h hnormal
  case h_3 => rfl

/-- The conversion is right exactly for quiet NaNs and for the numbers outside of two ranges among
the denormals. -/
theorem toF64_right_iff (a : Value) :
    DoubleOf a.val (toF64 a.val) ↔ convertsRight a.val = true := by
  by_cases hnormal : a.val.cls = .normal
  · exact doubleOf_normal_iff hnormal (a.le_sig hnormal)
  · by_cases hnan : a.val.cls = .nan
    · exact doubleOf_nan_iff hnan
    · exact iff_of_true (doubleOf_plain hnormal hnan) (convertsRight_plain hnormal hnan)

/-- The largest number below `2^-1023` becomes twice that, three quarters of the smallest
denormal become zero, and a signaling NaN stays one. -/
theorem toF64_wrong : toF64 ⟨false, .normal, -1024, BitVec.allOnes 64⟩ = 0x0010000000000000 ∧
      ¬DoubleOf ⟨false, .normal, -1024, BitVec.allOnes 64⟩
        (toF64 ⟨false, .normal, -1024, BitVec.allOnes 64⟩) ∧
      toF64 ⟨false, .normal, -1075, 0xc000000000000000⟩ = 0 ∧
      ¬DoubleOf ⟨false, .normal, -1075, 0xc000000000000000⟩
        (toF64 ⟨false, .normal, -1075, 0xc000000000000000⟩) ∧
      toF64 ⟨false, .nan, 0, 0xa000000000000000⟩ = 0x7ff4000000000000 ∧
      ¬DoubleOf ⟨false, .nan, 0, 0xa000000000000000⟩
        (toF64 ⟨false, .nan, 0, 0xa000000000000000⟩) := by
  refine ⟨by decide, ?_, by decide, ?_, by decide, ?_⟩
  · rw [doubleOf_normal_iff rfl (by decide)]
    decide
  · rw [doubleOf_normal_iff rfl (by decide)]
    decide
  · rw [doubleOf_nan_iff rfl]
    decide

end X86Jit.F80
