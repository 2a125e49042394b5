import X86Jit.Fpu.Doubles

/-! The conversions between the values of the unit and 64-bit integers. -/
namespace X86Jit.F80
open X86Jit.Lib X86Jit.Lib.Rounding Nat

def roundingOf (rc : ℕ) : Rounding :=
  match rc with
  | 1 => .down
  | 2 => .up
  | 3 => .towardZero
  | _ => .nearestEven

def fitsI64 (n : ℤ) : Prop := -2 ^ 63 ≤ n ∧ n < 2 ^ 63

/-- The integer that a finite value rounds to. The others round to none. -/
def RoundsTo (a : F80) (rc : ℕ) (n : ℤ) : Prop :=
  a.cls = .zero ∧ n = 0 ∨ a.cls = .normal ∧ n = (roundingOf rc).toInt a.real

variable {a : F80} {m d rc : ℕ}

theorem magnitude_parts (hexp : a.exp + d = 63) :
    a.magnitude = (a.sig.toNat / 2 ^ d : ℕ) + (a.sig.toNat % 2 ^ d : ℕ) / (2 : ℝ) ^ d := by
  have hpow : (0 : ℝ) < 2 ^ d := pow_pos two_pos d
  have hsplit : (a.sig.toNat : ℝ) =
      ((a.sig.toNat / 2 ^ d : ℕ) + (a.sig.toNat % 2 ^ d : ℕ) / (2 : ℝ) ^ d) * 2 ^ d := by
    rw [add_mul, div_mul_cancel₀ _ hpow.ne']
    exact_mod_cast (div_add_mod' a.sig.toNat (2 ^ d)).symm
  have hneg : a.exp - 63 = -(d : ℤ) := by omega
  unfold magnitude
  rw [hneg, zpow_neg, zpow_natCast, ← div_eq_mul_inv, div_eq_iff hpow.ne']
  exact hsplit

theorem decideRound_iff (rc : ℕ) {int frac half : U64} (hd : 0 < d) (hint : int.toNat = m / 2 ^ d)
    (hfrac : frac.toNat = m % 2 ^ d) (hhalf : half.toNat = 2 ^ (d - 1)) (sign : Bool) :
    decideRound int frac half sign rc = true ↔
      (roundingOf rc).GoesUp sign (m / 2 ^ d) ((m % 2 ^ d : ℕ) / 2 ^ d) := by
  have hpow : (0 : ℝ) < 2 ^ d := pow_pos two_pos d
  have hlost : (frac != 0) = true ↔ ((m % 2 ^ d : ℕ) : ℝ) / 2 ^ d ≠ 0 := by
    rw [bne_iff_ne, ne_eq, ne_eq, div_eq_zero_iff, or_iff_left hpow.ne', cast_eq_zero, ← hfrac,
      ← BitVec.toNat_inj]
    rfl
  have hnearest : (half.ult frac || (frac == half && int &&& 1 != 0)) = true ↔
      nearestEven.GoesUp sign (m / 2 ^ d) ((m % 2 ^ d : ℕ) / 2 ^ d) := by
    have hodd : (int &&& 1 != 0) = true ↔ m / 2 ^ d % 2 = 1 := by
      rw [and_one_bne_zero, ← hint]
      unfold BitVec.getLsbD
      rw [testBit_zero, decide_eq_true_iff]
    have hsign : nearestEven.GoesUp sign (m / 2 ^ d) ((m % 2 ^ d : ℕ) / 2 ^ d) ↔
      nearestEven.GoesUp false (m / 2 ^ d) ((m % 2 ^ d : ℕ) / 2 ^ d) := Iff.rfl
    rw [hsign, goesUp_units hd, Bool.or_eq_true, Bool.and_eq_true, hodd, beq_iff_eq,
      ← BitVec.toNat_inj, hfrac, hhalf]
    unfold BitVec.ult
    rw [decide_eq_true_iff, hfrac, hhalf]
  match rc with
  | 0 => exact hnearest
  | 1 => exact Bool.and_eq_true_iff.trans (and_congr Iff.rfl hlost)
  | 2 => exact Bool.and_eq_true_iff.trans (and_congr (by rw [Bool.not_eq_true']) hlost)
  | 3 => exact iff_of_false Bool.false_ne_true id
  | _ + 4 => exact hnearest

theorem roundFractionUp_iff (rc : ℕ) (hm : 0 < m) (hd : m < 2 ^ (d - 1)) (sign : Bool) :
    roundFractionUp sign rc = true ↔
      (roundingOf rc).GoesUp sign (m / 2 ^ d) ((m % 2 ^ d : ℕ) / 2 ^ d) := by
  have hpos : 0 < d := by
    by_contra hzero
    rw [Nat.eq_zero_of_not_pos hzero] at hd
    omega
  have hle : 2 ^ (d - 1) ≤ 2 ^ d := Nat.pow_le_pow_right two_pos (by omega)
  have hmod : m % 2 ^ d = m := mod_eq_of_lt (by omega)
  have hlost : ((m % 2 ^ d : ℕ) : ℝ) / 2 ^ d ≠ 0 := by
    rw [hmod]
    positivity
  have hnearest : ¬ nearestEven.GoesUp sign (m / 2 ^ d) ((m % 2 ^ d : ℕ) / 2 ^ d) := by
    intro hup
    have hunits := (goesUp_units hpos).mp hup
    omega
  match rc with
  | 0 => exact iff_of_false Bool.false_ne_true hnearest
  | 1 => exact (and_iff_left hlost).symm
  | 2 =>
    change (!sign) = true ↔ _
    rw [Bool.not_eq_true']
    exact (and_iff_left hlost).symm
  | 3 => exact iff_of_false Bool.false_ne_true id
  | _ + 4 => exact iff_of_false Bool.false_ne_true hnearest

open Classical in
theorem toI64Rc_parts (hcls : a.cls = .normal) (hsig : 2 ^ 63 ≤ a.sig.toNat) (hd : 0 < d)
    (hexp : a.exp + d = 63) : toI64Rc a rc = applySign (BitVec.ofNat 64
      (a.sig.toNat / 2 ^ d + if (roundingOf rc).GoesUp a.sign (a.sig.toNat / 2 ^ d)
        ((a.sig.toNat % 2 ^ d : ℕ) / 2 ^ d) then 1 else 0)) a.sign := by
  have hlt := a.sig.isLt
  unfold toI64Rc
  rw [hcls]
  dsimp only
  rw [if_neg (by omega)]
  -- below a half, from a half to one, and from one on, as the code has it
  by_cases hsmall : a.exp < -1
  · have hbig : 2 ^ 64 ≤ 2 ^ (d - 1) := Nat.pow_le_pow_right two_pos (by omega)
    have hle : 2 ^ (d - 1) ≤ 2 ^ d := Nat.pow_le_pow_right two_pos (by omega)
    have hfar : a.sig.toNat < 2 ^ (d - 1) := by omega
    have hup := roundFractionUp_iff rc (by omega) hfar a.sign
    rw [if_pos hsmall, div_eq_of_lt (by omega : a.sig.toNat < 2 ^ d), zero_add]
    rw [div_eq_of_lt (by omega : a.sig.toNat < 2 ^ d)] at hup
    by_cases hgoes : roundFractionUp a.sign rc = true
    · rw [if_pos hgoes, if_pos (hup.mp hgoes)]
      rfl
    · rw [if_neg hgoes, if_neg (mt hup.mpr hgoes)]
      cases a.sign <;> rfl
  · rw [if_neg hsmall]
    by_cases hone : a.exp = -1
    · obtain rfl : d = 64 := by omega
      have hint : (0 : U64).toNat = a.sig.toNat / 2 ^ 64 := (div_eq_of_lt hlt).symm
      have hhalf : (0x8000000000000000 : U64).toNat = 2 ^ (64 - 1) := rfl
      have hup := decideRound_iff rc hd hint (mod_eq_of_lt hlt).symm hhalf a.sign
      rw [if_pos hone]
      simp only [hup]
      rw [div_eq_of_lt hlt, zero_add]
      split_ifs <;> rfl
    · have hshift : (63 - a.exp).toNat = d := by omega
      have hd64 : d < 64 := by omega
      have hint : (a.sig >>> d).toNat = a.sig.toNat / 2 ^ d := by
        rw [BitVec.toNat_ushiftRight, shiftRight_eq_div_pow]
      have hup := decideRound_iff rc hd hint (toNat_low_bits a.sig hd64)
        (toNat_one_shiftLeft (by omega : d - 1 < 64)) a.sign
      rw [if_neg hone, hshift]
      simp only [hup]
      congr 1
      apply BitVec.eq_of_toNat_eq
      rw [BitVec.toNat_add, hint, BitVec.toNat_ofNat]
      split_ifs <;> rfl

variable {n : ℤ}

open Classical in
theorem toInt_applySign (hm : m ≤ 2 ^ 63) {sign : Bool} (hn : n = if sign then -(m : ℤ) else m) :
    (applySign (BitVec.ofNat 64 m) sign).toInt = if fitsI64 n then n else -2 ^ 63 := by
  have hnat : (BitVec.ofNat 64 m).toNat = m := mod_eq_of_lt (by omega)
  unfold fitsI64
  rw [hn]
  cases sign with
  | false =>
    change (BitVec.ofNat 64 m).toInt = _
    rw [BitVec.toInt_eq_toNat_cond, hnat, if_neg Bool.false_ne_true]
    by_cases htop : m = 2 ^ 63
    · rw [if_neg (by omega), if_neg (by omega), htop]
      norm_num
    · rw [if_pos (by omega), if_pos (by omega)]
  | true =>
    change (-BitVec.ofNat 64 m).toInt = _
    rw [if_pos rfl, if_pos (by omega), BitVec.toInt_eq_toNat_cond, BitVec.toNat_neg, hnat]
    by_cases hzero : m = 0
    · rw [hzero]
      rfl
    · rw [mod_eq_of_lt (by omega), if_neg (by omega)]
      omega

theorem eq_min_of_fits (hbig : 2 ^ 63 ≤ a.magnitude)
    (hn : n = (roundingOf rc).toInt a.real) (hfits : fitsI64 n) : n = -2 ^ 63 := by
  obtain ⟨hfloor, hceil⟩ := (roundingOf rc).toInt_mem a.real
  unfold real at hfloor hceil hn
  obtain ⟨hlow, hhigh⟩ := hfits
  cases hsign : a.sign with
  | false =>
    have hle : (2 ^ 63 : ℤ) ≤ ⌊signed a.sign * a.magnitude⌋ := by
      apply Int.le_floor.mpr
      rw [hsign]
      change _ ≤ (1 : ℝ) * _
      rw [one_mul]
      exact_mod_cast hbig
    omega
  | true =>
    have hle : ⌈signed a.sign * a.magnitude⌉ ≤ (-2 ^ 63 : ℤ) := by
      apply Int.ceil_le.mpr
      rw [hsign]
      change (-1 : ℝ) * _ ≤ _
      push_cast
      linarith
    omega

theorem toI64Rc_large (hcls : a.cls = .normal) (hexp : 63 ≤ a.exp) : toI64Rc a rc = minI64 := by
  unfold toI64Rc
  rw [hcls]
  exact if_pos hexp

open Classical in
theorem toI64Rc_normal (hcls : a.cls = .normal) (hsig : 2 ^ 63 ≤ a.sig.toNat)
    (hn : n = (roundingOf rc).toInt a.real) :
    (toI64Rc a rc).toInt = if fitsI64 n then n else -2 ^ 63 := by
  by_cases hexp : 63 ≤ a.exp
  · -- the result is the least integer, whether this is meant or stands for an overflow
    have hbig : (2 : ℝ) ^ 63 ≤ a.magnitude := by
      calc (2 : ℝ) ^ 63 = 2 ^ (63 : ℤ) := (zpow_natCast 2 63).symm
        _ ≤ 2 ^ a.exp := zpow_le_zpow_right₀ one_le_two hexp
        _ ≤ a.magnitude := (magnitude_bounds hsig).1
    rw [toI64Rc_large hcls hexp]
    by_cases hfits : fitsI64 n
    · rw [if_pos hfits, eq_min_of_fits hbig hn hfits]
      rfl
    · rw [if_neg hfits]
      rfl
  · -- `d` bits of the significand are below the point
    obtain ⟨d, hd⟩ : ∃ d : ℕ, a.exp + d = 63 := ⟨(63 - a.exp).toNat, by omega⟩
    have hdpos : 0 < d := by omega
    have hpow : (0 : ℝ) < 2 ^ d := pow_pos two_pos d
    have hmod : ((a.sig.toNat % 2 ^ d : ℕ) : ℝ) < 2 ^ d := by
      exact_mod_cast Nat.mod_lt a.sig.toNat (Nat.two_pow_pos d)
    have hquot : a.sig.toNat / 2 ^ d < 2 ^ 63 := by
      rw [Nat.div_lt_iff_lt_mul (Nat.two_pow_pos d)]
      calc a.sig.toNat < 2 ^ 63 * 2 ^ 1 := a.sig.isLt
        _ ≤ 2 ^ 63 * 2 ^ d := mul_le_mul_left _ (Nat.pow_le_pow_right two_pos hdpos)
    have hround := toInt_signed (k := a.sig.toNat / 2 ^ d)
      (f := (a.sig.toNat % 2 ^ d : ℕ) / 2 ^ d) a.sign (roundingOf rc) (by positivity)
      ((div_lt_one hpow).mpr hmod)
    rw [← magnitude_parts hd] at hround
    change ((roundingOf rc).toInt a.real : ℝ) = _ at hround
    rw [← hn] at hround
    rw [toI64Rc_parts hcls hsig hdpos hd]
    -- rounding up may carry, but not beyond 2^63
    apply toInt_applySign (by split_ifs <;> omega)
    apply Int.cast_injective (α := ℝ)
    rw [hround]
    cases a.sign with
    | false =>
      change 1 * _ = _
      rw [one_mul]
      push_cast
      rfl
    | true =>
      change -1 * _ = _
      rw [neg_one_mul]
      push_cast
      rfl

variable {v : U64}

theorem fits_toInt (v : U64) : fitsI64 v.toInt :=
  ⟨BitVec.le_toInt v, BitVec.toInt_lt⟩

theorem fromI64_normal (h : v ≠ 0) :
    (fromI64 v).cls = .normal ∧ 2 ^ 63 ≤ (fromI64 v).sig.toNat ∧ (fromI64 v).real = v.toInt := by
  have hmag : (if v.msb then -v else v) ≠ 0 := by
    split_ifs
    · exact neg_ne_zero.mpr h
    · exact h
  obtain ⟨hnat, hle⟩ := toNat_normalised hmag
  have hv : fromI64 v = ⟨v.msb, .normal, 63 - (if v.msb then -v else v).clz.toNat,
      (if v.msb then -v else v) <<< (if v.msb then -v else v).clz.toNat⟩ := if_neg h
  have habs : signed v.msb * ((if v.msb then -v else v).toNat : ℝ) = v.toInt := by
    have hlt := v.isLt
    have hpos : v.toNat ≠ 0 := fun hzero => h (BitVec.eq_of_toNat_eq hzero)
    rw [BitVec.toInt_eq_msb_cond]
    cases v.msb with
    | false => simp [signed]
    | true =>
      rw [if_pos rfl, BitVec.toNat_neg, mod_eq_of_lt (by omega), cast_sub hlt.le]
      simp [signed]
  rw [hv]
  refine ⟨rfl, hnat ▸ hle, ?_⟩
  generalize (if v.msb then -v else v) = mag at hnat hle habs
  have hexp : (63 : ℤ) - mag.clz.toNat - 63 = -(mag.clz.toNat : ℤ) := by omega
  have hpow : (2 : ℝ) ^ mag.clz.toNat ≠ 0 := (pow_pos two_pos _).ne'
  unfold real magnitude
  rw [hnat, hexp, zpow_neg, zpow_natCast, cast_mul, cast_pow, cast_ofNat,
    mul_inv_cancel_right₀ hpow, habs]

theorem toI64Rc_rounds (a : Value) (h : a.val.RoundsTo rc n) (hfits : fitsI64 n) :
    (toI64Rc a.val rc).toInt = n := by
  rcases h with ⟨hzero, rfl⟩ | ⟨hcls, hn⟩
  · unfold toI64Rc
    rw [hzero]
    rfl
  · rw [toI64Rc_normal hcls (a.le_sig hcls) hn, if_pos hfits]

theorem toI64Rc_unfit (a : Value) (h : ∀ n, a.val.RoundsTo rc n → ¬fitsI64 n) :
    toI64Rc a.val rc = minI64 := by
  cases hcls : a.val.cls with
  | zero => exact absurd ⟨by decide, by decide⟩ (h 0 (.inl ⟨hcls, rfl⟩))
  | normal =>
    apply BitVec.eq_of_toInt_eq
    rw [toI64Rc_normal hcls (a.le_sig hcls) rfl, if_neg (h _ (.inr ⟨hcls, rfl⟩))]
    rfl
  | inf | nan | unsupported =>
    unfold toI64Rc
    rw [hcls]

theorem toI64Rc_fromI64 (v : U64) : toI64Rc (fromI64 v) rc = v := by
  by_cases hzero : v = 0
  · rw [hzero]
    rfl
  · obtain ⟨hcls, hsig, hreal⟩ := fromI64_normal hzero
    have hn : v.toInt = (roundingOf rc).toInt (fromI64 v).real := by
      rw [hreal, toInt_intCast]
    apply BitVec.eq_of_toInt_eq
    rw [toI64Rc_normal hcls hsig hn, if_pos (fits_toInt v)]

/-- The conversion gives the integer that the value rounds to if that fits, and the least integer
otherwise; an integer that was converted comes back in every mode. -/
theorem toI64Rc_right (rc : ℕ) : (∀ a : Value,
      (∀ n, a.val.RoundsTo rc n → fitsI64 n → (toI64Rc a.val rc).toInt = n) ∧
        ((∀ n, a.val.RoundsTo rc n → ¬fitsI64 n) → toI64Rc a.val rc = minI64)) ∧
      ∀ v : U64, toI64Rc (fromI64 v) rc = v :=
  ⟨fun a => ⟨fun _ => toI64Rc_rounds a, toI64Rc_unfit a⟩, toI64Rc_fromI64⟩

/-- To nearest 5/2 becomes 2 and 2^63 the least integer. -/
theorem toI64Rc_right_at : (toI64Rc ⟨false, .normal, 1, 0xa000000000000000⟩ 0).toInt = 2 ∧
      toI64Rc ⟨false, .normal, 63, 0x8000000000000000⟩ 0 = minI64 ∧ toI64Rc (fromI64 7) 3 = 7 := by
  have hhalf : (⟨false, .normal, 1, 0xa000000000000000⟩ : F80).real = (2 : ℕ) + 1 / 2 := by
    change signed false * ((5 * 2 ^ 61 : ℕ) * 2 ^ (1 - 63 : ℤ)) = _
    norm_num [signed]
  have hbig : (⟨false, .normal, 63, 0x8000000000000000⟩ : F80).real = (2 ^ 63 : ℤ) := by
    change signed false * ((2 ^ 63 : ℕ) * 2 ^ (63 - 63 : ℤ)) = _
    norm_num [signed]
  obtain ⟨hright, -⟩ := toI64Rc_right 0
  refine ⟨(hright ⟨⟨false, .normal, 1, 0xa000000000000000⟩, fun _ => by decide⟩).1 2 ?_ ?_,
    (hright ⟨⟨false, .normal, 63, 0x8000000000000000⟩, fun _ => by decide⟩).2 ?_,
    (toI64Rc_right 3).2 7⟩
  · refine .inr ⟨rfl, ?_⟩
    change 2 = halfEven _
    rw [hhalf, halfEven_parts (by norm_num) (by norm_num)]
    norm_num
  · exact ⟨by decide, by decide⟩
  · rintro n (⟨hcls, -⟩ | ⟨-, hn⟩) hfits
    · cases hcls
    · rw [hbig, toInt_intCast] at hn
      exact absurd hfits.2 hn.not_lt

end X86Jit.F80
