import X86Jit.Fpu.Denormals
import X86Jit.Fpu.Doubles

/-! From a double to an 80-bit value and back, and from an encoding to the working form and
back. -/
namespace X86Jit.F80
open X86Jit.Lib X86Jit.Lib.Rounding BitVec Nat

def doubleSnan (bits : U64) : Bool :=
  bits >>> 52 &&& 0x7ff == 0x7ff && bits &&& 0xfffffffffffff != 0 && !bits.getLsbD 51

variable (bits : U64)

theorem toNat_exponent : (bits >>> 52 &&& 0x7ff).toNat = bits.toNat / 2 ^ 52 % 2 ^ 11 := by
  have hmask : (0x7ff : U64).toNat = 2 ^ 11 - 1 := rfl
  rw [toNat_and, hmask, and_two_pow_sub_one_eq_mod, toNat_ushiftRight,
    shiftRight_eq_div_pow]

theorem toNat_fraction : (bits &&& 0xfffffffffffff).toNat = bits.toNat % 2 ^ 52 := by
  have hmask : (0xfffffffffffff : U64).toNat = 2 ^ 52 - 1 := rfl
  rw [toNat_and, hmask, and_two_pow_sub_one_eq_mod]

theorem doubleBits_fields (bits : U64) :
    doubleBits (bits.getLsbD 63) (bits.toNat % 2 ^ 63) = bits := by
  have hsign : bits.getLsbD 63 = decide (bits.toNat / 2 ^ 63 % 2 = 1) :=
    testBit_eq_decide_div_mod_eq
  apply eq_of_toNat_eq
  rw [toNat_doubleBits (Nat.mod_lt _ (Nat.two_pow_pos 63)), hsign]
  by_cases htop : bits.toNat / 2 ^ 63 % 2 = 1
  · rw [decide_eq_true htop, if_pos rfl]
    omega
  · rw [decide_eq_false htop, if_neg Bool.false_ne_true]
    omega

variable {bits}

/-- A normal value that is the double with a sign and a code, and does not carry. -/
structure Widened (a : F80) (sign : Bool) (c : ℕ) : Prop where
  cls : a.cls = .normal
  sign : a.sign = sign
  le_sig : 2 ^ 63 ≤ a.sig.toNat
  magnitude : a.magnitude = binary64.val c
  exp : -1074 ≤ a.exp
  carries : a.carries = false

variable {sign : Bool}

theorem widened_normal {e f : ℕ} {sig : U64} (he : 1 ≤ e) (hf : f < 2 ^ 52)
    (hsig : sig.toNat = 2 ^ 63 + f * 2 ^ 11) :
    Widened ⟨sign, .normal, e - 1023, sig⟩ sign (e * 2 ^ 52 + f) where
  cls := rfl
  sign := rfl
  le_sig := by
    dsimp only
    omega
  magnitude := by
    obtain ⟨j, rfl⟩ := Nat.exists_eq_add_of_le' he
    have hval := Binary.val_code (F := binary64) (j := j) (k := 2 ^ 52 + f) (by
      change 2 ^ 52 + f ≤ 2 ^ 53
      omega) (.inr (le_add_right _ _))
    have hcode : (j + 1) * 2 ^ 52 + f = j * 2 ^ binary64.bits + (2 ^ 52 + f) := by
      change _ = j * 2 ^ 52 + (2 ^ 52 + f)
      ring
    have hpow : (2 : ℝ) ^ (((j + 1 : ℕ) : ℤ) - 1023 - 63) * 2 ^ 11 =
        2 ^ (binary64.emin - binary64.bits + j) := by
      rw [← zpow_natCast, ← zpow_add₀ two_ne_zero]
      congr 1
      change _ = (-1022 : ℤ) - (52 : ℕ) + j
      push_cast
      ring
    have hscaled : 2 ^ 63 + f * 2 ^ 11 = (2 ^ 52 + f) * 2 ^ 11 := by ring
    rw [hcode, hval, ← hpow]
    change (sig.toNat : ℝ) * _ = _
    rw [hsig]
    push_cast
    ring
  exp := by
    dsimp only
    omega
  carries := by
    apply decide_eq_false
    dsimp only
    omega

theorem widened_denormal {f : U64} (sign : Bool) (hf : f.toNat < 2 ^ 52) (hne : f ≠ 0) :
    12 ≤ f.clz.toNat ∧
      Widened ⟨sign, .normal, -1011 - f.clz.toNat, f <<< f.clz.toNat⟩ sign f.toNat := by
  obtain ⟨hnat, htop⟩ := toNat_normalised hne
  have hclz := clz_lt hne
  have hlow : 2 ^ (64 - 1 - f.clz.toNat) ≤ f.toNat :=
    two_pow_sub_clz_le_toNat_of_ne_zero (by decide) hne
  have hzeros : 12 ≤ f.clz.toNat := by
    by_contra hfew
    have hbig : 2 ^ 52 ≤ 2 ^ (64 - 1 - f.clz.toNat) := Nat.pow_le_pow_right two_pos (by omega)
    omega
  refine ⟨hzeros, rfl, rfl, ?_, ?_, ?_, ?_⟩
  · rw [hnat]
    exact htop
  · have hval := Binary.val_code (F := binary64) (j := 0) (k := f.toNat) (by
      change f.toNat ≤ 2 ^ 53
      omega) (.inl rfl)
    rw [Nat.zero_mul, Nat.zero_add] at hval
    have hpow : (2 : ℝ) ^ f.clz.toNat * 2 ^ (-1011 - (f.clz.toNat : ℤ) - 63) =
        2 ^ (binary64.emin - binary64.bits + ((0 : ℕ) : ℤ)) := by
      rw [← zpow_natCast, ← zpow_add₀ two_ne_zero]
      congr 1
      change _ = (-1022 : ℤ) - (52 : ℕ) + ((0 : ℕ) : ℤ)
      ring
    rw [hval, ← hpow]
    change ((f <<< f.clz.toNat).toNat : ℝ) * _ = _
    rw [hnat]
    push_cast
    ring
  · dsimp only
    omega
  · -- the lowest twelve bits are clear
    obtain ⟨c, hc⟩ := Nat.exists_eq_add_of_le hzeros
    have hdvd : (f <<< f.clz.toNat).toNat = f.toNat * 2 ^ c * 2 ^ 12 := by
      rw [hnat, hc]
      ring
    apply decide_eq_false
    dsimp only
    omega

theorem fromF64_finite (hexp : bits.toNat / 2 ^ 52 % 2 ^ 11 ≠ 0x7ff)
    (hzero : bits.toNat % 2 ^ 63 ≠ 0) :
    Widened (fromF64 bits) (bits.getLsbD 63) (bits.toNat % 2 ^ 63) := by
  have hfrac := toNat_fraction bits
  have hlt : (bits &&& 0xfffffffffffff).toNat < 2 ^ 52 := by
    rw [hfrac]
    exact Nat.mod_lt _ (Nat.two_pow_pos 52)
  have hinf : ¬((bits.toNat / 2 ^ 52 % 2 ^ 11 : ℕ) : ℤ) = 0x7ff := by
    exact_mod_cast hexp
  unfold fromF64
  dsimp only
  rw [toNat_exponent, if_neg hinf]
  by_cases hlow : bits.toNat / 2 ^ 52 % 2 ^ 11 = 0
  · -- a denormal is shifted up until its highest bit is the integer bit
    have hcode : bits.toNat % 2 ^ 63 = (bits &&& 0xfffffffffffff).toNat := by omega
    have hne : bits &&& 0xfffffffffffff ≠ 0 := by
      intro h
      rw [h] at hcode
      exact hzero hcode
    obtain ⟨hzeros, hwide⟩ := widened_denormal (bits.getLsbD 63) hlt hne
    have hshift : (bits &&& 0xfffffffffffff).clz.toNat - 11 + 11 =
        (bits &&& 0xfffffffffffff).clz.toNat := by omega
    have hexp' : (1 : ℤ) - 1023 - ((bits &&& 0xfffffffffffff).clz.toNat - 11 : ℕ) =
        -1011 - (bits &&& 0xfffffffffffff).clz.toNat := by omega
    rw [hlow, if_neg hne, hshift, hexp', hcode]
    exact hwide
  · have hpos : ¬((bits.toNat / 2 ^ 52 % 2 ^ 11 : ℕ) : ℤ) = 0 := by exact_mod_cast hlow
    have hcode : bits.toNat % 2 ^ 63 =
        bits.toNat / 2 ^ 52 % 2 ^ 11 * 2 ^ 52 + (bits &&& 0xfffffffffffff).toNat := by omega
    have hsig : (0x8000000000000000 ||| (bits &&& 0xfffffffffffff) <<< 11 : U64).toNat =
        2 ^ 63 + (bits &&& 0xfffffffffffff).toNat * 2 ^ 11 := by
      have hsmall : (bits &&& 0xfffffffffffff).toNat * 2 ^ 11 < 2 ^ 63 := by omega
      have hor := two_pow_add_eq_or_of_lt hsmall 1
      rw [mul_one] at hor
      rw [toNat_or, toNat_shiftLeft, Nat.shiftLeft_eq, Nat.mod_eq_of_lt (by omega),
        hor]
      rfl
    rw [if_neg hpos, hcode]
    exact widened_normal (one_le_iff_ne_zero.mpr hlow) hlt hsig

theorem Widened.toF64_eq {a : F80} {c : ℕ} (h : Widened a sign c)
    (hc : c < infCode) : toF64 a = doubleBits sign c := by
  have hself : Nearest binary64.val a.magnitude c := by
    rw [h.magnitude]
    exact Nearest.self binary64.val_strictMono c
  have hnear : a.nearestCode = c :=
    Nearest.unique binary64.val_strictMono (nearest_magnitude h.le_sig) hself
  have hcode : a.codeOf = min a.nearestCode infCode := by
    apply (codeOf_eq_iff h.le_sig).mpr
    have hexp := h.exp
    rw [h.carries]
    refine ⟨by simp, ?_⟩
    omega
  rw [toF64_normal h.cls h.le_sig, h.sign, hcode, hnear, min_eq_left hc.le]

theorem toF64_fromF64_nan {f : U64} (hf : f.toNat < 2 ^ 52) (hquiet : f.getLsbD 51 = true) :
    toF64 ⟨sign, .nan, 0, (f <<< 11) ||| 0xc000000000000000⟩ =
      doubleBits sign (infCode + f.toNat) := by
  have hbit : f.toNat / 2 ^ 51 % 2 = 1 := by
    have h : f.getLsbD 51 = decide (f.toNat / 2 ^ 51 % 2 = 1) :=
      testBit_eq_decide_div_mod_eq
    rw [hquiet] at h
    exact of_decide_eq_true h.symm
  have hshift : (f <<< 11).toNat = f.toNat * 2 ^ 11 := by
    rw [toNat_shiftLeft, Nat.shiftLeft_eq, Nat.mod_eq_of_lt (by omega)]
  -- of the two bits that are set, one is there already and the other lies above the fraction
  have hsig : ((f <<< 11) ||| 0xc000000000000000).toNat = 2 ^ 63 + f.toNat * 2 ^ 11 := by
    obtain ⟨r, hr⟩ : ∃ r, f.toNat * 2 ^ 11 = 2 ^ 62 + r :=
      Nat.exists_eq_add_of_le (by omega)
    have hlow : 2 ^ 62 + r = 2 ^ 62 ||| r := by
      have hor := two_pow_add_eq_or_of_lt (i := 62) (b := r) (by omega) 1
      rwa [mul_one] at hor
    have hhigh : 2 ^ 63 + (2 ^ 62 + r) = 2 ^ 63 ||| (2 ^ 62 + r) := by
      have hor := two_pow_add_eq_or_of_lt (i := 63) (b := 2 ^ 62 + r) (by omega) 1
      rwa [mul_one] at hor
    have hconst : (0xc000000000000000 : U64).toNat = 2 ^ 63 ||| 2 ^ 62 := by decide
    calc ((f <<< 11) ||| 0xc000000000000000).toNat = (2 ^ 62 ||| r) ||| (2 ^ 63 ||| 2 ^ 62) := by
          rw [toNat_or, hshift, hr, hlow, hconst]
      _ = 2 ^ 63 ||| (2 ^ 62 ||| r) := by
          rw [Nat.or_comm (2 ^ 62 ||| r), Nat.or_assoc, ← Nat.or_assoc (2 ^ 62), Nat.or_self]
      _ = 2 ^ 63 + f.toNat * 2 ^ 11 := by rw [hr, hhigh, hlow]
  have hfrac : (2 ^ 63 + f.toNat * 2 ^ 11) / 2 ^ 11 % 2 ^ 52 = f.toNat := by omega
  rw [toF64_nan rfl]
  rw [hsig, hfrac, if_neg (by omega)]

theorem toF64_fromF64 (h : doubleSnan bits = false) : toF64 (fromF64 bits) = bits := by
  have hfrac := toNat_fraction bits
  have hlt : (bits &&& 0xfffffffffffff).toNat < 2 ^ 52 := by
    rw [hfrac]
    exact Nat.mod_lt _ (Nat.two_pow_pos 52)
  have hfields := doubleBits_fields bits
  have hinf : infCode = 0x7ff * 2 ^ 52 := rfl
  -- an infinity or a quiet NaN, a zero, or a number
  by_cases hexp : bits.toNat / 2 ^ 52 % 2 ^ 11 = 0x7ff
  · have htop : ((bits.toNat / 2 ^ 52 % 2 ^ 11 : ℕ) : ℤ) = 0x7ff := by exact_mod_cast hexp
    have hcode : infCode + (bits &&& 0xfffffffffffff).toNat = bits.toNat % 2 ^ 63 := by omega
    unfold fromF64
    rw [toNat_exponent, if_pos htop]
    by_cases hnone : bits &&& 0xfffffffffffff = 0
    · rw [hnone] at hcode
      rw [← hcode] at hfields
      rw [if_pos hnone]
      exact hfields
    · have hquiet : (bits &&& 0xfffffffffffff).getLsbD 51 = true := by
        have hones : bits >>> 52 &&& 0x7ff = 0x7ff := by
          apply eq_of_toNat_eq
          rw [toNat_exponent, hexp]
          rfl
        unfold doubleSnan at h
        rw [hones, bne_iff_ne.mpr hnone, beq_self_eq_true, Bool.true_and, Bool.true_and,
          Bool.not_eq_false'] at h
        rw [getLsbD_and, h]
        rfl
      rw [if_neg hnone, toF64_fromF64_nan hlt hquiet, hcode, hfields]
  · by_cases hzero : bits.toNat % 2 ^ 63 = 0
    · have hlow : bits.toNat / 2 ^ 52 % 2 ^ 11 = 0 := by omega
      have hnone : bits &&& 0xfffffffffffff = 0 := by
        apply eq_of_toNat_eq
        change _ = 0
        omega
      rw [hzero] at hfields
      nth_rewrite 2 [← hfields]
      unfold fromF64
      rw [toNat_exponent, hlow, hnone]
      exact BitVec.or_zero.symm
    · have hfinite : bits.toNat % 2 ^ 63 < infCode := by omega
      rw [(fromF64_finite hexp hzero).toF64_eq hfinite, hfields]

def pseudoDenormal (b : BitVec 80) : Bool := b.extractLsb' 64 15 == 0 && b.getLsbD 63

def normalEncoding (b : BitVec 80) : Bool :=
  b.extractLsb' 64 15 != 0 && b.extractLsb' 64 15 != 0x7fff && b.getLsbD 63

variable (sign : Bool) (biased : BitVec 15) (sig : U64)

def bytesOf : BitVec 80 :=
  ((if sign then (0x8000 : U16) else 0) ||| biased.setWidth 16) ++ sig

theorem getLsbD_signBit (i : ℕ) :
    (if sign then (0x8000 : U16) else 0).getLsbD i = (sign && decide (15 = i)) := by
  have htop : (0x8000 : U16) = twoPow 16 15 := rfl
  cases sign with
  | false => simp
  | true =>
    rw [if_pos rfl, htop, getLsbD_twoPow]
    rfl

theorem bytesOf_fields (b : BitVec 80) :
    bytesOf (b.getLsbD 79) (b.extractLsb' 64 15) (b.setWidth 64) = b := by
  apply eq_of_getLsbD_eq
  intro i hi
  unfold bytesOf
  rw [getLsbD_append]
  by_cases hlow : i < 64
  · rw [if_pos hlow, getLsbD_setWidth, decide_eq_true hlow, Bool.true_and]
  · have hsum : 64 + (i - 64) = i := by omega
    rw [if_neg hlow, getLsbD_or, getLsbD_signBit, getLsbD_setWidth,
      getLsbD_extractLsb', hsum]
    by_cases hsign : i = 79
    · subst hsign
      simp
    · rw [decide_eq_false (by omega : ¬ 15 = i - 64), decide_eq_true (by omega : i - 64 < 15),
        decide_eq_true (by omega : i - 64 < 16)]
      simp

theorem field_bytesOf : (bytesOf sign biased sig).extractLsb' 64 15 = biased := by
  apply eq_of_getLsbD_eq
  intro i hi
  have hsum : 64 + i - 64 = i := by omega
  unfold bytesOf
  rw [getLsbD_extractLsb', getLsbD_append, if_neg (by omega), hsum,
    getLsbD_or, getLsbD_signBit, getLsbD_setWidth,
    decide_eq_false (by omega : ¬ 15 = i), decide_eq_true hi, decide_eq_true (by omega : i < 16)]
  simp

theorem sig_bytesOf : (bytesOf sign biased sig).setWidth 64 = sig := by
  exact setWidth_append_eq_right

theorem sign_bytesOf : (bytesOf sign biased sig).getLsbD 79 = sign := by
  unfold bytesOf
  rw [getLsbD_append, if_neg (by decide), getLsbD_or, getLsbD_signBit,
    getLsbD_setWidth]
  simp

theorem getLsbD_sig (b : BitVec 80) : (b.setWidth 64).getLsbD 63 = b.getLsbD 63 := by
  rw [getLsbD_setWidth]
  rfl

theorem ofInt_and_field (biased : BitVec 15) :
    BitVec.ofInt 16 (biased.toNat : ℤ) &&& 0x7fff = biased.setWidth 16 := by
  have hmask : (0x7fff : U16).toNat = 2 ^ 15 - 1 := rfl
  apply eq_of_toNat_eq
  rw [ofInt_natCast, toNat_and, hmask, and_two_pow_sub_one_eq_mod,
    toNat_ofNat, toNat_setWidth]
  omega

theorem or_integer_bit {sig : U64} (h : sig.getLsbD 63 = true) :
    sig ||| 0x8000000000000000 = sig := by
  have htop : (0x8000000000000000 : U64) = twoPow 64 63 := rfl
  apply eq_of_getLsbD_eq
  intro i hi
  rw [getLsbD_or, htop, getLsbD_twoPow]
  by_cases hsign : 63 = i
  · subst hsign
    rw [h, Bool.true_or]
  · rw [decide_eq_false hsign, Bool.and_false, Bool.or_false]

theorem toBytes_denormal {sig : U64} (sign : Bool) (hne : sig ≠ 0) :
    toBytes ⟨sign, .normal, emin - sig.clz.toNat, sig <<< sig.clz.toNat⟩ =
      bytesOf sign (if sig.getLsbD 63 then 1 else 0) sig := by
  obtain ⟨hnat, htop⟩ := toNat_normalised hne
  have hshift : (emin - (emin - (sig.clz.toNat : ℤ))).toNat = sig.clz.toNat := by omega
  have hunits : (sig <<< sig.clz.toNat).toNat / 2 ^ sig.clz.toNat = sig.toNat := by
    rw [hnat, Nat.mul_div_cancel _ (Nat.two_pow_pos _)]
  have hbit : sig.getLsbD 63 = decide (2 ^ 63 ≤ sig.toNat) := by
    have hmsb : sig.getLsbD 63 = sig.msb := rfl
    rw [hmsb, msb_eq_decide]
  rw [toBytes_low (hnat ▸ htop) (by omega), hshift, hunits]
  unfold denormalBytes bytesOf
  rw [hbit, ofNat_toNat]
  by_cases hbig : 2 ^ 63 ≤ sig.toNat
  · rw [if_neg (not_lt.mpr hbig), decide_eq_true hbig]
    rfl
  · rw [if_pos (not_le.mp hbig), decide_eq_false hbig]
    rfl

theorem toBytes_unsupported :
    toBytes ⟨sign, .unsupported, biased.toNat, sig⟩ = bytesOf sign biased sig := by
  unfold toBytes bytesOf
  dsimp only
  rw [ofInt_and_field]

theorem toBytes_normal {biased : BitVec 15} (sign : Bool) (sig : U64) (hlow : biased ≠ 0)
    (htop : biased ≠ 0x7fff) :
    toBytes ⟨sign, .normal, biased.toNat - bias, sig⟩ = bytesOf sign biased sig := by
  have hpos : biased.toNat ≠ 0 := fun h => hlow (eq_of_toNat_eq h)
  have hmax : biased.toNat ≠ 0x7fff := fun h => htop (eq_of_toNat_eq h)
  have hfield : (biased.toNat : ℤ) - bias + bias = biased.toNat := by omega
  have hsmall : ¬ expMax ≤ (biased.toNat : ℤ) := by
    unfold expMax
    omega
  have hnormal : ¬ (biased.toNat : ℤ) ≤ 0 := by omega
  unfold toBytes bytesOf
  dsimp only
  rw [hfield, if_neg hsmall, if_neg hnormal, ofInt_and_field]

theorem toBytes_fromBytes (b : BitVec 80) : toBytes (fromBytes b) =
    bytesOf (b.getLsbD 79) (if pseudoDenormal b then 1 else b.extractLsb' 64 15)
      (b.setWidth 64) := by
  have hzero : ((b.extractLsb' 64 15).toNat : ℤ) = 0 ↔ b.extractLsb' 64 15 = 0 := by
    rw [cast_eq_zero, ← toNat_inj]
    rfl
  have hmax : ((b.extractLsb' 64 15).toNat : ℤ) = expMax ↔ b.extractLsb' 64 15 = 0x7fff := by
    rw [← toNat_inj]
    exact cast_inj
  unfold fromBytes pseudoDenormal
  rw [← getLsbD_sig]
  generalize b.extractLsb' 64 15 = biased at hzero hmax ⊢
  generalize b.getLsbD 79 = sign
  generalize b.setWidth 64 = sig
  by_cases htop : biased = 0x7fff
  · -- infinities, NaNs and what the missing integer bit makes unsupported
    have hfield : (0x7fff : U16) &&& 0x7fff = (0x7fff : BitVec 15).setWidth 16 := by decide
    have hplain : ((0x7fff : BitVec 15) == 0) = false := by decide
    rw [if_pos (hmax.mpr htop), htop, hplain, Bool.false_and, if_neg Bool.false_ne_true]
    by_cases hint : sig.getLsbD 63 = true
    · rw [hint, Bool.not_true, if_neg Bool.false_ne_true]
      by_cases hinf : sig = 0x8000000000000000
      · rw [if_pos hinf, hinf]
        unfold toBytes inf bytesOf
        dsimp only
        rw [hfield]
      · rw [if_neg hinf]
        unfold toBytes bytesOf
        dsimp only
        rw [or_integer_bit hint, hfield]
    · rw [Bool.eq_false_iff.mpr hint]
      exact toBytes_unsupported sign 0x7fff sig
  · rw [if_neg (mt hmax.mp htop)]
    by_cases hlow : biased = 0
    · rw [if_pos (hzero.mpr hlow), hlow]
      by_cases hnone : sig = 0
      · have hclear : (0 : U64).getLsbD 63 = false := by decide
        rw [if_pos hnone, hnone, hclear, Bool.and_false, toBytes_zero]
        rfl
      · rw [if_neg hnone, toBytes_denormal sign hnone]
        rfl
    · rw [if_neg (mt hzero.mp hlow), beq_false_of_ne hlow, Bool.false_and,
        if_neg Bool.false_ne_true]
      cases sig.getLsbD 63 with
      | false => exact toBytes_unsupported sign biased sig
      | true => exact toBytes_normal sign sig hlow htop

variable {b : BitVec 80}

theorem toBytes_fromBytes_plain (h : pseudoDenormal b = false) : toBytes (fromBytes b) = b := by
  rw [toBytes_fromBytes, h, if_neg Bool.false_ne_true, bytesOf_fields]

theorem fromBytes_bytesOf_normal {biased : BitVec 15} {sig : U64} (sign : Bool)
    (hlow : biased ≠ 0) (htop : biased ≠ 0x7fff) (hint : sig.getLsbD 63 = true) :
    fromBytes (bytesOf sign biased sig) = ⟨sign, .normal, biased.toNat - bias, sig⟩ := by
  have hpos : (biased.toNat : ℤ) ≠ 0 := by
    intro h
    exact hlow (eq_of_toNat_eq (cast_eq_zero.mp h))
  have hmax : (biased.toNat : ℤ) ≠ expMax := by
    intro h
    exact htop (eq_of_toNat_eq (cast_inj.mp h))
  unfold fromBytes
  rw [field_bytesOf, sig_bytesOf, sign_bytesOf, if_neg hmax, if_neg hpos, hint]
  rfl

theorem fromBytes_pseudoDenormal (h : pseudoDenormal b = true) :
    fromBytes b = ⟨b.getLsbD 79, .normal, emin, b.setWidth 64⟩ := by
  obtain ⟨hfield, hint⟩ := Bool.and_eq_true_iff.mp h
  have hbit : (b.setWidth 64).getLsbD 63 = true := getLsbD_sig b ▸ hint
  have hne : b.setWidth 64 ≠ 0 := by
    intro hzero
    rw [hzero] at hbit
    exact absurd hbit (by decide)
  -- nothing stands before the integer bit, so there is nothing to shift away
  have hclz : (b.setWidth 64).clz.toNat = 0 := by
    obtain ⟨hnat, -⟩ := toNat_normalised hne
    have hfit := ((b.setWidth 64) <<< (b.setWidth 64).clz.toNat).isLt
    have hbig := le_toNat_of_msb hbit
    by_contra hpos
    have htwo : 2 ≤ 2 ^ (b.setWidth 64).clz.toNat := le_self_pow hpos 2
    have := mul_le_mul hbig htwo
    omega
  unfold fromBytes
  rw [eq_of_beq hfield, if_neg (by decide), if_neg hne, hclz]
  simp

theorem toBytes_fromBytes_pseudo (h : pseudoDenormal b = true) :
    normalEncoding (toBytes (fromBytes b)) = true ∧
      fromBytes (toBytes (fromBytes b)) = fromBytes b := by
  have hbit : (b.setWidth 64).getLsbD 63 = true := by
    rw [getLsbD_sig]
    exact (Bool.and_eq_true_iff.mp h).2
  rw [toBytes_fromBytes, h, if_pos rfl]
  constructor
  · unfold normalEncoding
    rw [field_bytesOf, ← getLsbD_sig, sig_bytesOf, hbit]
    rfl
  · rw [fromBytes_bytesOf_normal _ (by decide) (by decide) hbit, fromBytes_pseudoDenormal h]
    rfl

/-- A double that is no signaling NaN comes back as it was, and so does an encoding that is no
pseudo-denormal. -/
theorem round_trips : (∀ bits, doubleSnan bits = false → toF64 (fromF64 bits) = bits) ∧
      (∀ b, pseudoDenormal b = false → toBytes (fromBytes b) = b) ∧ ∀ b, pseudoDenormal b = true →
        normalEncoding (toBytes (fromBytes b)) = true ∧
          fromBytes (toBytes (fromBytes b)) = fromBytes b :=
  ⟨fun _ => toF64_fromF64, fun _ => toBytes_fromBytes_plain, fun _ => toBytes_fromBytes_pseudo⟩

theorem round_trips_at : toF64 (fromF64 1) = 1 ∧
      toBytes (fromBytes 0x0000_0000_0000_0000_0001) = 0x0000_0000_0000_0000_0001 ∧
      normalEncoding (toBytes (fromBytes 0x0000_8000_0000_0000_0001)) = true :=
  ⟨round_trips.1 1 (by decide), round_trips.2.1 _ (by decide),
    (round_trips.2.2 _ (by decide)).1⟩

end X86Jit.F80
