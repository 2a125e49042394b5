import X86Jit.Fpu.Arith
import X86Jit.Fpu.Compare
import X86Jit.Lib.Rounding

/-! The arithmetic of the x87 unit rounds correctly: the result is the exact real result rounded
once to the selected precision in the selected mode. -/
namespace X86Jit
open X86Jit.Lib X86Jit.Lib.Rounding Nat

def Ctl.mode (c : Ctl) : Rounding :=
  match c.rc with
  | 0 => .nearestEven
  | 1 => .down
  | 2 => .up
  | _ => .towardZero

theorem Ctl.sigBits_cases (c : Ctl) : c.sigBits = 24 ∨ c.sigBits = 53 ∨ c.sigBits = 64 := by
  unfold sigBits
  split <;> simp

namespace F80

noncomputable def real (a : F80) : ℝ := signed a.sign * a.magnitude

noncomputable def num (a : F80) : ℝ := if a.cls = .zero then 0 else a.real

theorem num_of_zero {a : F80} (h : a.cls = .zero) : a.num = 0 := if_pos h

theorem num_of_normal {a : F80} (h : a.cls = .normal) : a.num = a.real := by
  apply if_neg
  rw [h]
  decide

noncomputable def maxReal : ℝ := (2 ^ 64 - 1 : ℕ) * (2 : ℕ) ^ (emax - 63)

noncomputable def overflowed (neg : Bool) : Rounding → EReal
  | .nearestEven => if neg then ⊥ else ⊤
  | .down => if neg then ⊥ else (maxReal : ℝ)
  | .up => if neg then ((-maxReal : ℝ) : EReal) else ⊤
  | .towardZero => ((signed neg * maxReal : ℝ) : EReal)

open Classical in
/-- Right for the exact result `x`: rounded once if that is in range, with the precision exception
exactly if something was lost, and as the mode prescribes if it is too large. -/
structure RoundsRight (ctl : Ctl) (x : ℝ) (r : F80 × Exc) : Prop where
  inRange : (2 : ℝ) ^ emin ≤ |roundTo ctl.sigBits ctl.mode x| →
    |roundTo ctl.sigBits ctl.mode x| < 2 ^ (emax + 1) →
    r.1.cls = .normal ∧ r.1.real = roundTo ctl.sigBits ctl.mode x ∧
      (r.2.has Exc.pe = true ↔ roundTo ctl.sigBits ctl.mode x ≠ x)
  overflow : (2 : ℝ) ^ (emax + 1) ≤ |roundTo ctl.sigBits ctl.mode x| →
    r.1.value = overflowed (decide (x < 0)) ctl.mode ∧ r.2.has Exc.oe = true

variable {ctl : Ctl} {x : ℝ}

theorem value_maxFinite (sign : Bool) :
    (maxFinite sign).value = ((signed sign * maxReal : ℝ) : EReal) := by
  have hmag : (maxFinite sign).magnitude = maxReal := by
    unfold magnitude maxReal maxFinite
    have hsig : (BitVec.allOnes 64).toNat = 2 ^ 64 - 1 := by decide
    rw [hsig, cast_ofNat]
  rw [value_normal rfl, hmag]
  cases sign <;> simp [maxFinite, signed]

theorem value_overflowTo (ctl : Ctl) (sign : Bool) :
    (overflowTo ctl sign).value = overflowed sign ctl.mode := by
  have hinf (sign : Bool) : (inf sign).value = if sign then ⊥ else ⊤ := rfl
  have hmax (sign : Bool) : (maxFinite sign).value = ((signed sign * maxReal : ℝ) : EReal) :=
    value_maxFinite sign
  unfold overflowTo Ctl.mode
  generalize ctl.rc = rc
  match rc, sign with
  | 0, sign => exact hinf sign
  | 1, true => exact hinf true
  | 1, false =>
    refine (hmax false).trans ?_
    simp [overflowed, signed]
  | 2, false => exact hinf false
  | 2, true =>
    refine (hmax true).trans ?_
    simp [overflowed, signed]
  | _ + 3, sign => exact hmax sign

/-- A result of the last step, made from a significand with its integer bit that stands for
the rounded number. -/
inductive Finishes (ctl : Ctl) (x : ℝ) : F80 × Exc → Prop
  | intro {sign : Bool} {exp : ℤ} {sig : U64} {inexact : Bool} (hsig : 2 ^ 63 ≤ sig.toNat)
      (hround : roundTo ctl.sigBits ctl.mode x = signed sign * (sig.toNat * 2 ^ (exp - 63)))
      (hneg : x < 0 ↔ sign = true)
      (hexact : inexact = true ↔ roundTo ctl.sigBits ctl.mode x ≠ x) :
      Finishes ctl x (finishExc sign exp sig ctl inexact)

theorem Finishes.right {r : F80 × Exc} (h : Finishes ctl x r) : RoundsRight ctl x r := by
  obtain @⟨sign, exp, sig, inexact, hsig, hround, hneg, hexact⟩ := h
  let r : F80 := ⟨sign, .normal, exp, sig⟩
  have hbounds : (2 : ℝ) ^ exp ≤ r.magnitude ∧ r.magnitude < 2 ^ (exp + 1) :=
    magnitude_bounds (a := r) hsig
  have hpos : 0 < r.magnitude := magnitude_pos hsig
  have habs : |roundTo ctl.sigBits ctl.mode x| = r.magnitude := by
    rw [hround, abs_signed]
    exact abs_of_pos hpos
  have hpe : (if inexact then Exc.pe else Exc.none).has Exc.pe = inexact := by
    cases inexact <;> decide
  constructor
  · -- in range the exponent is, too, and the result is packed as it is
    intro hlow hhigh
    rw [habs] at hlow hhigh
    have hle : exp ≤ emax := by
      have hlt := hbounds.1.trans_lt hhigh
      have := (zpow_lt_zpow_iff_right₀ one_lt_two).mp hlt
      omega
    have hge : emin ≤ exp := by
      have hlt := hlow.trans_lt hbounds.2
      have := (zpow_lt_zpow_iff_right₀ one_lt_two).mp hlt
      omega
    have hfinish : finishExc sign exp sig ctl inexact =
        (r, if inexact then Exc.pe else Exc.none) := by
      unfold finishExc
      rw [if_neg (not_lt.mpr hle), if_neg (not_lt.mpr hge)]
    rw [hfinish]
    refine ⟨rfl, hround.symm, ?_⟩
    rw [hpe]
    exact hexact
  · intro hover
    rw [habs] at hover
    have hgt : emax < exp := by
      have hlt := hover.trans_lt hbounds.2
      have := (zpow_lt_zpow_iff_right₀ one_lt_two).mp hlt
      omega
    have hfinish : finishExc sign exp sig ctl inexact =
        (overflowTo ctl sign, (if inexact then Exc.pe else Exc.none) ||| Exc.oe ||| Exc.pe) := by
      unfold finishExc
      rw [if_pos hgt]
    have hsign : decide (x < 0) = sign := by
      cases sign <;> simp [hneg]
    rw [hfinish, hsign]
    have hoe : ∀ b : Bool,
        Exc.has ((if b then Exc.pe else Exc.none) ||| Exc.oe ||| Exc.pe) Exc.oe = true := by decide
    exact ⟨value_overflowTo ctl sign, hoe inexact⟩

variable {m d : ℕ} {frac : Option Ordering} {μ : ℝ}

/-- Kept bits, comparison with half a unit and loss are what they are for the magnitude `μ`
in units of `2^d`. -/
structure Stands (b : ℕ × Ordering × Bool) (d : ℕ) (μ f : ℝ) : Prop where
  nonneg : 0 ≤ f
  lt_one : f < 1
  parts : μ = (b.1 + f) * 2 ^ d
  above : b.2.1 = .gt ↔ 1 < f + f
  tie : b.2.1 = .eq ↔ f + f = 1
  lost : b.2.2 = true ↔ f ≠ 0

def keptBits (m d : ℕ) (frac : Option Ordering) : ℕ × Ordering × Bool :=
  if 0 < d then dropBits m d frac else keepBits m 0 frac

variable {f : ℝ}

theorem roundsUp_iff (ctl : Ctl) {b : ℕ × Ordering × Bool} (h : Stands b d μ f) (sign : Bool) :
    roundsUp ctl.rc sign (b.1 % 2 == 1) b.2.1 b.2.2 = true ↔ ctl.mode.GoesUp sign b.1 f := by
  have hodd : (b.1 % 2 == 1) = true ↔ ¬Even b.1 := by
    rw [beq_iff_eq, not_even_iff]
  unfold roundsUp Ctl.mode
  generalize ctl.rc = rc
  match rc with
  | 0 =>
    change ((b.2.1 == .gt || (b.2.1 == .eq && b.1 % 2 == 1)) = true) ↔ _
    rw [Bool.or_eq_true, Bool.and_eq_true, hodd, beq_iff_eq, beq_iff_eq, h.above, h.tie]
    rfl
  | 1 =>
    change ((b.2.2 && sign) = true) ↔ _
    rw [Bool.and_eq_true, h.lost, and_comm]
    rfl
  | 2 =>
    change ((b.2.2 && !sign) = true) ↔ _
    rw [Bool.and_eq_true, h.lost, Bool.not_eq_true', and_comm]
    rfl
  | _ + 3 =>
    simp [GoesUp]

theorem carryUp_spec {p kept : ℕ} (hp : p = 24 ∨ p = 53 ∨ p = 64) (hlow : 2 ^ (p - 1) ≤ kept)
    (hhigh : kept < 2 ^ p) (exp : ℤ) :
    2 ^ (p - 1) ≤ (carryUp p kept exp).1 ∧ (carryUp p kept exp).1 < 2 ^ p ∧
      ((carryUp p kept exp).1 : ℝ) * 2 ^ (carryUp p kept exp).2 = (kept + 1) * 2 ^ exp := by
  have hdouble : 2 ^ p = 2 * 2 ^ (p - 1) := by
    rw [← pow_succ']
    congr 1
    omega
  -- without a carry nothing else happens
  have hplain (hno : kept + 1 < 2 ^ p) :
      2 ^ (p - 1) ≤ kept + 1 ∧ kept + 1 < 2 ^ p ∧
        ((kept + 1 : ℕ) : ℝ) * 2 ^ exp = (kept + 1) * 2 ^ exp := by
    refine ⟨hlow.trans (le_succ kept), hno, ?_⟩
    push_cast
    rfl
  have hcarry (hyes : kept + 1 = 2 ^ p) :
      2 ^ (p - 1) ≤ 2 ^ (p - 1) ∧ 2 ^ (p - 1) < 2 ^ p ∧
        ((2 ^ (p - 1) : ℕ) : ℝ) * 2 ^ (exp + 1) = (kept + 1) * 2 ^ exp := by
    refine ⟨le_rfl, ?_, ?_⟩
    · rw [hdouble]
      omega
    · have hcast : ((kept : ℝ) + 1) = 2 * (2 ^ (p - 1) : ℕ) := by
        have h : ((kept + 1 : ℕ) : ℝ) = ((2 * 2 ^ (p - 1) : ℕ) : ℝ) := by rw [hyes, hdouble]
        push_cast at h ⊢
        exact h
      rw [hcast, zpow_add_one₀ two_ne_zero]
      ring
  unfold carryUp
  by_cases hfull : 64 ≤ p
  · have hp64 : p = 64 := by omega
    subst hp64
    by_cases hover : 2 ^ 64 ≤ kept + 1
    · rw [if_pos hover]
      exact hcarry (by omega)
    · rw [if_neg hover]
      exact hplain (by omega)
  · rw [if_neg hfull]
    by_cases hno : kept + 1 < 2 ^ p
    · have hshift : (kept + 1) >>> p = 0 := by
        rw [Nat.shiftRight_eq_div_pow, div_eq_of_lt hno]
      rw [if_neg (not_not.mpr hshift)]
      exact hplain hno
    · have hyes : kept + 1 = 2 ^ p := by omega
      have hshift : (kept + 1) >>> p ≠ 0 := by
        rw [hyes, Nat.shiftRight_eq_div_pow, Nat.div_self (Nat.two_pow_pos p)]
        exact one_ne_zero
      have hhalf : (kept + 1) >>> 1 = 2 ^ (p - 1) := by
        rw [hyes, hdouble, Nat.shiftRight_eq_div_pow, pow_one, Nat.mul_div_cancel_left _ two_pos]
      rw [if_pos hshift, hhalf]
      exact hcarry hyes

/-- `frac` says of a fraction whether it is zero and how it compares with one half. -/
def Describes (frac : Option Ordering) (z : ℝ) : Prop :=
  match frac with
  | none => z = 0
  | some o => z ≠ 0 ∧ (o = .gt ↔ 1 < z + z) ∧ (o = .eq ↔ z + z = 1)

variable {z : ℝ}

theorem Describes.isSome_iff (h : Describes frac z) : frac.isSome = true ↔ z ≠ 0 := by
  cases frac with
  | none =>
    have hzero : z = 0 := h
    simp [hzero]
  | some o => simpa using h.1

theorem keptBits_fst (h : m / 2 ^ d < 2 ^ 64) : (keptBits m d frac).1 = m / 2 ^ d := by
  unfold keptBits
  by_cases hd : 0 < d
  · rw [if_pos hd]
    change (m >>> d) % 2 ^ 64 = _
    rw [Nat.shiftRight_eq_div_pow, mod_eq_of_lt h]
  · have hzero : d = 0 := Nat.eq_zero_of_not_pos hd
    subst hzero
    rw [Nat.pow_zero, Nat.div_one]
    rw [Nat.pow_zero, Nat.div_one] at h
    exact mod_eq_of_lt h

theorem kept_bounds {p : ℕ} (hp : 1 ≤ p) (hm : m ≠ 0) (hlog : p - 1 ≤ m.log2) :
    2 ^ (p - 1) ≤ m / 2 ^ (m.log2 - (p - 1)) ∧ m / 2 ^ (m.log2 - (p - 1)) < 2 ^ p := by
  have hpos : 0 < 2 ^ (m.log2 - (p - 1)) := Nat.two_pow_pos _
  constructor
  · rw [le_div_iff_mul_le hpos, ← pow_add]
    have hsum : p - 1 + (m.log2 - (p - 1)) = m.log2 := by omega
    rw [hsum]
    exact log2_self_le hm
  · rw [div_lt_iff_lt_mul hpos, ← pow_add]
    have hsum : p + (m.log2 - (p - 1)) = m.log2 + 1 := by omega
    rw [hsum]
    exact lt_log2_self

theorem kept_lt (hm : 2 ^ 63 ≤ m) : m / 2 ^ (m.log2 - (ctl.sigBits - 1)) < 2 ^ 64 := by
  have hp := ctl.sigBits_cases
  have hne : m ≠ 0 := by
    omega
  have h63 : 63 ≤ m.log2 := (le_log2 hne).mpr hm
  exact (kept_bounds (by omega) hne (by omega)).2.trans_le
    (Nat.pow_le_pow_right two_pos (by omega))

variable {sign : Bool}

theorem packNormalExc_eq {inexact : Bool} {exp : ℤ} {sig : U64} (h : 2 ^ 63 ≤ sig.toNat) :
    packNormalExc sign exp sig ctl inexact = finishExc sign exp sig ctl inexact := by
  have hne : sig ≠ 0 := by
    rintro rfl
    exact absurd h (by decide)
  have htop : sig >>> 63 ≠ 0 := by
    intro hzero
    have hnat := congrArg BitVec.toNat hzero
    rw [BitVec.toNat_ushiftRight, Nat.shiftRight_eq_div_pow] at hnat
    change sig.toNat / 2 ^ 63 = 0 at hnat
    omega
  unfold packNormalExc
  rw [if_neg hne, if_neg htop]

def rounded (ctl : Ctl) (sign : Bool) (refExp : ℤ) (m : ℕ) (b : ℕ × Ordering × Bool) : ℕ × ℤ :=
  let exp := refExp - (127 - m.log2)
  if roundsUp ctl.rc sign (b.1 % 2 == 1) b.2.1 b.2.2 then carryUp ctl.sigBits b.1 exp
  else (b.1, exp)

variable {refExp : ℤ}

theorem normalizeRoundFracExc_eq (hm : m ≠ 0) (hlog : ctl.sigBits - 1 ≤ m.log2) :
    normalizeRoundFracExc sign refExp m frac ctl =
      let b := keptBits m (m.log2 - (ctl.sigBits - 1)) frac
      let r := rounded ctl sign refExp m b
      packNormalExc sign r.2 (BitVec.ofNat 64 (r.1 <<< (64 - ctl.sigBits))) ctl b.2.2 := by
  have hp : 1 ≤ ctl.sigBits := by
    rcases ctl.sigBits_cases with h | h | h <;> rw [h] <;> decide
  have hdrop : (m.log2 : ℤ) - (ctl.sigBits - 1) = (m.log2 - (ctl.sigBits - 1) : ℕ) := by omega
  have hbits : (if 0 < (m.log2 : ℤ) - (ctl.sigBits - 1) then
        dropBits m ((m.log2 : ℤ) - (ctl.sigBits - 1)).toNat frac
      else keepBits m (-((m.log2 : ℤ) - (ctl.sigBits - 1))).toNat frac) =
      keptBits m (m.log2 - (ctl.sigBits - 1)) frac := by
    rw [hdrop]
    unfold keptBits
    by_cases hd : 0 < m.log2 - (ctl.sigBits - 1)
    · rw [if_pos (by exact_mod_cast hd), if_pos hd, Int.toNat_natCast]
    · have hzero : m.log2 - (ctl.sigBits - 1) = 0 := Nat.eq_zero_of_not_pos hd
      rw [hzero]
      rfl
  unfold normalizeRoundFracExc
  rw [if_neg hm]
  dsimp only
  rw [hbits]
  rfl

variable {x H : ℕ}

theorem lt_add_fraction (h₀ : 0 ≤ z) (h₁ : z < 1) : (H : ℝ) < x + z ↔ H < x ∨ x = H ∧ z ≠ 0 := by
  rcases lt_trichotomy x H with hlt | rfl | hgt
  · have hle : (x : ℝ) + 1 ≤ H := by exact_mod_cast hlt
    constructor
    · intro h
      linarith
    · rintro (h | ⟨rfl, -⟩) <;> omega
  · rw [lt_add_iff_pos_right, h₀.lt_iff_ne']
    simp
  · have hle : (H : ℝ) + 1 ≤ x := by exact_mod_cast hgt
    exact iff_of_true (by linarith) (.inl hgt)

theorem add_fraction_eq (h₀ : 0 ≤ z) (h₁ : z < 1) : (x : ℝ) + z = H ↔ x = H ∧ z = 0 := by
  constructor
  · intro h
    have hfloor := floor_parts (k := x) h₀ h₁
    rw [h, Int.floor_natCast] at hfloor
    have hx : x = H := by exact_mod_cast hfloor.symm
    refine ⟨hx, ?_⟩
    rw [hx] at h
    linarith
  · rintro ⟨rfl, rfl⟩
    exact add_zero _

theorem half_unit (hd : 0 < d) (y : ℝ) : (1 < y / 2 ^ d + y / 2 ^ d ↔ ((2 ^ (d - 1) : ℕ) : ℝ) < y) ∧
      (y / 2 ^ d + y / 2 ^ d = 1 ↔ y = (2 ^ (d - 1) : ℕ)) := by
  have hpow : (0 : ℝ) < (2 ^ (d - 1) : ℕ) := by exact_mod_cast Nat.two_pow_pos (d - 1)
  have htwice : y / 2 ^ d + y / 2 ^ d = y / (2 ^ (d - 1) : ℕ) := by
    obtain ⟨c, rfl⟩ := exists_eq_add_one_of_ne_zero hd.ne'
    push_cast
    field_simp
    ring
  rw [htwice, one_lt_div hpow, div_eq_one_iff_eq hpow.ne']
  exact ⟨Iff.rfl, Iff.rfl⟩

theorem dropBits_cmp : (dropBits m d frac).2.1 =
    if m % 2 ^ d = 2 ^ (d - 1) ∧ frac.isSome = true then .gt
    else Ord.compare (m % 2 ^ d) (2 ^ (d - 1)) := by
  unfold dropBits
  simp only [Nat.compare_eq_eq]

theorem dropBits_gt_iff : (dropBits m d frac).2.1 = .gt ↔
    2 ^ (d - 1) < m % 2 ^ d ∨ m % 2 ^ d = 2 ^ (d - 1) ∧ frac.isSome = true := by
  rw [dropBits_cmp]
  by_cases htie : m % 2 ^ d = 2 ^ (d - 1) ∧ frac.isSome = true
  · rw [if_pos htie]
    exact iff_of_true rfl (.inr htie)
  · rw [if_neg htie, or_iff_left htie, Nat.compare_eq_gt]

theorem dropBits_eq_iff : (dropBits m d frac).2.1 = .eq ↔
    m % 2 ^ d = 2 ^ (d - 1) ∧ frac.isSome = false := by
  rw [dropBits_cmp]
  by_cases htie : m % 2 ^ d = 2 ^ (d - 1) ∧ frac.isSome = true
  · rw [if_pos htie, htie.2]
    simp
  · rw [if_neg htie, Nat.compare_eq_eq, ← Bool.not_eq_true]
    tauto

theorem stands_fraction (hkept : m / 2 ^ d < 2 ^ 64) (h₀ : 0 ≤ z) (h₁ : z < 1)
    (hfrac : Describes frac z) :
    Stands (keptBits m d frac) d (m + z) (((m % 2 ^ d : ℕ) + z) / 2 ^ d) := by
  have hpow : (0 : ℝ) < 2 ^ d := pow_pos two_pos d
  have hmod : ((m % 2 ^ d : ℕ) : ℝ) + 1 ≤ 2 ^ d := by
    have : m % 2 ^ d + 1 ≤ 2 ^ d := mod_lt m (Nat.two_pow_pos d)
    exact_mod_cast this
  have hsplit : (m : ℝ) = (m / 2 ^ d : ℕ) * 2 ^ d + (m % 2 ^ d : ℕ) := by
    have := div_add_mod' m (2 ^ d)
    exact_mod_cast this.symm
  have hnonneg : 0 ≤ ((m % 2 ^ d : ℕ) + z) / 2 ^ d := by positivity
  have hlt : ((m % 2 ^ d : ℕ) + z) / 2 ^ d < 1 := by
    rw [div_lt_one hpow]
    linarith
  have hparts : (m : ℝ) + z =
      ((keptBits m d frac).1 + ((m % 2 ^ d : ℕ) + z) / 2 ^ d) * 2 ^ d := by
    rw [keptBits_fst hkept, add_mul, div_mul_cancel₀ _ hpow.ne']
    linarith
  by_cases hd : 0 < d
  · have hzero : ((m % 2 ^ d : ℕ) + z) / 2 ^ d = 0 ↔ m % 2 ^ d = 0 ∧ z = 0 := by
      rw [div_eq_zero_iff, or_iff_left hpow.ne',
        add_eq_zero_iff_of_nonneg (cast_nonneg _) h₀, cast_eq_zero]
    have hnone : frac.isSome = false ↔ z = 0 := by
      rw [← Bool.not_eq_true, hfrac.isSome_iff, not_not]
    have hdrop : keptBits m d frac = dropBits m d frac := if_pos hd
    rw [hdrop] at hparts ⊢
    refine ⟨hnonneg, hlt, hparts, ?_, ?_, ?_⟩
    · rw [(half_unit hd _).1, lt_add_fraction h₀ h₁, dropBits_gt_iff, hfrac.isSome_iff]
    · rw [(half_unit hd _).2, add_fraction_eq h₀ h₁, dropBits_eq_iff, hnone]
    · change (m % 2 ^ d != 0 || frac.isSome) = true ↔ _
      rw [Bool.or_eq_true, bne_iff_ne, hfrac.isSome_iff]
      tauto
  · -- no bit is dropped: the fraction is all that is lost
    have hzero : d = 0 := Nat.eq_zero_of_not_pos hd
    subst hzero
    have hself : ((m % 2 ^ 0 : ℕ) + z) / 2 ^ 0 = z := by simp [mod_one]
    rw [hself] at hparts ⊢
    cases frac with
    | none =>
      have hz : z = 0 := hfrac
      refine ⟨h₀, h₁, hparts, ?_, ?_, ?_⟩ <;> simp [keptBits, keepBits, hz]
    | some o => exact ⟨h₀, h₁, hparts, hfrac.2.1, hfrac.2.2, iff_of_true rfl hfrac.1⟩

theorem or_one_eq (n : ℕ) : n ||| 1 = 2 * (n / 2) + 1 := by
  have hdiv : (n ||| 1) / 2 = n / 2 := by rw [or_div_two, or_zero]
  have hmod : (n ||| 1) % 2 = 1 := or_mod_two_eq_one.mpr (.inr rfl)
  omega

theorem exists_describes (h : z ≠ 0) : ∃ o, Describes (some o) z := by
  rcases lt_trichotomy (z + z) 1 with hlt | heq | hgt
  · exact ⟨.lt, h, by simpa using hlt.le, by simpa using hlt.ne⟩
  · exact ⟨.eq, h, by simp [heq], by simp [heq]⟩
  · exact ⟨.gt, h, by simpa using hgt, by simpa using hgt.ne'⟩

theorem keptBits_jam {q : ℕ} (o : Ordering) :
    keptBits (2 * q + 1) (d + 2) none = keptBits q (d + 1) (some o) := by
  have hpow : 2 ^ (d + 2) = 2 * 2 ^ (d + 1) := pow_succ'
  have hdiv : (2 * q + 1) / 2 ^ (d + 2) = q / 2 ^ (d + 1) := by
    rw [hpow, ← Nat.div_div_eq_div_mul]
    congr 1
    omega
  have hmod : (2 * q + 1) % 2 ^ (d + 2) = 2 * (q % 2 ^ (d + 1)) + 1 := by
    rw [hpow, mod_mul]
    have hhalf : (2 * q + 1) / 2 = q := by omega
    rw [hhalf]
    omega
  have hcmp : (dropBits (2 * q + 1) (d + 2) none).2.1 = (dropBits q (d + 1) (some o)).2.1 := by
    rw [dropBits_cmp, dropBits_cmp, if_neg (by simp), Nat.add_sub_cancel]
    have hhalf : 2 ^ (d + 2 - 1) = 2 * 2 ^ d := pow_succ'
    by_cases htie : q % 2 ^ (d + 1) = 2 ^ d
    · rw [if_pos ⟨htie, rfl⟩, Nat.compare_eq_gt]
      omega
    · rw [if_neg (mt And.left htie)]
      rcases lt_or_gt_of_ne htie with hlt | hgt
      · rw [Nat.compare_eq_lt.mpr hlt, Nat.compare_eq_lt]
        omega
      · rw [Nat.compare_eq_gt.mpr hgt, Nat.compare_eq_gt]
        omega
  refine Prod.ext ?_ (Prod.ext hcmp ?_)
  · change (2 * q + 1) >>> (d + 2) % 2 ^ 64 = q >>> (d + 1) % 2 ^ 64
    rw [Nat.shiftRight_eq_div_pow, Nat.shiftRight_eq_div_pow, hdiv]
  · change ((2 * q + 1) % 2 ^ (d + 2) != 0 || false) = (q % 2 ^ (d + 1) != 0 || true)
    rw [Bool.or_true, Bool.or_false, bne_iff_ne]
    omega

/-- A lowest bit that is set for whatever lies below it stands for it, if it is not the bit that
decides. -/
theorem stands_jam {n : ℕ} (hd : 2 ≤ d) (hkept : n / 2 ^ d < 2 ^ 64) (h₀ : 0 < z)
    (h₁ : z < 1) : ∃ f, Stands (keptBits (n ||| 1) d none) d (n + z) f := by
  obtain ⟨c, rfl⟩ := Nat.exists_eq_add_of_le' hd
  have hsplit : (n : ℝ) = 2 * (n / 2 : ℕ) + (n % 2 : ℕ) := by
    have := div_add_mod n 2
    exact_mod_cast this.symm
  have hbit : ((n % 2 : ℕ) : ℝ) ≤ 1 := by
    have : n % 2 ≤ 1 := by omega
    exact_mod_cast this
  let z' : ℝ := ((n % 2 : ℕ) + z) / 2
  have h₀' : 0 < z' := by
    change 0 < ((n % 2 : ℕ) + z) / 2
    linarith
  have h₁' : z' < 1 := by
    change ((n % 2 : ℕ) + z) / 2 < 1
    linarith
  obtain ⟨o, ho⟩ := exists_describes h₀'.ne'
  have hkept' : n / 2 / 2 ^ (c + 1) < 2 ^ 64 := by
    rw [Nat.div_div_eq_div_mul, ← pow_succ']
    exact hkept
  have hst := stands_fraction hkept' h₀'.le h₁' ho
  rw [or_one_eq, keptBits_jam o]
  refine ⟨_, hst.nonneg, hst.lt_one, ?_, hst.above, hst.tie, hst.lost⟩
  calc n + z = 2 * ((n / 2 : ℕ) + z') := by
        change n + z = 2 * ((n / 2 : ℕ) + ((n % 2 : ℕ) + z) / 2)
        linarith
    _ = _ := by
        rw [hst.parts]
        ring

open Classical in
theorem rounded_spec (sign : Bool) (refExp : ℤ) (m : ℕ) {b : ℕ × Ordering × Bool}
    (hlow : 2 ^ (ctl.sigBits - 1) ≤ b.1) (hhigh : b.1 < 2 ^ ctl.sigBits) (h : Stands b d μ f) :
    2 ^ (ctl.sigBits - 1) ≤ (rounded ctl sign refExp m b).1 ∧
      (rounded ctl sign refExp m b).1 < 2 ^ ctl.sigBits ∧
      ((rounded ctl sign refExp m b).1 : ℝ) * 2 ^ (rounded ctl sign refExp m b).2 =
        (b.1 + if ctl.mode.GoesUp sign b.1 f then 1 else 0) * 2 ^ (refExp - (127 - m.log2)) := by
  have hiff := roundsUp_iff ctl h sign
  unfold rounded
  by_cases hup : ctl.mode.GoesUp sign b.1 f
  · rw [if_pos (hiff.mpr hup), if_pos hup]
    exact carryUp_spec ctl.sigBits_cases hlow hhigh _
  · rw [if_neg (mt hiff.mp hup), if_neg hup, add_zero]
    exact ⟨hlow, hhigh, rfl⟩

theorem normalizeRound_finishes (hm : 2 ^ 63 ≤ m)
    (h : Stands (keptBits m (m.log2 - (ctl.sigBits - 1)) frac) (m.log2 - (ctl.sigBits - 1)) μ f) :
    Finishes ctl (signed sign * (μ * 2 ^ (refExp - 127)))
      (normalizeRoundFracExc sign refExp m frac ctl) := by
  have hpcases := ctl.sigBits_cases
  have hp : 1 ≤ ctl.sigBits ∧ ctl.sigBits ≤ 64 := by omega
  have hne : m ≠ 0 := by
    omega
  have hlog : ctl.sigBits - 1 ≤ m.log2 := by
    have h63 : 63 ≤ m.log2 := (le_log2 hne).mpr hm
    omega
  obtain ⟨hlow, hhigh⟩ := kept_bounds hp.1 hne hlog
  have hkept : (keptBits m (m.log2 - (ctl.sigBits - 1)) frac).1 =
      m / 2 ^ (m.log2 - (ctl.sigBits - 1)) :=
    keptBits_fst (kept_lt hm)
  rw [← hkept] at hlow hhigh
  rw [normalizeRoundFracExc_eq hne hlog]
  generalize keptBits m (m.log2 - (ctl.sigBits - 1)) frac = b at h hlow hhigh ⊢
  obtain ⟨hrlow, hrhigh, hrval⟩ := rounded_spec sign refExp m hlow hhigh h
  dsimp only
  generalize rounded ctl sign refExp m b = r at hrlow hrhigh hrval ⊢
  -- the significand fills the 64 bits
  have hfill : 2 ^ ctl.sigBits * 2 ^ (64 - ctl.sigBits) = 2 ^ 64 := by
    rw [← pow_add]
    congr 1
    omega
  have hhalf : 2 ^ (ctl.sigBits - 1) * 2 ^ (64 - ctl.sigBits) = 2 ^ 63 := by
    rw [← pow_add]
    congr 1
    omega
  have hsig : (BitVec.ofNat 64 (r.1 <<< (64 - ctl.sigBits))).toNat =
      r.1 * 2 ^ (64 - ctl.sigBits) := by
    rw [shiftLeft_eq]
    apply mod_eq_of_lt
    rw [← hfill]
    exact Nat.mul_lt_mul_of_pos_right hrhigh (Nat.two_pow_pos _)
  have hbig : 2 ^ 63 ≤ (BitVec.ofNat 64 (r.1 <<< (64 - ctl.sigBits))).toNat := by
    rw [hsig, ← hhalf]
    exact mul_le_mul_right _ hrlow
  rw [packNormalExc_eq hbig]
  let e : ℤ := m.log2 - (ctl.sigBits - 1) + (refExp - 127)
  have hx : signed sign * (μ * 2 ^ (refExp - 127)) = signed sign * ((b.1 + f) * 2 ^ e) := by
    have hexp : ((m.log2 - (ctl.sigBits - 1) : ℕ) : ℤ) = m.log2 - (ctl.sigBits - 1) := by omega
    rw [h.parts, mul_assoc _ _ (2 ^ (refExp - 127)), ← zpow_natCast, hexp,
      ← zpow_add₀ two_ne_zero]
  have hround := roundTo_parts (e := e) hp.1 hlow hhigh h.nonneg h.lt_one sign ctl.mode
  rw [← hx] at hround
  have hpos : (0 : ℝ) < b.1 := by
    have : 0 < b.1 := (Nat.two_pow_pos _).trans_le hlow
    exact_mod_cast this
  have hmag : (0 : ℝ) < (b.1 + f) * 2 ^ e :=
    mul_pos (add_pos_of_pos_of_nonneg hpos h.nonneg) (zpow_pos two_pos e)
  apply Finishes.intro hbig
  · rw [hround, hsig, signed_mul_inj]
    have hleft : (2 : ℝ) ^ e = 2 ^ (refExp - (127 - m.log2)) * 2 ^ (1 - ctl.sigBits : ℤ) := by
      rw [← zpow_add₀ two_ne_zero]
      congr 1
      ring
    have hright : (2 : ℝ) ^ (64 - ctl.sigBits) * 2 ^ (r.2 - 63) =
        2 ^ r.2 * 2 ^ (1 - ctl.sigBits : ℤ) := by
      rw [← zpow_natCast, ← zpow_add₀ two_ne_zero, ← zpow_add₀ two_ne_zero]
      have hcast : ((64 - ctl.sigBits : ℕ) : ℤ) = 64 - ctl.sigBits := by omega
      rw [hcast]
      congr 1
      ring
    push_cast
    rw [hleft, mul_assoc (r.1 : ℝ), hright, ← mul_assoc, ← mul_assoc, hrval]
  · rw [hx]
    cases sign with
    | false => simpa [signed] using hmag.le
    | true => simpa [signed] using hmag
  · rw [h.lost, hx]
    exact (roundTo_eq_self_iff hp.1 hlow hhigh h.nonneg h.lt_one sign ctl.mode).not.symm

theorem normalizeRound_fraction (hm : 2 ^ 63 ≤ m) (h₀ : 0 ≤ z)
    (h₁ : z < 1) (hfrac : Describes frac z) :
    Finishes ctl (signed sign * ((m + z) * 2 ^ (refExp - 127)))
      (normalizeRoundFracExc sign refExp m frac ctl) :=
  normalizeRound_finishes hm (stands_fraction (kept_lt hm) h₀ h₁ hfrac)

theorem normalizeRound_exact (hm : 2 ^ 63 ≤ m) :
    Finishes ctl (signed sign * (m * 2 ^ (refExp - 127)))
      (normalizeRoundExc sign refExp m ctl) := by
  have h : Finishes ctl (signed sign * ((m + 0) * 2 ^ (refExp - 127)))
      (normalizeRoundFracExc sign refExp m none ctl) :=
    normalizeRound_fraction hm le_rfl one_pos rfl
  rw [add_zero] at h
  exact h

theorem normalizeRound_jam {n : ℕ} (hn : 2 ^ 65 ≤ n) (h₀ : 0 < z) (h₁ : z < 1) :
    Finishes ctl (signed sign * ((n + z) * 2 ^ (refExp - 127)))
      (normalizeRoundExc sign refExp (n ||| 1) ctl) := by
  have hm : 2 ^ 65 ≤ n ||| 1 := hn.trans Nat.left_le_or
  have hne : n ||| 1 ≠ 0 := by omega
  have hlog : 65 ≤ (n ||| 1).log2 := (le_log2 hne).mpr hm
  have hp := ctl.sigBits_cases
  have hd : 2 ≤ (n ||| 1).log2 - (ctl.sigBits - 1) := by omega
  have hkept : n / 2 ^ ((n ||| 1).log2 - (ctl.sigBits - 1)) < 2 ^ 64 :=
    (Nat.div_le_div_right Nat.left_le_or).trans_lt (kept_lt (by omega))
  obtain ⟨f, hst⟩ := stands_jam hd hkept h₀ h₁
  exact normalizeRound_finishes (by omega) hst

end F80

end X86Jit
