import Mathlib.Algebra.Order.Archimedean.Real.Basic
import Mathlib.Algebra.Order.Floor.Ring
import Mathlib.Algebra.Order.Ring.Abs
import Mathlib.Data.Int.Log
import Mathlib.Tactic.Linarith
import Mathlib.Tactic.Ring

/-! Rounding of real numbers to a significand of a given number of bits, with exponents without
bounds, in one of four modes. -/
namespace X86Jit.Lib
open Int

inductive Rounding
  | nearestEven | down | up | towardZero
  deriving DecidableEq, Repr

namespace Rounding

noncomputable def halfEven (x : ℝ) : ℤ :=
  if fract x + fract x < 1 then ⌊x⌋
  else if 1 < fract x + fract x then ⌊x⌋ + 1
  else if Even ⌊x⌋ then ⌊x⌋ else ⌊x⌋ + 1

noncomputable def toInt (x : ℝ) : Rounding → ℤ
  | nearestEven => halfEven x
  | down => ⌊x⌋
  | up => ⌈x⌉
  | towardZero => if 0 ≤ x then ⌊x⌋ else ⌈x⌉

noncomputable def unit (p : ℕ) (x : ℝ) : ℝ := (2 : ℕ) ^ (log 2 |x| - (p - 1 : ℤ))

noncomputable def roundTo (p : ℕ) (mode : Rounding) (x : ℝ) : ℝ :=
  mode.toInt (x / unit p x) * unit p x

def signed (neg : Bool) : ℝ := if neg then -1 else 1

def GoesUp (neg : Bool) (k : ℕ) (f : ℝ) : Rounding → Prop
  | nearestEven => 1 < f + f ∨ f + f = 1 ∧ ¬Even k
  | down => neg = true ∧ f ≠ 0
  | up => neg = false ∧ f ≠ 0
  | towardZero => False

variable {k : ℕ} {f : ℝ}

theorem floor_parts (h₀ : 0 ≤ f) (h₁ : f < 1) : ⌊(k + f : ℝ)⌋ = k := by
  rw [floor_natCast_add, floor_eq_zero_iff.mpr ⟨h₀, h₁⟩, add_zero]

theorem fract_parts (h₀ : 0 ≤ f) (h₁ : f < 1) : fract (k + f : ℝ) = f := by
  rw [fract_natCast_add, fract_eq_self.mpr ⟨h₀, h₁⟩]

theorem ceil_parts (h₀ : 0 ≤ f) (h₁ : f < 1) (hf : f ≠ 0) : ⌈(k + f : ℝ)⌉ = k + 1 := by
  have hpos : 0 < f := lt_of_le_of_ne h₀ (Ne.symm hf)
  have hone : ⌈f⌉ = 1 := ceil_eq_iff.mpr ⟨by simpa using hpos, by simpa using h₁.le⟩
  rw [ceil_natCast_add, hone]

theorem halfEven_parts (h₀ : 0 ≤ f) (h₁ : f < 1) :
    halfEven (k + f) =
      if f + f < 1 then (k : ℤ) else if 1 < f + f then k + 1 else if Even k then k else k + 1 := by
  unfold halfEven
  rw [floor_parts h₀ h₁, fract_parts h₀ h₁]
  simp only [even_coe_nat]

theorem halfEven_neg (x : ℝ) : halfEven (-x) = -halfEven x := by
  by_cases hfract : fract x = 0
  · have hx : x = ⌊x⌋ := by
      have h := floor_add_fract x
      rw [hfract, add_zero] at h
      exact h.symm
    have hint (n : ℤ) : halfEven n = n := by
      unfold halfEven
      rw [if_pos (by norm_num), floor_intCast]
    rw [hx, ← cast_neg, hint, hint]
  · have hneg : fract (-x) = 1 - fract x := fract_neg hfract
    have hfloor : ⌊-x⌋ = -⌊x⌋ - 1 := by
      have h₁ := floor_add_fract x
      have h₂ := floor_add_fract (-x)
      have hsum : ((⌊-x⌋ : ℤ) : ℝ) = ((-⌊x⌋ - 1 : ℤ) : ℝ) := by
        push_cast
        linarith
      exact_mod_cast hsum
    unfold halfEven
    rw [hneg, hfloor]
    have hparity : Even (-⌊x⌋ - 1) ↔ ¬Even ⌊x⌋ := by
      rw [even_sub_one, even_neg]
    rcases lt_trichotomy (fract x + fract x) 1 with hlt | heq | hgt
    · rw [if_neg (by linarith), if_pos (by linarith), if_pos hlt]
      ring
    · have heq' : 1 - fract x + (1 - fract x) = 1 := by linarith
      rw [heq, heq']
      simp only [lt_irrefl, if_false]
      by_cases heven : Even ⌊x⌋
      · rw [if_neg (hparity.not.mpr (not_not.mpr heven)), if_pos heven]
        ring
      · rw [if_pos (hparity.mpr heven), if_neg heven]
        ring
    · rw [if_pos (by linarith), if_neg (by linarith), if_pos hgt]
      ring

/-- The mode that does to a number what `mode` does to its negative. -/
def flip : Rounding → Rounding
  | down => up
  | up => down
  | mode => mode

variable (mode : Rounding)

theorem toInt_neg (x : ℝ) : mode.toInt (-x) = -mode.flip.toInt x := by
  cases mode with
  | nearestEven => exact halfEven_neg x
  | down => exact floor_neg
  | up => exact ceil_neg
  | towardZero =>
    change (if 0 ≤ -x then ⌊-x⌋ else ⌈-x⌉) = -(if 0 ≤ x then ⌊x⌋ else ⌈x⌉)
    rw [floor_neg, ceil_neg]
    rcases lt_trichotomy x 0 with hlt | rfl | hgt
    · rw [if_pos (by linarith), if_neg (by linarith)]
    · simp
    · rw [if_neg (by linarith), if_pos hgt.le]

theorem toInt_mem (x : ℝ) : ⌊x⌋ ≤ mode.toInt x ∧ mode.toInt x ≤ ⌈x⌉ := by
  have hle : ⌊x⌋ ≤ ⌈x⌉ := floor_le_ceil x
  cases mode with
  | nearestEven =>
    -- it goes up only from a number with a fraction
    have hup (h : ¬fract x + fract x < 1) : ⌊x⌋ + 1 ≤ ⌈x⌉ := by
      apply add_one_le_iff.mpr
      apply floor_lt.mpr
      apply lt_of_le_of_ne (le_ceil x)
      intro hx
      rw [hx] at h
      exact h (by norm_num)
    change ⌊x⌋ ≤ halfEven x ∧ halfEven x ≤ ⌈x⌉
    unfold halfEven
    split_ifs with hlow hhigh heven
    · exact ⟨le_rfl, hle⟩
    · exact ⟨by omega, hup hlow⟩
    · exact ⟨le_rfl, hle⟩
    · exact ⟨by omega, hup hlow⟩
  | down => exact ⟨le_rfl, hle⟩
  | up => exact ⟨hle, le_rfl⟩
  | towardZero =>
    change ⌊x⌋ ≤ (if 0 ≤ x then ⌊x⌋ else ⌈x⌉) ∧ (if 0 ≤ x then ⌊x⌋ else ⌈x⌉) ≤ ⌈x⌉
    split_ifs
    · exact ⟨le_rfl, hle⟩
    · exact ⟨hle, le_rfl⟩

theorem toInt_intCast (n : ℤ) : mode.toInt (n : ℝ) = n := by
  obtain ⟨hlow, hhigh⟩ := mode.toInt_mem n
  rw [floor_intCast] at hlow
  rw [ceil_intCast] at hhigh
  exact le_antisymm hhigh hlow

theorem abs_toInt_le {x : ℝ} {n : ℕ} (h : |x| ≤ n) : |mode.toInt x| ≤ n := by
  obtain ⟨hlow, hhigh⟩ := abs_le.mp h
  obtain ⟨hfloor, hceil⟩ := mode.toInt_mem x
  have hlow' : -(n : ℤ) ≤ ⌊x⌋ := by
    apply le_floor.mpr
    push_cast
    exact hlow
  have hhigh' : ⌈x⌉ ≤ n := by
    apply ceil_le.mpr
    exact hhigh
  exact abs_le.mpr ⟨hlow'.trans hfloor, hceil.trans hhigh'⟩

theorem goesUp_flip : mode.flip.GoesUp false k f ↔ mode.GoesUp true k f := by
  cases mode <;> simp [flip, GoesUp]

open Classical in
theorem toInt_parts (h₀ : 0 ≤ f) (h₁ : f < 1) :
    mode.toInt (k + f) = k + if mode.GoesUp false k f then 1 else 0 := by
  cases mode with
  | nearestEven =>
    change halfEven (k + f) = _
    rw [halfEven_parts h₀ h₁]
    unfold GoesUp
    rcases lt_trichotomy (f + f) 1 with hlt | heq | hgt
    · rw [if_pos hlt, if_neg, add_zero]
      rintro (hup | ⟨htie, -⟩)
      · exact lt_asymm hlt hup
      · exact hlt.ne htie
    · by_cases heven : Even k <;> simp [heq, heven]
    · rw [if_neg (lt_asymm hgt), if_pos hgt, if_pos (.inl hgt)]
  | down =>
    change ⌊(k + f : ℝ)⌋ = _
    simp [floor_parts h₀ h₁, GoesUp]
  | up =>
    change ⌈(k + f : ℝ)⌉ = _
    by_cases hf : f = 0
    · simp [hf, GoesUp]
    · rw [ceil_parts h₀ h₁ hf, if_pos ⟨rfl, hf⟩]
  | towardZero =>
    change (if 0 ≤ (k + f : ℝ) then ⌊(k + f : ℝ)⌋ else ⌈(k + f : ℝ)⌉) = _
    rw [if_pos (add_nonneg (Nat.cast_nonneg k) h₀), floor_parts h₀ h₁]
    simp [GoesUp]

open Classical in
theorem toInt_signed (neg : Bool) (mode : Rounding) (h₀ : 0 ≤ f) (h₁ : f < 1) :
    (mode.toInt (signed neg * (k + f)) : ℝ) =
      signed neg * (k + if mode.GoesUp neg k f then 1 else 0) := by
  cases neg with
  | false =>
    have hsigned : signed false = 1 := rfl
    rw [hsigned, one_mul, one_mul, toInt_parts mode h₀ h₁]
    push_cast
    rfl
  | true =>
    have hsigned : signed true = -1 := rfl
    rw [hsigned, neg_one_mul, neg_one_mul, toInt_neg, toInt_parts mode.flip h₀ h₁]
    simp only [goesUp_flip]
    push_cast
    rfl

variable {p : ℕ} {e : ℤ}

theorem abs_signed (neg : Bool) (x : ℝ) : |signed neg * x| = |x| := by
  cases neg <;> simp [signed]

theorem unit_parts (hp : 1 ≤ p) (hlow : 2 ^ (p - 1) ≤ k) (hhigh : k < 2 ^ p) (h₀ : 0 ≤ f)
    (h₁ : f < 1) (neg : Bool) : unit p (signed neg * ((k + f) * 2 ^ e)) = 2 ^ e := by
  have hpow : (0 : ℝ) < 2 ^ e := zpow_pos two_pos e
  have hk : (2 : ℝ) ^ (p - 1 : ℤ) ≤ k := by
    have hcast : ((2 ^ (p - 1) : ℕ) : ℝ) ≤ k := by exact_mod_cast hlow
    have hexp : ((p - 1 : ℕ) : ℤ) = (p - 1 : ℤ) := by omega
    exact_mod_cast hcast
  have hk' : (k : ℝ) + 1 ≤ 2 ^ (p : ℤ) := by
    exact_mod_cast hhigh
  have hpos : (0 : ℝ) < k + f := lt_of_lt_of_le (zpow_pos two_pos _) (hk.trans (by linarith))
  have hlog : log 2 ((k + f) * 2 ^ e : ℝ) = p - 1 + e := by
    have hmag : (0 : ℝ) < (k + f) * 2 ^ e := mul_pos hpos hpow
    apply le_antisymm
    · have hlt : ((k + f) * 2 ^ e : ℝ) < (2 : ℕ) ^ (p + e : ℤ) := by
        rw [Nat.cast_ofNat, zpow_add₀ two_ne_zero]
        exact mul_lt_mul_of_pos_right (by linarith) hpow
      have := (lt_zpow_iff_log_lt (by norm_num) hmag).mp hlt
      omega
    · apply (zpow_le_iff_le_log (by norm_num) hmag).mp
      rw [Nat.cast_ofNat, zpow_add₀ two_ne_zero]
      exact mul_le_mul_of_nonneg_right (by linarith) hpow.le
  unfold unit
  rw [abs_signed, abs_of_pos (mul_pos hpos hpow), hlog]
  congr 1
  ring

open Classical in
theorem roundTo_parts (hp : 1 ≤ p) (hlow : 2 ^ (p - 1) ≤ k) (hhigh : k < 2 ^ p) (h₀ : 0 ≤ f)
    (h₁ : f < 1) (neg : Bool) (mode : Rounding) :
    roundTo p mode (signed neg * ((k + f) * 2 ^ e)) =
      signed neg * ((k + if mode.GoesUp neg k f then 1 else 0) * 2 ^ e) := by
  have hpow : (2 : ℝ) ^ e ≠ 0 := (zpow_pos two_pos e).ne'
  unfold roundTo
  rw [unit_parts hp hlow hhigh h₀ h₁ neg, ← mul_assoc, mul_div_assoc, div_self hpow, mul_one,
    toInt_signed neg mode h₀ h₁, mul_assoc]

theorem abs_roundTo_le (hp : 1 ≤ p) (mode : Rounding) {x : ℝ} {n : ℤ} (hx : x ≠ 0)
    (h : |x| < 2 ^ n) : |roundTo p mode x| ≤ 2 ^ n := by
  have hpos : 0 < |x| := abs_pos.mpr hx
  have hlog : log 2 |x| < n := by
    apply (lt_zpow_iff_log_lt (by norm_num) hpos).mp
    exact h
  obtain ⟨j, hj⟩ : ∃ j : ℕ, (j : ℤ) = n - (log 2 |x| - (p - 1)) :=
    ⟨(n - (log 2 |x| - (p - 1))).toNat, toNat_of_nonneg (by omega)⟩
  have hunit : 0 < unit p x := by
    exact zpow_pos (by norm_num) _
  -- the power of two is a whole number of units
  have hwhole : (2 : ℝ) ^ n = ((2 ^ j : ℕ) : ℝ) * unit p x := by
    unfold unit
    push_cast
    rw [← zpow_natCast, hj, ← zpow_add₀ two_ne_zero, sub_add_cancel]
  have hscaled : |x / unit p x| ≤ ((2 ^ j : ℕ) : ℝ) := by
    rw [abs_div, abs_of_pos hunit, div_le_iff₀ hunit, ← hwhole]
    exact h.le
  have hint : |(mode.toInt (x / unit p x) : ℝ)| ≤ ((2 ^ j : ℕ) : ℝ) := by
    exact_mod_cast abs_toInt_le mode hscaled
  unfold roundTo
  rw [abs_mul, abs_of_pos hunit, hwhole]
  exact mul_le_mul_of_nonneg_right hint hunit.le

theorem not_goesUp_zero (mode : Rounding) (neg : Bool) : ¬mode.GoesUp neg k 0 := by
  cases mode <;> simp [GoesUp]

theorem signed_mul_inj {neg : Bool} {x y : ℝ} : signed neg * x = signed neg * y ↔ x = y := by
  cases neg <;> simp [signed]

theorem roundTo_eq_self_iff (hp : 1 ≤ p) (hlow : 2 ^ (p - 1) ≤ k) (hhigh : k < 2 ^ p) (h₀ : 0 ≤ f)
    (h₁ : f < 1) (neg : Bool) (mode : Rounding) :
    roundTo p mode (signed neg * ((k + f) * 2 ^ e)) = signed neg * ((k + f) * 2 ^ e) ↔ f = 0 := by
  have hpow : (2 : ℝ) ^ e ≠ 0 := (zpow_pos two_pos e).ne'
  rw [roundTo_parts hp hlow hhigh h₀ h₁, signed_mul_inj, mul_left_inj' hpow, add_right_inj]
  by_cases hup : mode.GoesUp neg k f
  · rw [if_pos hup]
    constructor
    · intro hone
      exact absurd hone h₁.ne'
    · rintro rfl
      exact absurd hup (not_goesUp_zero mode neg)
  · rw [if_neg hup]
    exact eq_comm

end Rounding

end X86Jit.Lib
