import Mathlib.Algebra.Order.Floor.Semifield
import X86Jit.Lib.Precision

/-! A positive number rounded to `p` bits and then cut off to an integer, against the same number
rounded to an integer at once. -/
namespace X86Jit.Lib.Rounding
open Int

/-- The mode as it acts on magnitudes. -/
def onMagnitude (mode : Rounding) (neg : Bool) : Rounding := if neg then mode.flip else mode

/-- From a number with the fraction `f`, rounding to a grid of step `g` below 1 goes up to the next
integer. -/
def Carries (g f : ℝ) : Rounding → Prop
  | nearestEven => (1 - f) + (1 - f) ≤ g
  | up => 1 - f < g
  | down | towardZero => False

/-- Where the first rounding keeps the integers, the last unit must not go up, unless the first
rounding carries into it. Where its step is larger, the right integer must be a multiple of it. -/
def CutsRight (p : ℕ) (y : ℝ) (mode : Rounding) : Prop :=
  if unit p y < 1 then
    mode.GoesUp false ⌊y⌋₊ (y - ⌊y⌋₊) → mode.Carries (unit p y) (y - ⌊y⌋₊)
  else ∃ n : ℤ, (mode.toInt y : ℝ) = n * unit p y

variable {p k i N : ℕ} {x y f g : ℝ} {mode : Rounding} {n : ℤ}

theorem unit_lt_one (hy : 0 < y) {e : ℤ} (h : y < 2 ^ e) (he : e < p) : unit p y < 1 := by
  have hlog : log 2 y < e := (lt_zpow_iff_log_lt one_lt_two hy).mp h
  rw [unit_eq, abs_of_pos hy]
  exact zpow_lt_one_of_neg₀ one_lt_two (by omega)

theorem natAbs_toInt_signed (mode : Rounding) (neg : Bool) (x : ℝ) :
    (mode.toInt (signed neg * x)).natAbs = ((mode.onMagnitude neg).toInt x).natAbs := by
  cases neg with
  | false =>
    rw [show signed false = 1 from rfl, one_mul]
    rfl
  | true =>
    rw [show signed true = -1 from rfl, neg_one_mul, toInt_neg, natAbs_neg]
    rfl

theorem abs_roundTo_signed (mode : Rounding) (neg : Bool) (hy : 0 ≤ y) :
    |roundTo p mode (signed neg * y)| = roundTo p (mode.onMagnitude neg) y := by
  have hunit : unit p (signed neg * y) = unit p y := by
    unfold unit
    rw [abs_signed]
  have habs (m : ℤ) : |(m : ℝ)| = (m.natAbs : ℝ) := by
    rw [← cast_abs, abs_eq_natAbs, cast_natCast]
  rw [← abs_of_nonneg (roundTo_nonneg hy _)]
  unfold roundTo
  rw [hunit, mul_div_assoc, abs_mul, abs_mul, habs, habs, natAbs_toInt_signed]

theorem roundTo_div_zpow (hy : 0 < y) (n : ℤ) :
    roundTo p mode (y / 2 ^ n) = roundTo p mode y / 2 ^ n := by
  have hpow : (0 : ℝ) < 2 ^ n := zpow_pos two_pos n
  have hlog : log 2 (y / 2 ^ n) = log 2 y - n := by
    apply eq_of_forall_le_iff
    intro e
    rw [← zpow_le_iff_le_log one_lt_two (div_pos hy hpow), le_div_iff₀ hpow, le_sub_iff_add_le,
      ← zpow_le_iff_le_log one_lt_two hy, Nat.cast_ofNat, zpow_add₀ two_ne_zero]
  have hunit : unit p (y / 2 ^ n) = unit p y / 2 ^ n := by
    rw [unit_eq, unit_eq, abs_of_pos hy, abs_of_pos (div_pos hy hpow), hlog, sub_right_comm,
      zpow_sub₀ two_ne_zero _ n]
  unfold roundTo
  rw [hunit, div_div_div_cancel_right₀ hpow.ne', mul_div_assoc]

theorem Carries.goesUp (hg : g ≤ 1 / 2) (h : mode.Carries g f) : mode.GoesUp false k f := by
  cases mode with
  | nearestEven =>
    simp only [Carries] at h
    exact .inl (by linarith)
  | up =>
    simp only [Carries] at h
    exact ⟨rfl, by linarith⟩
  | down | towardZero => exact h.elim

section Fine
variable (hpos : 0 < g) (h₀ : 0 ≤ f) (h₁ : f < 1)
include hpos h₀ h₁

theorem toInt_lt_iff (mode : Rounding) (hn : n * g = k + 1) (heven : Even n) :
    mode.toInt ((k + f) / g) < n ↔ ¬mode.Carries g f := by
  have hlt : ⌊(k + f) / g⌋ < n := by
    rw [floor_lt, div_lt_iff₀ hpos, hn]
    linarith
  cases mode with
  | nearestEven =>
    change halfEven _ < n ↔ ¬(1 - f) + (1 - f) ≤ g
    rw [halfEven_lt_iff heven, ← lt_sub_iff_add_lt, div_lt_iff₀ hpos, sub_mul, hn]
    constructor <;> intro h <;> linarith
  | up =>
    change ⌈_⌉ < n ↔ ¬1 - f < g
    rw [← le_sub_one_iff, ceil_le, cast_sub, cast_one, div_le_iff₀ hpos, sub_mul, hn]
    constructor <;> intro h <;> linarith
  | down => exact iff_of_true hlt id
  | towardZero =>
    refine iff_of_true ?_ id
    change (if 0 ≤ (k + f) / g then ⌊(k + f) / g⌋ else ⌈(k + f) / g⌉) < n
    rwa [if_pos (by positivity)]

open Classical in
/-- The grid of the first rounding has the integers: what is cut off is the fraction, unless there
was a carry. -/
theorem floor_fine (mode : Rounding) (hi : 1 ≤ i) (hg : (2 ^ i : ℕ) * g = 1) :
    ⌊(mode.toInt ((k + f) / g) : ℝ) * g⌋ = k + if mode.Carries g f then 1 else 0 := by
  have hgrid (m : ℕ) : (((m * 2 ^ i : ℕ) : ℤ) : ℝ) * g = m := by
    rw [cast_natCast, Nat.cast_mul, mul_assoc, hg, mul_one]
  have hnext : (((k + 1) * 2 ^ i : ℕ) : ℤ) * g = (k + 1 : ℝ) := by
    rw [hgrid, Nat.cast_succ]
  have heven : Even (((k + 1) * 2 ^ i : ℕ) : ℤ) := by
    rw [even_coe_nat]
    exact (Even.pow_of_ne_zero even_two (by omega)).mul_left _
  have hcarry := toInt_lt_iff hpos h₀ h₁ mode hnext heven
  obtain ⟨hfloor, hceil⟩ := mode.toInt_mem ((k + f) / g)
  have hlow : ((k * 2 ^ i : ℕ) : ℤ) ≤ mode.toInt ((k + f) / g) := by
    refine le_trans (le_floor.mpr ?_) hfloor
    rw [le_div_iff₀ hpos, hgrid]
    linarith
  have hhigh : mode.toInt ((k + f) / g) ≤ ((k + 1) * 2 ^ i : ℕ) := by
    refine hceil.trans (ceil_le.mpr ?_)
    rw [div_le_iff₀ hpos, hnext]
    linarith
  by_cases hc : mode.Carries g f
  · have heq := le_antisymm hhigh (not_lt.mp (hcarry.not.mpr (not_not.mpr hc)))
    rw [heq, hnext, if_pos hc]
    exact_mod_cast floor_natCast (k + 1)
  · have hless : (mode.toInt ((k + f) / g) : ℝ) < (((k + 1) * 2 ^ i : ℕ) : ℤ) := by
      exact_mod_cast hcarry.mpr hc
    have hcast : (((k * 2 ^ i : ℕ) : ℤ) : ℝ) ≤ mode.toInt ((k + f) / g) := by exact_mod_cast hlow
    rw [if_neg hc, add_zero, floor_eq_iff]
    constructor
    · have hle := mul_le_mul_of_nonneg_right hcast hpos.le
      rwa [hgrid] at hle
    · have hlt := mul_lt_mul_of_pos_right hless hpos
      rwa [hnext] at hlt

end Fine

theorem abs_halfEven_sub_le (x : ℝ) : |halfEven x - x| ≤ 1 / 2 := by
  have hsum := floor_add_fract x
  have h₀ := fract_nonneg x
  have h₁ := fract_lt_one x
  rw [abs_le]
  unfold halfEven
  split_ifs <;> push_cast <;> constructor <;> linarith

/-- A multiple of `N` to which a number is rounded is also what it is rounded to on the coarser
grid. -/
theorem toInt_div_of_eq (hN : 1 ≤ N) (hx : 0 ≤ x) (h : mode.toInt x = n * N) :
    mode.toInt (x / N) = n := by
  have hone : (1 : ℝ) ≤ N := by exact_mod_cast hN
  have hpos : (0 : ℝ) < N := by linarith
  have hfloor (h : ⌊x⌋ = n * N) : ⌊x / N⌋ = n := by
    rw [floor_eq_iff] at h ⊢
    rw [le_div_iff₀ hpos, div_lt_iff₀ hpos]
    push_cast at h
    exact ⟨h.1, by linarith⟩
  cases mode with
  | nearestEven =>
    rcases hN.eq_or_lt with rfl | htwo
    · simpa using h
    · have htwo : (2 : ℝ) ≤ N := by exact_mod_cast htwo
      have hnear := abs_le.mp (abs_halfEven_sub_le x)
      have hscaled := abs_le.mp (abs_halfEven_sub_le (x / N))
      change halfEven x = n * N at h
      rw [h] at hnear
      push_cast at hnear
      change halfEven (x / N) = n
      have hquot : x / N * N = x := div_mul_cancel₀ x hpos.ne'
      have hlow : (n : ℝ) - 1 < halfEven (x / N) := by nlinarith
      have hhigh : (halfEven (x / N) : ℝ) < n + 1 := by nlinarith
      have hlow' : n - 1 < halfEven (x / N) := by exact_mod_cast hlow
      have hhigh' : halfEven (x / N) < n + 1 := by exact_mod_cast hhigh
      omega
  | down => exact hfloor h
  | up =>
    change ⌈x⌉ = _ at h
    change ⌈x / N⌉ = n
    rw [ceil_eq_iff] at h ⊢
    rw [lt_div_iff₀ hpos, div_le_iff₀ hpos]
    push_cast at h
    exact ⟨by linarith, h.2⟩
  | towardZero =>
    change (if 0 ≤ x then ⌊x⌋ else ⌈x⌉) = _ at h
    change (if 0 ≤ x / N then ⌊x / N⌋ else ⌈x / N⌉) = n
    rw [if_pos hx] at h
    rw [if_pos (by positivity)]
    exact hfloor h

theorem fract_bounds (hy : 0 ≤ y) : 0 ≤ y - ⌊y⌋₊ ∧ y - ⌊y⌋₊ < 1 := by
  have hlt := Nat.lt_floor_add_one y
  exact ⟨sub_nonneg.mpr (Nat.floor_le hy), by linarith⟩

open Classical in
theorem toInt_eq (hy : 0 ≤ y) :
    mode.toInt y = ⌊y⌋₊ + if mode.GoesUp false ⌊y⌋₊ (y - ⌊y⌋₊) then 1 else 0 := by
  have hparts := toInt_parts (k := ⌊y⌋₊) mode (fract_bounds hy).1 (fract_bounds hy).2
  rwa [add_sub_cancel] at hparts

theorem floor_eq_toInt_iff (hy : 0 ≤ y) :
    ⌊y⌋ = mode.toInt y ↔ ¬mode.GoesUp false ⌊y⌋₊ (y - ⌊y⌋₊) := by
  rw [toInt_eq hy, natCast_floor_eq_floor hy]
  by_cases hup : mode.GoesUp false ⌊y⌋₊ (y - ⌊y⌋₊) <;> simp [hup]

theorem floor_roundTo_iff (hy : 0 < y) :
    ⌊roundTo p mode y⌋ = mode.toInt y ↔ mode.CutsRight p y := by
  have hpos := unit_pos p y
  have hunit := unit_eq p y
  unfold roundTo CutsRight
  generalize unit p y = g at hpos hunit ⊢
  rcases lt_or_ge (log 2 |y| - (p - 1 : ℤ)) 0 with he | he
  · obtain ⟨i, hi⟩ := eq_ofNat_of_zero_le (neg_nonneg.mpr he.le)
    have hg : ((2 ^ i : ℕ) : ℝ) * g = 1 := by
      rw [hunit, Nat.cast_pow, Nat.cast_ofNat, ← zpow_natCast, ← hi, ← zpow_add₀ two_ne_zero,
        neg_add_cancel, zpow_zero]
    have hhalf : g ≤ 1 / 2 := by
      have htwo : (2 : ℝ) ≤ (2 ^ i : ℕ) := by exact_mod_cast Nat.le_self_pow (by omega) 2
      nlinarith
    have hfloor := floor_fine (k := ⌊y⌋₊) hpos (fract_bounds hy.le).1
      (fract_bounds hy.le).2 mode (by omega) hg
    have hup : mode.Carries g (y - ⌊y⌋₊) → mode.GoesUp false ⌊y⌋₊ (y - ⌊y⌋₊) := Carries.goesUp hhalf
    rw [add_sub_cancel] at hfloor
    rw [if_pos (by linarith), hfloor, toInt_eq hy.le]
    by_cases hkf : mode.GoesUp false ⌊y⌋₊ (y - ⌊y⌋₊)
    · by_cases hc : mode.Carries g (y - ⌊y⌋₊) <;> simp [hkf, hc]
    · simp [hkf, mt hup hkf]
  · obtain ⟨j, hj⟩ := eq_ofNat_of_zero_le he
    obtain rfl : g = ((2 ^ j : ℕ) : ℝ) := by
      rw [hunit, hj, Nat.cast_pow, Nat.cast_ofNat]
      exact zpow_natCast 2 j
    have hN : 1 ≤ 2 ^ j := Nat.one_le_two_pow
    have hcast (n : ℤ) : (n : ℝ) * (2 ^ j : ℕ) = ((n * (2 ^ j : ℕ) : ℤ) : ℝ) := by push_cast; rfl
    rw [if_neg (not_lt.mpr (by exact_mod_cast hN)), hcast, floor_intCast]
    constructor
    · intro h
      refine ⟨mode.toInt (y / (2 ^ j : ℕ)), ?_⟩
      rw [← h, hcast]
    · rintro ⟨n, hn⟩
      rw [hcast, Int.cast_inj] at hn
      rw [toInt_div_of_eq hN hy.le hn, hn]

end X86Jit.Lib.Rounding
