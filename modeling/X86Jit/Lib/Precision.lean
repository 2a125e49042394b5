import X86Jit.Lib.Rounding

/-! Numbers with a given number of bits: which ones there are, that rounding keeps them and does
not cross them, and when a difference of two is one again. -/
namespace X86Jit.Lib.Rounding
open Int

structure Multiple (e : ℤ) (x : ℝ) : Prop where
  exists_eq : ∃ k : ℤ, x = k * 2 ^ e

def Fits (p : ℕ) (x : ℝ) : Prop := Multiple (log 2 |x| - (p - 1 : ℤ)) x

variable {e e' : ℤ} {x y : ℝ}

theorem Multiple.mono (h : Multiple e x) (hle : e' ≤ e) : Multiple e' x := by
  obtain ⟨k, rfl⟩ := h
  obtain ⟨d, hd⟩ := le.dest hle
  refine ⟨k * 2 ^ d, ?_⟩
  rw [← hd, zpow_add₀ two_ne_zero, zpow_natCast]
  push_cast
  ring

theorem Multiple.sub (hx : Multiple e x) (hy : Multiple e y) : Multiple e (x - y) := by
  obtain ⟨k, rfl⟩ := hx
  obtain ⟨l, rfl⟩ := hy
  refine ⟨k - l, ?_⟩
  push_cast
  ring

theorem Multiple.mul_int (hx : Multiple e x) (n : ℤ) : Multiple e (n * x) := by
  obtain ⟨k, rfl⟩ := hx
  refine ⟨n * k, ?_⟩
  push_cast
  ring

theorem Multiple.signed (hx : Multiple e x) (neg : Bool) : Multiple e (signed neg * x) := by
  cases neg with
  | false => simpa [Rounding.signed] using hx.mul_int 1
  | true => simpa [Rounding.signed] using hx.mul_int (-1)

theorem Multiple.le_abs (h : Multiple e x) (hx : x ≠ 0) : (2 : ℝ) ^ e ≤ |x| := by
  obtain ⟨k, rfl⟩ := h
  have hpow : (0 : ℝ) < 2 ^ e := zpow_pos two_pos e
  have hk : k ≠ 0 := by
    rintro rfl
    simp at hx
  have hone : (1 : ℝ) ≤ |(k : ℝ)| := by exact_mod_cast one_le_abs hk
  rw [abs_mul, abs_of_pos hpow]
  exact le_mul_of_one_le_left hpow.le hone

variable {p : ℕ}

theorem log_bounds (hx : x ≠ 0) :
    (2 : ℝ) ^ log 2 |x| ≤ |x| ∧ |x| < 2 ^ (log 2 |x| + 1) := by
  have hpos : 0 < |x| := abs_pos.mpr hx
  have hlow := zpow_log_le_self (b := 2) one_lt_two hpos
  have hhigh := lt_zpow_succ_log_self (b := 2) one_lt_two |x|
  exact ⟨hlow, hhigh⟩

theorem fits_of_lt (h : Multiple e x) (hlt : |x| < 2 ^ (e + p)) : Fits p x := by
  by_cases hx : x = 0
  · exact ⟨0, by rw [hx]; simp⟩
  · have hle := (log_bounds hx).1.trans_lt hlt
    have hlog := (zpow_lt_zpow_iff_right₀ (one_lt_two (α := ℝ))).mp hle
    exact h.mono (by omega)

theorem unit_eq (p : ℕ) (x : ℝ) : unit p x = 2 ^ (log 2 |x| - (p - 1 : ℤ)) := by
  unfold unit
  rw [Nat.cast_ofNat]

theorem unit_pos (p : ℕ) (x : ℝ) : 0 < unit p x := by
  exact zpow_pos two_pos _

theorem roundTo_nonneg (hx : 0 ≤ x) (mode : Rounding) : 0 ≤ roundTo p mode x := by
  have hpos := unit_pos p x
  apply mul_nonneg _ hpos.le
  have hfloor : 0 ≤ ⌊x / unit p x⌋ := floor_nonneg.mpr (div_nonneg hx hpos.le)
  exact_mod_cast hfloor.trans (mode.toInt_mem _).1

theorem Fits.roundTo_eq (h : Fits p x) (mode : Rounding) : roundTo p mode x = x := by
  have hne := (unit_pos p x).ne'
  obtain ⟨k, hk⟩ := h
  unfold roundTo
  have hquot : x / unit p x = k := by
    rw [div_eq_iff hne]
    exact hk
  rw [hquot, toInt_intCast]
  exact hk.symm

theorem roundTo_multiple (p : ℕ) (mode : Rounding) (x : ℝ) :
    Multiple (log 2 |x| - (p - 1 : ℤ)) (roundTo p mode x) := by
  unfold roundTo
  exact ⟨_, rfl⟩

theorem Multiple.roundTo (h : Multiple e x) (p : ℕ) (mode : Rounding) :
    Multiple e (roundTo p mode x) := by
  rcases le_total e (log 2 |x| - (p - 1 : ℤ)) with hcoarse | hfine
  · exact (roundTo_multiple p mode x).mono hcoarse
  · have hfits : Fits p x := h.mono hfine
    rw [hfits.roundTo_eq]
    exact h

theorem roundTo_le (hx : 0 < x) (hy : Fits p y) (hle : x ≤ y) (mode : Rounding) :
    roundTo p mode x ≤ y := by
  have hlog : log 2 |x| ≤ log 2 |y| := by
    apply log_mono_right (abs_pos.mpr hx.ne')
    rwa [abs_of_pos hx, abs_of_pos (hx.trans_le hle)]
  -- the number above is a whole number of the units of the one below
  obtain ⟨k, hk⟩ := hy.mono (sub_le_sub_right hlog _)
  rw [← unit_eq] at hk
  have hpos := unit_pos p x
  rw [hk]
  apply mul_le_mul_of_nonneg_right _ hpos.le
  have hceil : ⌈x / unit p x⌉ ≤ k := by
    rw [ceil_le, div_le_iff₀ hpos, ← hk]
    exact hle
  exact_mod_cast (mode.toInt_mem _).2.trans hceil

theorem le_roundTo (hp : 1 ≤ p) (hy : 0 < y) (hfits : Fits p y) (hle : y ≤ x) (mode : Rounding) :
    y ≤ roundTo p mode x := by
  have hx : 0 < x := hy.trans_le hle
  have hpos := unit_pos p x
  have hfloor {k : ℤ} (hk : k * unit p x ≤ x) : k * unit p x ≤ roundTo p mode x := by
    apply mul_le_mul_of_nonneg_right _ hpos.le
    have hint : k ≤ ⌊x / unit p x⌋ := by
      rw [le_floor, le_div_iff₀ hpos]
      exact hk
    exact_mod_cast hint.trans (mode.toInt_mem _).1
  rcases le_or_gt (log 2 |x|) (log 2 |y|) with hlog | hlog
  · obtain ⟨k, hk⟩ := hfits.mono (sub_le_sub_right hlog _)
    rw [hk]
    exact hfloor (hk ▸ hle)
  · -- a power of two lies between them
    have hbetween : y ≤ 2 ^ log 2 |x| := by
      have hlt := (log_bounds hy.ne').2
      rw [abs_of_pos hy] at hlt
      apply hlt.le.trans
      rw [abs_of_pos hy] at hlog
      exact zpow_le_zpow_right₀ one_le_two hlog
    have hpower : (2 : ℝ) ^ log 2 |x| = (2 ^ (p - 1) : ℤ) * unit p x := by
      have hexp : ((p - 1 : ℕ) : ℤ) = (p - 1 : ℤ) := by omega
      rw [unit_eq, cast_pow, cast_ofNat, ← zpow_natCast, hexp, ← zpow_add₀ two_ne_zero]
      congr 1
      ring
    have hlow := (log_bounds hx.ne').1
    rw [abs_of_pos hx] at hlow
    apply hbetween.trans
    rw [abs_of_pos hx] at hpower ⊢
    rw [hpower] at hlow ⊢
    exact hfloor hlow

theorem Fits.sub (hx : Fits p x) (hy : Fits p y) (hpos : 0 < y) (hle : y ≤ x) (htwo : x ≤ 2 * y) :
    Fits p (x - y) := by
  have hxpos : 0 < x := hpos.trans_le hle
  have hlog : log 2 |y| ≤ log 2 |x| := by
    apply log_mono_right (abs_pos.mpr hpos.ne')
    rwa [abs_of_pos hpos, abs_of_pos hxpos]
  apply fits_of_lt ((hx.mono (sub_le_sub_right hlog _)).sub hy)
  have hlt := (log_bounds hpos.ne').2
  have hexp : log 2 |y| - (p - 1 : ℤ) + p = log 2 |y| + 1 := by ring
  rw [abs_of_nonneg (sub_nonneg.mpr hle), hexp]
  rw [abs_of_pos hpos] at hlt ⊢
  linarith

theorem fits_two_zpow (hp : 1 ≤ p) (e : ℤ) : Fits p ((2 : ℝ) ^ e) := by
  apply fits_of_lt (e := e) ⟨1, by simp⟩
  rw [abs_of_pos (zpow_pos two_pos e)]
  exact zpow_lt_zpow_right₀ one_lt_two (by omega)

theorem fits_nat {n : ℕ} (h : n < 2 ^ p) : Fits p (n : ℝ) := by
  apply fits_of_lt (e := 0) ⟨n, by simp⟩
  rw [zero_add, Nat.abs_cast]
  exact_mod_cast h

theorem Fits.mul_two_zpow (h : Fits p x) (e : ℤ) : Fits p (x * 2 ^ e) := by
  by_cases hx : x = 0
  · exact ⟨0, by rw [hx]; simp⟩
  obtain ⟨k, hk⟩ := h
  have hlt := (log_bounds hx).2
  apply fits_of_lt (e := log 2 |x| - (p - 1 : ℤ) + e)
  · refine ⟨k, ?_⟩
    rw [zpow_add₀ two_ne_zero, ← mul_assoc, ← hk]
  · have hexp : log 2 |x| - (p - 1 : ℤ) + e + p = log 2 |x| + 1 + e := by ring
    rw [abs_mul, abs_of_pos (zpow_pos two_pos e : (0 : ℝ) < 2 ^ e), hexp, zpow_add₀ two_ne_zero]
    exact mul_lt_mul_of_pos_right hlt (zpow_pos two_pos e)

theorem roundTo_pos (hp : 1 ≤ p) (hx : 0 < x) (mode : Rounding) : 0 < roundTo p mode x := by
  have hlow := (log_bounds hx.ne').1
  rw [abs_of_pos hx] at hlow
  have hpow : (0 : ℝ) < 2 ^ log 2 x := zpow_pos two_pos _
  exact hpow.trans_le (le_roundTo hp hpow (fits_two_zpow hp _) hlow mode)

theorem fits_roundTo (hp : 1 ≤ p) (hx : 0 < x) (mode : Rounding) : Fits p (roundTo p mode x) := by
  have hpos := roundTo_pos hp hx mode
  have hlt := (log_bounds hx.ne').2
  rw [abs_of_pos hx] at hlt
  have hle : roundTo p mode x ≤ 2 ^ (log 2 x + 1) :=
    roundTo_le hx (fits_two_zpow hp _) hlt.le mode
  rcases hle.lt_or_eq with hless | hpower
  · apply fits_of_lt (roundTo_multiple p mode x)
    rw [abs_of_pos hpos, abs_of_pos hx]
    have hexp : log 2 x - (p - 1 : ℤ) + p = log 2 x + 1 := by ring
    rw [hexp]
    exact hless
  · rw [hpower]
    exact fits_two_zpow hp _

theorem fits_of_roundTo_eq {mode : Rounding} (h : roundTo p mode x = x) : Fits p x := by
  have hmul := roundTo_multiple p mode x
  rw [h] at hmul
  exact hmul

theorem fits_natCast_iff {m : ℕ} (hm : m ≠ 0) (hlog : p - 1 ≤ m.log2) (hp : 1 ≤ p) (e : ℤ) :
    Fits p (m * 2 ^ e) ↔ 2 ^ (m.log2 - (p - 1)) ∣ m := by
  have hpow : (0 : ℝ) < 2 ^ e := zpow_pos two_pos e
  have hmpos : (0 : ℝ) < m := by exact_mod_cast Nat.pos_of_ne_zero hm
  have hscaled : log 2 |(m * 2 ^ e : ℝ)| = m.log2 + e := by
    have hpos : (0 : ℝ) < m * 2 ^ e := mul_pos hmpos hpow
    rw [abs_of_pos hpos]
    have hlow : ((2 : ℕ) : ℝ) ^ (m.log2 + e : ℤ) ≤ m * 2 ^ e := by
      rw [Nat.cast_ofNat, zpow_add₀ two_ne_zero]
      apply mul_le_mul_of_nonneg_right _ hpow.le
      exact_mod_cast Nat.log2_self_le hm
    have hhigh : (m * 2 ^ e : ℝ) < ((2 : ℕ) : ℝ) ^ (m.log2 + e + 1 : ℤ) := by
      have hexp : (m.log2 + e + 1 : ℤ) = ((m.log2 + 1 : ℕ) : ℤ) + e := by
        push_cast
        ring
      rw [Nat.cast_ofNat, hexp, zpow_add₀ two_ne_zero]
      apply mul_lt_mul_of_pos_right _ hpow
      exact_mod_cast Nat.lt_log2_self
    apply le_antisymm
    · have := (lt_zpow_iff_log_lt one_lt_two hpos).mp hhigh
      omega
    · exact (zpow_le_iff_le_log one_lt_two hpos).mp hlow
  have hexp : (m.log2 + e - (p - 1) : ℤ) = ((m.log2 - (p - 1) : ℕ) : ℤ) + e := by omega
  have hmul (e : ℤ) (x : ℝ) : Multiple e x ↔ ∃ k : ℤ, x = k * 2 ^ e := ⟨(·.exists_eq), .mk⟩
  unfold Fits
  rw [hscaled, hexp, hmul, ← natCast_dvd_natCast]
  apply exists_congr
  intro k
  rw [zpow_add₀ two_ne_zero, ← mul_assoc, mul_left_inj' hpow.ne', mul_comm]
  constructor
  · intro h
    exact_mod_cast h
  · intro h
    exact_mod_cast h

theorem roundTo_nearest_signed (p : ℕ) (neg : Bool) (x : ℝ) :
    roundTo p nearestEven (signed neg * x) = signed neg * roundTo p nearestEven x := by
  have hunit : unit p (signed neg * x) = unit p x := by
    unfold unit
    rw [abs_signed]
  unfold roundTo
  rw [hunit]
  cases neg with
  | false => simp [signed]
  | true =>
    change (halfEven (-1 * x / unit p x) : ℝ) * unit p x = -1 * (halfEven (x / unit p x) * unit p x)
    rw [neg_one_mul, neg_div, halfEven_neg]
    push_cast
    ring

variable {n : ℕ}

theorem halfEven_lt_iff {z : ℝ} {k : ℤ} (hk : Even k) : halfEven z < k ↔ z + 1 / 2 < k := by
  have hsum := floor_add_fract z
  have h₀ := fract_nonneg z
  have h₁ := fract_lt_one z
  have hfloor (h : ⌊z⌋ + 2 ≤ k) : z + 1 / 2 < k := by
    have hcast : ((⌊z⌋ : ℤ) : ℝ) + 2 ≤ k := by exact_mod_cast h
    linarith
  have hlow (h : k ≤ ⌊z⌋) : ¬z + 1 / 2 < k := by
    have hcast : (k : ℝ) ≤ (⌊z⌋ : ℤ) := by exact_mod_cast h
    linarith
  unfold halfEven
  rcases lt_trichotomy (⌊z⌋ + 1) k with hlt | heq | hgt
  · refine iff_of_true ?_ (hfloor (by omega))
    split_ifs <;> omega
  · have hodd : ¬Even ⌊z⌋ := by
      rw [← heq, even_add_one] at hk
      exact hk
    have hcast : (k : ℝ) = (⌊z⌋ : ℤ) + 1 := by
      rw [← heq]
      push_cast
      rfl
    split_ifs with hdown
    · exact iff_of_true (by omega) (by linarith)
    · exact iff_of_false (by omega) (by linarith)
    · exact iff_of_false (by omega) (by linarith)
  · refine iff_of_false ?_ (hlow (by omega))
    split_ifs <;> omega

theorem towardZero_signed (hx : 0 ≤ x) (neg : Bool) :
    towardZero.toInt (signed neg * x) = if neg then -(⌊x⌋₊ : ℤ) else ⌊x⌋₊ := by
  have hfloor : towardZero.toInt x = ⌊x⌋₊ := by
    change (if 0 ≤ x then ⌊x⌋ else ⌈x⌉) = _
    rw [if_pos hx, ← floor_toNat, toNat_of_nonneg (floor_nonneg.mpr hx)]
  cases neg with
  | false =>
    change towardZero.toInt (1 * x) = _
    rw [one_mul, hfloor]
    rfl
  | true =>
    change towardZero.toInt (-1 * x) = _
    rw [neg_one_mul, toInt_neg]
    exact congrArg (fun n => -n) hfloor

theorem log_of_floor (hn : 1 ≤ n) (hfloor : ⌊x⌋₊ = n) : log 2 |x| = n.log2 := by
  have hx : 1 ≤ x := by
    rw [← Nat.one_le_floor_iff]
    omega
  rw [abs_of_pos (one_pos.trans_le hx), log_of_one_le_right 2 hx, hfloor, Nat.log2_eq_log_two]

theorem roundTo_lt_succ_iff (hn : 1 ≤ n) (hp : n.log2 + 2 ≤ p) (hfloor : ⌊x⌋₊ = n) :
    roundTo p nearestEven x < n + 1 ↔ x + 2 ^ (n.log2 - p : ℤ) < n + 1 := by
  have hunit : unit p x = 2 ^ (n.log2 - (p - 1) : ℤ) := by
    rw [unit_eq, log_of_floor hn hfloor]
  have hpos := unit_pos p x
  let k : ℤ := (n + 1) * 2 ^ (p - 1 - n.log2)
  have hk : Even k := by
    apply Even.mul_left
    exact Even.pow_of_ne_zero even_two (by omega)
  -- the next integer is an even number of units
  have hnext : (n : ℝ) + 1 = k * unit p x := by
    have hexp : ((p - 1 - n.log2 : ℕ) : ℤ) + (n.log2 - (p - 1) : ℤ) = 0 := by omega
    rw [hunit]
    simp only [k]
    push_cast
    rw [mul_assoc, ← zpow_natCast, ← zpow_add₀ two_ne_zero, hexp, zpow_zero, mul_one]
  have hhalf : (2 : ℝ) ^ (n.log2 - p : ℤ) = 1 / 2 * unit p x := by
    have hexp : (n.log2 - p : ℤ) = -1 + (n.log2 - (p - 1)) := by ring
    rw [hunit, hexp, zpow_add₀ two_ne_zero, zpow_neg_one, one_div]
  have hround : roundTo p nearestEven x = halfEven (x / unit p x) * unit p x := rfl
  have hsplit : x + 1 / 2 * unit p x = (x / unit p x + 1 / 2) * unit p x := by
    rw [add_mul, div_mul_cancel₀ _ hpos.ne']
  rw [hround, hhalf, hnext, hsplit, mul_lt_mul_iff_left₀ hpos, mul_lt_mul_iff_left₀ hpos,
    cast_lt, halfEven_lt_iff hk]

end X86Jit.Lib.Rounding
