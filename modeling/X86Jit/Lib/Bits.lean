import Mathlib.Data.BitVec

/-! Single bits of machine words, and bits of sums and differences. -/
namespace X86Jit.Lib
open BitVec

variable {w : ℕ}

theorem and_one_bne_zero (x : BitVec w) : (x &&& 1 != 0) = x.getLsbD 0 := by
  have h : x &&& 1 = (ofBool (x.getLsbD 0)).setWidth w :=
    and_one_eq_setWidth_ofBool_getLsbD
  rw [h]
  cases hb : x.getLsbD 0
  · simp
  · have hw : 0 < w := by
      by_contra hw
      have := lt_of_getLsbD hb
      omega
    simp [toNat_eq, Nat.mod_eq_of_lt (Nat.one_lt_two_pow hw.ne')]

theorem shiftRight_and_one_bne_zero (x : BitVec w) (n : ℕ) :
    ((x >>> n) &&& 1 != 0) = x.getLsbD n := by
  rw [and_one_bne_zero]
  simp

theorem and_one_setWidth (x : BitVec w) (n : ℕ) (hw : 0 < w) :
    (x &&& 1).setWidth n = (ofBool (x.getLsbD 0)).setWidth n := by
  have h : x &&& 1 = (ofBool (x.getLsbD 0)).setWidth w :=
    and_one_eq_setWidth_ofBool_getLsbD
  rw [h]
  cases x.getLsbD 0
  · simp
  · apply eq_of_toNat_eq
    simp [Nat.mod_eq_of_lt (Nat.one_lt_two_pow hw.ne')]

theorem and_one_shiftLeft_bne_zero (x : BitVec w) (i : ℕ) (hi : i < w) :
    (x &&& (1#w <<< i) != 0) = x.getLsbD i := by
  have hne : twoPow w i ≠ 0 := by
    intro h0
    have hn := congrArg BitVec.toNat h0
    simp [toNat_twoPow_of_lt hi] at hn
  rw [← twoPow_eq, and_twoPow]
  cases x.getLsbD i
  · simp
  · simpa [bne_iff_ne] using hne

theorem allOnes_rotateLeft (r : ℕ) : (allOnes w).rotateLeft r = allOnes w := by
  apply eq_of_getLsbD_eq
  intro i hi
  by_cases hlt : i < r % w
  · simp [hlt, hi]
  · have hw : i - r % w < w := by omega
    simp [hlt, hw]

theorem allOnes_rotateRight (r : ℕ) : (allOnes w).rotateRight r = allOnes w := by
  apply eq_of_getLsbD_eq
  intro i hi
  by_cases hlt : i < w - r % w
  · simp [hlt, hi]
  · have hw : i - (w - r % w) < w := by omega
    simp [hlt, hw]

theorem getLsbD_ones {n : ℕ} (hn : n < w) (i : ℕ) :
    ((1#w <<< n) - 1).getLsbD i = decide (i < n) := by
  have hpow : 2 ^ n < 2 ^ w := Nat.pow_lt_pow_right Nat.one_lt_two hn
  have hones : (1#w <<< n) - 1 = BitVec.ofNat w (2 ^ n - 1) := by
    apply eq_of_toNat_eq
    have hpos : 1 ≤ 2 ^ n := Nat.one_le_two_pow
    rw [← twoPow_eq, toNat_sub_of_le]
    · rw [toNat_twoPow_of_lt hn, toNat_ofNat, Nat.mod_eq_of_lt (by omega)]
      simp [Nat.mod_eq_of_lt (Nat.one_lt_two_pow (Nat.ne_zero_of_lt hn))]
    · rw [le_def, toNat_twoPow_of_lt hn]
      simpa [Nat.mod_eq_of_lt (Nat.one_lt_two_pow (Nat.ne_zero_of_lt hn))] using hpos
  rw [hones, getLsbD_ofNat]
  by_cases hi : i < n
  · simp [hi.trans hn]
  · simp [hi]

theorem getLsbD_foldl_or {α : Type} (l : List α) (p : α → Prop) [DecidablePred p]
    (f : α → BitVec w) (acc : BitVec w) (i : ℕ) :
    (l.foldl (fun acc a => if p a then acc ||| f a else acc) acc).getLsbD i =
      (acc.getLsbD i || l.any fun a => decide (p a) && (f a).getLsbD i) := by
  induction l generalizing acc with
  | nil => simp
  | cons a l ih =>
    rw [List.foldl_cons, ih]
    by_cases h : p a
    · simp [h, Bool.or_assoc]
    · simp [h]

theorem xor_decide_odd (x y z : ℕ) :
    (decide (x % 2 = 1) ^^ decide (y % 2 = 1) ^^ decide (z % 2 = 1)) =
      decide ((x + y + z) % 2 = 1) := by
  have hs : (x + y + z) % 2 = (x % 2 + y % 2 + z % 2) % 2 := by omega
  rw [hs]
  rcases Nat.mod_two_eq_zero_or_one x with hx | hx <;>
    rcases Nat.mod_two_eq_zero_or_one y with hy | hy <;>
    rcases Nat.mod_two_eq_zero_or_one z with hz | hz <;>
    simp [hx, hy, hz]

end X86Jit.Lib
