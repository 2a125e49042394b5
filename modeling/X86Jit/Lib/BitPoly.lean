import Mathlib.Algebra.Field.ZMod
import Mathlib.Algebra.Polynomial.Div

/-! Words as polynomials over the field of two elements, with bit `i` at degree `i`. -/
namespace X86Jit.Lib
open Polynomial

noncomputable def bitPoly {w : ℕ} (x : BitVec w) : (ZMod 2)[X] :=
  ∑ i ∈ Finset.range w, if x.getLsbD i then X ^ i else 0

variable {w w' : ℕ}

theorem coeff_bitPoly (x : BitVec w) (i : ℕ) :
    (bitPoly x).coeff i = if x.getLsbD i then 1 else 0 := by
  have hterm (j : ℕ) : (if x.getLsbD j then (X : (ZMod 2)[X]) ^ j else 0).coeff i =
      if j = i then if x.getLsbD i then 1 else 0 else 0 := by
    by_cases hij : j = i
    · subst hij
      split <;> simp_all
    · have hne := Ne.symm hij
      split <;> simp [coeff_X_pow, hne]
  rw [bitPoly, finsetSum_coeff, Finset.sum_congr rfl fun j _ => hterm j, Finset.sum_ite_eq']
  by_cases hi : i < w
  · rw [if_pos (Finset.mem_range.mpr hi)]
  · rw [if_neg (mt Finset.mem_range.mp hi), BitVec.getLsbD_of_ge x i (not_lt.mp hi)]
    rfl

theorem bitPoly_injective : Function.Injective (bitPoly (w := w)) := by
  intro x y h
  apply BitVec.eq_of_getLsbD_eq
  intro i _
  have hcoeff := congrArg (coeff · i) h
  simp only [coeff_bitPoly] at hcoeff
  cases hx : x.getLsbD i <;> cases hy : y.getLsbD i <;> simp_all

theorem bitPoly_xor (x y : BitVec w) : bitPoly (x ^^^ y) = bitPoly x + bitPoly y := by
  ext i
  rw [coeff_add, coeff_bitPoly, coeff_bitPoly, coeff_bitPoly, BitVec.getLsbD_xor]
  cases x.getLsbD i <;> cases y.getLsbD i <;> decide

theorem bitPoly_zero : bitPoly (0 : BitVec w) = 0 := by
  ext i
  simp [coeff_bitPoly]

theorem degree_bitPoly_lt (x : BitVec w) : (bitPoly x).degree < w := by
  rw [degree_lt_iff_coeff_zero]
  intro i hi
  rw [coeff_bitPoly, BitVec.getLsbD_of_ge x i hi]
  rfl

theorem bitPoly_shiftLeft (x : BitVec w) {n : ℕ} (h : w + n ≤ w') :
    bitPoly (x.setWidth w' <<< n) = bitPoly x * X ^ n := by
  ext i
  rw [coeff_bitPoly, coeff_mul_X_pow', coeff_bitPoly, BitVec.getLsbD_shiftLeft,
    BitVec.getLsbD_setWidth]
  by_cases hi : n ≤ i
  · rw [if_pos hi]
    by_cases hin : i - n < w
    · have hlt : i < w' := by omega
      have hlt' : i - n < w' := by omega
      simp [hlt, hlt', hi]
    · simp [BitVec.getLsbD_of_ge x _ (not_lt.mp hin)]
  · rw [if_neg hi]
    simp [not_le.mp hi]

theorem bitPoly_setWidth (x : BitVec w) (h : w ≤ w') : bitPoly (x.setWidth w') = bitPoly x := by
  have hshift := bitPoly_shiftLeft x (n := 0) h
  rwa [BitVec.shiftLeft_zero, pow_zero, mul_one] at hshift

theorem bitPoly_shiftLeft_one (x : BitVec w) :
    bitPoly (x <<< 1) = bitPoly x * X + if x.msb then X ^ w else 0 := by
  ext i
  rw [coeff_add, coeff_bitPoly, BitVec.getLsbD_shiftLeft]
  have hhigh : (if x.msb then (X : (ZMod 2)[X]) ^ w else 0).coeff i =
      if i = w ∧ x.msb then 1 else 0 := by
    split <;> simp_all [coeff_X_pow]
  rw [hhigh]
  cases i with
  | zero =>
    have hw : ¬(0 = w ∧ x.msb = true) := by
      rintro ⟨rfl, hmsb⟩
      simp [BitVec.of_length_zero] at hmsb
    simp [hw]
  | succ j =>
    rw [coeff_mul_X, coeff_bitPoly]
    obtain hj | rfl | hj := lt_trichotomy (j + 1) w
    · simp [hj, hj.ne]
    · rw [BitVec.msb_eq_getLsbD_last, Nat.add_sub_cancel]
      cases x.getLsbD j <;> simp [CharTwo.add_self_eq_zero]
    · simp [hj.ne', not_lt.mpr hj.le, BitVec.getLsbD_of_ge x j (by omega)]

end X86Jit.Lib
