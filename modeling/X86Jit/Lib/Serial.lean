import Mathlib.Data.BitVec
import Mathlib.Logic.Function.Iterate

/-! A shifter that moves one bit at a time, with a carry and a second operand whose bits may come
in. A closed form that follows its steps is what any number of steps gives. -/
namespace X86Jit.Lib
open BitVec Nat
variable {n : ℕ}

def shiftIn (x : BitVec n) (b : Bool) : BitVec n := ((x.cons b) >>> 1).setWidth n

@[simp]
theorem getLsbD_shiftIn (x : BitVec n) (b : Bool) (i : ℕ) :
    (shiftIn x b).getLsbD i = (decide (i < n) && if i + 1 = n then b else x.getLsbD (i + 1)) := by
  simp only [shiftIn, getLsbD_setWidth, getLsbD_ushiftRight, getLsbD_cons,
    add_comm 1 i]

structure Shifter (n : ℕ) where
  x : BitVec n
  cf : Bool
  fill : BitVec n

namespace Shifter

def left (enters : Shifter n → Bool) (s : Shifter n) : Shifter n :=
  ⟨s.x.shiftConcat (enters s), s.x.msb, s.fill.shiftConcat false⟩

def right (enters : Shifter n → Bool) (s : Shifter n) : Shifter n :=
  ⟨shiftIn s.x (enters s), s.x.getLsbD 0, shiftIn s.fill false⟩

variable {enters : Shifter n → Bool} {g : BitVec n → BitVec n → Bool} {c : ℕ → BitVec n}
  {s : Shifter n}

theorem shiftLeft_succ (y : BitVec n) (t : ℕ) : y <<< (t + 1) = (y <<< t).shiftConcat false := by
  apply eq_of_getLsbD_eq
  intro i hi
  rw [getLsbD_shiftConcat, getLsbD_shiftLeft, getLsbD_shiftLeft]
  rcases i with - | i
  · simp
  · simp [hi, (lt_succ_self i).trans hi]

theorem ushiftRight_succ (y : BitVec n) (t : ℕ) : y >>> (t + 1) = shiftIn (y >>> t) false := by
  apply eq_of_getLsbD_eq
  intro i hi
  rw [getLsbD_shiftIn, getLsbD_ushiftRight, getLsbD_ushiftRight, decide_eq_true hi,
    Bool.true_and]
  have hsum : t + 1 + i = t + (i + 1) := by omega
  split
  · rename_i htop
    exact getLsbD_of_ge y _ (by omega)
  · rw [hsum]

theorem left_iterate (henters : ∀ s, enters s = g s.x s.fill) (h0 : c 0 = s.x) {k : ℕ}
    (hstep : ∀ t < k, c (t + 1) = (c t).shiftConcat (g (c t) (s.fill <<< t))) {t : ℕ}
    (ht : t ≤ k) :
    (left enters)^[t] s = ⟨c t, if t = 0 then s.cf else (c (t - 1)).msb, s.fill <<< t⟩ := by
  induction t with
  | zero =>
    rw [h0, BitVec.shiftLeft_zero]
    rfl
  | succ t ih =>
    rw [Function.iterate_succ_apply', ih (le_of_succ_le ht), left, henters, hstep t ht,
      if_neg (succ_ne_zero t), shiftLeft_succ]
    rfl

theorem right_iterate (henters : ∀ s, enters s = g s.x s.fill) (h0 : c 0 = s.x) {k : ℕ}
    (hstep : ∀ t < k, c (t + 1) = shiftIn (c t) (g (c t) (s.fill >>> t))) {t : ℕ}
    (ht : t ≤ k) :
    (right enters)^[t] s =
      ⟨c t, if t = 0 then s.cf else (c (t - 1)).getLsbD 0, s.fill >>> t⟩ := by
  induction t with
  | zero =>
    rw [h0, if_pos rfl]
    rfl
  | succ t ih =>
    rw [Function.iterate_succ_apply', ih (le_of_succ_le ht), right, henters, hstep t ht,
      if_neg (succ_ne_zero t), ushiftRight_succ]
    rfl

end Shifter

variable (x y : BitVec n) (t : ℕ)

theorem sshiftRight_succ :
    x.sshiftRight (t + 1) = shiftIn (x.sshiftRight t) (x.sshiftRight t).msb := by
  apply eq_of_getLsbD_eq
  intro i hi
  rw [getLsbD_shiftIn, msb_sshiftRight, getLsbD_sshiftRight,
    getLsbD_sshiftRight, decide_eq_true hi, Bool.true_and, decide_eq_false hi.not_ge]
  by_cases htop : i + 1 = n
  · have hout : ¬t + 1 + i < n := by omega
    simp [htop, hout]
  · have hin : ¬n ≤ i + 1 := by omega
    have hsum : t + 1 + i = t + (i + 1) := by omega
    simp [htop, hin, hsum]

theorem mod_succ (hn : 0 < n) : (t + 1) % n = if t % n + 1 = n then 0 else t % n + 1 := by
  have hlt := mod_lt t hn
  rw [← mod_add_mod]
  split
  · rename_i h
    rw [h, mod_self]
  · exact mod_eq_of_lt (by omega)

theorem rotateLeft_succ (hn : 0 < n) :
    x.rotateLeft (t + 1) = (x.rotateLeft t).shiftConcat (x.rotateLeft t).msb := by
  have hlt := mod_lt t hn
  apply eq_of_getLsbD_eq
  intro i hi
  rw [getLsbD_shiftConcat, msb_eq_getLsbD_last, getLsbD_rotateLeft,
    getLsbD_rotateLeft, getLsbD_rotateLeft, mod_succ t hn, decide_eq_true hi,
    Bool.true_and]
  generalize t % n = r at hlt
  have hlast : n - 1 < n := by omega
  have hprev : i - 1 < n := by omega
  simp only [decide_eq_true hlast, decide_eq_true hprev, Bool.cond_decide]
  split_ifs <;> first | omega | (congr 1; omega)

theorem rotateRight_succ (hn : 0 < n) :
    x.rotateRight (t + 1) = shiftIn (x.rotateRight t) ((x.rotateRight t).getLsbD 0) := by
  have hlt := mod_lt t hn
  apply eq_of_getLsbD_eq
  intro i hi
  rw [getLsbD_shiftIn, getLsbD_rotateRight, getLsbD_rotateRight,
    getLsbD_rotateRight, mod_succ t hn, decide_eq_true hi, Bool.true_and]
  generalize t % n = r at hlt
  simp only [Bool.true_and, Bool.cond_decide]
  by_cases htop : i + 1 < n
  · simp only [decide_eq_true htop, Bool.true_and]
    split_ifs <;> first | omega | (congr 1; omega)
  · split_ifs <;> first | omega | (congr 1; omega)

theorem shld_succ (ht : t < n) : (x <<< (t + 1)) ||| (y >>> (n - (t + 1))) =
      ((x <<< t) ||| (y >>> (n - t))).shiftConcat (y <<< t).msb := by
  apply eq_of_getLsbD_eq
  intro i hi
  rw [getLsbD_shiftConcat, msb_eq_getLsbD_last, getLsbD_or,
    getLsbD_or]
  simp only [getLsbD_shiftLeft, decide_eq_true hi]
  rcases i with - | i
  · have htop : n - 1 - t = n - (t + 1) + 0 := by omega
    have hlast : n - 1 < n := by omega
    simp [htop, hlast, le_sub_one_of_lt ht]
  · have hsum : n - (t + 1) + (i + 1) = n - t + i := by omega
    simp [hsum, (lt_succ_self i).trans hi]

theorem shrd_succ (ht : t < n) : (x >>> (t + 1)) ||| (y <<< (n - (t + 1))) =
      shiftIn ((x >>> t) ||| (y <<< (n - t))) ((y >>> t).getLsbD 0) := by
  apply eq_of_getLsbD_eq
  intro i hi
  rw [getLsbD_shiftIn, getLsbD_or, getLsbD_or]
  simp only [getLsbD_shiftLeft, decide_eq_true hi]
  have hsum : t + 1 + i = t + (i + 1) := by omega
  rcases Nat.lt_trichotomy (i + 1) n with htop | htop | htop
  · have hfill : i - (n - (t + 1)) = i + 1 - (n - t) := by omega
    have hlow : i < n - (t + 1) ↔ i + 1 < n - t := by omega
    simp [hsum, hfill, hlow, htop, htop.ne]
  · have hfill : i - (n - (t + 1)) = t := by omega
    have hlow : ¬i < n - (t + 1) := by omega
    have hout : x.getLsbD (t + 1 + i) = false := getLsbD_of_ge x _ (by omega)
    simp [hfill, hlow, hout, htop]
  · omega

end X86Jit.Lib
