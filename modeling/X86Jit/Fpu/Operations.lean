import Mathlib.Analysis.Real.Sqrt
import Mathlib.Data.Nat.Sqrt
import X86Jit.Fpu.Correct

/-! Each operation of the x87 unit prepares an integer and what it knows of the fraction below
it so that rounding that pair is rounding the exact result. -/
namespace X86Jit.F80
open X86Jit.Lib X86Jit.Lib.Rounding Nat

theorem signed_not (neg : Bool) : signed (!neg) = -signed neg := by
  cases neg <;> simp [signed]

structure Normal where
  val : F80
  cls : val.cls = .normal
  ok : val.Ok

namespace Normal

theorem le_sig (a : Normal) : 2 ^ 63 ≤ a.val.sig.toNat := (a.ok a.cls).1

def neg (a : Normal) : Normal where
  val := { a.val with sign := !a.val.sign }
  cls := a.cls
  ok := a.ok

theorem real_neg (a : Normal) : a.neg.val.real = -a.val.real := by
  change signed (!a.val.sign) * a.val.magnitude = _
  rw [signed_not, neg_mul]
  rfl

end Normal

variable (a b : Normal)

theorem Normal.not_raises : a.val.operandRaisesInvalid = false := by
  unfold operandRaisesInvalid isSnan
  rw [a.cls]
  rfl

theorem binaryOperandExc_normal : binaryOperandExc a.val b.val = Exc.none := by
  unfold binaryOperandExc
  rw [a.not_raises, b.not_raises]
  rfl

theorem binaryNan_normal : binaryNan a.val b.val = none := by
  unfold binaryNan
  rw [a.cls, b.cls]
  rfl

theorem none_or (e : Exc) : Exc.none ||| e = e := BitVec.zero_or

variable (ctl : Ctl)

theorem signed_xor (x y : Bool) : signed (x ^^ y) = signed x * signed y := by
  cases x <;> cases y <;> simp [signed]

theorem mulCtl_finishes : Finishes ctl (a.val.real * b.val.real) (mulCtl a.val b.val ctl) := by
  let m := a.val.sig.toNat * b.val.sig.toNat
  have hm : 2 ^ 63 ≤ m := by
    have ha := a.le_sig
    have hb := b.le_sig
    have : 2 ^ 63 * 2 ^ 63 ≤ m := Nat.mul_le_mul ha hb
    omega
  have hrun : mulCtl a.val b.val ctl =
      normalizeRoundExc (a.val.sign ^^ b.val.sign) (a.val.exp + b.val.exp + 1) m ctl := by
    unfold mulCtl
    rw [binaryNan_normal, binaryOperandExc_normal, a.cls, b.cls]
    simp only [none_or]
    rfl
  have hexact : a.val.real * b.val.real = signed (a.val.sign ^^ b.val.sign) *
      (m * 2 ^ (a.val.exp + b.val.exp + 1 - 127)) := by
    have hexp : (2 : ℝ) ^ (a.val.exp + b.val.exp + 1 - 127) =
        2 ^ (a.val.exp - 63) * 2 ^ (b.val.exp - 63) := by
      rw [← zpow_add₀ two_ne_zero]
      congr 1
      ring
    rw [signed_xor, hexp]
    unfold real magnitude
    push_cast [m]
    ring
  rw [hrun, hexact]
  exact normalizeRound_exact hm

theorem describes_rem {n k : ℕ} (hk : 0 < k) :
    Describes (if n % k ≠ 0 then some (Ord.compare (2 * (n % k)) k) else none)
      ((n % k : ℕ) / k : ℝ) := by
  have hkr : (0 : ℝ) < k := by exact_mod_cast hk
  have htwice : ((n % k : ℕ) / k : ℝ) + (n % k : ℕ) / k = (2 * (n % k) : ℕ) / k := by
    rw [← add_div, ← two_mul]
    push_cast
    rfl
  by_cases hrem : n % k = 0
  · rw [if_neg (not_not.mpr hrem), hrem]
    change ((0 : ℕ) / k : ℝ) = 0
    simp
  · rw [if_pos hrem]
    refine ⟨?_, ?_, ?_⟩
    · rw [Ne, div_eq_zero_iff, or_iff_left hkr.ne', cast_eq_zero]
      exact hrem
    · rw [Nat.compare_eq_gt, htwice, one_lt_div hkr, Nat.cast_lt]
    · rw [Nat.compare_eq_eq, htwice, div_eq_one_iff_eq hkr.ne', Nat.cast_inj]

theorem div_parts (n : ℕ) {k : ℕ} (hk : 0 < k) : ((n / k : ℕ) : ℝ) + (n % k : ℕ) / k = n / k := by
  have hkr : (k : ℝ) ≠ 0 := by exact_mod_cast hk.ne'
  have hnat : ((n / k : ℕ) : ℝ) * k + (n % k : ℕ) = n := by
    exact_mod_cast div_add_mod' n k
  rw [eq_div_iff hkr, add_mul, div_mul_cancel₀ _ hkr]
  exact hnat

theorem real_div : a.val.real / b.val.real = signed (a.val.sign ^^ b.val.sign) *
    ((a.val.sig.toNat <<< 64 : ℕ) / b.val.sig.toNat * 2 ^ (a.val.exp - b.val.exp + 63 - 127)) := by
  have hsign : signed a.val.sign / signed b.val.sign = signed a.val.sign * signed b.val.sign := by
    cases a.val.sign <;> cases b.val.sign <;> norm_num [signed]
  have hnum : ((a.val.sig.toNat <<< 64 : ℕ) : ℝ) = a.val.sig.toNat * 2 ^ 64 := by
    rw [shiftLeft_eq]
    exact_mod_cast rfl
  have hexp : (2 : ℝ) ^ (64 : ℤ) * 2 ^ (a.val.exp - b.val.exp + 63 - 127) =
      2 ^ (a.val.exp - 63) / 2 ^ (b.val.exp - 63) := by
    have hsum : 64 + (a.val.exp - b.val.exp + 63 - 127) = a.val.exp - 63 - (b.val.exp - 63) := by
      ring
    rw [← zpow_add₀ two_ne_zero, ← zpow_sub₀ two_ne_zero, hsum]
  unfold real magnitude
  rw [mul_div_mul_comm, mul_div_mul_comm, signed_xor, ← hsign, hnum, ← hexp]
  ring

theorem divCtl_finishes : Finishes ctl (a.val.real / b.val.real) (divCtl a.val b.val ctl) := by
  have hk : 0 < b.val.sig.toNat := lt_of_lt_of_le (Nat.two_pow_pos 63) b.le_sig
  have hq : 2 ^ 63 ≤ (a.val.sig.toNat <<< 64) / b.val.sig.toNat := by
    rw [le_div_iff_mul_le hk]
    have ha := a.le_sig
    omega
  have hrun : divCtl a.val b.val ctl =
      normalizeRoundFracExc (a.val.sign ^^ b.val.sign) (a.val.exp - b.val.exp + 63)
        ((a.val.sig.toNat <<< 64) / b.val.sig.toNat)
        (if (a.val.sig.toNat <<< 64) % b.val.sig.toNat ≠ 0 then
          some (Ord.compare (2 * ((a.val.sig.toNat <<< 64) % b.val.sig.toNat)) b.val.sig.toNat)
        else none) ctl := by
    unfold divCtl
    rw [binaryNan_normal, binaryOperandExc_normal, a.cls, b.cls]
    simp only [none_or]
  rw [hrun, real_div, ← div_parts _ hk]
  generalize a.val.sig.toNat <<< 64 = num at hq
  generalize b.val.sig.toNat = k at hk hq
  have hkr : (0 : ℝ) < k := by exact_mod_cast hk
  have hmod : ((num % k : ℕ) : ℝ) < k := by exact_mod_cast mod_lt num hk
  exact normalizeRound_fraction hq (by positivity) ((div_lt_one hkr).mpr hmod) (describes_rem hk)

variable {x r : ℕ}

theorem stepDown_eq (h : sqrt x ≤ r) : stepDown x r = sqrt x := by
  induction r with
  | zero => exact (le_zero.mp h).symm
  | succ r ih =>
    unfold stepDown
    by_cases hbig : x < (r + 1) * (r + 1)
    · rw [if_pos hbig]
      exact ih (Nat.lt_succ_iff.mp (Nat.sqrt_lt.mpr hbig))
    · rw [if_neg hbig]
      exact le_antisymm (le_sqrt.mpr (not_lt.mp hbig)) h

/-- A step takes the mean of two numbers whose product is about `x`, so it stays above the root. -/
theorem sqrt_le_next (hr : 0 < r) : sqrt x ≤ (r + x / r) / 2 := by
  apply Nat.lt_succ_iff.mp
  apply Nat.sqrt_lt.mpr
  have hlt : x < r * (x / r + 1) := lt_mul_div_succ x hr
  have hmean : r + (x / r + 1) ≤ 2 * ((r + x / r) / 2 + 1) := by omega
  have hsquare : (r + (x / r + 1)) * (r + (x / r + 1)) ≤
      2 * ((r + x / r) / 2 + 1) * (2 * ((r + x / r) / 2 + 1)) := Nat.mul_le_mul hmean hmean
  have hgm : 4 * (r * (x / r + 1)) ≤ (r + (x / r + 1)) * (r + (x / r + 1)) := by
    have := four_mul_le_pow_two_add r (x / r + 1)
    calc 4 * (r * (x / r + 1)) = 4 * r * (x / r + 1) := by ring
      _ ≤ (r + (x / r + 1)) ^ 2 := this
      _ = _ := by ring
  calc x < r * (x / r + 1) := hlt
    _ ≤ ((r + x / r) / 2 + 1) * ((r + x / r) / 2 + 1) := by linarith

theorem sqrt_le_newton (hx : 0 < x) (h : sqrt x ≤ r) : sqrt x ≤ newton x r := by
  induction r using Nat.strong_induction_on with
  | _ r ih =>
    have hr : 0 < r := lt_of_lt_of_le (sqrt_pos.mpr hx) h
    unfold newton
    dsimp only
    split
    next hdown => exact ih _ hdown (sqrt_le_next hr)
    next => exact h

theorem sqrt_le_start : sqrt x ≤ 1 <<< ((x.log2 + 1) / 2 + 1) := by
  apply le_of_lt
  apply Nat.sqrt_lt.mpr
  rw [one_shiftLeft, ← pow_add]
  calc x < 2 ^ (x.log2 + 1) := lt_log2_self
    _ ≤ _ := Nat.pow_le_pow_right two_pos (by omega)

theorem isqrt128_eq : isqrt128 x = (sqrt x, x - sqrt x * sqrt x) := by
  unfold isqrt128
  by_cases hx : x = 0
  · rw [if_pos hx, hx]
    rfl
  · have hpos : 0 < x := pos_of_ne_zero hx
    rw [if_neg hx, stepDown_eq (sqrt_le_newton hpos sqrt_le_start)]

/-- A 128-bit value; more than one is the overflow that panics. -/
def word128 (n : ℕ) : Option ℕ := if n < 2 ^ 128 then some n else none

def newtonChecked (x r : ℕ) : Option ℕ :=
  if r = 0 then none
  else
    (word128 (r + x / r)).bind fun sum =>
      if sum / 2 < r then newtonChecked x (sum / 2) else some r
termination_by r

def stepDownChecked (x : ℕ) : ℕ → Option ℕ
  | 0 => some 0
  | r + 1 =>
    (word128 ((r + 1) * (r + 1))).bind fun square =>
      if x < square then stepDownChecked x r else some (r + 1)

/-- `isqrt128` with every sum, product, difference and quotient checked. -/
def isqrt128Checked (x : ℕ) : Option (ℕ × ℕ) :=
  if x = 0 then some (0, 0)
  else do
    let start ← word128 (1 <<< ((x.log2 + 1) / 2 + 1))
    let r ← stepDownChecked x (← newtonChecked x start)
    let square ← word128 (r * r)
    if square ≤ x then some (r, x - square) else none

theorem newton_mul_self_le (hx : 0 < x) (hr : 0 < r) : newton x r * newton x r ≤ x := by
  induction r using Nat.strong_induction_on with
  | _ r ih =>
    unfold newton
    dsimp only
    split
    next hdown => exact ih _ hdown ((sqrt_pos.mpr hx).trans_le (sqrt_le_next hr))
    next hstop => exact (le_div_iff_mul_le hr).mp (by omega)

theorem newtonChecked_eq (hx : 0 < x) (h : sqrt x ≤ r) (hbig : r ≤ 2 ^ 65) :
    newtonChecked x r = some (newton x r) := by
  induction r using Nat.strong_induction_on with
  | _ r ih =>
    have hr : 0 < r := lt_of_lt_of_le (sqrt_pos.mpr hx) h
    have hquot : x / r < r + 3 := by
      rw [Nat.div_lt_iff_lt_mul hr]
      calc x < (r + 1) * (r + 1) := Nat.sqrt_lt.mp (lt_succ_of_le h)
        _ ≤ (r + 3) * r := by nlinarith
    have hsum : word128 (r + x / r) = some (r + x / r) := if_pos (by omega)
    rw [newtonChecked, if_neg hr.ne', hsum, newton]
    dsimp only [Option.bind_some]
    split
    next hdown => exact ih _ hdown (sqrt_le_next hr) (by omega)
    next => rfl

theorem stepDownChecked_of_le (hle : r * r ≤ x) (hword : x < 2 ^ 128) :
    stepDownChecked x r = some r := by
  cases r with
  | zero => rfl
  | succ r =>
    have hsquare : word128 ((r + 1) * (r + 1)) = some ((r + 1) * (r + 1)) :=
      if_pos (hle.trans_lt hword)
    rw [stepDownChecked, hsquare, Option.bind_some, if_neg (not_lt.mpr hle)]

theorem isqrt128Checked_eq (hword : x < 2 ^ 128) : isqrt128Checked x = some (isqrt128 x) := by
  by_cases hx : x = 0
  · rw [isqrt128Checked, isqrt128, if_pos hx, if_pos hx]
  · have hpos : 0 < x := pos_of_ne_zero hx
    have hlog : x.log2 < 128 := (log2_lt hx).mpr hword
    have hbig : 1 <<< ((x.log2 + 1) / 2 + 1) ≤ 2 ^ 65 := by
      rw [one_shiftLeft]
      exact Nat.pow_le_pow_right two_pos (by omega)
    have hnewton := newtonChecked_eq hpos sqrt_le_start hbig
    have hle := newton_mul_self_le hpos ((sqrt_pos.mpr hpos).trans_le sqrt_le_start)
    have hroot := sqrt_le_newton hpos sqrt_le_start
    generalize newton x (1 <<< ((x.log2 + 1) / 2 + 1)) = r at hnewton hle hroot
    have hstart : word128 (1 <<< ((x.log2 + 1) / 2 + 1)) = some _ := if_pos (by omega)
    have hsquare : word128 (r * r) = some (r * r) := if_pos (by omega)
    have hr : sqrt x = r := le_antisymm hroot (le_sqrt.mpr hle)
    rw [isqrt128_eq, hr]
    simp only [isqrt128Checked, if_neg hx, hstart, Option.bind_eq_bind, Option.bind_some,
      hnewton, stepDownChecked_of_le hle hword, hsquare, if_pos hle]

/-- The root of every 128-bit value is exact, and no intermediate value leaves the 128 bits. -/
theorem isqrt128_exact (n : U128) : ∃ root rem, isqrt128Checked n.toNat = some (root, rem) ∧
    n.toNat = root * root + rem ∧ rem ≤ 2 * root := by
  have hchecked := isqrt128Checked_eq n.isLt
  rw [isqrt128_eq] at hchecked
  have hlow := sqrt_le n.toNat
  have hhigh := sqrt_le_add n.toNat
  exact ⟨_, _, hchecked, by omega, by omega⟩

theorem describes_root :
    Describes (if x - sqrt x * sqrt x ≠ 0 then
        some (if sqrt x < x - sqrt x * sqrt x then Ordering.gt else .lt) else none)
      (Real.sqrt x - sqrt x) := by
  have hle : sqrt x * sqrt x ≤ x := sqrt_le x
  have hsq : Real.sqrt x * Real.sqrt x = x := Real.mul_self_sqrt (cast_nonneg x)
  have hroot : (0 : ℝ) ≤ Real.sqrt x := Real.sqrt_nonneg _
  have hnat : (0 : ℝ) ≤ sqrt x := cast_nonneg _
  generalize sqrt x = s at hle hnat ⊢
  generalize Real.sqrt x = ρ at hsq hroot ⊢
  by_cases hrem : x - s * s = 0
  · have hx : (x : ℝ) = s * s := by
      have : x = s * s := by omega
      exact_mod_cast this
    rw [if_neg (not_not.mpr hrem)]
    change ρ - s = 0
    rw [hx] at hsq
    have := (mul_self_inj hroot hnat).mp hsq
    linarith
  · rw [if_pos hrem]
    -- half way to the next integer is a quarter above an integer when squared, so it is not met
    have hsquare : ((s : ℝ) + 1 / 2) * (s + 1 / 2) = (s * s + s : ℕ) + 1 / 4 := by
      push_cast
      ring
    have hhalf : 1 < ρ - s + (ρ - s) ↔ s < x - s * s := by
      have hcmp : (s : ℝ) + 1 / 2 < ρ ↔ ((s * s + s : ℕ) : ℝ) + 1 / 4 < x := by
        rw [mul_self_lt_mul_self_iff (by positivity) hroot, hsquare, hsq]
      have hsub : 1 < ρ - s + (ρ - s) ↔ (s : ℝ) + 1 / 2 < ρ := by
        constructor <;> intro h <;> linarith
      rw [hsub, hcmp]
      constructor
      · intro h
        have hlt : ((s * s + s : ℕ) : ℝ) < x := by linarith
        have : s * s + s < x := by exact_mod_cast hlt
        omega
      · intro h
        have hle' : s * s + s + 1 ≤ x := by omega
        have : ((s * s + s : ℕ) : ℝ) + 1 ≤ x := by exact_mod_cast hle'
        linarith
    have htie : ρ - s + (ρ - s) ≠ 1 := by
      intro h
      have hρ : ρ = s + 1 / 2 := by linarith
      rw [hρ, hsquare, add_fraction_eq (by norm_num) (by norm_num)] at hsq
      linarith [hsq.2]
    have hne : ρ - s ≠ 0 := by
      intro h
      have hρ : ρ = s := by linarith
      rw [hρ] at hsq
      have hx : s * s = x := by exact_mod_cast hsq
      omega
    refine ⟨hne, ?_, ?_⟩
    · rw [hhalf]
      split <;> simp [*]
    · refine iff_of_false ?_ htie
      split <;> simp

theorem sqrt_scaled (y : ℝ) (e : ℤ) : Real.sqrt (y * 2 ^ (2 * e)) = Real.sqrt y * 2 ^ e := by
  have hpow : (2 : ℝ) ^ (2 * e) = 2 ^ e * 2 ^ e := by
    rw [two_mul, zpow_add₀ two_ne_zero]
  have hpos : (0 : ℝ) ≤ 2 ^ e := (zpow_pos two_pos e).le
  rw [hpow, Real.sqrt_mul' _ (mul_nonneg hpos hpos), Real.sqrt_mul_self hpos]

theorem exists_even_scale (e2 : ℤ) : ∃ (s : ℕ) (e : ℤ),
    (if e2 % 2 = 0 then 64 else 63) = s ∧ 63 ≤ s ∧ e2 - s = 2 * e := by
  by_cases heven : e2 % 2 = 0
  · refine ⟨64, e2 / 2 - 32, if_pos heven, by decide, ?_⟩
    omega
  · refine ⟨63, (e2 - 63) / 2, if_neg heven, le_rfl, ?_⟩
    omega

theorem sqrtCtl_finishes (a : Normal) (ctl : Ctl) (hsign : a.val.sign = false) :
    Finishes ctl (Real.sqrt a.val.real) (sqrtCtl a.val ctl) := by
  obtain ⟨s, e, hs, hle63, he⟩ := exists_even_scale (a.val.exp - 63)
  have hrun : sqrtCtl a.val ctl = normalizeRoundFracExc false (e + 127)
      (isqrt128 (a.val.sig.toNat <<< s)).1
      (if (isqrt128 (a.val.sig.toNat <<< s)).2 ≠ 0 then
        some (if (isqrt128 (a.val.sig.toNat <<< s)).1 < (isqrt128 (a.val.sig.toNat <<< s)).2 then
          Ordering.gt else .lt) else none) ctl := by
    have hnan : unaryNan a.val = none := by
      unfold unaryNan
      rw [a.cls]
    have hhalf : (a.val.exp - 63 - s).tdiv 2 = e := by
      rw [he, Int.mul_tdiv_cancel_left _ two_ne_zero]
    unfold sqrtCtl
    dsimp only
    rw [hnan, a.not_raises, a.cls, hsign, hs, hhalf]
    dsimp only
    rw [if_neg Bool.false_ne_true, if_neg Bool.false_ne_true]
    simp only [none_or]
  have hroot : 2 ^ 63 ≤ sqrt (a.val.sig.toNat <<< s) := by
    apply le_sqrt.mpr
    rw [shiftLeft_eq]
    exact Nat.mul_le_mul a.le_sig (Nat.pow_le_pow_right two_pos hle63)
  have hreal : a.val.real = (a.val.sig.toNat <<< s) * 2 ^ (2 * e) := by
    have hexp : (2 : ℝ) ^ (a.val.exp - 63) = 2 ^ s * 2 ^ (2 * e) := by
      rw [← he, ← zpow_natCast, ← zpow_add₀ two_ne_zero, add_sub_cancel]
    have hsigned : signed false = 1 := rfl
    unfold real magnitude
    rw [hsign, hsigned, shiftLeft_eq, hexp]
    push_cast
    ring
  rw [hrun, isqrt128_eq, hreal]
  generalize a.val.sig.toNat <<< s = x at hroot
  have hle : (sqrt x : ℝ) ≤ Real.sqrt x := Real.nat_sqrt_le_real_sqrt
  have hlt : Real.sqrt x < sqrt x + 1 := Real.real_sqrt_lt_nat_sqrt_succ
  have hexact : Real.sqrt (x * 2 ^ (2 * e)) = signed false *
      ((sqrt x + (Real.sqrt x - sqrt x)) * 2 ^ (e + 127 - 127)) := by
    have hsigned : signed false = 1 := rfl
    rw [sqrt_scaled, hsigned, one_mul, add_sub_cancel, add_sub_cancel_right]
  rw [hexact]
  exact normalizeRound_fraction hroot (by linarith) (by linarith) describes_root

variable {hi lo : Normal} {ctl : Ctl} {l : ℕ}

theorem aligned_cases (hl : l < 2 ^ 64) (shift : ℕ) :
    l * 2 ^ 64 / 2 ^ shift = l * 2 ^ 64 ∨ l * 2 ^ 64 / 2 ^ shift = l * 2 ^ 63 ∨
      l * 2 ^ 64 / 2 ^ shift < 2 ^ 126 := by
  match shift with
  | 0 =>
    left
    rw [Nat.pow_zero, Nat.div_one]
  | 1 =>
    right
    left
    omega
  | c + 2 =>
    right
    right
    rw [Nat.div_lt_iff_lt_mul (Nat.two_pow_pos _)]
    calc l * 2 ^ 64 < 2 ^ 126 * 4 := by omega
      _ ≤ 2 ^ 126 * 2 ^ (c + 2) := by
        apply Nat.mul_le_mul_left
        rw [pow_succ]
        have := Nat.two_pow_pos c
        omega

theorem aligned_even (hl : l < 2 ^ 64) (shift : ℕ) :
    l * 2 ^ 64 / 2 ^ shift % 2 = 0 ∨ l * 2 ^ 64 / 2 ^ shift < 2 ^ 64 := by
  by_cases hshift : shift < 64
  · left
    obtain ⟨c, hc⟩ : ∃ c, 64 = shift + (c + 1) := ⟨63 - shift, by omega⟩
    rw [hc, pow_add, pow_succ, mul_comm l, mul_assoc,
      Nat.mul_div_cancel_left _ (Nat.two_pow_pos shift), mul_right_comm]
    exact mul_mod_left _ _
  · right
    rw [Nat.div_lt_iff_lt_mul (Nat.two_pow_pos _)]
    calc l * 2 ^ 64 < 2 ^ 64 * 2 ^ 64 := Nat.mul_lt_mul_of_pos_right hl (Nat.two_pow_pos 64)
      _ ≤ 2 ^ 64 * 2 ^ shift :=
        Nat.mul_le_mul_left _ (Nat.pow_le_pow_right two_pos (not_lt.mp hshift))

theorem aligned_far {shift : ℕ} (hl : l < 2 ^ 64) (hshift : 64 < shift) :
    l * 2 ^ 64 / 2 ^ shift < 2 ^ 63 := by
  rw [Nat.div_lt_iff_lt_mul (Nat.two_pow_pos _)]
  calc l * 2 ^ 64 < 2 ^ 63 * 2 ^ 65 := by omega
    _ ≤ 2 ^ 63 * 2 ^ shift := Nat.mul_le_mul_left _ (Nat.pow_le_pow_right two_pos hshift)

/-- The operand `n + z` with significand `l` and the integer `low` it is kept as: its lowest bit
stands for the fraction, and there is one only far below the other operand. -/
structure Aligned (l low n : ℕ) (z : ℝ) : Prop where
  nonneg : 0 ≤ z
  lt_one : z < 1
  kept : z = 0 ∧ low = n ∨ 0 < z ∧ low = n ||| 1 ∧ n < 2 ^ 63
  whole : n = l * 2 ^ 64 ∨ n = l * 2 ^ 63 ∨ n < 2 ^ 126
  even : n % 2 = 0 ∨ n < 2 ^ 64

theorem exists_aligned {sig : U64} (hsig : sig ≠ 0) (shift : ℕ) : ∃ n z,
    Aligned sig.toNat (alignLow sig shift) n z ∧
      (n : ℝ) + z = (sig.toNat * 2 ^ 64 : ℕ) / (2 ^ shift : ℕ) := by
  have hpow : 0 < 2 ^ shift := Nat.two_pow_pos shift
  have hpowr : (0 : ℝ) < (2 ^ shift : ℕ) := by exact_mod_cast hpow
  have hmod : ((sig.toNat * 2 ^ 64 % 2 ^ shift : ℕ) : ℝ) < (2 ^ shift : ℕ) := by
    exact_mod_cast mod_lt _ hpow
  refine ⟨sig.toNat * 2 ^ 64 / 2 ^ shift, (sig.toNat * 2 ^ 64 % 2 ^ shift : ℕ) / (2 ^ shift : ℕ),
    ⟨by positivity, (div_lt_one hpowr).mpr hmod, ?_, aligned_cases sig.isLt shift,
      aligned_even sig.isLt shift⟩, div_parts _ hpow⟩
  -- the fraction is zero if the bits that are shifted out are
  have hpos : 0 < ((sig.toNat * 2 ^ 64 % 2 ^ shift : ℕ) : ℝ) / (2 ^ shift : ℕ) ↔
      sig.toNat * 2 ^ 64 % 2 ^ shift ≠ 0 := by
    rw [div_pos_iff_of_pos_right hpowr, cast_pos, pos_iff_ne_zero]
  have hzero : ((sig.toNat * 2 ^ 64 % 2 ^ shift : ℕ) : ℝ) / (2 ^ shift : ℕ) = 0 ↔
      sig.toNat * 2 ^ 64 % 2 ^ shift = 0 := by
    rw [div_eq_zero_iff, or_iff_left hpowr.ne', cast_eq_zero]
  rw [hpos, hzero]
  unfold alignLow
  by_cases hfar : 128 ≤ shift
  · have hlt : sig.toNat * 2 ^ 64 < 2 ^ shift := by
      calc sig.toNat * 2 ^ 64 < 2 ^ 64 * 2 ^ 64 :=
            Nat.mul_lt_mul_of_pos_right sig.isLt (Nat.two_pow_pos 64)
        _ ≤ 2 ^ shift := Nat.pow_le_pow_right two_pos hfar
    have hne : sig.toNat * 2 ^ 64 ≠ 0 := by
      have : sig.toNat ≠ 0 := fun h => hsig (BitVec.eq_of_toNat_eq h)
      omega
    rw [if_pos hfar, if_pos hsig, mod_eq_of_lt hlt, div_eq_of_lt hlt]
    exact .inr ⟨hne, rfl, Nat.two_pow_pos 63⟩
  · rw [if_neg hfar]
    dsimp only
    rw [shiftLeft_eq, shiftRight_eq_div_pow]
    by_cases hbits : sig.toNat * 2 ^ 64 % 2 ^ shift = 0
    · rw [if_neg (fun h => h.2 hbits)]
      exact .inl ⟨hbits, rfl⟩
    · have hshift : 64 < shift := by
        by_contra hle
        apply hbits
        apply mod_eq_zero_of_dvd
        exact (pow_dvd_pow 2 (not_lt.mp hle)).mul_left _
      rw [if_pos ⟨by omega, hbits⟩]
      exact .inr ⟨hbits, rfl, aligned_far sig.isLt hshift⟩

theorem carried_sum {sum : ℕ} (hlow : 2 ^ 128 ≤ sum) (hhigh : sum < 2 ^ 129) :
    (sum % 2 ^ 128) >>> 1 ||| 1 <<< 127 = sum / 2 := by
  have hrest : (sum % 2 ^ 128) >>> 1 < 2 ^ 127 := by
    omega
  have hor := two_pow_add_eq_or_of_lt hrest 1
  rw [one_shiftLeft, Nat.or_comm]
  rw [mul_one] at hor
  omega

variable {l hm low n : ℕ} {z : ℝ} {sign : Bool} {e : ℤ}

theorem sum_finishes (hbig : 2 ^ 127 ≤ hm) (hlt : hm < 2 ^ 128) (hdvd : hm % 2 ^ 64 = 0)
    (hl : l < 2 ^ 64) (h : Aligned l low n z) :
    Finishes ctl (signed sign * ((hm + (n + z)) * 2 ^ (e - 127)))
      (if 2 ^ 128 ≤ hm + low then
        normalizeRoundExc sign (e + 1) (((hm + low) % 2 ^ 128) >>> 1 ||| 1 <<< 127) ctl
      else normalizeRoundExc sign e (hm + low) ctl) := by
  rcases h.kept with ⟨rfl, rfl⟩ | ⟨hz, rfl, hn⟩
  · have hcast : (hm : ℝ) + (low + 0) = (hm + low : ℕ) := by
      push_cast
      ring
    rw [hcast]
    by_cases hcarry : 2 ^ 128 ≤ hm + low
    · -- the carry loses nothing: the sum is even
      have hbound : hm + low < 2 ^ 129 := by
        have := h.whole
        omega
      have heven : hm + low = 2 * ((hm + low) / 2) := by
        have := h.even
        omega
      have hdouble : ((hm + low : ℕ) : ℝ) * 2 ^ (e - 127) =
          ((hm + low) / 2 : ℕ) * 2 ^ (e + 1 - 127) := by
        have hexp : (2 : ℝ) ^ (e + 1 - 127) = 2 ^ (e - 127) * 2 := by
          rw [add_sub_right_comm, zpow_add_one₀ two_ne_zero]
        rw [hexp]
        nth_rewrite 1 [heven]
        push_cast
        ring
      rw [if_pos hcarry, carried_sum hcarry hbound, hdouble]
      exact normalizeRound_exact (by omega)
    · rw [if_neg hcarry]
      exact normalizeRound_exact (by omega)
  · have hjam : hm + (n ||| 1) = (hm + n) ||| 1 := by
      rw [or_one_eq, or_one_eq]
      omega
    have hcast : (hm : ℝ) + (n + z) = (hm + n : ℕ) + z := by
      push_cast
      ring
    have hno : ¬2 ^ 128 ≤ hm + (n ||| 1) := by
      rw [or_one_eq]
      omega
    rw [if_neg hno, hjam, hcast]
    exact normalizeRound_jam (by omega) hz h.lt_one

theorem roundsRight_zero (r : F80 × Exc) : RoundsRight ctl 0 r := by
  have hzero : roundTo ctl.sigBits ctl.mode 0 = 0 := by
    unfold roundTo
    cases ctl.mode <;> simp [toInt, halfEven]
  constructor
  · intro hlow
    rw [hzero, abs_zero] at hlow
    exact absurd hlow (not_le.mpr (zpow_pos two_pos _))
  · intro hover
    rw [hzero, abs_zero] at hover
    exact absurd hover (not_le.mpr (zpow_pos two_pos _))

theorem difference_finishes (hbig : 2 ^ 127 ≤ hm) (hlt : hm < 2 ^ 128) (hdvd : hm % 2 ^ 64 = 0)
    (h : Aligned l low n z) (hne : signed sign * ((hm - (n + z)) * 2 ^ (e - 127)) ≠ 0) :
    Finishes ctl (signed sign * ((hm - (n + z)) * 2 ^ (e - 127)))
      (if low ≤ hm then
        if hm - low = 0 then (zero false, Exc.none)
        else normalizeRoundExc sign e (hm - low) ctl
      else normalizeRoundExc (!sign) e (low - hm) ctl) := by
  rcases h.kept with ⟨rfl, rfl⟩ | ⟨hz, rfl, hn⟩
  · have hwhole := h.whole
    by_cases hle : low ≤ hm
    · have hcast : (hm : ℝ) - (low + 0) = (hm - low : ℕ) := by
        rw [Nat.cast_sub hle, add_zero]
      have hzero : ¬hm - low = 0 := by
        intro hzero
        rw [hcast, hzero, cast_zero, zero_mul, mul_zero] at hne
        exact hne rfl
      rw [if_pos hle, hcast, if_neg hzero]
      exact normalizeRound_exact (by omega)
    · have hcast : (hm : ℝ) - (low + 0) = -(low - hm : ℕ) := by
        rw [Nat.cast_sub (not_le.mp hle).le]
        ring
      have hsigned : signed sign * (-((low - hm : ℕ) : ℝ) * 2 ^ (e - 127)) =
          signed (!sign) * ((low - hm : ℕ) * 2 ^ (e - 127)) := by
        cases sign <;> simp [signed]
      rw [if_neg hle, hcast, hsigned]
      exact normalizeRound_exact (by omega)
  · -- what is below the difference is what is missing to the next fraction
    have hjam : hm - (n ||| 1) = (hm - n - 1) ||| 1 := by
      rw [or_one_eq, or_one_eq]
      omega
    have hle : n ||| 1 ≤ hm := by
      rw [or_one_eq]
      omega
    have hpos : ¬hm - (n ||| 1) = 0 := by
      rw [or_one_eq]
      omega
    have hcast : (hm : ℝ) - (n + z) = (hm - n - 1 : ℕ) + (1 - z) := by
      have hone : n + 1 ≤ hm := by omega
      rw [Nat.sub_sub, Nat.cast_sub hone]
      push_cast
      ring
    have hz' : 0 < 1 - z := sub_pos.mpr h.lt_one
    have hz₁ : 1 - z < 1 := by linarith
    rw [if_pos hle, if_neg hpos, hjam, hcast]
    exact normalizeRound_jam (by omega) hz' hz₁

theorem real_aligned (hi lo : Normal) (hexp : lo.val.exp ≤ hi.val.exp)
    (h : (n : ℝ) + z = (lo.val.sig.toNat * 2 ^ 64 : ℕ) /
      (2 ^ (hi.val.exp - lo.val.exp).toNat : ℕ)) :
    lo.val.real = signed lo.val.sign * ((n + z) * 2 ^ (hi.val.exp - 127)) := by
  have hshift : (((hi.val.exp - lo.val.exp).toNat : ℕ) : ℤ) = hi.val.exp - lo.val.exp :=
    Int.toNat_of_nonneg (sub_nonneg.mpr hexp)
  have hnum : ((lo.val.sig.toNat * 2 ^ 64 : ℕ) : ℝ) = lo.val.sig.toNat * 2 ^ 64 := by
    exact_mod_cast rfl
  have hden : ((2 ^ (hi.val.exp - lo.val.exp).toNat : ℕ) : ℝ) =
      2 ^ (hi.val.exp - lo.val.exp) := by
    rw [← hshift]
    push_cast
    rfl
  have hpow : (2 : ℝ) ^ (lo.val.exp - 63) =
      2 ^ (64 : ℤ) / 2 ^ (hi.val.exp - lo.val.exp) * 2 ^ (hi.val.exp - 127) := by
    have hsum : lo.val.exp - 63 = 64 - (hi.val.exp - lo.val.exp) + (hi.val.exp - 127) := by ring
    rw [← zpow_sub₀ two_ne_zero, ← zpow_add₀ two_ne_zero, ← hsum]
  rw [h, hnum, hden]
  unfold real magnitude
  rw [hpow]
  ring

theorem real_scaled (hi : Normal) : hi.val.real =
    signed hi.val.sign * ((hi.val.sig.toNat <<< 64 : ℕ) * 2 ^ (hi.val.exp - 127)) := by
  have hparts : ((hi.val.sig.toNat <<< 64 : ℕ) : ℝ) + 0 = (hi.val.sig.toNat * 2 ^ 64 : ℕ) /
      (2 ^ (hi.val.exp - hi.val.exp).toNat : ℕ) := by
    rw [shiftLeft_eq]
    simp
  have h := real_aligned hi hi le_rfl hparts
  rw [add_zero] at h
  exact h

theorem addNormal_finishes (hexp : lo.val.exp ≤ hi.val.exp) (hne : hi.val.real + lo.val.real ≠ 0) :
    Finishes ctl (hi.val.real + lo.val.real) (addNormal hi.val lo.val Exc.none ctl) := by
  have hsig : lo.val.sig ≠ 0 := by
    intro hzero
    have := lo.le_sig
    rw [hzero] at this
    exact absurd this (by decide)
  obtain ⟨n, z, hal, hparts⟩ := exists_aligned hsig (hi.val.exp - lo.val.exp).toNat
  have hlow := hi.le_sig
  have hbig : 2 ^ 127 ≤ hi.val.sig.toNat <<< 64 := by
    omega
  have hlt : hi.val.sig.toNat <<< 64 < 2 ^ 128 := by
    omega
  have hdvd : hi.val.sig.toNat <<< 64 % 2 ^ 64 = 0 := by
    rw [shiftLeft_eq]
    exact mul_mod_left _ _
  rw [real_aligned hi lo hexp hparts, real_scaled hi] at hne ⊢
  unfold addNormal
  simp only [none_or, Prod.mk.eta]
  generalize hi.val.sig.toNat <<< 64 = hm at hbig hlt hdvd hne
  generalize alignLow lo.val.sig (hi.val.exp - lo.val.exp).toNat = low at hal
  by_cases hsign : hi.val.sign = lo.val.sign
  · rw [if_pos hsign, ← hsign, ← mul_add, ← add_mul]
    exact sum_finishes hbig hlt hdvd lo.val.sig.isLt hal
  · have hflip : lo.val.sign = !hi.val.sign := Bool.eq_not_of_ne (Ne.symm hsign)
    rw [hflip, signed_not, neg_mul, ← sub_eq_add_neg, ← mul_sub, ← sub_mul] at hne ⊢
    rw [if_neg (by simp)]
    exact difference_finishes hbig hlt hdvd hal hne

theorem addCtl_finishes (a b : Normal) (ctl : Ctl) (hne : a.val.real + b.val.real ≠ 0) :
    Finishes ctl (a.val.real + b.val.real) (addCtl a.val b.val ctl) := by
  have hrun : addCtl a.val b.val ctl =
      if b.val.exp ≤ a.val.exp then addNormal a.val b.val Exc.none ctl
      else addNormal b.val a.val Exc.none ctl := by
    unfold addCtl addSub
    rw [binaryNan_normal, binaryOperandExc_normal]
    dsimp only
    rw [if_neg Bool.false_ne_true, a.cls, b.cls]
  rw [hrun]
  by_cases hexp : b.val.exp ≤ a.val.exp
  · rw [if_pos hexp]
    exact addNormal_finishes hexp hne
  · rw [add_comm] at hne ⊢
    rw [if_neg hexp]
    exact addNormal_finishes (not_le.mp hexp).le hne

theorem subCtl_eq (a b : Normal) (ctl : Ctl) :
    subCtl a.val b.val ctl = addCtl a.val b.neg.val ctl := by
  unfold subCtl addCtl addSub
  rw [binaryNan_normal, binaryNan_normal, binaryOperandExc_normal, binaryOperandExc_normal]
  rfl

theorem subCtl_finishes (a b : Normal) (ctl : Ctl) (hne : a.val.real - b.val.real ≠ 0) :
    Finishes ctl (a.val.real - b.val.real) (subCtl a.val b.val ctl) := by
  rw [sub_eq_add_neg, ← b.real_neg] at hne ⊢
  rw [subCtl_eq]
  exact addCtl_finishes a b.neg ctl hne

inductive Arith
  | add (a b : Normal)
  | sub (a b : Normal)
  | mul (a b : Normal)
  | div (a b : Normal)
  | sqrt (a : { a : Normal // a.val.sign = false })

namespace Arith

def run (ctl : Ctl) : Arith → F80 × Exc
  | add a b => addCtl a.val b.val ctl
  | sub a b => subCtl a.val b.val ctl
  | mul a b => mulCtl a.val b.val ctl
  | div a b => divCtl a.val b.val ctl
  | sqrt a => sqrtCtl a.val.val ctl

noncomputable def exact : Arith → ℝ
  | add a b => a.val.real + b.val.real
  | sub a b => a.val.real - b.val.real
  | mul a b => a.val.real * b.val.real
  | div a b => a.val.real / b.val.real
  | sqrt a => Real.sqrt a.val.val.real

/-- Every operation rounds its exact result once, in every precision and every mode. -/
theorem run_right (o : Arith) (ctl : Ctl) : RoundsRight ctl o.exact (o.run ctl) := by
  by_cases hzero : o.exact = 0
  · rw [hzero]
    exact roundsRight_zero _
  · apply Finishes.right
    cases o with
    | add a b => exact addCtl_finishes a b ctl hzero
    | sub a b => exact subCtl_finishes a b ctl hzero
    | mul a b => exact mulCtl_finishes a b ctl
    | div a b => exact divCtl_finishes a b ctl
    | sqrt a => exact sqrtCtl_finishes a.val ctl a.property

end Arith

end X86Jit.F80
