import X86Jit.Interp.Arithmetic
import X86Jit.Interp.Exec

/-! Division of a double-width dividend, with the checks of a build that stops on arithmetic that
does not fit its type. None of them ever fails. -/
namespace X86Jit
open BitVec Int Nat Size

inductive Panic
  | overflow | divideByZero
  deriving DecidableEq, Repr

namespace Checked

def mulU8 (a b : ℕ) : Except Panic ℕ := if a * b < 2 ^ 8 then .ok (a * b) else .error .overflow

def subU8 (a b : ℕ) : Except Panic ℕ := if b ≤ a then .ok (a - b) else .error .overflow

def count (w n : ℕ) : Except Panic ℕ := if n < w then .ok n else .error .overflow

def negI128 (x : ℤ) : Except Panic ℤ := if x = -2 ^ 127 then .error .overflow else .ok (-x)

def divRemU128 (a b : ℕ) : Except Panic (ℕ × ℕ) :=
  if b = 0 then .error .divideByZero else .ok (a / b, a % b)

def checkedDivRem (a b : ℤ) : Option (ℤ × ℤ) :=
  if b = 0 ∨ a = -2 ^ 127 ∧ b = -1 then none else some (a.tdiv b, a.tmod b)

def mask (size : ℕ) : Except Panic U64 :=
  if 8 ≤ size then .ok (allOnes 64) else do
    let n ← count 64 (← mulU8 size 8)
    return (1#64 <<< n) - 1

def signExtend (v : U64) (size : ℕ) : Except Panic U64 :=
  if 8 ≤ size then .ok v else do
    let shift ← count 64 (← subU8 64 (← mulU8 size 8))
    return (v <<< shift).sshiftRight shift

def signExtend128 (v : U128) (bits : ℕ) : Except Panic U128 :=
  if 128 ≤ bits then .ok v else do
    let shift ← count 128 (← subU8 128 bits)
    return (v <<< shift).sshiftRight shift

def divide (hi lo divisor : U64) (size : ℕ) (signed : Bool) :
    Except Panic (Option (U64 × U64)) := do
  let m ← mask size
  let n ← mulU8 size 8
  let d := divisor &&& m
  if d = 0 then return none
  let dividend : U128 :=
    ((hi &&& m).setWidth 128 <<< (← count 128 n)) ||| (lo &&& m).setWidth 128
  if signed then
    let dv := (← signExtend d size).toInt
    let sd := (← signExtend128 dividend (← mulU8 2 n)).toInt
    match checkedDivRem sd dv with
    | none => return none
    | some (q, r) =>
      let lim : ℤ := 2 ^ (← count 128 (← subU8 n 1))
      if q < (← negI128 lim) ∨ lim ≤ q then return none
      return some (BitVec.ofInt 64 q &&& m, BitVec.ofInt 64 r &&& m)
  else
    let (q, r) ← divRemU128 dividend.toNat d.toNat
    if m.toNat < q then return none
    return some (BitVec.ofNat 64 q, BitVec.ofNat 64 r)

variable (size : Size)

theorem mulU8_bits :
    mulU8 size.bytes 8 = .ok size.bits ∧ mulU8 2 size.bits = .ok (2 * size.bits) := by
  cases size <;> exact ⟨rfl, rfl⟩

theorem count_bits : count 128 size.bits = .ok size.bits ∧ subU8 size.bits 1 = .ok (size.bits - 1) ∧
      count 128 (size.bits - 1) = .ok (size.bits - 1) := by
  cases size <;> exact ⟨rfl, rfl, rfl⟩

theorem negI128_half : negI128 (2 ^ (size.bits - 1)) = .ok (-2 ^ (size.bits - 1)) := by
  cases size <;> rfl

theorem mask_eq : mask size.bytes = .ok (X86Jit.mask size) := by
  cases size <;> rfl

theorem signExtend_eq (v : U64) : signExtend v size.bytes = .ok (X86Jit.signExtend v size) := by
  cases size <;> rfl

theorem signExtend128_eq (v : U128) : signExtend128 v (2 * size.bits) =
      .ok ((v <<< (128 - 2 * size.bits)).sshiftRight (128 - 2 * size.bits)) := by
  cases size
  case b8 =>
    change Except.ok v = .ok ((v <<< 0).sshiftRight 0)
    rw [BitVec.shiftLeft_zero, sshiftRight_zero]
  all_goals rfl

end Checked

variable (size : Size) (signed : Bool)

def Size.number (v : U64) : ℤ := if signed then size.signed v else size.unsigned v

def Size.double (hi lo : U64) : ℤ := size.number signed hi * 2 ^ size.bits + size.unsigned lo

def Size.Fits (x : ℤ) : Prop :=
  if signed then -2 ^ (size.bits - 1) ≤ x ∧ x < 2 ^ (size.bits - 1) else 0 ≤ x ∧ x < 2 ^ size.bits

instance (x : ℤ) : Decidable (size.Fits signed x) :=
  inferInstanceAs (Decidable (if signed then _ else _))

theorem Size.number_fits (v : U64) : size.Fits signed (size.number signed v) := by
  have hv := toNat_and_mask_lt v size
  unfold Size.Fits Size.number
  cases signed with
  | false =>
    rw [if_neg Bool.false_ne_true, if_neg Bool.false_ne_true, unsigned_eq]
    exact ⟨natCast_nonneg _, by exact_mod_cast hv⟩
  | true =>
    rw [if_pos rfl, if_pos rfl, signed_eq]
    cases size <;> simp only [Size.bits, bytes] at * <;> omega

theorem number_ofInt {x : ℤ} (h : size.Fits signed x) :
    size.number signed (BitVec.ofInt 64 x &&& mask size) = x := by
  have hword : (((BitVec.ofInt 64 x &&& mask size) &&& mask size).toNat : ℤ) =
      x % 2 ^ size.bits := by
    rw [toNat_and_mask, toNat_and_mask, toNat_ofInt]
    cases size <;> simp only [Size.bits, bytes] <;> omega
  unfold Size.Fits at h
  unfold Size.number
  cases signed with
  | false =>
    rw [unsigned_eq, hword]
    exact emod_eq_of_lt h.1 h.2
  | true =>
    rw [if_pos rfl, signed_eq]
    rw [if_pos rfl] at h
    generalize ((BitVec.ofInt 64 x &&& mask size) &&& mask size).toNat = n at hword
    cases size <;> simp only [Size.bits, bytes] at * <;> omega

theorem dividend_toNat (hi lo : U64) :
    (((hi &&& mask size).setWidth 128 <<< size.bits) ||| (lo &&& mask size).setWidth 128).toNat =
      (hi &&& mask size).toNat * 2 ^ size.bits + (lo &&& mask size).toNat := by
  have hlo := toNat_and_mask_lt lo size
  have hshift : ((hi &&& mask size).setWidth 128 <<< size.bits).toNat =
      (hi &&& mask size).toNat <<< size.bits := by
    rw [toNat_shiftLeft, toNat_setWidth, Nat.shiftLeft_eq]
    cases size <;> simp only [Size.bits, bytes] at * <;> omega
  rw [toNat_or, hshift, toNat_setWidth, mod_eq_of_lt (by omega),
    ← shiftLeft_add_eq_or_of_lt hlo, Nat.shiftLeft_eq]

theorem dividend_toInt {x : U128} {hi lo : U64}
    (hx : x.toNat = (hi &&& mask size).toNat * 2 ^ size.bits + (lo &&& mask size).toNat) :
    ((x <<< (128 - 2 * size.bits)).sshiftRight (128 - 2 * size.bits)).toInt =
      size.double true hi lo := by
  have hhi := toNat_and_mask_lt hi size
  have hlo := toNat_and_mask_lt lo size
  rw [toInt_sshiftRight, toInt_shiftLeft, hx, Int.shiftRight_eq_div_pow,
    Nat.shiftLeft_eq, Size.double, Size.number, if_pos rfl, signed_eq, unsigned_eq]
  generalize (hi &&& mask size).toNat = h at *
  generalize (lo &&& mask size).toNat = l at *
  simp only [bmod]
  cases size <;> simp only [Size.bits, bytes] at * <;> push_cast <;> omega

theorem number_eq_zero_iff (v : U64) : v &&& mask size = 0 ↔ size.number signed v = 0 := by
  have hv := toNat_and_mask_lt v size
  rw [← toNat_inj, Size.number, signed_eq, unsigned_eq]
  cases signed <;> cases size <;> simp [Size.bits, bytes] at * <;> omega

theorem double_unsigned (hi lo : U64) : size.double false hi lo =
    ((hi &&& mask size).toNat * 2 ^ size.bits + (lo &&& mask size).toNat : ℕ) := by
  rw [Size.double, Size.number, unsigned_eq, unsigned_eq]
  rfl

theorem ofNat_eq_word {n : ℕ} (hn : n < 2 ^ size.bits) :
    BitVec.ofNat 64 n = BitVec.ofInt 64 n &&& mask size := by
  have hpow : 2 ^ size.bits ≤ 2 ^ 64 := Nat.pow_le_pow_right (by decide) size.bits_pos.2
  apply eq_of_toNat_eq
  rw [ofInt_natCast, toNat_and_mask, toNat_ofNat, mod_eq_of_lt (by omega),
    mod_eq_of_lt hn]

theorem divide_eq (hi lo divisor : U64) :
    divide hi lo divisor size signed =
      if size.number signed divisor = 0 ∨
          ¬size.Fits signed ((size.double signed hi lo).tdiv (size.number signed divisor)) then none
      else some
        (BitVec.ofInt 64 ((size.double signed hi lo).tdiv (size.number signed divisor)) &&& mask size,
          BitVec.ofInt 64 ((size.double signed hi lo).tmod (size.number signed divisor)) &&&
            mask size) := by
  have hdividend := dividend_toNat size hi lo
  have hzero := number_eq_zero_iff size signed divisor
  unfold divide
  by_cases hd : divisor &&& mask size = 0
  · rw [if_pos hd, if_pos (Or.inl (hzero.mp hd))]
  rw [if_neg hd]
  cases signed with
  | true =>
    rw [if_pos rfl, dividend_toInt size hdividend, signExtend_and_mask, toInt_signExtend]
    apply if_congr _ rfl rfl
    rw [or_iff_right (fun h0 => hd (hzero.mpr h0)), Size.Fits, if_pos rfl, not_and_or, not_le,
      not_lt]
    rfl
  | false =>
    have hpos : 0 < (divisor &&& mask size).toNat :=
      Nat.pos_of_ne_zero fun h0 => hd (eq_of_toNat_eq h0)
    have hlt := toNat_and_mask_lt divisor size
    have hD : size.number false divisor = (divisor &&& mask size).toNat := unsigned_eq size divisor
    rw [if_neg Bool.false_ne_true, hdividend, double_unsigned, hD, ← ofNat_tdiv,
      ← ofNat_tmod]
    generalize (hi &&& mask size).toNat * 2 ^ size.bits + (lo &&& mask size).toNat = n
    generalize (divisor &&& mask size).toNat = d at hpos hlt
    have hfits : size.Fits false (n / d : ℕ) ↔ n / d < 2 ^ size.bits := by
      rw [Size.Fits, and_iff_right (natCast_nonneg _)]
      exact_mod_cast Iff.rfl
    have hmod := mod_lt n hpos
    rw [toNat_mask]
    by_cases hq : n / d < 2 ^ size.bits
    · rw [if_neg (by omega), if_neg, ofNat_eq_word size hq, ofNat_eq_word size (by omega)]
      rintro (h0 | hout)
      · omega
      · exact hout (hfits.mpr hq)
    · rw [if_pos (by omega), if_pos (Or.inr (mt hfits.mp hq))]

variable (hi lo divisor : U64)

/-- The one quotient the 128-bit division cannot hold does not fit any operand. -/
theorem not_fits_of_overflow {N D : ℤ} (h : N = -2 ^ 127 ∧ D = -1) :
    ¬size.Fits true (N.tdiv D) := by
  rw [h.1, h.2, Size.Fits]
  cases size <;> decide

theorem Checked.divide_eq :
    divide hi lo divisor size.bytes signed = .ok (X86Jit.divide hi lo divisor size signed) := by
  obtain ⟨hmul, hmul2⟩ := mulU8_bits size
  obtain ⟨hcount, hsub, hhalf⟩ := count_bits size
  unfold divide X86Jit.divide
  simp only [mask_eq, hmul, hmul2, hcount, hsub, hhalf, negI128_half, signExtend_eq,
    signExtend128_eq, bind, Except.bind, pure, Except.pure]
  by_cases hd : divisor &&& X86Jit.mask size = 0
  · rw [if_pos hd, if_pos hd]
  rw [if_neg hd, if_neg hd]
  cases signed with
  | false =>
    have hpos : (divisor &&& X86Jit.mask size).toNat ≠ 0 := fun h0 => hd (eq_of_toNat_eq h0)
    simp only [divRemU128, if_neg hpos, Bool.false_eq_true, if_false]
    split <;> rfl
  | true =>
    have hdv : (X86Jit.signExtend (divisor &&& X86Jit.mask size) size).toInt ≠ 0 := by
      rw [signExtend_and_mask, toInt_signExtend]
      exact mt (number_eq_zero_iff size true divisor).mpr hd
    simp only [if_true, checkedDivRem, hdv, false_or]
    generalize (X86Jit.signExtend (divisor &&& X86Jit.mask size) size).toInt = D
    generalize BitVec.toInt _ = N
    by_cases hover : N = -2 ^ 127 ∧ D = -1
    · have hout := not_fits_of_overflow size hover
      rw [Size.Fits, if_pos rfl, not_and_or, not_le, not_lt] at hout
      rw [if_pos hover, if_pos hout]
    · rw [if_neg hover]
      dsimp only
      split <;> rfl

theorem tmod_fits (hD : size.number signed divisor ≠ 0) :
    size.Fits signed ((size.double signed hi lo).tmod (size.number signed divisor)) := by
  have hfits := size.number_fits signed divisor
  have hlt : ((size.double signed hi lo).tmod (size.number signed divisor)).natAbs <
      (size.number signed divisor).natAbs := by
    rw [natAbs_tmod]
    exact mod_lt _ (Int.natAbs_pos.mpr hD)
  unfold Size.Fits at hfits ⊢
  cases signed with
  | true =>
    rw [if_pos rfl] at hfits ⊢
    omega
  | false =>
    rw [if_neg Bool.false_ne_true] at hfits ⊢
    have hpos : 0 ≤ (size.double false hi lo).tmod (size.number false divisor) := by
      exact tmod_nonneg _ (natCast_nonneg _)
    omega

/-- Nothing exactly for a zero divisor or a quotient that does not fit, and otherwise the truncated
quotient and the remainder. -/
theorem divide_spec :
    Checked.divide hi lo divisor size.bytes signed = .ok (divide hi lo divisor size signed) ∧
      (divide hi lo divisor size signed = none ↔ size.number signed divisor = 0 ∨
        ¬size.Fits signed ((size.double signed hi lo).tdiv (size.number signed divisor))) ∧
      ∀ q r, divide hi lo divisor size signed = some (q, r) →
        size.number signed q * size.number signed divisor + size.number signed r =
            size.double signed hi lo ∧ |size.number signed r| < |size.number signed divisor| ∧
          (size.number signed r = 0 ∨
            (size.number signed r).sign = (size.double signed hi lo).sign) := by
  refine ⟨Checked.divide_eq size signed hi lo divisor, ?_, ?_⟩
  · rw [divide_eq]
    split <;> simp_all
  · intro q r h
    rw [divide_eq] at h
    split at h
    · cases h
    · rename_i hok
      obtain ⟨hD, hfits⟩ := not_or.mp hok
      cases h
      have hrem := tmod_fits size signed hi lo divisor hD
      rw [number_ofInt size signed (not_not.mp hfits), number_ofInt size signed hrem]
      refine ⟨tdiv_mul_add_tmod _ _, ?_, ?_⟩
      · rw [abs_eq_natAbs, abs_eq_natAbs, natAbs_tmod]
        exact_mod_cast mod_lt _ (Int.natAbs_pos.mpr hD)
      · rw [sign_tmod]
        split
        · exact Or.inl (tmod_eq_zero_of_dvd ‹_›)
        · exact Or.inr rfl

end X86Jit
