import X86Jit.Fpu.Encode
import X86Jit.Fpu.Zeros
import X86Jit.Lib.DoubleRounding

/-! Results below the smallest normal number. The unit rounds them as if there were no bound on
the exponent; the encoding then cuts off what lies below the last bit of a denormal. -/
namespace X86Jit.F80
open X86Jit.Lib X86Jit.Lib.Rounding Nat

noncomputable def denormalUnit : ℝ := (2 : ℕ) ^ (emin - 63)

/-- The encoding of `n` such units; from `2^63` on the number is normal. -/
def denormalBytes (sign : Bool) (n : ℕ) : BitVec 80 :=
  ((if sign then (0x8000 : U16) else 0) ||| if n < 2 ^ 63 then 0 else 1) ++ BitVec.ofNat 64 n

structure Finite where
  val : F80
  cls : val.cls = .zero ∨ val.cls = .normal
  ok : val.Ok

inductive BinOp
  | add | sub | mul | div
  deriving DecidableEq, Repr

namespace BinOp

def run (a b : F80) (ctl : Ctl) : BinOp → F80 × Exc
  | add => addCtl a b ctl
  | sub => subCtl a b ctl
  | mul => mulCtl a b ctl
  | div => divCtl a b ctl

noncomputable def exact (a b : Finite) : BinOp → ℝ
  | add => a.val.num + b.val.num
  | sub => a.val.num - b.val.num
  | mul => a.val.num * b.val.num
  | div => a.val.num / b.val.num

end BinOp

/-- The result in the selected precision; with a zero operand the unit does not round. -/
noncomputable def beforeEncoding (a b : Finite) (ctl : Ctl) (x : ℝ) : ℝ :=
  if a.val.cls = .zero ∨ b.val.cls = .zero then x else roundTo ctl.sigBits ctl.mode x

variable {r : F80} {sign : Bool} {exp : ℤ} {sig : U64}

theorem denormalUnit_pos : 0 < denormalUnit := by
  exact zpow_pos (by norm_num) _

theorem floor_units (sig : U64) (hexp : exp ≤ emin) :
    ⌊(sig.toNat * 2 ^ (exp - 63) : ℝ) / denormalUnit⌋₊ = sig.toNat / 2 ^ (emin - exp).toNat := by
  have hshift : (((emin - exp).toNat : ℕ) : ℤ) = emin - exp :=
    Int.toNat_of_nonneg (sub_nonneg.mpr hexp)
  have hpow : (2 : ℝ) ^ (exp - 63) / denormalUnit = 1 / ((2 ^ (emin - exp).toNat : ℕ) : ℝ) := by
    unfold denormalUnit
    push_cast
    rw [← zpow_natCast, hshift, one_div, ← zpow_neg, ← zpow_sub₀ two_ne_zero]
    congr 1
    ring
  rw [mul_div_assoc, hpow, mul_one_div, floor_div_eq_div]

theorem denormalBytes_of_lt {n : ℕ} (h : n < 2 ^ 63) : denormalBytes sign n =
    ((if sign then (0x8000 : U16) else 0) ||| 0) ++ BitVec.ofNat 64 n := by
  unfold denormalBytes
  rw [if_pos h]

theorem toBytes_zero (sign : Bool) : toBytes (zero sign) = denormalBytes sign 0 := by
  cases sign <;> rfl

theorem units_far (sig : U64) (hfar : 64 ≤ (emin - exp).toNat) :
    sig.toNat / 2 ^ (emin - exp).toNat = 0 := by
  apply div_eq_of_lt
  exact sig.isLt.trans_le (Nat.pow_le_pow_right two_pos hfar)

theorem toBytes_low (hsig : 2 ^ 63 ≤ sig.toNat) (hexp : exp ≤ emin) :
    toBytes ⟨sign, .normal, exp, sig⟩ =
      denormalBytes sign (sig.toNat / 2 ^ (emin - exp).toNat) := by
  have hmax : ¬expMax ≤ exp + bias := by
    unfold emin at hexp
    unfold expMax
    omega
  unfold toBytes
  dsimp only
  rw [if_neg hmax]
  rcases lt_or_eq_of_le hexp with hlt | heq
  · -- a denormal, or nothing at all
    have hneg : exp + bias ≤ 0 := by
      unfold emin at hlt
      omega
    have hshift : (1 - (exp + bias)).toNat = (emin - exp).toNat := by
      unfold emin
      congr 1
      ring
    rw [if_pos hneg, hshift]
    by_cases hfar : 64 ≤ (emin - exp).toNat
    · rw [units_far sig hfar, if_pos hfar, denormalBytes_of_lt (Nat.two_pow_pos 63)]
      rfl
    · have hpos : 1 ≤ (emin - exp).toNat := by omega
      have hsmall : sig.toNat / 2 ^ (emin - exp).toNat < 2 ^ 63 := by
        rw [Nat.div_lt_iff_lt_mul (Nat.two_pow_pos _)]
        calc sig.toNat < 2 ^ 63 * 2 ^ 1 := sig.isLt
          _ ≤ 2 ^ 63 * 2 ^ (emin - exp).toNat :=
            mul_le_mul_left _ (Nat.pow_le_pow_right two_pos hpos)
      have hbits : sig >>> (emin - exp).toNat =
          BitVec.ofNat 64 (sig.toNat / 2 ^ (emin - exp).toNat) := by
        apply BitVec.eq_of_toNat_eq
        rw [BitVec.toNat_ushiftRight, shiftRight_eq_div_pow, BitVec.toNat_ofNat,
          mod_eq_of_lt (hsmall.trans (by decide))]
      have hzero : (0 : U16) &&& 0x7fff = 0 := by decide
      rw [if_neg hfar, denormalBytes_of_lt hsmall, ← hbits]
      rw [hzero]
  · subst heq
    have hone : emin + bias = 1 := rfl
    have hself : sig.toNat / 2 ^ (emin - emin).toNat = sig.toNat := by
      exact Nat.div_one _
    unfold denormalBytes
    have hword : BitVec.ofNat 64 sig.toNat = sig := by
      rw [BitVec.ofNat_toNat, BitVec.setWidth_eq]
    have hbiased : BitVec.ofInt 16 1 &&& 0x7fff = 1 := by decide
    have hnormal : ¬(1 : ℤ) ≤ 0 := by decide
    rw [hone, hself, if_neg hnormal, if_neg (not_lt.mpr hsig), hword]
    rw [hbiased]

theorem toBytes_finishExc {ctl : Ctl} {inexact : Bool} (hsig : 2 ^ 63 ≤ sig.toNat)
    (hexp : exp ≤ emin) : toBytes (finishExc sign exp sig ctl inexact).1 =
      denormalBytes sign (sig.toNat / 2 ^ (emin - exp).toNat) := by
  have hover : ¬emax < exp := by
    have : emin < emax := by decide
    omega
  unfold finishExc
  rw [if_neg hover]
  by_cases htiny : exp < emin
  · rw [if_pos htiny]
    by_cases hfar : exp < emin - 64
    · rw [if_pos hfar, units_far sig (by omega)]
      exact toBytes_zero sign
    · rw [if_neg hfar]
      exact toBytes_low hsig hexp
  · rw [if_neg htiny]
    exact toBytes_low hsig hexp

theorem denormalBytes_inj {n n' : ℕ} (hn : n < 2 ^ 64) (hn' : n' < 2 ^ 64)
    (h : denormalBytes sign n = denormalBytes sign n') : n = n' := by
  have hlow (m : ℕ) : (denormalBytes sign m).setWidth 64 = BitVec.ofNat 64 m := by
    exact BitVec.setWidth_append_eq_right
  have hbits : BitVec.ofNat 64 n = BitVec.ofNat 64 n' := by
    rw [← hlow n, h, hlow n']
  have hnat := congrArg BitVec.toNat hbits
  rwa [BitVec.toNat_ofNat, BitVec.toNat_ofNat, mod_eq_of_lt hn, mod_eq_of_lt hn'] at hnat

variable {a b : Finite} {ctl : Ctl} {op : BinOp}

def Finite.normal (a : Finite) (h : a.val.cls = .normal) : Normal := ⟨a.val, h, a.ok⟩

theorem BinOp.finishes (ctl : Ctl) (ha : a.val.cls = .normal) (hb : b.val.cls = .normal)
    (hne : op.exact a b ≠ 0) : Finishes ctl (op.exact a b) (op.run a.val b.val ctl) := by
  have hna := num_of_normal ha
  have hnb := num_of_normal hb
  unfold BinOp.exact at hne ⊢
  rw [hna, hnb] at hne ⊢
  cases op with
  | add => exact addCtl_finishes (a.normal ha) (b.normal hb) ctl hne
  | sub => exact subCtl_finishes (a.normal ha) (b.normal hb) ctl hne
  | mul => exact mulCtl_finishes (a.normal ha) (b.normal hb) ctl
  | div => exact divCtl_finishes (a.normal ha) (b.normal hb) ctl

theorem real_addend (b : F80) (subtract : Bool) :
    (addend b subtract).real = if subtract then -b.real else b.real := by
  unfold real addend magnitude
  cases subtract <;> simp [signed_not]

theorem addSub_finite_zero (subtract : Bool) (hzero : a.val.cls = .zero ∨ b.val.cls = .zero)
    (hne : a.val.num + (if subtract then -b.val.num else b.val.num) ≠ 0) :
    ∃ x : F80, x.cls = .normal ∧ x.Ok ∧
      x.real = a.val.num + (if subtract then -b.val.num else b.val.num) ∧
      (addSub a.val b.val subtract ctl).1 = x := by
  rcases hzero with hzero | hzero
  · have hb : b.val.cls = .normal := by
      refine b.cls.resolve_left ?_
      intro hzb
      rw [num_of_zero hzero, num_of_zero hzb] at hne
      simp at hne
    refine ⟨addend b.val subtract, hb, b.ok, ?_, ?_⟩
    · rw [real_addend, num_of_zero hzero, num_of_normal hb, zero_add]
    · have hb' : (addend b.val subtract).cls = .normal := hb
      rw [addSub_beside (.inl ⟨hzero, rfl⟩) (.inl hb'), if_pos hb']
  · have ha : a.val.cls = .normal := by
      refine a.cls.resolve_left ?_
      intro hza
      rw [num_of_zero hzero, num_of_zero hza] at hne
      simp at hne
    refine ⟨a.val, ha, a.ok, ?_, ?_⟩
    · rw [num_of_zero hzero, num_of_normal ha]
      simp
    · have hzero' : (addend b.val subtract).cls = .zero := hzero
      rw [addSub_beside (.inr ⟨hzero', rfl⟩) (.inl ha), if_pos ha]

theorem BinOp.beside_zero (op : BinOp) (ctl : Ctl) (hzero : a.val.cls = .zero ∨ b.val.cls = .zero)
    (hne : op.exact a b ≠ 0) : ∃ x : F80, x.cls = .normal ∧ x.Ok ∧ x.real = op.exact a b ∧
      (op.run a.val b.val ctl).1 = x := by
  cases op with
  | add => exact addSub_finite_zero false hzero hne
  | sub =>
    have hsub : BinOp.sub.exact a b = a.val.num + -b.val.num := sub_eq_add_neg _ _
    exact addSub_finite_zero true hzero hne
  | mul =>
    exfalso
    apply hne
    rcases hzero with h | h
    · exact mul_eq_zero_of_left (num_of_zero h) _
    · exact mul_eq_zero_of_right _ (num_of_zero h)
  | div =>
    -- a quotient by zero has no exact value other than zero here
    exfalso
    apply hne
    rcases hzero with h | h
    · exact div_eq_zero_iff.mpr (.inl (num_of_zero h))
    · exact div_eq_zero_iff.mpr (.inr (num_of_zero h))

theorem sign_eq_decide {x : F80} (hsig : 2 ^ 63 ≤ x.sig.toNat) : x.sign = decide (x.real < 0) := by
  have hpos := magnitude_pos hsig
  unfold real
  cases x.sign with
  | false => simpa [signed] using hpos.le
  | true => simpa [signed] using hpos

/-- The bytes of a tiny result hold what there was before the encoding, cut off. -/
theorem BinOp.toBytes_run (hne : op.exact a b ≠ 0) (htiny : |op.exact a b| < 2 ^ emin) :
    toBytes (op.run a.val b.val ctl).1 = denormalBytes (decide (op.exact a b < 0))
      ⌊|beforeEncoding a b ctl (op.exact a b)| / denormalUnit⌋₊ := by
  have hp := ctl.sigBits_cases
  by_cases hzero : a.val.cls = .zero ∨ b.val.cls = .zero
  · -- beside a zero the other operand is the result, and it is not rounded
    obtain ⟨x, hcls, hok, hreal, hrun⟩ := BinOp.beside_zero op ctl hzero hne
    have hsig := (hok hcls).1
    have habs : |x.real| = x.magnitude := by
      unfold real
      rw [abs_signed, abs_of_pos (magnitude_pos hsig)]
    have hexp : x.exp ≤ emin := by
      rw [← hreal, habs] at htiny
      have hlt := (magnitude_bounds hsig).1.trans_lt htiny
      exact ((zpow_lt_zpow_iff_right₀ one_lt_two).mp hlt).le
    have hbefore : beforeEncoding a b ctl (op.exact a b) = x.real := by
      rw [hreal]
      exact if_pos hzero
    have hx : x = ⟨x.sign, .normal, x.exp, x.sig⟩ := by
      rw [← hcls]
    rw [hrun, hbefore, habs, ← hreal, ← sign_eq_decide hsig]
    unfold magnitude
    rw [floor_units x.sig hexp]
    nth_rewrite 1 [hx]
    exact toBytes_low hsig hexp
  · have hbefore : beforeEncoding a b ctl (op.exact a b) =
        roundTo ctl.sigBits ctl.mode (op.exact a b) := if_neg hzero
    obtain ⟨hza, hzb⟩ := not_or.mp hzero
    have hround : |roundTo ctl.sigBits ctl.mode (op.exact a b)| ≤ 2 ^ emin :=
      abs_roundTo_le (by omega) ctl.mode hne htiny
    have hfin := BinOp.finishes ctl (a.cls.resolve_left hza) (b.cls.resolve_left hzb) hne
    rw [hbefore]
    generalize op.exact a b = x at hne htiny hround hfin ⊢
    generalize op.run a.val b.val ctl = r at hfin ⊢
    obtain @⟨sign, exp, sig, inexact, hsig, hroundTo, hneg, -⟩ := hfin
    have hpos : (0 : ℝ) < sig.toNat * 2 ^ (exp - 63) :=
      magnitude_pos (a := ⟨sign, .normal, exp, sig⟩) hsig
    have habs : |roundTo ctl.sigBits ctl.mode x| = sig.toNat * 2 ^ (exp - 63) := by
      rw [hroundTo, abs_signed, abs_of_pos hpos]
    have hexp : exp ≤ emin := by
      have hlow : (2 : ℝ) ^ exp ≤ sig.toNat * 2 ^ (exp - 63) :=
        (magnitude_bounds (a := ⟨sign, .normal, exp, sig⟩) hsig).1
      rw [habs] at hround
      exact (zpow_le_zpow_iff_right₀ one_lt_two).mp (hlow.trans hround)
    have hsign : decide (x < 0) = sign := by
      cases sign <;> simp [hneg]
    rw [habs, floor_units sig hexp, hsign]
    exact toBytes_finishExc hsig hexp

theorem emin_units : (2 : ℝ) ^ emin = ((2 ^ 63 : ℕ) : ℝ) * denormalUnit := by
  have hcast : ((2 ^ 63 : ℕ) : ℝ) = 2 ^ (63 : ℤ) := by norm_num
  unfold denormalUnit
  rw [hcast, cast_ofNat, ← zpow_add₀ two_ne_zero, add_sub_cancel]

theorem units_lt {y : ℝ} (h : |y| ≤ 2 ^ emin) : ⌊|y| / denormalUnit⌋₊ < 2 ^ 64 := by
  have hle : |y| / denormalUnit ≤ ((2 ^ 63 : ℕ) : ℝ) := by
    rw [div_le_iff₀ denormalUnit_pos, ← emin_units]
    exact h
  have hfloor := floor_le_floor hle
  rw [floor_natCast] at hfloor
  exact hfloor.trans_lt (by decide)

theorem rounded_units_lt (mode : Rounding) {x : ℝ} (h : |x| < 2 ^ emin) :
    (mode.toInt (x / denormalUnit)).natAbs < 2 ^ 64 := by
  have hle : |x / denormalUnit| ≤ ((2 ^ 63 : ℕ) : ℝ) := by
    rw [abs_div, abs_of_pos denormalUnit_pos, div_le_iff₀ denormalUnit_pos, ← emin_units]
    exact h.le
  have hint := abs_toInt_le mode hle
  rw [Int.abs_eq_natAbs] at hint
  omega

/-- Whether the bytes of the exact result `x` hold it rounded once: in units of the smallest
denormal, by its integer part, its fraction and what the first rounding carries. Beside a zero there
is no first rounding, and the last unit must not go up. -/
noncomputable def TinyRight (a b : Finite) (ctl : Ctl) (x : ℝ) : Prop :=
  let mode := ctl.mode.onMagnitude (decide (x < 0))
  let y := |x| / denormalUnit
  if a.val.cls = .zero ∨ b.val.cls = .zero then ¬mode.GoesUp false ⌊y⌋₊ (y - ⌊y⌋₊)
  else mode.CutsRight ctl.sigBits y

theorem eq_signed_abs (x : ℝ) : x = signed (decide (x < 0)) * |x| := by
  rcases lt_or_ge x 0 with hneg | hpos
  · rw [decide_eq_true hneg, abs_of_neg hneg]
    simp [signed]
  · rw [decide_eq_false (not_lt.mpr hpos), abs_of_nonneg hpos]
    simp [signed]

theorem floor_natAbs_iff {r : ℝ} {n : ℤ} (hr : 0 ≤ r) (hn : 0 ≤ n) : ⌊r⌋₊ = n.natAbs ↔ ⌊r⌋ = n := by
  rw [← Int.floor_toNat]
  have hfloor := Int.floor_nonneg.mpr hr
  omega

/-- A result below the smallest normal number is written as rounded once to a multiple of the
smallest denormal exactly under that condition. -/
theorem toBytes_tiny_iff (op : BinOp) (a b : Finite) (ctl : Ctl) (hne : op.exact a b ≠ 0)
    (htiny : |op.exact a b| < 2 ^ emin) :
    toBytes (op.run a.val b.val ctl).1 = denormalBytes (decide (op.exact a b < 0))
        (ctl.mode.toInt (op.exact a b / denormalUnit)).natAbs ↔
      TinyRight a b ctl (op.exact a b) := by
  have hp := ctl.sigBits_cases
  have hbefore : |beforeEncoding a b ctl (op.exact a b)| ≤ 2 ^ emin := by
    unfold beforeEncoding
    split
    · exact htiny.le
    · exact abs_roundTo_le (by omega) ctl.mode hne htiny
  have hbytes : toBytes (op.run a.val b.val ctl).1 = denormalBytes (decide (op.exact a b < 0))
        (ctl.mode.toInt (op.exact a b / denormalUnit)).natAbs ↔
      ⌊|beforeEncoding a b ctl (op.exact a b)| / denormalUnit⌋₊ =
        (ctl.mode.toInt (op.exact a b / denormalUnit)).natAbs := by
    rw [BinOp.toBytes_run hne htiny]
    constructor
    · exact denormalBytes_inj (units_lt hbefore) (rounded_units_lt ctl.mode htiny)
    · intro h
      rw [h]
  rw [hbytes]
  generalize op.exact a b = x at hne ⊢
  have hpos := abs_pos.mpr hne
  have hy : 0 < |x| / denormalUnit := div_pos hpos denormalUnit_pos
  have hright : (ctl.mode.toInt (x / denormalUnit)).natAbs =
      ((ctl.mode.onMagnitude (decide (x < 0))).toInt (|x| / denormalUnit)).natAbs := by
    nth_rewrite 1 [eq_signed_abs x]
    rw [mul_div_assoc, natAbs_toInt_signed]
  have hround : |roundTo ctl.sigBits ctl.mode x| / denormalUnit =
      roundTo ctl.sigBits (ctl.mode.onMagnitude (decide (x < 0))) (|x| / denormalUnit) := by
    nth_rewrite 1 [eq_signed_abs x]
    rw [abs_roundTo_signed _ _ hpos.le]
    exact (roundTo_div_zpow hpos _).symm
  have hint (mode : Rounding) : 0 ≤ mode.toInt (|x| / denormalUnit) :=
    (Int.floor_nonneg.mpr hy.le).trans (mode.toInt_mem _).1
  unfold TinyRight beforeEncoding
  dsimp only
  rw [hright]
  by_cases hzero : a.val.cls = .zero ∨ b.val.cls = .zero
  · rw [if_pos hzero, if_pos hzero, floor_natAbs_iff hy.le (hint _)]
    exact floor_eq_toInt_iff hy.le
  · rw [if_neg hzero, if_neg hzero, hround,
      floor_natAbs_iff (roundTo_nonneg hy.le _) (hint _)]
    exact floor_roundTo_iff hy

theorem leastAbove_ok : Ok ⟨false, .normal, emin, 0x8000000000000001⟩ := fun _ => by decide

def leastAbove : Finite := ⟨_, .inr rfl, leastAbove_ok⟩

theorem four_ok : Ok ⟨false, .normal, 2, 0x8000000000000000⟩ := fun _ => by decide

def four : Finite := ⟨_, .inr rfl, four_ok⟩

def roundUp : Ctl := ⟨0x0b7f⟩

theorem num_leastAbove : leastAbove.val.num = (2 ^ 63 + 1 : ℕ) * denormalUnit := by
  have hsig : (0x8000000000000001 : U64).toNat = 2 ^ 63 + 1 := by decide
  have hsigned : signed false = 1 := rfl
  change signed false * ((0x8000000000000001 : U64).toNat * 2 ^ (emin - 63)) = _
  unfold denormalUnit
  rw [hsig, hsigned, one_mul, cast_ofNat]

theorem num_four : four.val.num = 4 := by
  have hsig : (0x8000000000000000 : U64).toNat = 2 ^ 63 := by decide
  have hsigned : signed false = 1 := rfl
  change signed false * ((0x8000000000000000 : U64).toNat * 2 ^ (2 - 63 : ℤ)) = _
  rw [hsig, hsigned]
  norm_num

theorem quarter_units : BinOp.div.exact leastAbove four / denormalUnit = (2 ^ 61 : ℕ) + 1 / 4 := by
  have hpos := denormalUnit_pos
  change leastAbove.val.num / four.val.num / denormalUnit = _
  rw [num_leastAbove, num_four]
  field_simp
  norm_num

theorem quarter_bounds : 0 < BinOp.div.exact leastAbove four ∧
    BinOp.div.exact leastAbove four < 2 ^ emin := by
  have hpos := denormalUnit_pos
  have hscaled : BinOp.div.exact leastAbove four = ((2 ^ 61 : ℕ) + 1 / 4) * denormalUnit := by
    rw [← quarter_units, div_mul_cancel₀ _ hpos.ne']
  rw [hscaled, emin_units]
  constructor
  · positivity
  · apply mul_lt_mul_of_pos_right _ hpos
    norm_num

theorem quarter_tiny : BinOp.div.exact leastAbove four ≠ 0 ∧
    |BinOp.div.exact leastAbove four| < 2 ^ emin := by
  obtain ⟨hpos, hlt⟩ := quarter_bounds
  exact ⟨hpos.ne', by rwa [abs_of_pos hpos]⟩

theorem quarter_cut_off : roundUp.masksUnderflow = true ∧
      toBytes (BinOp.div.run leastAbove.val four.val roundUp).1 = denormalBytes false (2 ^ 61) ∧
      toBytes (BinOp.div.run leastAbove.val four.val roundUp).1 ≠
        denormalBytes (decide (BinOp.div.exact leastAbove four < 0))
          (roundUp.mode.toInt (BinOp.div.exact leastAbove four / denormalUnit)).natAbs := by
  have hup : roundUp.mode = .up := by decide
  have hrun : toBytes (BinOp.div.run leastAbove.val four.val roundUp).1 =
      denormalBytes false (2 ^ 61) := by decide +kernel
  have hceil : (⌈((2 ^ 61 : ℕ) : ℝ) + 1 / 4⌉).natAbs = 2 ^ 61 + 1 := by
    have h : ⌈((2 ^ 61 : ℕ) : ℝ) + 1 / 4⌉ = (2 ^ 61 + 1 : ℕ) :=
      ceil_parts (by norm_num) (by norm_num) (by norm_num)
    rw [h]
    rfl
  refine ⟨by decide, hrun, ?_⟩
  rw [hrun, quarter_units, decide_eq_false (not_lt.mpr quarter_bounds.1.le)]
  change denormalBytes false (2 ^ 61) ≠ denormalBytes false (⌈((2 ^ 61 : ℕ) : ℝ) + 1 / 4⌉).natAbs
  rw [hceil]
  decide +kernel

theorem quarter_right : TinyRight leastAbove four resetCtl (BinOp.div.exact leastAbove four) := by
  have hmode : resetCtl.mode = .nearestEven := by decide
  have hfloor : ⌊((2 ^ 61 : ℕ) : ℝ) + 1 / 4⌋₊ = 2 ^ 61 := by
    rw [floor_eq_iff (by positivity)]
    norm_num
  -- a quarter is less than a half
  have hstays : ¬nearestEven.GoesUp false (2 ^ 61) (1 / 4) := by
    rintro (hup | ⟨htie, -⟩)
    · norm_num at hup
    · norm_num at htie
  obtain ⟨hpos, -⟩ := quarter_bounds
  unfold TinyRight
  dsimp only
  rw [if_neg (by decide), abs_of_pos hpos, quarter_units, hmode,
    decide_eq_false (not_lt.mpr hpos.le)]
  change nearestEven.CutsRight _ _
  unfold CutsRight
  rw [if_pos (unit_lt_one (e := 62) (by positivity) (by norm_num) (by decide)), hfloor,
    add_sub_cancel_left]
  exact fun hup => absurd hup hstays

/-- The same quotient to nearest is written as rounded once. -/
theorem quarter_to_nearest :
    TinyRight leastAbove four resetCtl (BinOp.div.exact leastAbove four) ∧
      toBytes (BinOp.div.run leastAbove.val four.val resetCtl).1 =
        denormalBytes (decide (BinOp.div.exact leastAbove four < 0))
          (resetCtl.mode.toInt (BinOp.div.exact leastAbove four / denormalUnit)).natAbs :=
  ⟨quarter_right, (toBytes_tiny_iff .div leastAbove four resetCtl quarter_tiny.1 quarter_tiny.2).mpr
    quarter_right⟩

end X86Jit.F80
