import Mathlib.Tactic.LinearCombination
import X86Jit.Fpu.Integers
import X86Jit.Fpu.Moves
import X86Jit.Lib.Precision

/-! The partial remainder. It is made of one rounded division, one rounded product and one
difference, and is exact only where the quotient and the product are. -/
namespace X86Jit
open X86Jit.Lib X86Jit.Lib.Rounding F80

namespace F80

def isFinite (a : F80) : Bool := a.cls == .zero || a.cls == .normal

structure IsRemainder (a b r : F80) : Prop where
  finite : r.isFinite = true
  exact : r.num = a.num - b.num * towardZero.toInt (a.num / b.num)
  less : |r.num| < |b.num|
  sign : r.sign = a.sign

/-- With `n` the quotient as an integer, it must not round up and must stay below `2^63` (or be
`-2^63`), and `n` times the divisor must have at most 64 bits. A zero remainder is the positive one.
-/
def remExact (a b : F80) : Bool :=
  let scaled := a.sig.toNat <<< (a.exp - b.exp).toNat
  let n := scaled / b.sig.toNat
  let rest := scaled % b.sig.toNat
  a.cls == .zero || a.exp < b.exp || n == 0 ||
    ((rest != 0 || !a.sign) &&
      (n < 2 ^ 63 && b.sig.toNat < 2 ^ (64 - n.log2) * (b.sig.toNat - rest) &&
          (n * b.sig.toNat) % 2 ^ ((n * b.sig.toNat).log2 - 63) == 0 ||
        n == 2 ^ 63 && a.sign != b.sign))

noncomputable def rn (x : ℝ) : ℝ := roundTo 64 nearestEven x

theorem fits_magnitude (a : F80) : Fits 64 a.magnitude := by
  have hlt : (a.sig.toNat : ℝ) < 2 ^ 64 := by exact_mod_cast a.sig.isLt
  have hpow : (0 : ℝ) < 2 ^ (a.exp - 63) := zpow_pos two_pos _
  apply fits_of_lt
  · exact ⟨a.sig.toNat, by unfold magnitude; push_cast; rfl⟩
  · unfold magnitude
    rw [abs_of_nonneg (by positivity), zpow_add₀ two_ne_zero, mul_comm]
    apply mul_lt_mul_of_pos_left _ hpow
    exact_mod_cast hlt

theorem Finishes.reset {x : ℝ} {r : F80 × Exc} (h : Finishes resetCtl x r) :
    r.1.cls = .inf ∧ 2 ^ (emax + 1) ≤ |rn x| ∨ r.1.cls = .zero ∧ |rn x| < 2 ^ (emin - 64) ∨
      r.1.cls = .normal ∧ r.1.Ok ∧ r.1.real = rn x := by
  obtain @⟨sign, exp, sig, inexact, hsig, hround, hneg, hexact⟩ := h
  have hrn : rn x = signed sign * (sig.toNat * 2 ^ (exp - 63)) := hround
  obtain ⟨hlow, hhigh⟩ := magnitude_bounds (a := ⟨sign, .normal, exp, sig⟩) hsig
  have habs : |rn x| = magnitude ⟨sign, .normal, exp, sig⟩ := by
    rw [hrn, abs_signed]
    exact abs_of_pos (magnitude_pos (a := ⟨sign, .normal, exp, sig⟩) hsig)
  unfold finishExc
  rw [habs]
  by_cases hover : emax < exp
  · rw [if_pos hover]
    refine .inl ⟨rfl, hlow.trans' ?_⟩
    exact zpow_le_zpow_right₀ one_le_two hover
  rw [if_neg hover]
  by_cases hgone : exp < emin - 64
  · rw [if_pos (by omega), if_pos hgone]
    refine .inr (.inl ⟨rfl, hhigh.trans_le ?_⟩)
    exact zpow_le_zpow_right₀ one_le_two hgone
  · have hok : Ok ⟨sign, .normal, exp, sig⟩ := fun _ => ⟨hsig, not_lt.mp hgone, not_lt.mp hover⟩
    right
    right
    split <;> exact ⟨rfl, hok, hrn.symm⟩

theorem Normal.magnitude_pos (a : Normal) : 0 < a.val.magnitude := F80.magnitude_pos a.le_sig

structure Encoded extends Normal where
  grid : Multiple (emin - 63) val.magnitude

variable {q : U64} (a b p : Encoded) {x : ℝ}

noncomputable def quotient : ℝ := rn (a.val.magnitude / b.val.magnitude)

theorem quotient_nonneg : 0 ≤ quotient a b :=
  roundTo_nonneg (div_nonneg a.magnitude_pos.le b.magnitude_pos.le) _

theorem real_div_magnitude : a.val.real / b.val.real =
    signed (a.val.sign ^^ b.val.sign) * (a.val.magnitude / b.val.magnitude) := by
  have hsign : signed a.val.sign / signed b.val.sign = signed (a.val.sign ^^ b.val.sign) := by
    cases a.val.sign <;> cases b.val.sign <;> norm_num [signed]
  unfold real
  rw [mul_div_mul_comm, hsign]

theorem toInt_quotient : (toI64Rc (divCtl a.val b.val resetCtl).1 3).toInt =
    if quotient a b < 2 ^ 63 then
      if a.val.sign ^^ b.val.sign then -(⌊quotient a b⌋₊ : ℤ) else ⌊quotient a b⌋₊
    else -2 ^ 63 := by
  have hnonneg := quotient_nonneg a b
  have hrn : rn (a.val.real / b.val.real) =
      signed (a.val.sign ^^ b.val.sign) * quotient a b := by
    rw [real_div_magnitude]
    exact roundTo_nearest_signed 64 _ _
  have habs : |rn (a.val.real / b.val.real)| = quotient a b := by
    rw [hrn, abs_signed, abs_of_nonneg hnonneg]
  have hlarge : (2 : ℝ) ^ 63 ≤ 2 ^ (emax + 1) := by
    rw [← zpow_natCast]
    exact zpow_le_zpow_right₀ one_le_two (by decide)
  have hsmall : (2 : ℝ) ^ (emin - 64) ≤ 1 := by
    rw [← zpow_zero 2]
    exact zpow_le_zpow_right₀ one_le_two (by decide)
  -- the division overflows, vanishes or is rounded; the first two are far from 2^63 and from one
  rcases (divCtl_finishes a.toNormal b.toNormal resetCtl).reset with ⟨hcls, hbig⟩ | ⟨hcls, htiny⟩ | ⟨hcls, hok, hval⟩
  · rw [habs] at hbig
    rw [if_neg (not_lt.mpr (hlarge.trans hbig))]
    unfold toI64Rc
    rw [hcls]
    rfl
  · rw [habs] at htiny
    have hzero : ⌊quotient a b⌋₊ = 0 := Nat.floor_eq_zero.mpr (by linarith)
    rw [if_pos (by linarith), hzero]
    unfold toI64Rc
    rw [hcls]
    simp
  · generalize hr : (divCtl a.val b.val resetCtl).1 = r at hcls hok hval
    have hsig := (hok hcls).1
    have hcut : roundingOf 3 = towardZero := rfl
    have hn := towardZero_signed hnonneg (a.val.sign ^^ b.val.sign)
    rw [← hrn, ← hval, ← hcut] at hn
    rw [toI64Rc_normal hcls hsig rfl]
    by_cases hfits : quotient a b < 2 ^ 63
    · have hfloor : ⌊quotient a b⌋₊ < 2 ^ 63 := by
        rw [Nat.floor_lt hnonneg]
        exact_mod_cast hfits
      rw [hn]
      unfold fitsI64
      split_ifs <;> omega
    · rw [if_neg hfits]
      have hmag : (2 : ℝ) ^ 63 ≤ r.magnitude := by
        have hreal : |r.real| = quotient a b := by rw [hval, habs]
        unfold real at hreal
        rw [abs_signed, abs_of_pos (magnitude_pos hsig)] at hreal
        rw [hreal]
        exact not_lt.mp hfits
      by_cases hmin : fitsI64 ((roundingOf 3).toInt r.real)
      · rw [if_pos hmin, eq_min_of_fits hmag rfl hmin]
      · rw [if_neg hmin]

/-- A result that is an infinity, if `x` is too large, or has an encoding and is `x`. -/
inductive Gives (r : F80) (x : ℝ) : Prop
  | inf (hcls : r.cls = .inf) (hbig : 2 ^ (emax + 1) ≤ |x|)
  | number (p : Encoded) (hr : r = p.val) (hreal : p.val.real = x)

theorem Encoded.grid_real : Multiple (emin - 63) a.val.real := a.grid.signed _

theorem Encoded.magnitude_lt : a.val.magnitude < 2 ^ (emax + 1) := by
  apply (magnitude_bounds a.le_sig).2.trans_le
  exact zpow_le_zpow_right₀ one_le_two (by have := (a.ok a.cls).2.2; omega)

theorem Finishes.gives {r : F80 × Exc} (h : Finishes resetCtl x r)
    (hgrid : Multiple (emin - 63) x) : Gives r.1 (rn x) := by
  have hround : Multiple (emin - 63) (rn x) := hgrid.roundTo 64 nearestEven
  rcases h.reset with hinf | ⟨hcls, htiny⟩ | ⟨hcls, hok, hval⟩
  · exact .inf hinf.1 hinf.2
  · have hne : rn x ≠ 0 := by
      obtain @⟨sign, exp, sig, inexact, hsig, hrn, hneg, hexact⟩ := h
      have hpos := magnitude_pos (a := ⟨sign, .normal, exp, sig⟩) hsig
      change rn x = signed sign * magnitude ⟨sign, .normal, exp, sig⟩ at hrn
      rw [hrn, ← abs_pos, abs_signed]
      exact abs_pos.mpr hpos.ne'
    have hle := hround.le_abs hne
    have hpow : (2 : ℝ) ^ (emin - 64) ≤ 2 ^ (emin - 63) :=
      zpow_le_zpow_right₀ one_le_two (by omega)
    linarith
  · refine .number ⟨⟨r.1, hcls, hok⟩, ?_⟩ rfl hval
    have hmag : r.1.magnitude = |r.1.real| := by
      unfold real
      rw [abs_signed, abs_of_pos (magnitude_pos (hok hcls).1)]
    rw [hmag, hval]
    rcases abs_choice (rn x) with h | h
    · rw [h]
      exact hround
    · rw [h]
      simpa [signed] using hround.signed true

theorem fromI64_ok {v : U64} (h : v ≠ 0) : (fromI64 v).Ok := by
  intro _
  refine ⟨(fromI64_normal h).2.1, ?_⟩
  have hmag : (if v.msb then -v else v) ≠ 0 := by
    split_ifs
    · exact neg_ne_zero.mpr h
    · exact h
  have hlt := clz_lt hmag
  have hexp : (fromI64 v).exp = 63 - (if v.msb then -v else v).clz.toNat := by
    unfold fromI64
    rw [if_neg h]
  have hmin : emin ≤ 0 := by decide
  have hmax : 63 ≤ emax := by decide
  omega

theorem mul_gives (hq : q ≠ 0) :
    Gives (mulCtl (fromI64 q) b.val resetCtl).1 (rn (q.toInt * b.val.real)) := by
  obtain ⟨hcls, hsig, hreal⟩ := fromI64_normal hq
  have hfin := mulCtl_finishes ⟨fromI64 q, hcls, fromI64_ok hq⟩ b.toNormal resetCtl
  rw [hreal] at hfin
  exact hfin.gives (b.grid_real.mul_int q.toInt)

theorem sub_gives (hne : a.val.real - p.val.real ≠ 0) :
    Gives (subCtl a.val p.val resetCtl).1 (rn (a.val.real - p.val.real)) :=
  (subCtl_finishes a.toNormal p.toNormal resetCtl hne).gives (a.grid_real.sub p.grid_real)

theorem sub_cancels (h : a.val.real = p.val.real) :
    (subCtl a.val p.val resetCtl).1 = zero false := by
  have hcancel : Cancels a.val (addend p.val true) := by
    refine ⟨a.cls, p.cls, ?_⟩
    rw [real_addend, if_pos rfl, h, add_neg_cancel]
  have hsign := (hcancel.eq_neg a.ok p.ok).2.2
  have hpos : (a.val.sign && (addend p.val true).sign) = false := by
    rw [hsign]
    cases (addend p.val true).sign <;> rfl
  unfold subCtl
  rw [addSub_sumsToZero a.ok p.ok (.inr hcancel), hpos]

theorem sub_inf {r : F80} (h : r.cls = .inf) : (subCtl a.val r resetCtl).1.cls = .inf := by
  have hna := isNumber_of_cls (.inr (.inl a.cls))
  have hnr := isNumber_of_cls (.inr (.inr h))
  have hr : (addend r true).cls = .inf := h
  unfold subCtl addSub
  rw [binaryNan_of_numbers hna hnr, addend_eq]
  dsimp only
  rw [a.cls, hr]
  rfl

noncomputable def intQuotient : ℕ := ⌊a.val.magnitude / b.val.magnitude⌋₊

theorem intQuotient_bounds : intQuotient a b * b.val.magnitude ≤ a.val.magnitude ∧
    a.val.magnitude < (intQuotient a b + 1) * b.val.magnitude := by
  have hpos := b.magnitude_pos
  have hnonneg : 0 ≤ a.val.magnitude / b.val.magnitude :=
    div_nonneg a.magnitude_pos.le hpos.le
  constructor
  · rw [← le_div_iff₀ hpos]
    exact Nat.floor_le hnonneg
  · rw [← div_lt_iff₀ hpos]
    exact Nat.lt_floor_add_one _

theorem exact_remainder : a.val.num - b.val.num * towardZero.toInt (a.val.num / b.val.num) =
    signed a.val.sign * (a.val.magnitude - intQuotient a b * b.val.magnitude) := by
  have hnonneg : 0 ≤ a.val.magnitude / b.val.magnitude :=
    div_nonneg a.magnitude_pos.le b.magnitude_pos.le
  rw [num_of_normal a.cls, num_of_normal b.cls, real_div_magnitude,
    towardZero_signed hnonneg]
  unfold real intQuotient
  cases a.val.sign <;> cases b.val.sign <;> simp [signed] <;> ring

theorem abs_remainder_lt :
    |signed a.val.sign * (a.val.magnitude - intQuotient a b * b.val.magnitude)| < |b.val.num| := by
  obtain ⟨hlow, hhigh⟩ := intQuotient_bounds a b
  rw [num_of_normal b.cls]
  unfold real
  rw [abs_signed, abs_signed, abs_of_nonneg (sub_nonneg.mpr hlow), abs_of_pos b.magnitude_pos]
  linarith

theorem isRemainder_iff (r : Encoded) : IsRemainder a.val b.val r.val ↔
    r.val.real = signed a.val.sign * (a.val.magnitude - intQuotient a b * b.val.magnitude) := by
  have hnum := num_of_normal r.cls
  have hlow := (intQuotient_bounds a b).1
  constructor
  · intro h
    rw [← hnum, h.exact, exact_remainder]
  · intro h
    have hexact : r.val.num =
        a.val.num - b.val.num * towardZero.toInt (a.val.num / b.val.num) := by
      rw [hnum, h, exact_remainder]
    refine ⟨?_, hexact, ?_, ?_⟩
    · unfold isFinite
      rw [r.cls]
      rfl
    · rw [hnum, h]
      exact abs_remainder_lt a b
    · -- the number is not zero, so it has the sign of its magnitude's factor
      have hpos := r.magnitude_pos
      unfold real at h
      cases hr : r.val.sign <;> cases ha : a.val.sign <;> simp [hr, ha, signed] at h ⊢ <;> linarith

theorem isRemainder_zero_iff : IsRemainder a.val b.val (zero false) ↔
    a.val.magnitude = intQuotient a b * b.val.magnitude ∧ a.val.sign = false := by
  have hnum : (zero false).num = 0 := num_of_zero rfl
  have hsigned : signed a.val.sign ≠ 0 := by cases a.val.sign <;> simp [signed]
  constructor
  · intro h
    have hexact := h.exact
    rw [hnum, exact_remainder, eq_comm, mul_eq_zero, or_iff_right hsigned, sub_eq_zero] at hexact
    exact ⟨hexact, h.sign.symm⟩
  · rintro ⟨heq, hsign⟩
    refine ⟨rfl, ?_, ?_, hsign.symm⟩
    · rw [hnum, exact_remainder, heq, sub_self, mul_zero]
    · rw [hnum, abs_zero, num_of_normal b.cls]
      unfold real
      rw [abs_signed]
      exact abs_pos.mpr b.magnitude_pos.ne'

theorem not_isRemainder_inf {r : F80} (h : r.cls = .inf) : ¬IsRemainder a.val b.val r := by
  intro hr
  have hfinite := hr.finite
  unfold isFinite at hfinite
  rw [h] at hfinite
  exact Bool.false_ne_true hfinite

variable {z : ℝ}

theorem rn_signed (neg : Bool) (x : ℝ) : rn (signed neg * x) = signed neg * rn x :=
  roundTo_nearest_signed 64 neg x

theorem rn_pos (hx : 0 < x) : 0 < rn x := roundTo_pos (by decide) hx nearestEven

theorem rn_neg (x : ℝ) : rn (-x) = -rn x := by
  have h := rn_signed true x
  simp only [signed, if_true, neg_one_mul] at h
  exact h

/-- The dividend less a product with the magnitude `z` and the same sign is the remainder. -/
def Leaves (z : ℝ) : Prop :=
  a.val.magnitude = rn z ∧ a.val.magnitude = intQuotient a b * b.val.magnitude ∧
      a.val.sign = false ∨
    a.val.magnitude ≠ rn z ∧
      rn (a.val.magnitude - rn z) = a.val.magnitude - intQuotient a b * b.val.magnitude

theorem isRemainder_sub_iff (hq : q ≠ 0) (hz : 0 < z)
    (hprod : q.toInt * b.val.real = signed a.val.sign * z) :
    IsRemainder a.val b.val (subCtl a.val (mulCtl (fromI64 q) b.val resetCtl).1 resetCtl).1 ↔
      Leaves a b z := by
  obtain ⟨hlow, hhigh⟩ := intQuotient_bounds a b
  unfold Leaves
  have hlt := a.magnitude_lt
  have hmul := mul_gives b hq
  rw [hprod, rn_signed] at hmul
  rcases hmul with ⟨hinf, hbig⟩ | ⟨p, hp, hreal⟩
  · -- the product is too large: the difference would be negative
    rw [abs_signed, abs_of_pos (rn_pos hz)] at hbig
    refine iff_of_false (not_isRemainder_inf a b (sub_inf a hinf)) ?_
    rintro (⟨heq, -⟩ | ⟨-, hexact⟩)
    · linarith
    · have hneg := rn_pos (sub_pos.mpr (hlt.trans_le hbig))
      rw [← neg_sub, rn_neg] at hexact
      linarith
  rw [hp]
  have hdiff : a.val.real - p.val.real = signed a.val.sign * (a.val.magnitude - rn z) := by
    rw [hreal]
    unfold real
    ring
  by_cases heq : a.val.magnitude = rn z
  · have hzero : a.val.real = p.val.real := by
      rw [← sub_eq_zero, hdiff, heq, sub_self, mul_zero]
    rw [sub_cancels a p hzero, isRemainder_zero_iff]
    simp [heq]
  · have hsigned : signed a.val.sign ≠ 0 := by cases a.val.sign <;> simp [signed]
    have hne : a.val.real - p.val.real ≠ 0 := by
      rw [hdiff]
      exact mul_ne_zero hsigned (sub_ne_zero.mpr heq)
    have hgives := sub_gives a p hne
    rw [hdiff, rn_signed] at hgives
    simp only [heq, false_and, false_or, ne_eq, not_false_eq_true, true_and]
    rcases hgives with ⟨hinf, hbig⟩ | ⟨r, hr, hrreal⟩
    · rw [abs_signed] at hbig
      refine iff_of_false (not_isRemainder_inf a b hinf) ?_
      intro hexact
      have hblt := b.magnitude_lt
      rw [hexact, abs_of_nonneg (sub_nonneg.mpr hlow)] at hbig
      linarith
    · rw [hr, isRemainder_iff, hrreal, signed_mul_inj]

theorem not_isRemainder_add (hq : q ≠ 0) (hz : 0 < z) (hle : b.val.magnitude ≤ a.val.magnitude)
    (hprod : q.toInt * b.val.real = signed (!a.val.sign) * z) : ¬IsRemainder a.val b.val
      (subCtl a.val (mulCtl (fromI64 q) b.val resetCtl).1 resetCtl).1 := by
  obtain ⟨hlow, hhigh⟩ := intQuotient_bounds a b
  have hmul := mul_gives b hq
  rw [hprod, rn_signed] at hmul
  rcases hmul with ⟨hinf, -⟩ | ⟨p, hp, hreal⟩
  · exact not_isRemainder_inf a b (sub_inf a hinf)
  have hpos := rn_pos hz
  have hdiff : a.val.real - p.val.real = signed a.val.sign * (a.val.magnitude + rn z) := by
    rw [hreal, signed_not]
    unfold real
    ring
  have hsum : a.val.magnitude ≤ rn (a.val.magnitude + rn z) :=
    le_roundTo (by decide) a.magnitude_pos (fits_magnitude a.val) (by linarith) nearestEven
  have hsigned : signed a.val.sign ≠ 0 := by cases a.val.sign <;> simp [signed]
  have hne : a.val.real - p.val.real ≠ 0 := by
    rw [hdiff]
    exact mul_ne_zero hsigned (by linarith)
  have hgives := sub_gives a p hne
  rw [hdiff, rn_signed] at hgives
  rw [hp]
  rcases hgives with ⟨hinf, -⟩ | ⟨r, hr, hrreal⟩
  · exact not_isRemainder_inf a b hinf
  · rw [hr, isRemainder_iff, hrreal, signed_mul_inj]
    intro hexact
    linarith

theorem intQuotient_pos_iff : 1 ≤ intQuotient a b ↔ b.val.magnitude ≤ a.val.magnitude := by
  unfold intQuotient
  rw [Nat.one_le_floor_iff, one_le_div b.magnitude_pos]

theorem leaves_iff (hn : 1 ≤ intQuotient a b) : Leaves a b (intQuotient a b * b.val.magnitude) ↔
      (a.val.magnitude ≠ intQuotient a b * b.val.magnitude ∨ a.val.sign = false) ∧
        Fits 64 (intQuotient a b * b.val.magnitude) := by
  obtain ⟨hlow, hhigh⟩ := intQuotient_bounds a b
  have hone : (1 : ℝ) ≤ intQuotient a b := by exact_mod_cast hn
  have hfits := fits_magnitude a.val
  have hbpos := b.magnitude_pos
  unfold Leaves
  generalize hz : (intQuotient a b : ℝ) * b.val.magnitude = z at hlow ⊢
  have hzb : b.val.magnitude ≤ z := by
    rw [← hz]
    exact le_mul_of_one_le_left hbpos.le hone
  have hzpos : 0 < z := hbpos.trans_le hzb
  -- the product is rounded to something between half the dividend and the dividend
  have hrlow : a.val.magnitude / 2 ≤ rn z := by
    have hfit : Fits 64 (a.val.magnitude / 2) := by
      have := hfits.mul_two_zpow (-1)
      rwa [zpow_neg_one] at this
    exact le_roundTo (by decide) (half_pos a.magnitude_pos) hfit (by linarith) nearestEven
  have hrhigh : rn z ≤ a.val.magnitude := roundTo_le hzpos hfits hlow nearestEven
  have htwo : a.val.magnitude ≤ 2 * rn z := by linarith
  have hdiff : rn (a.val.magnitude - rn z) = a.val.magnitude - rn z :=
    (hfits.sub (fits_roundTo (by decide) hzpos nearestEven) (rn_pos hzpos) hrhigh
      htwo).roundTo_eq nearestEven
  rw [hdiff]
  by_cases hexact : Fits 64 z
  · have hrn : rn z = z := hexact.roundTo_eq nearestEven
    rw [hrn]
    by_cases heq : a.val.magnitude = z
    · simp [heq, hexact]
    · simp [heq, hexact]
  · have hrn : rn z ≠ z := fun h => hexact (fits_of_roundTo_eq h)
    refine iff_of_false ?_ (fun h => hexact h.2)
    rintro (⟨h₁, h₂, -⟩ | ⟨-, h⟩)
    · exact hrn (h₁ ▸ h₂)
    · exact hrn (by linarith)

theorem not_leaves_succ (h : intQuotient a b * b.val.magnitude < a.val.magnitude) :
    ¬Leaves a b ((intQuotient a b + 1) * b.val.magnitude) := by
  obtain ⟨hlow, hhigh⟩ := intQuotient_bounds a b
  have hle : a.val.magnitude ≤ rn ((intQuotient a b + 1) * b.val.magnitude) :=
    le_roundTo (by decide) a.magnitude_pos (fits_magnitude a.val) hhigh.le nearestEven
  rintro (⟨-, heq, -⟩ | ⟨hne, hexact⟩)
  · exact h.ne' heq
  · have hneg := rn_pos (sub_pos.mpr (lt_of_le_of_ne hle hne))
    rw [← neg_sub, rn_neg] at hexact
    linarith

theorem not_leaves_less {m : ℕ} (hm : m < intQuotient a b) (hfits : Fits 64 (m * b.val.magnitude)) :
    ¬Leaves a b (m * b.val.magnitude) := by
  obtain ⟨hlow, hhigh⟩ := intQuotient_bounds a b
  have hbpos := b.magnitude_pos
  have hstep : ((m : ℝ) + 1) * b.val.magnitude ≤ intQuotient a b * b.val.magnitude := by
    apply mul_le_mul_of_nonneg_right _ hbpos.le
    exact_mod_cast hm
  have hrn : rn (m * b.val.magnitude) = m * b.val.magnitude := hfits.roundTo_eq nearestEven
  have hle : b.val.magnitude ≤ rn (a.val.magnitude - m * b.val.magnitude) :=
    le_roundTo (by decide) hbpos (fits_magnitude b.val) (by linarith) nearestEven
  unfold Leaves
  rw [hrn]
  rintro (⟨heq, -⟩ | ⟨-, hexact⟩)
  · linarith
  · linarith

theorem magnitude_le_last (h : a.val.magnitude < b.val.magnitude) :
    a.val.magnitude ≤ (1 - 2 ^ (-64 : ℤ)) * b.val.magnitude := by
  have hulp : (0 : ℝ) < 2 ^ (-64 : ℤ) := zpow_pos two_pos _
  have hone : (2 : ℝ) ^ 64 * 2 ^ (-64 : ℤ) = 1 := by norm_num
  have hbounds := magnitude_bounds b.le_sig
  have hpowb : (0 : ℝ) < 2 ^ (b.val.exp - 63) := zpow_pos two_pos _
  rcases lt_trichotomy a.val.exp b.val.exp with hexp | hexp | hexp
  · -- the largest magnitude below a power of two that the divisor reaches
    have hsig : (a.val.sig.toNat : ℝ) ≤ 2 ^ 64 - 1 := by
      have hnat : a.val.sig.toNat + 1 ≤ 2 ^ 64 := a.val.sig.isLt
      have hcast : ((a.val.sig.toNat + 1 : ℕ) : ℝ) ≤ ((2 ^ 64 : ℕ) : ℝ) := Nat.cast_le.mpr hnat
      push_cast at hcast
      linarith
    have hpow : (2 : ℝ) ^ (a.val.exp - 63) ≤ 2 ^ b.val.exp * 2 ^ (-64 : ℤ) := by
      rw [← zpow_add₀ two_ne_zero]
      exact zpow_le_zpow_right₀ one_le_two (by omega)
    calc a.val.magnitude ≤ (2 ^ 64 - 1) * (2 ^ b.val.exp * 2 ^ (-64)) :=
          mul_le_mul hsig hpow (zpow_pos two_pos _).le (by norm_num)
      _ = (1 - 2 ^ (-64 : ℤ)) * 2 ^ b.val.exp := by
          linear_combination 2 ^ b.val.exp * hone
      _ ≤ (1 - 2 ^ (-64)) * b.val.magnitude :=
          mul_le_mul_of_nonneg_left hbounds.1 (by norm_num)
  · -- the significands differ by one at least
    have hblt : (b.val.sig.toNat : ℝ) * 2 ^ (-64 : ℤ) ≤ 1 := by
      have hlt : (b.val.sig.toNat : ℝ) ≤ 2 ^ 64 := by exact_mod_cast b.val.sig.isLt.le
      rw [← hone]
      exact mul_le_mul_of_nonneg_right hlt hulp.le
    unfold magnitude at h ⊢
    rw [hexp] at h ⊢
    have hsig : a.val.sig.toNat < b.val.sig.toNat := by
      have hmul := (mul_lt_mul_iff_left₀ hpowb).mp h
      exact_mod_cast hmul
    have hcast : (a.val.sig.toNat : ℝ) + 1 ≤ b.val.sig.toNat := by exact_mod_cast hsig
    rw [← mul_assoc]
    exact mul_le_mul_of_nonneg_right (by linarith) hpowb.le
  · have hstep : (2 : ℝ) ^ (b.val.exp + 1) ≤ 2 ^ a.val.exp :=
      zpow_le_zpow_right₀ one_le_two (by omega)
    have hlow := (magnitude_bounds a.le_sig).1
    linarith [hbounds.2]

theorem quotient_lt_one (h : a.val.magnitude < b.val.magnitude) :
    quotient a b < 1 := by
  have hulp : (0 : ℝ) < 2 ^ (-64 : ℤ) := zpow_pos two_pos _
  have hbpos := b.magnitude_pos
  have hfits : Fits 64 (1 - 2 ^ (-64 : ℤ) : ℝ) := by
    apply fits_of_lt (e := -64)
    · refine ⟨2 ^ 64 - 1, ?_⟩
      norm_num
    · norm_num [abs_of_pos]
  have hle : a.val.magnitude / b.val.magnitude ≤ 1 - 2 ^ (-64 : ℤ) := by
    rw [div_le_iff₀ hbpos]
    exact magnitude_le_last a b h
  have hround : quotient a b ≤ 1 - 2 ^ (-64 : ℤ) :=
    roundTo_le (div_pos a.magnitude_pos hbpos) hfits hle nearestEven
  linarith

theorem rem_normal : rem a.val b.val = (subCtl a.val
    (mulCtl (fromI64 (toI64Rc (divCtl a.val b.val resetCtl).1 3)) b.val resetCtl).1 resetCtl).1 := by
  unfold rem
  rw [binaryNan_normal a.toNormal b.toNormal, a.cls, b.cls]

theorem rem_of_zero_quotient (hq : toI64Rc (divCtl a.val b.val resetCtl).1 3 = 0) :
    rem a.val b.val = a.val := by
  have hmul : (mulCtl (fromI64 0) b.val resetCtl).1.cls = .zero := by
    have hna : isNumber (fromI64 0) = true := by decide
    have hnb := isNumber_of_cls (.inr (.inl b.cls))
    unfold mulCtl
    rw [binaryNan_of_numbers hna hnb, b.cls]
    rfl
  have hadd : (addend (mulCtl (fromI64 0) b.val resetCtl).1 true).cls = .zero := hmul
  rw [rem_normal, hq]
  unfold subCtl
  rw [addSub_beside (.inr ⟨hadd, rfl⟩) (.inl a.cls), if_pos a.cls]

theorem rem_less (h : a.val.magnitude < b.val.magnitude) : rem a.val b.val = a.val := by
  have hlt := quotient_lt_one a b h
  have hfloor : ⌊quotient a b⌋₊ = 0 := Nat.floor_eq_zero.mpr hlt
  apply rem_of_zero_quotient
  apply BitVec.eq_of_toInt_eq
  rw [toInt_quotient a b, if_pos (by linarith), hfloor]
  simp

theorem quotient_bounds (hn : 1 ≤ intQuotient a b) (hlt : intQuotient a b < 2 ^ 63) :
    (intQuotient a b : ℝ) ≤ quotient a b ∧
      quotient a b ≤ intQuotient a b + 1 := by
  have hxpos : 0 < a.val.magnitude / b.val.magnitude := div_pos a.magnitude_pos b.magnitude_pos
  have hnpos : (0 : ℝ) < intQuotient a b := by exact_mod_cast hn
  have hsucc : Fits 64 ((intQuotient a b : ℝ) + 1) := by
    have := fits_nat (p := 64) (n := intQuotient a b + 1) (by omega)
    rwa [Nat.cast_add, Nat.cast_one] at this
  exact ⟨le_roundTo (by decide) hnpos (fits_nat (by omega)) (Nat.floor_le hxpos.le) nearestEven,
    roundTo_le hxpos hsucc (Nat.lt_floor_add_one _).le nearestEven⟩

theorem le_quotient (hbig : 2 ^ 63 ≤ intQuotient a b) :
    (2 : ℝ) ^ 63 ≤ quotient a b := by
  have hxpos : 0 < a.val.magnitude / b.val.magnitude := div_pos a.magnitude_pos b.magnitude_pos
  have hcast : ((2 ^ 63 : ℕ) : ℝ) ≤ intQuotient a b := Nat.cast_le.mpr hbig
  have hle : ((2 ^ 63 : ℕ) : ℝ) ≤ quotient a b :=
    le_roundTo (by decide) (by norm_num) (fits_nat (by decide))
      (hcast.trans (Nat.floor_le hxpos.le)) nearestEven
  exact_mod_cast hle

def StaysBelow : Prop :=
  a.val.magnitude / b.val.magnitude + (2 : ℕ) ^ ((intQuotient a b).log2 - 64 : ℤ) <
    intQuotient a b + 1

theorem staysBelow_iff (hn : 1 ≤ intQuotient a b) (hlt : intQuotient a b < 2 ^ 63) :
    quotient a b < intQuotient a b + 1 ↔ StaysBelow a b := by
  have hlog : (intQuotient a b).log2 + 2 ≤ 64 := by
    have := (Nat.log2_lt (by omega)).mpr hlt
    omega
  exact roundTo_lt_succ_iff hn hlog rfl

theorem lt_of_not_staysBelow (hn : 1 ≤ intQuotient a b) (hlt : intQuotient a b < 2 ^ 63)
    (h : ¬StaysBelow a b) : intQuotient a b * b.val.magnitude < a.val.magnitude := by
  have hlog : (intQuotient a b).log2 < 63 := (Nat.log2_lt (by omega)).mpr hlt
  have hone : (2 : ℝ) ^ ((intQuotient a b).log2 - 64 : ℤ) < 1 := by
    rw [← zpow_zero 2]
    exact zpow_lt_zpow_right₀ one_lt_two (by omega)
  unfold StaysBelow at h
  rw [← lt_div_iff₀ b.magnitude_pos]
  linarith

theorem prod_of_quotient {m : ℕ} (hq : q.toInt = if a.val.sign ^^ b.val.sign then -(m : ℤ) else m) :
    q.toInt * b.val.real = signed a.val.sign * (m * b.val.magnitude) := by
  rw [hq]
  unfold real
  cases a.val.sign <;> cases b.val.sign <;> simp [signed]

theorem ne_zero_of_toInt (h : q.toInt ≠ 0) : q ≠ 0 := by
  rintro rfl
  exact h rfl

/-- The integer quotient and the product are exact, and a zero gets the sign of the dividend. -/
def StaysExact : Prop :=
  (a.val.magnitude ≠ intQuotient a b * b.val.magnitude ∨ a.val.sign = false) ∧
    (intQuotient a b < 2 ^ 63 ∧ StaysBelow a b ∧ Fits 64 (intQuotient a b * b.val.magnitude) ∨
      intQuotient a b = 2 ^ 63 ∧ a.val.sign ≠ b.val.sign)

theorem isRemainder_small_iff (hn : 1 ≤ intQuotient a b) (hlt : intQuotient a b < 2 ^ 63)
    (hq : q.toInt = if a.val.sign ^^ b.val.sign then -(⌊quotient a b⌋₊ : ℤ)
      else ⌊quotient a b⌋₊) :
    IsRemainder a.val b.val (subCtl a.val (mulCtl (fromI64 q) b.val resetCtl).1 resetCtl).1 ↔
      StaysExact a b := by
  unfold StaysExact
  have hbpos := b.magnitude_pos
  have hnonneg := quotient_nonneg a b
  obtain ⟨hlow, hhigh⟩ := quotient_bounds a b hn hlt
  have hstays := staysBelow_iff a b hn hlt
  have hne {m : ℕ} (hm : 1 ≤ m) (h : q.toInt = if a.val.sign ^^ b.val.sign then -(m : ℤ) else m) :
      q ≠ 0 := by
    apply ne_zero_of_toInt
    rw [h]
    split_ifs <;> omega
  by_cases hstay : StaysBelow a b
  · -- the rounded quotient has the integer part of the exact one
    have hfloor : ⌊quotient a b⌋₊ = intQuotient a b :=
      (Nat.floor_eq_iff hnonneg).mpr ⟨hlow, hstays.mpr hstay⟩
    rw [hfloor] at hq
    have hpos : (0 : ℝ) < intQuotient a b * b.val.magnitude :=
      mul_pos (by exact_mod_cast hn) hbpos
    rw [isRemainder_sub_iff a b (hne hn hq) hpos (prod_of_quotient a b hq), leaves_iff a b hn]
    have htop : intQuotient a b ≠ 2 ^ 63 := by omega
    simp only [hlt, hstay, htop, true_and, false_and, or_false]
  · -- it is rounded up to the next integer, and the difference comes out negative
    have heq : quotient a b = (intQuotient a b + 1 : ℕ) := by
      push_cast
      exact le_antisymm hhigh (not_lt.mp (mt hstays.mp hstay))
    have hfloor : ⌊quotient a b⌋₊ = intQuotient a b + 1 := by
      rw [heq, Nat.floor_natCast]
    rw [hfloor] at hq
    have hpos : (0 : ℝ) < (intQuotient a b + 1 : ℕ) * b.val.magnitude :=
      mul_pos (by positivity) hbpos
    have hprod := prod_of_quotient a b hq
    rw [isRemainder_sub_iff a b (hne (by omega) hq) hpos hprod]
    push_cast
    refine iff_of_false (not_leaves_succ a b (lt_of_not_staysBelow a b hn hlt hstay)) ?_
    rintro ⟨-, ⟨-, h, -⟩ | ⟨h, -⟩⟩
    · exact hstay h
    · omega

theorem isRemainder_saturated_iff (hn : 1 ≤ intQuotient a b) (hq : q.toInt = -2 ^ 63) :
    IsRemainder a.val b.val (subCtl a.val (mulCtl (fromI64 q) b.val resetCtl).1 resetCtl).1 ↔
      a.val.sign ≠ b.val.sign ∧ Leaves a b (2 ^ 63 * b.val.magnitude) := by
  have hbpos := b.magnitude_pos
  have hpos : (0 : ℝ) < 2 ^ 63 * b.val.magnitude := by positivity
  have hne : q ≠ 0 := by
    apply ne_zero_of_toInt
    rw [hq]
    decide
  have hprod : q.toInt * b.val.real = signed (!b.val.sign) * (2 ^ 63 * b.val.magnitude) := by
    rw [hq, signed_not]
    unfold real
    ring
  by_cases hsame : a.val.sign = b.val.sign
  · rw [← hsame] at hprod
    refine iff_of_false ?_ (fun h => h.1 hsame)
    exact not_isRemainder_add a b hne hpos ((intQuotient_pos_iff a b).mp hn) hprod
  · have hsign : (!b.val.sign) = a.val.sign := (Bool.eq_not_of_ne hsame).symm
    rw [hsign] at hprod
    rw [isRemainder_sub_iff a b hne hpos hprod]
    exact (and_iff_right hsame).symm

theorem rem_isRemainder_iff (hn : 1 ≤ intQuotient a b) : IsRemainder a.val b.val (rem a.val b.val) ↔
    StaysExact a b := by
  unfold StaysExact
  have htoInt := toInt_quotient a b
  rw [rem_normal]
  generalize toI64Rc (divCtl a.val b.val resetCtl).1 3 = q at htoInt
  by_cases hy : quotient a b < 2 ^ 63
  · have hlt : intQuotient a b < 2 ^ 63 := by
      by_contra hbig
      exact absurd hy (not_lt.mpr (le_quotient a b (not_lt.mp hbig)))
    rw [if_pos hy] at htoInt
    exact isRemainder_small_iff a b hn hlt htoInt
  · rw [if_neg hy] at htoInt
    have hsat := isRemainder_saturated_iff a b hn htoInt
    by_cases hlt : intQuotient a b < 2 ^ 63
    · -- only the rounded quotient is too large
      have hup : ¬StaysBelow a b := by
        rw [← staysBelow_iff a b hn hlt]
        have hcast : (intQuotient a b : ℝ) + 1 ≤ 2 ^ 63 := by exact_mod_cast hlt
        exact fun h => hy (h.trans_le hcast)
      have hone : intQuotient a b + 1 = 2 ^ 63 := by
        have hle := (quotient_bounds a b hn hlt).2
        have hreal : (2 : ℝ) ^ 63 ≤ intQuotient a b + 1 := (not_lt.mp hy).trans hle
        have hnat : 2 ^ 63 ≤ intQuotient a b + 1 := by exact_mod_cast hreal
        omega
      rw [hsat]
      refine iff_of_false ?_ (fun h => ?_)
      · rintro ⟨-, hleaves⟩
        apply not_leaves_succ a b (lt_of_not_staysBelow a b hn hlt hup)
        have hcast : (intQuotient a b : ℝ) + 1 = 2 ^ 63 := by exact_mod_cast hone
        rw [hcast]
        exact hleaves
      · rcases h.2 with ⟨-, hstay, -⟩ | ⟨htop, -⟩
        · exact hup hstay
        · omega
    · have hfits : Fits 64 ((2 : ℝ) ^ 63 * b.val.magnitude) := by
        rw [mul_comm]
        exact_mod_cast (fits_magnitude b.val).mul_two_zpow 63
      rw [hsat]
      simp only [hlt, false_and, false_or]
      rcases (not_lt.mp hlt).lt_or_eq with hmore | htop
      · refine iff_of_false ?_ (fun h => absurd h.2.1 hmore.ne')
        rintro ⟨-, hleaves⟩
        have hcast : ((2 ^ 63 : ℕ) : ℝ) = 2 ^ 63 := by exact_mod_cast rfl
        apply not_leaves_less a b hmore <;> rw [hcast]
        · exact hfits
        · exact hleaves
      · have hcast : (intQuotient a b : ℝ) = 2 ^ 63 := by exact_mod_cast htop.symm
        have hleaves := leaves_iff a b hn
        rw [hcast] at hleaves ⊢
        rw [hleaves]
        simp only [hfits, htop.symm, and_true, true_and]
        exact and_comm

def scaled : ℕ := a.val.sig.toNat <<< (a.val.exp - b.val.exp).toNat

theorem magnitude_scaled (h : b.val.exp ≤ a.val.exp) :
    a.val.magnitude = scaled a b * 2 ^ (b.val.exp - 63) := by
  have hexp : (((a.val.exp - b.val.exp).toNat : ℕ) : ℤ) = a.val.exp - b.val.exp :=
    Int.toNat_of_nonneg (sub_nonneg.mpr h)
  unfold magnitude scaled
  rw [Nat.shiftLeft_eq, Nat.cast_mul, Nat.cast_pow, Nat.cast_ofNat, mul_assoc, ← zpow_natCast,
    hexp, ← zpow_add₀ two_ne_zero]
  congr 2
  ring

theorem div_scaled (h : b.val.exp ≤ a.val.exp) :
    a.val.magnitude / b.val.magnitude = scaled a b / b.val.sig.toNat := by
  have hpow : (2 : ℝ) ^ (b.val.exp - 63) ≠ 0 := (zpow_pos two_pos _).ne'
  rw [magnitude_scaled a b h]
  exact mul_div_mul_right _ _ hpow

theorem intQuotient_scaled (h : b.val.exp ≤ a.val.exp) :
    intQuotient a b = scaled a b / b.val.sig.toNat := by
  unfold intQuotient
  rw [div_scaled a b h, Nat.floor_div_eq_div]

theorem intQuotient_of_lt (h : a.val.exp < b.val.exp) : intQuotient a b = 0 := by
  have hhigh := (magnitude_bounds a.le_sig).2
  have hlow := (magnitude_bounds b.le_sig).1
  have hstep : (2 : ℝ) ^ (a.val.exp + 1) ≤ 2 ^ b.val.exp :=
    zpow_le_zpow_right₀ one_le_two (by omega)
  by_contra hne
  have hle := (intQuotient_pos_iff a b).mp (Nat.one_le_iff_ne_zero.mpr hne)
  linarith

variable {a b}

theorem remains_iff (h : b.val.exp ≤ a.val.exp) :
    a.val.magnitude ≠ intQuotient a b * b.val.magnitude ↔ scaled a b % b.val.sig.toNat ≠ 0 := by
  have hpow : (2 : ℝ) ^ (b.val.exp - 63) ≠ 0 := (zpow_pos two_pos _).ne'
  have hsplit := Nat.div_add_mod' (scaled a b) b.val.sig.toNat
  rw [magnitude_scaled a b h, intQuotient_scaled a b h]
  unfold magnitude
  rw [← mul_assoc, ne_eq, mul_left_inj' hpow, not_iff_not]
  constructor
  · intro heq
    have hnat : scaled a b = scaled a b / b.val.sig.toNat * b.val.sig.toNat := by
      exact_mod_cast heq
    omega
  · intro hzero
    rw [hzero] at hsplit
    exact_mod_cast hsplit.symm

theorem staysBelow_scaled (h : b.val.exp ≤ a.val.exp) (hlt : intQuotient a b < 2 ^ 63)
    (hn : 1 ≤ intQuotient a b) : StaysBelow a b ↔ b.val.sig.toNat <
      2 ^ (64 - (intQuotient a b).log2) * (b.val.sig.toNat - scaled a b % b.val.sig.toNat) := by
  have hbpos : 0 < b.val.sig.toNat := (Nat.two_pow_pos 63).trans_le b.le_sig
  have hbreal : (0 : ℝ) < b.val.sig.toNat := by exact_mod_cast hbpos
  have hlog : (intQuotient a b).log2 < 63 := (Nat.log2_lt (by omega)).mpr hlt
  have hrest := Nat.mod_lt (scaled a b) hbpos
  have hparts := div_parts (scaled a b) hbpos
  rw [← intQuotient_scaled a b h] at hparts
  unfold StaysBelow
  rw [Nat.cast_ofNat, div_scaled a b h, ← hparts]
  have hulp : (2 : ℝ) ^ ((intQuotient a b).log2 - 64 : ℤ) =
      1 / (2 ^ (64 - (intQuotient a b).log2) : ℕ) := by
    have hexp : ((intQuotient a b).log2 - 64 : ℤ) =
        -((64 - (intQuotient a b).log2 : ℕ) : ℤ) := by omega
    rw [hexp, zpow_neg, one_div]
    push_cast
    rfl
  rw [hulp]
  generalize scaled a b % b.val.sig.toNat = rest at hrest
  generalize hw : 2 ^ (64 - (intQuotient a b).log2) = w
  generalize b.val.sig.toNat = k at hbpos hbreal hrest
  have hwpos : (0 : ℝ) < w := by
    rw [← hw]
    positivity
  have hcancel : (intQuotient a b : ℝ) + (rest : ℝ) / k + 1 / w < intQuotient a b + 1 ↔
      (rest : ℝ) / k + 1 / w < 1 := by
    rw [add_assoc, add_lt_add_iff_left]
  rw [hcancel, div_add_div _ _ hbreal.ne' hwpos.ne', div_lt_one (mul_pos hbreal hwpos), mul_one,
    Nat.mul_sub]
  have hnat : (rest : ℝ) * w + k < k * w ↔ rest * w + k < k * w := by exact_mod_cast Iff.rfl
  rw [hnat, mul_comm rest, mul_comm k]
  omega

theorem fits_scaled (hn : 1 ≤ intQuotient a b) : Fits 64 (intQuotient a b * b.val.magnitude) ↔
      (intQuotient a b * b.val.sig.toNat) %
        2 ^ ((intQuotient a b * b.val.sig.toNat).log2 - 63) = 0 := by
  have hbig : 2 ^ 63 ≤ intQuotient a b * b.val.sig.toNat :=
    b.le_sig.trans (Nat.le_mul_of_pos_left _ hn)
  have hne : intQuotient a b * b.val.sig.toNat ≠ 0 := by omega
  have hfits := fits_natCast_iff (p := 64) hne ((Nat.le_log2 hne).mpr hbig) (by decide)
    (b.val.exp - 63)
  rw [← Nat.dvd_iff_mod_eq_zero, ← hfits]
  unfold magnitude
  rw [Nat.cast_mul, mul_assoc]

theorem remExact_iff (a b : Encoded) : remExact a.val b.val = true ↔ intQuotient a b = 0 ∨
    StaysExact a b := by
  unfold StaysExact
  have hcls : (a.val.cls == Class.zero) = false := by
    rw [a.cls]
    rfl
  by_cases hexp : a.val.exp < b.val.exp
  · refine iff_of_true ?_ (.inl (intQuotient_of_lt a b hexp))
    unfold remExact
    simp [hexp]
  · have hle := not_lt.mp hexp
    have hquot := intQuotient_scaled a b hle
    by_cases hzero : intQuotient a b = 0
    · refine iff_of_true ?_ (.inl hzero)
      rw [hquot] at hzero
      unfold scaled at hzero
      unfold remExact
      simp [hzero]
    · have hn : 1 ≤ intQuotient a b := Nat.one_le_iff_ne_zero.mpr hzero
      have hstays : intQuotient a b < 2 ^ 63 ∧ StaysBelow a b ↔
          intQuotient a b < 2 ^ 63 ∧ b.val.sig.toNat < 2 ^ (64 - (intQuotient a b).log2) *
            (b.val.sig.toNat - scaled a b % b.val.sig.toNat) :=
        and_congr_right fun hlt => staysBelow_scaled hle hlt hn
      rw [← and_assoc, hstays, remains_iff hle, fits_scaled hn, or_iff_right hzero]
      -- the test is the same, over the integers the significands are
      have hdef : remExact a.val b.val = (a.val.cls == .zero || decide (a.val.exp < b.val.exp) ||
          intQuotient a b == 0 || ((scaled a b % b.val.sig.toNat != 0 || !a.val.sign) &&
            (decide (intQuotient a b < 2 ^ 63) &&
                decide (b.val.sig.toNat < 2 ^ (64 - (intQuotient a b).log2) *
                  (b.val.sig.toNat - scaled a b % b.val.sig.toNat)) &&
                (intQuotient a b * b.val.sig.toNat) %
                  2 ^ ((intQuotient a b * b.val.sig.toNat).log2 - 63) == 0 ||
              intQuotient a b == 2 ^ 63 && a.val.sign != b.val.sign))) := by
        rw [hquot]
        rfl
      rw [hdef, hcls, decide_eq_false hexp, beq_false_of_ne hzero]
      simp only [Bool.false_or, Bool.and_eq_true, Bool.or_eq_true, bne_iff_ne, beq_iff_eq,
        Bool.not_eq_true', decide_eq_true_eq, ne_eq, and_assoc]

variable {a : F80}

theorem fromBytes_toBytes_fromBytes (b : BitVec 80) :
    fromBytes (toBytes (fromBytes b)) = fromBytes b := by
  cases hpseudo : pseudoDenormal b with
  | false => rw [toBytes_fromBytes_plain hpseudo]
  | true => exact (toBytes_fromBytes_pseudo hpseudo).2

theorem fromBytes_bytesOf_denormal {sig : U64} (sign : Bool) (hne : sig ≠ 0) :
    fromBytes (bytesOf sign 0 sig) =
      ⟨sign, .normal, emin - sig.clz.toNat, sig <<< sig.clz.toNat⟩ := by
  unfold fromBytes
  rw [field_bytesOf, sig_bytesOf, sign_bytesOf, if_neg (by decide), if_pos (by decide), if_neg hne]

theorem multiple_magnitude (a : F80) : Multiple (a.exp - 63) a.magnitude :=
  ⟨a.sig.toNat, by unfold magnitude; push_cast; rfl⟩

theorem fromBytes_grid (b : BitVec 80) (h : (fromBytes b).cls = .normal) :
    Multiple (emin - 63) (fromBytes b).magnitude := by
  by_cases hexp : emin ≤ (fromBytes b).exp
  · exact (multiple_magnitude _).mono (by omega)
  · revert h hexp
    unfold fromBytes
    dsimp only
    split_ifs with hmax hint hinf hzero hnone hint
    · exact fun h => by cases h
    · exact fun h => by cases h
    · exact fun h => by cases h
    · exact fun h => by cases h
    · intro _ _
      have hpow : (2 : ℝ) ^ (b.setWidth 64).clz.toNat ≠ 0 := (pow_pos two_pos _).ne'
      have hscale : emin - ((b.setWidth 64).clz.toNat : ℤ) - 63 =
          -((b.setWidth 64).clz.toNat) + (emin - 63) := by ring
      refine ⟨(b.setWidth 64).toNat, ?_⟩
      unfold magnitude
      rw [(toNat_normalised hnone).1, hscale, zpow_add₀ two_ne_zero, zpow_neg, zpow_natCast,
        Nat.cast_mul, Nat.cast_pow, Nat.cast_ofNat, ← mul_assoc, mul_inv_cancel_right₀ hpow]
      rfl
    · exact fun h => by cases h
    · intro _ hexp
      refine absurd ?_ hexp
      change 1 - bias ≤ ((b.extractLsb' 64 15).toNat) - bias
      omega

theorem getLsbD_of_le {sig : U64} (h : 2 ^ 63 ≤ sig.toNat) : sig.getLsbD 63 = true := by
  have hmsb : sig.getLsbD 63 = sig.msb := rfl
  rw [hmsb, BitVec.msb_eq_decide]
  exact decide_eq_true h

theorem clz_unique {v : U64} {d : ℕ} (hne : v ≠ 0) (hlow : 2 ^ 63 ≤ v.toNat * 2 ^ d)
    (hhigh : v.toNat * 2 ^ d < 2 ^ 64) : v.clz.toNat = d := by
  obtain ⟨hnat, hle⟩ := toNat_normalised hne
  have hstep {i j : ℕ} (hij : i < j) : 2 * (v.toNat * 2 ^ i) ≤ v.toNat * 2 ^ j := by
    calc 2 * (v.toNat * 2 ^ i) = v.toNat * 2 ^ (i + 1) := by rw [pow_succ]; ring
      _ ≤ v.toNat * 2 ^ j := Nat.mul_le_mul_left _ (Nat.pow_le_pow_right two_pos hij)
  rcases lt_trichotomy v.clz.toNat d with hlt | heq | hgt
  · have := hstep hlt
    omega
  · exact heq
  · have := hstep hgt
    omega

theorem Encoded.exists_bytes (p : Encoded) : ∃ b, fromBytes b = p.val := by
  obtain ⟨⟨⟨sign, cls, exp, sig⟩, hcls, hok⟩, hgrid⟩ := p
  obtain ⟨hsig, -, hmax⟩ := hok hcls
  dsimp only at hcls hsig hmax hgrid
  subst hcls
  by_cases hexp : emin ≤ exp
  · unfold emin at hexp
    unfold emax expMax at hmax
    have hfield : (BitVec.ofNat 15 (exp + bias).toNat).toNat = (exp + bias).toNat := by
      exact Nat.mod_eq_of_lt (by omega)
    have hlow : BitVec.ofNat 15 (exp + bias).toNat ≠ 0 := by
      intro h
      rw [h] at hfield
      change 0 = _ at hfield
      omega
    have htop : BitVec.ofNat 15 (exp + bias).toNat ≠ 0x7fff := by
      intro h
      rw [h] at hfield
      change 0x7fff = _ at hfield
      omega
    refine ⟨bytesOf sign (BitVec.ofNat 15 (exp + bias).toNat) sig, ?_⟩
    rw [fromBytes_bytesOf_normal sign hlow htop (getLsbD_of_le hsig), hfield,
      Int.toNat_of_nonneg (by omega), add_sub_cancel_right]
  · obtain ⟨d, hd⟩ : ∃ d : ℕ, exp + d = emin := ⟨(emin - exp).toNat, by omega⟩
    obtain ⟨k, hk⟩ := hgrid
    -- the bits below the last place of a denormal are clear
    have hsplit : (sig.toNat : ℤ) = k * 2 ^ d := by
      have hpow : (2 : ℝ) ^ (exp - 63) ≠ 0 := (zpow_pos two_pos _).ne'
      have hscale : emin - 63 = d + (exp - 63) := by omega
      unfold magnitude at hk
      rw [hscale, zpow_add₀ two_ne_zero, ← mul_assoc, mul_left_inj' hpow] at hk
      exact_mod_cast hk
    obtain ⟨c, hc⟩ : ∃ c : ℕ, k = c := by
      refine ⟨k.toNat, (Int.toNat_of_nonneg ?_).symm⟩
      by_contra hneg
      have := mul_neg_of_neg_of_pos (not_le.mp hneg) (pow_pos two_pos d : (0 : ℤ) < 2 ^ d)
      omega
    have hnat : sig.toNat = c * 2 ^ d := by
      rw [hc] at hsplit
      exact_mod_cast hsplit
    have hsmall : c ≤ sig.toNat := by
      rw [hnat]
      exact Nat.le_mul_of_pos_right c (Nat.two_pow_pos d)
    have hword : (BitVec.ofNat 64 c).toNat = c := by
      exact Nat.mod_eq_of_lt (by omega)
    have hne : BitVec.ofNat 64 c ≠ 0 := by
      intro h
      rw [h] at hword
      change 0 = c at hword
      rw [← hword] at hnat
      omega
    have hclz : (BitVec.ofNat 64 c).clz.toNat = d :=
      clz_unique hne (by rw [hword]; omega) (by rw [hword]; omega)
    refine ⟨bytesOf sign 0 (BitVec.ofNat 64 c), ?_⟩
    rw [fromBytes_bytesOf_denormal sign hne]
    have hback : BitVec.ofNat 64 c <<< (BitVec.ofNat 64 c).clz.toNat = sig := by
      apply BitVec.eq_of_toNat_eq
      rw [(toNat_normalised hne).1, hword, hclz, hnat]
    congr 1
    omega

theorem Encoded.fromBytes_toBytes (p : Encoded) : fromBytes (toBytes p.val) = p.val := by
  obtain ⟨b, hb⟩ := p.exists_bytes
  rw [← hb, fromBytes_toBytes_fromBytes]

def encodedOf (b : BitVec 80) (h : (fromBytes b).cls = .normal) : Encoded :=
  ⟨⟨fromBytes b, h, fromBytes_ok b⟩, fromBytes_grid b h⟩

theorem fromBytes_toBytes_inf (h : a.cls = .inf) : (fromBytes (toBytes a)).cls = .inf := by
  have hbytes : toBytes a = toBytes (inf a.sign) := by
    unfold toBytes
    rw [h]
    rfl
  rw [hbytes]
  cases a.sign <;> rfl

theorem fromBytes_toBytes_zero (sign : Bool) : fromBytes (toBytes (zero sign)) = zero sign := by
  cases sign <;> rfl

theorem rem_cases (a b : Encoded) : (rem a.val b.val).cls = .inf ∨ rem a.val b.val = zero false ∨
    ∃ p : Encoded, rem a.val b.val = p.val := by
  by_cases hq : toI64Rc (divCtl a.val b.val resetCtl).1 3 = 0
  · exact .inr (.inr ⟨a, rem_of_zero_quotient a b hq⟩)
  rw [rem_normal]
  rcases mul_gives b hq with ⟨hinf, -⟩ | ⟨p, hp, -⟩
  · exact .inl (sub_inf a hinf)
  rw [hp]
  by_cases hsame : a.val.real = p.val.real
  · exact .inr (.inl (sub_cancels a p hsame))
  · rcases sub_gives a p (sub_ne_zero.mpr hsame) with ⟨hinf, -⟩ | ⟨r, hr, -⟩
    · exact .inl hinf
    · exact .inr (.inr ⟨r, hr⟩)

theorem isRemainder_register_iff (a b : Encoded) :
    IsRemainder a.val b.val (fromBytes (toBytes (rem a.val b.val))) ↔
      IsRemainder a.val b.val (rem a.val b.val) := by
  rcases rem_cases a b with hinf | hzero | ⟨p, hp⟩
  · exact iff_of_false (not_isRemainder_inf a b (fromBytes_toBytes_inf hinf))
      (not_isRemainder_inf a b hinf)
  · rw [hzero, fromBytes_toBytes_zero]
  · rw [hp, p.fromBytes_toBytes]

theorem rem_exact_iff (a b : Encoded) :
    IsRemainder a.val b.val (rem a.val b.val) ↔ remExact a.val b.val = true := by
  rw [remExact_iff]
  by_cases hless : a.val.magnitude < b.val.magnitude
  · have hzero : intQuotient a b = 0 := by
      by_contra hne
      exact absurd hless
        (not_lt.mpr ((intQuotient_pos_iff a b).mp (Nat.one_le_iff_ne_zero.mpr hne)))
    refine iff_of_true ?_ (.inl hzero)
    rw [rem_less a b hless, isRemainder_iff, hzero, Nat.cast_zero, zero_mul, sub_zero]
    rfl
  · have hn := (intQuotient_pos_iff a b).mpr (not_lt.mp hless)
    have hne : intQuotient a b ≠ 0 := by omega
    rw [rem_isRemainder_iff a b hn, or_iff_right hne]

theorem rem_zero (ha : a.cls = .zero) (b : Encoded) : rem a b.val = a ∧ IsRemainder a b.val a := by
  have hna := isNumber_of_cls (.inl ha)
  have hnb := isNumber_of_cls (.inr (.inl b.cls))
  have hnum : a.num = 0 := num_of_zero ha
  have hcut : towardZero.toInt (0 : ℝ) = 0 := by simpa using towardZero.toInt_intCast 0
  constructor
  · unfold rem
    rw [binaryNan_of_numbers hna hnb, ha, b.cls]
  · refine ⟨?_, ?_, ?_, rfl⟩
    · unfold isFinite
      rw [ha]
      rfl
    · rw [hnum, zero_div, hcut, Int.cast_zero, mul_zero, sub_zero]
    · rw [hnum, abs_zero, num_of_normal b.cls]
      unfold real
      rw [abs_signed]
      exact abs_pos.mpr b.magnitude_pos.ne'

end F80

section Instruction
variable {M : Type} [FpMem M]
open FpuM

/-- C2, with which a partial remainder says that there is more to do. -/
def Fpu.c2 (u : Fpu) : Bool := u.sw.getLsbD 10

theorem execX87_fprem (H : Host) (addr : U64) (sti : U8) {s : X87State M}
    (h0 : s.cpu.fpu.used 0 = true) (h1 : s.cpu.fpu.used 1 = true) :
    (execX87 H .fprem addr sti s).2.cpu.fpu.c2 = s.cpu.fpu.c2 ∧
      (execX87 H .fprem addr sti s).2.cpu.fpu.st 0 =
        (rem (fromBytes (s.cpu.fpu.st 0)) (fromBytes (s.cpu.fpu.st 1))).toBytes := by
  have hrun : (execX87 H .fprem addr sti s).2 = s.setFpu (s.cpu.fpu.setSt 0
      (rem (fromBytes (s.cpu.fpu.st 0)) (fromBytes (s.cpu.fpu.st 1)))) := by
    change s.setFpu (final ((operand 0 >>= fun a => operand 1 >>= fun b =>
      modify fun u => u.setSt 0 (rem a b) : FpuM Unit) s.cpu.fpu)) = _
    rw [bind_operand_used h0, bind_operand_used h1]
    rfl
  rw [hrun]
  exact ⟨rfl, Function.update_self ..⟩

/-- If `fprem` says that the reduction is complete, `ST(0)` is the remainder exactly if C2 was set
all along (`fprem` does not write it) or the operands are ones for which it comes out. -/
theorem fprem_exact_iff (H : Host) (addr : U64) (sti : U8) (s : X87State M)
    (h0 : s.cpu.fpu.used 0 = true) (h1 : s.cpu.fpu.used 1 = true)
    (ha : (fromBytes (s.cpu.fpu.st 0)).isFinite = true)
    (hb : (fromBytes (s.cpu.fpu.st 1)).cls = .normal) :
    ((execX87 H .fprem addr sti s).2.cpu.fpu.c2 = false →
      F80.IsRemainder (fromBytes (s.cpu.fpu.st 0)) (fromBytes (s.cpu.fpu.st 1))
        (fromBytes ((execX87 H .fprem addr sti s).2.cpu.fpu.st 0))) ↔ s.cpu.fpu.c2 = true ∨
      remExact (fromBytes (s.cpu.fpu.st 0)) (fromBytes (s.cpu.fpu.st 1)) = true := by
  obtain ⟨hc2, hst⟩ := execX87_fprem H addr sti h0 h1
  rw [hc2, hst, ← Bool.not_eq_true, ← or_iff_not_imp_left]
  apply or_congr_right
  let b := encodedOf (s.cpu.fpu.st 1) hb
  by_cases hzero : (fromBytes (s.cpu.fpu.st 0)).cls = .zero
  · obtain ⟨hrem, hright⟩ := rem_zero hzero b
    refine iff_of_true ?_ ?_
    · change F80.IsRemainder _ b.val (fromBytes (rem _ b.val).toBytes)
      rw [hrem, fromBytes_toBytes_fromBytes]
      exact hright
    · unfold remExact
      rw [hzero]
      rfl
  · have hcls : (fromBytes (s.cpu.fpu.st 0)).cls = .normal := by
      unfold isFinite at ha
      rw [Bool.or_eq_true, beq_iff_eq, beq_iff_eq] at ha
      exact ha.resolve_left hzero
    let a := encodedOf (s.cpu.fpu.st 0) hcls
    exact (isRemainder_register_iff a b).trans (rem_exact_iff a b)

/-- `ST(0)` is 7 and `ST(1)` is 3. -/
def sevenByThree : X87State Memory :=
  resetState.setFpu
    ((Fpu.reset.pushRaw 0x4000_c000_0000_0000_0000).pushRaw 0x4001_e000_0000_0000_0000)

theorem fprem_exact_at : F80.IsRemainder (fromBytes (sevenByThree.cpu.fpu.st 0))
      (fromBytes (sevenByThree.cpu.fpu.st 1))
      (fromBytes ((execX87 blankHost .fprem 0 0 sevenByThree).2.cpu.fpu.st 0)) :=
  (fprem_exact_iff blankHost 0 0 sevenByThree (by decide) (by decide) (by decide +kernel)
    (by decide +kernel)).mpr (.inr (by decide +kernel)) (by decide +kernel)

/-- `ST(0)` is 2^64 and `ST(1)` is 1. -/
def hugeByOne : X87State Memory :=
  resetState.setFpu
    ((Fpu.reset.pushRaw 0x3fff_8000_0000_0000_0000).pushRaw 0x403f_8000_0000_0000_0000)

/-- The quotient saturates, so that 2^63 is added: the result is 3 * 2^63, with C2 clear. -/
theorem fprem_saturates : hugeByOne.cpu.fpu.used 0 = true ∧ hugeByOne.cpu.fpu.used 1 = true ∧
      (execX87 blankHost .fprem 0 0 hugeByOne).2.cpu.fpu.c2 = false ∧
      (execX87 blankHost .fprem 0 0 hugeByOne).2.cpu.fpu.st 0 = 0x403f_c000_0000_0000_0000 ∧
      ¬F80.IsRemainder (fromBytes (hugeByOne.cpu.fpu.st 0))
        (fromBytes (hugeByOne.cpu.fpu.st 1)) (fromBytes 0x403f_c000_0000_0000_0000) := by
  refine ⟨by decide, by decide, by decide +kernel, by decide +kernel, ?_⟩
  intro h
  have hone : fromBytes (hugeByOne.cpu.fpu.st 1) =
      ⟨false, .normal, 0, 0x8000000000000000⟩ := by decide +kernel
  have hres : fromBytes 0x403f_c000_0000_0000_0000 =
      ⟨false, .normal, 64, 0xc000000000000000⟩ := by decide +kernel
  have hless := h.less
  rw [hone, hres] at hless
  have hsig : (0xc000000000000000 : U64).toNat = 3 * 2 ^ 62 := by decide
  have hsig' : (0x8000000000000000 : U64).toNat = 2 ^ 63 := by decide
  unfold F80.num real F80.magnitude at hless
  rw [if_neg (by decide), if_neg (by decide)] at hless
  rw [hsig, hsig'] at hless
  norm_num [signed] at hless

end Instruction

end X86Jit
