import Mathlib.Data.EReal.Basic
import X86Jit.Fpu.F80

/-! Comparison of x87 values. The key that decides it is exponent and significand side by side as
one signed number. -/
namespace X86Jit.F80

noncomputable def magnitude (a : F80) : ℝ := (a.sig.toNat : ℝ) * 2 ^ (a.exp - 63)

noncomputable def value (a : F80) : EReal :=
  match a.cls with
  | .normal => ((if a.sign then -a.magnitude else a.magnitude : ℝ) : EReal)
  | .inf => if a.sign then ⊥ else ⊤
  | .zero | .nan | .unsupported => 0

def isNumber (a : F80) : Bool := a.cls ≠ .nan && a.cls ≠ .unsupported

def Operand := { a : F80 // a.Ok }

open Classical in
/-- Unordered exactly if an operand is no number, and otherwise the order of the numbers. -/
structure ComparesRight (a b : F80) : Prop where
  unordered : compare a b = (true, true, true) ↔ ¬(a.isNumber = true ∧ b.isNumber = true)
  ordered : a.isNumber = true → b.isNumber = true →
    compare a b = (decide (a.value = b.value), false, decide (a.value < b.value))

/-- An unsupported encoding is not recognised. Against zero a number has to be at least one in
magnitude; of two numbers of different sign, the product of the magnitudes has to be large enough.
-/
def keyOrders (a b : F80) : Bool :=
  match a.cls, b.cls with
  | .nan, _ | _, .nan => true
  | .unsupported, _ | _, .unsupported => false
  | .zero, .normal => 0 ≤ b.exp
  | .normal, .zero => 0 ≤ a.exp
  | .normal, .normal => a.sign == b.sign || 0 ≤ a.exp + b.exp ||
      a.exp + b.exp == -1 && 2 ^ 64 < a.sig.toNat + b.sig.toNat
  | _, _ => true

variable {a b : F80}

theorem magnitude_pos (h : 2 ^ 63 ≤ a.sig.toNat) : 0 < a.magnitude := by
  have hsig : (0 : ℝ) < a.sig.toNat := by
    exact_mod_cast lt_of_lt_of_le (Nat.two_pow_pos 63) h
  exact mul_pos hsig (zpow_pos two_pos _)

theorem magnitude_bounds (h : 2 ^ 63 ≤ a.sig.toNat) :
    (2 : ℝ) ^ a.exp ≤ a.magnitude ∧ a.magnitude < 2 ^ (a.exp + 1) := by
  have hpow : (0 : ℝ) < 2 ^ (a.exp - 63) := zpow_pos two_pos _
  constructor
  · have hlow : ((2 : ℝ) ^ (63 : ℤ)) ≤ a.sig.toNat := by exact_mod_cast h
    calc (2 : ℝ) ^ a.exp = 2 ^ (63 : ℤ) * 2 ^ (a.exp - 63) := by
          rw [← zpow_add₀ two_ne_zero, add_sub_cancel]
      _ ≤ a.magnitude := mul_le_mul_of_nonneg_right hlow hpow.le
  · have hhigh : (a.sig.toNat : ℝ) < 2 ^ (64 : ℤ) := by exact_mod_cast a.sig.isLt
    calc a.magnitude < 2 ^ (64 : ℤ) * 2 ^ (a.exp - 63) := mul_lt_mul_of_pos_right hhigh hpow
      _ = 2 ^ (a.exp + 1) := by
          rw [← zpow_add₀ two_ne_zero]
          congr 1
          ring

def magKey (a : F80) : ℤ := a.exp * 2 ^ 64 + a.sig.toNat

theorem magnitude_lt_of_magKey_lt (ha : 2 ^ 63 ≤ a.sig.toNat) (hb : 2 ^ 63 ≤ b.sig.toNat)
    (h : a.magKey < b.magKey) : a.magnitude < b.magnitude := by
  unfold magKey at h
  rcases lt_trichotomy a.exp b.exp with hexp | hexp | hexp
  · have hstep : (2 : ℝ) ^ (a.exp + 1) ≤ 2 ^ b.exp :=
      zpow_le_zpow_right₀ one_le_two (Int.add_one_le_iff.mpr hexp)
    calc a.magnitude < 2 ^ (a.exp + 1) := (magnitude_bounds ha).2
      _ ≤ 2 ^ b.exp := hstep
      _ ≤ b.magnitude := (magnitude_bounds hb).1
  · rw [hexp] at h
    have hsig : a.sig.toNat < b.sig.toNat := by omega
    have hreal : (a.sig.toNat : ℝ) < b.sig.toNat := by exact_mod_cast hsig
    unfold magnitude
    rw [hexp]
    exact mul_lt_mul_of_pos_right hreal (zpow_pos two_pos _)
  · exfalso
    omega

theorem magnitude_lt_iff (ha : 2 ^ 63 ≤ a.sig.toNat) (hb : 2 ^ 63 ≤ b.sig.toNat) :
    a.magnitude < b.magnitude ↔ a.magKey < b.magKey := by
  constructor
  · intro h
    by_contra hkey
    rcases lt_or_eq_of_le (not_lt.mp hkey) with hlt | heq
    · exact lt_asymm h (magnitude_lt_of_magKey_lt hb ha hlt)
    · have hsa := a.sig.isLt
      unfold magKey at heq
      have hexp : a.exp = b.exp := by omega
      have hsig : a.sig.toNat = b.sig.toNat := by omega
      unfold magnitude at h
      rw [hexp, hsig] at h
      exact lt_irrefl _ h
  · exact magnitude_lt_of_magKey_lt ha hb

def KeysAgree (a b : F80) : Prop :=
  (a.orderedKey < b.orderedKey ↔ a.value < b.value) ∧
    (b.orderedKey < a.orderedKey ↔ b.value < a.value)

theorem KeysAgree.symm (h : KeysAgree a b) : KeysAgree b a := ⟨h.2, h.1⟩

theorem keysAgree_comm : KeysAgree a b ↔ KeysAgree b a := ⟨.symm, .symm⟩

theorem compare_of_not_nan (ha : a.cls ≠ .nan) (hb : b.cls ≠ .nan) : compare a b =
      (decide (a.orderedKey = b.orderedKey), false, decide (a.orderedKey < b.orderedKey)) := by
  unfold compare
  rw [if_neg (not_or.mpr ⟨ha, hb⟩)]
  split
  case isTrue heq => simp [heq]
  case isFalse hne =>
    split
    case isTrue hlt => simp [hne, hlt]
    case isFalse hge => simp [hne, hge]

open Classical in
theorem comparesRight_iff_keysAgree (ha : a.isNumber = true) (hb : b.isNumber = true) :
    ComparesRight a b ↔ KeysAgree a b := by
  have hna : a.cls ≠ .nan := by
    intro h
    simp [isNumber, h] at ha
  have hnb : b.cls ≠ .nan := by
    intro h
    simp [isNumber, h] at hb
  have hcmp := compare_of_not_nan hna hnb
  constructor
  · intro h
    have hord := h.ordered ha hb
    rw [hcmp] at hord
    simp only [Prod.mk.injEq, decide_eq_decide, true_and] at hord
    obtain ⟨heq, hlt⟩ := hord
    refine ⟨hlt, ?_⟩
    rw [lt_iff_le_and_ne, lt_iff_le_and_ne, ← not_lt, ← not_lt, hlt, ne_comm, Ne, heq, ne_comm]
  · rintro ⟨hlt, hgt⟩
    have heq : a.orderedKey = b.orderedKey ↔ a.value = b.value := by
      rw [le_antisymm_iff, le_antisymm_iff, ← not_lt, ← not_lt, ← not_lt, ← not_lt, hlt, hgt]
    refine ⟨?_, fun _ _ => ?_⟩
    · rw [hcmp]
      simp [ha, hb]
    · rw [hcmp]
      simp only [heq, hlt]

theorem orderedKey_zero (h : a.cls = .zero) : a.orderedKey = 0 := by
  simp [orderedKey, h]

theorem orderedKey_normal (h : a.cls = .normal) :
    a.orderedKey = if a.sign then -a.magKey else a.magKey := by
  simp [orderedKey, magKey, h]

theorem orderedKey_inf (h : a.cls = .inf) :
    a.orderedKey = if a.sign then -(2 ^ 126 - 1) else 2 ^ 126 - 1 := by
  unfold orderedKey
  rw [h]
  norm_num

theorem value_zero (h : a.cls = .zero) : a.value = 0 := by
  simp [value, h]

theorem value_normal (h : a.cls = .normal) :
    a.value = ((if a.sign then -a.magnitude else a.magnitude : ℝ) : EReal) := by
  simp [value, h]

theorem value_inf (h : a.cls = .inf) : a.value = if a.sign then ⊥ else ⊤ := by
  simp [value, h]

theorem orderedKey_bounds (ha : a.Ok) (h : a.cls = .normal) :
    -(2 ^ 126 - 1) < a.orderedKey ∧ a.orderedKey < 2 ^ 126 - 1 := by
  obtain ⟨-, hlow, hhigh⟩ := ha h
  unfold emin bias at hlow
  unfold emax expMax bias at hhigh
  rw [orderedKey_normal h]
  unfold magKey
  split <;> omega

theorem magKey_pos_iff (h : 2 ^ 63 ≤ a.sig.toNat) : 0 < a.magKey ↔ 0 ≤ a.exp := by
  unfold magKey
  omega

theorem magKey_neg_iff : a.magKey < 0 ↔ a.exp < 0 := by
  unfold magKey
  omega

theorem keysAgree_zero_normal (ha : a.cls = .zero) (hb : b.cls = .normal)
    (hsig : 2 ^ 63 ≤ b.sig.toNat) : KeysAgree a b ↔ 0 ≤ b.exp := by
  have hpos := magnitude_pos hsig
  unfold KeysAgree
  rw [orderedKey_zero ha, orderedKey_normal hb, value_zero ha, value_normal hb]
  cases b.sign
  · simp only [Bool.false_eq_true, if_false, EReal.coe_pos, hpos, iff_true, magKey_pos_iff hsig,
      magKey_neg_iff, EReal.coe_neg', not_lt_of_gt hpos, iff_false, not_lt, and_self]
  · simp only [if_true, EReal.coe_pos, EReal.coe_neg', Left.neg_pos_iff, Left.neg_neg_iff, hpos,
      not_lt_of_gt hpos, iff_true, iff_false, magKey_pos_iff hsig, magKey_neg_iff, not_lt, and_self]

theorem keysAgree_normal_normal (ha : a.cls = .normal) (hb : b.cls = .normal)
    (hsa : 2 ^ 63 ≤ a.sig.toNat) (hsb : 2 ^ 63 ≤ b.sig.toNat) :
    KeysAgree a b ↔ a.sign = b.sign ∨ 0 ≤ a.exp + b.exp ∨
      a.exp + b.exp = -1 ∧ 2 ^ 64 < a.sig.toNat + b.sig.toNat := by
  have hpa := magnitude_pos hsa
  have hpb := magnitude_pos hsb
  -- on both sides of zero the sum of the keys decides
  have hsum : 0 < a.magKey + b.magKey ↔ 0 ≤ a.exp + b.exp ∨
      a.exp + b.exp = -1 ∧ 2 ^ 64 < a.sig.toNat + b.sig.toNat := by
    unfold magKey
    omega
  unfold KeysAgree
  rw [orderedKey_normal ha, orderedKey_normal hb, value_normal ha, value_normal hb,
    EReal.coe_lt_coe_iff, EReal.coe_lt_coe_iff]
  cases a.sign <;> cases b.sign
  case false.false => simp [magnitude_lt_iff hsa hsb, magnitude_lt_iff hsb hsa]
  case false.true =>
    have hlow : ¬a.magnitude < -b.magnitude := by linarith
    have hhigh : -b.magnitude < a.magnitude := by linarith
    simp only [← hsum, Bool.false_eq_true, if_false, if_true, hlow, hhigh, iff_false, iff_true,
      false_or, not_lt]
    omega
  case true.false =>
    have hlow : ¬b.magnitude < -a.magnitude := by linarith
    have hhigh : -a.magnitude < b.magnitude := by linarith
    simp only [← hsum, Bool.true_eq_false, Bool.false_eq_true, if_false, if_true, hlow, hhigh,
      iff_false, iff_true, false_or, not_lt]
    omega
  case true.true => simp [magnitude_lt_iff hsa hsb, magnitude_lt_iff hsb hsa]

theorem keysAgree_inf (ha : a.cls = .inf) (hb : b.cls = .zero ∨ b.cls = .normal ∧ b.Ok) :
    KeysAgree a b := by
  have hkey : -(2 ^ 126 - 1) < b.orderedKey ∧ b.orderedKey < 2 ^ 126 - 1 := by
    rcases hb with hb | ⟨hb, hok⟩
    · rw [orderedKey_zero hb]
      norm_num
    · exact orderedKey_bounds hok hb
  have hvalue : ⊥ < b.value ∧ b.value < ⊤ := by
    rcases hb with hb | ⟨hb, -⟩
    · rw [value_zero hb]
      exact ⟨EReal.bot_lt_zero, EReal.zero_lt_top⟩
    · rw [value_normal hb]
      exact ⟨EReal.bot_lt_coe _, EReal.coe_lt_top _⟩
  unfold KeysAgree
  rw [orderedKey_inf ha, value_inf ha]
  cases a.sign
  · simp only [Bool.false_eq_true, if_false, hkey.2, hvalue.2, lt_asymm hkey.2, not_top_lt,
      and_self]
  · simp only [if_true, hkey.1, hvalue.1, lt_asymm hkey.1, not_lt_bot, and_self]

theorem keysAgree_inf_inf (ha : a.cls = .inf) (hb : b.cls = .inf) : KeysAgree a b := by
  unfold KeysAgree
  rw [orderedKey_inf ha, orderedKey_inf hb, value_inf ha, value_inf hb]
  cases a.sign <;> cases b.sign <;> simp

theorem keysAgree_iff (hoka : a.Ok) (hokb : b.Ok) (hna : a.isNumber = true)
    (hnb : b.isNumber = true) : KeysAgree a b ↔ keyOrders a b = true := by
  unfold keyOrders
  cases ha : a.cls <;> cases hb : b.cls
  case zero.zero =>
    apply iff_of_true _ rfl
    unfold KeysAgree
    rw [orderedKey_zero ha, orderedKey_zero hb, value_zero ha, value_zero hb]
    simp
  case zero.normal =>
    rw [keysAgree_zero_normal ha hb (hokb hb).1]
    exact decide_eq_true_iff.symm
  case normal.zero =>
    rw [keysAgree_comm, keysAgree_zero_normal hb ha (hoka ha).1]
    exact decide_eq_true_iff.symm
  case normal.normal =>
    rw [keysAgree_normal_normal ha hb (hoka ha).1 (hokb hb).1]
    simp only [Bool.or_eq_true, Bool.and_eq_true, beq_iff_eq, decide_eq_true_eq, or_assoc]
  case zero.inf => exact iff_of_true (keysAgree_inf hb (.inl ha)).symm rfl
  case inf.zero => exact iff_of_true (keysAgree_inf ha (.inl hb)) rfl
  case normal.inf => exact iff_of_true (keysAgree_inf hb (.inr ⟨ha, hoka⟩)).symm rfl
  case inf.normal => exact iff_of_true (keysAgree_inf ha (.inr ⟨hb, hokb⟩)) rfl
  case inf.inf => exact iff_of_true (keysAgree_inf_inf ha hb) rfl
  all_goals
    simp [isNumber, ha, hb] at hna hnb

theorem comparesRight_iff_of_not_number (h : ¬(a.isNumber = true ∧ b.isNumber = true)) :
    ComparesRight a b ↔ keyOrders a b = true := by
  have hright : ComparesRight a b ↔ compare a b = (true, true, true) := by
    constructor
    · intro hright
      exact hright.unordered.mpr h
    · intro hcmp
      exact ⟨iff_of_true hcmp h, fun h₁ h₂ => absurd ⟨h₁, h₂⟩ h⟩
  rw [hright]
  by_cases hnan : a.cls = .nan ∨ b.cls = .nan
  · apply iff_of_true (if_pos hnan)
    unfold keyOrders
    rcases hnan with hnan | hnan
    · rw [hnan]
    · rw [hnan]
      cases a.cls <;> rfl
  · obtain ⟨hna, hnb⟩ := not_or.mp hnan
    apply iff_of_false
    · rw [compare_of_not_nan hna hnb]
      simp
    · unfold keyOrders
      cases ha : a.cls <;> cases hb : b.cls <;> simp_all [isNumber]

/-- A comparison of two values the unit works on is right exactly where the key orders them. -/
theorem compare_right_iff (a b : Operand) :
    ComparesRight a.val b.val ↔ keyOrders a.val b.val = true := by
  by_cases h : a.val.isNumber = true ∧ b.val.isNumber = true
  · rw [comparesRight_iff_keysAgree h.1 h.2]
    exact keysAgree_iff a.property b.property h.1 h.2
  · exact comparesRight_iff_of_not_number h

theorem half_ok : Ok ⟨false, .normal, -1, 0x8000000000000000⟩ := fun _ => by decide

theorem zero_ok (sign : Bool) : (zero sign).Ok := nofun

def half : Operand := ⟨_, half_ok⟩
def positiveZero : Operand := ⟨_, zero_ok false⟩

theorem half_below_zero : compare half.val positiveZero.val = (false, false, true) ∧
      positiveZero.val.value < half.val.value := by
  refine ⟨by decide, ?_⟩
  have hpos : 0 < half.val.magnitude := magnitude_pos (by decide)
  exact EReal.coe_pos.mpr hpos

end X86Jit.F80
