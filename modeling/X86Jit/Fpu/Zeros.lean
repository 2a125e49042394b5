import X86Jit.Fpu.Operations

/-! Sums and differences in which a zero takes part or comes out. The unit treats a zero before
it looks at the control word. -/
namespace X86Jit.F80
open X86Jit.Lib X86Jit.Lib.Rounding

def addend (b : F80) (subtract : Bool) : F80 := { b with sign := b.sign ^^ subtract }

def Cancels (a b : F80) : Prop := a.cls = .normal ∧ b.cls = .normal ∧ a.real + b.real = 0

def SumsToZero (a b : F80) : Prop := a.cls = .zero ∧ b.cls = .zero ∨ Cancels a b

def BesideZero (a b x : F80) : Prop := a.cls = .zero ∧ x = b ∨ b.cls = .zero ∧ x = a

/-- The number rounded to the selected precision in the selected mode, with the precision exception
exactly if something was lost, or what the mode prescribes if it is too large. -/
structure Rounds (ctl : Ctl) (x : ℝ) (r : F80 × Exc) : Prop where
  rounded : |roundTo ctl.sigBits ctl.mode x| < 2 ^ (emax + 1) →
    r.1.cls = .normal ∧ r.1.real = roundTo ctl.sigBits ctl.mode x ∧
      (r.2.has Exc.pe = true ↔ roundTo ctl.sigBits ctl.mode x ≠ x)
  overflow : (2 : ℝ) ^ (emax + 1) ≤ |roundTo ctl.sigBits ctl.mode x| →
    r.1.value = overflowed (decide (x < 0)) ctl.mode ∧ r.2.has Exc.oe = true ∧
      r.2.has Exc.pe = true

/-- A zero sum has the common sign of what is added, or the sign that the mode gives; a number is
rounded, an infinity stays, and a NaN is made quiet. -/
structure ZeroSumRight (ctl : Ctl) (a b : F80) (subtract : Bool) (r : F80 × Exc) : Prop where
  zero : SumsToZero a (addend b subtract) →
    r = (F80.zero (if a.sign = (addend b subtract).sign then a.sign
      else decide (ctl.mode = .down)), Exc.none)
  number : ∀ x, BesideZero a (addend b subtract) x → x.cls = .normal → Rounds ctl x.real r
  infinite : ∀ x, BesideZero a (addend b subtract) x → x.cls = .inf →
    r = (inf x.sign, Exc.none)
  nan : ∀ x, BesideZero a b x → x.cls = .nan →
    r = (x.quieted, if x.isSnan then Exc.ie else Exc.none)
  unsupported : ∀ x, BesideZero a b x → x.cls = .unsupported → r = (indefinite, Exc.ie)

/-- A zero sum does not depend on the mode, and a number fits into the selected precision. -/
structure ZeroSumPlain (ctl : Ctl) (a b : F80) : Prop where
  sign : SumsToZero a b → a.sign = b.sign ∨ ctl.mode ≠ .down
  fits : ∀ x, BesideZero a b x → x.cls = .normal → x.sig.toNat % 2 ^ (64 - ctl.sigBits) = 0

variable {a b x : F80} {ctl : Ctl}

theorem addend_eq (b : F80) (subtract : Bool) :
    (if subtract then { b with sign := !b.sign } else b) = addend b subtract := by
  cases subtract <;> simp [addend]

theorem roundTo_real_eq_iff (hsig : 2 ^ 63 ≤ x.sig.toNat) :
    roundTo ctl.sigBits ctl.mode x.real = x.real ↔ x.sig.toNat % 2 ^ (64 - ctl.sigBits) = 0 := by
  have hp := ctl.sigBits_cases
  let d := 64 - ctl.sigBits
  let k := x.sig.toNat / 2 ^ d
  let f : ℝ := ((x.sig.toNat % 2 ^ d : ℕ) : ℝ) / ((2 ^ d : ℕ) : ℝ)
  have hd : 0 < 2 ^ d := Nat.two_pow_pos d
  have hdr : (0 : ℝ) < ((2 ^ d : ℕ) : ℝ) := by exact_mod_cast hd
  have hlow : 2 ^ (ctl.sigBits - 1) ≤ k := by
    rw [Nat.le_div_iff_mul_le hd, ← Nat.pow_add]
    have hexp : ctl.sigBits - 1 + d = 63 := by omega
    rw [hexp]
    exact hsig
  have hhigh : k < 2 ^ ctl.sigBits := by
    rw [Nat.div_lt_iff_lt_mul hd, ← Nat.pow_add]
    have hexp : ctl.sigBits + d = 64 := by omega
    rw [hexp]
    exact x.sig.isLt
  have h₀ : 0 ≤ f := by positivity
  have h₁ : f < 1 := by
    rw [div_lt_one hdr]
    exact_mod_cast Nat.mod_lt _ hd
  have hreal : x.real = signed x.sign * ((k + f) * 2 ^ (x.exp - 63 + d)) := by
    have hparts : (k : ℝ) + f = x.sig.toNat / ((2 ^ d : ℕ) : ℝ) := div_parts _ hd
    have hexp : (2 : ℝ) ^ (x.exp - 63 + d) = 2 ^ (x.exp - 63) * ((2 ^ d : ℕ) : ℝ) := by
      rw [zpow_add₀ two_ne_zero]
      push_cast
      rfl
    unfold real magnitude
    rw [hparts, hexp]
    field_simp
  have hf : f = 0 ↔ x.sig.toNat % 2 ^ d = 0 := by
    rw [div_eq_zero_iff, or_iff_left hdr.ne', Nat.cast_eq_zero]
  rw [hreal, roundTo_eq_self_iff (by omega) hlow hhigh h₀ h₁, hf]

theorem abs_real_lt (hok : x.Ok) (hcls : x.cls = .normal) : |x.real| < 2 ^ (emax + 1) := by
  obtain ⟨hsig, -, hexp⟩ := hok hcls
  have hpow : (2 : ℝ) ^ (x.exp + 1) ≤ 2 ^ (emax + 1) :=
    zpow_le_zpow_right₀ one_le_two (by omega)
  unfold real
  rw [abs_signed, abs_of_pos (magnitude_pos hsig)]
  exact (magnitude_bounds hsig).2.trans_le hpow

theorem rounds_self_iff (hok : x.Ok) (hcls : x.cls = .normal) :
    Rounds ctl x.real (x, Exc.none) ↔ x.sig.toNat % 2 ^ (64 - ctl.sigBits) = 0 := by
  have hsig := (hok hcls).1
  have hlt := abs_real_lt hok hcls
  have hpe : Exc.has Exc.none Exc.pe = false := by decide
  have hoe : Exc.has Exc.none Exc.oe = false := by decide
  rw [← roundTo_real_eq_iff hsig]
  constructor
  · intro h
    by_cases hrange : |roundTo ctl.sigBits ctl.mode x.real| < 2 ^ (emax + 1)
    · exact (h.rounded hrange).2.1.symm
    · have hflag := (h.overflow (not_lt.mp hrange)).2.1
      rw [hoe] at hflag
      cases hflag
  · intro heq
    constructor
    · intro _
      refine ⟨hcls, heq.symm, ?_⟩
      rw [hpe]
      exact iff_of_false Bool.false_ne_true (not_not.mpr heq)
    · intro hover
      rw [heq] at hover
      exact absurd hlt (not_lt.mpr hover)

theorem Cancels.eq_neg (h : Cancels a b) (ha : a.Ok) (hb : b.Ok) :
    a.exp = b.exp ∧ a.sig = b.sig ∧ a.sign = !b.sign := by
  obtain ⟨hca, hcb, hsum⟩ := h
  have hsa := (ha hca).1
  have hsb := (hb hcb).1
  have hpa := magnitude_pos hsa
  have hpb := magnitude_pos hsb
  have hsign : a.sign = !b.sign := by
    apply Bool.eq_not_of_ne
    intro hsame
    unfold real at hsum
    rw [hsame, ← mul_add, mul_eq_zero] at hsum
    rcases hsum with hzero | hzero
    · cases hs : b.sign <;> rw [hs] at hzero <;> norm_num [signed] at hzero
    · linarith
  have hmag : a.magnitude = b.magnitude := by
    unfold real at hsum
    rw [hsign, signed_not, neg_mul, neg_add_eq_zero] at hsum
    exact signed_mul_inj.mp hsum
  -- the key of a magnitude determines exponent and significand
  have hle : ¬a.magKey < b.magKey := by
    rw [← magnitude_lt_iff hsa hsb, hmag]
    exact lt_irrefl _
  have hge : ¬b.magKey < a.magKey := by
    rw [← magnitude_lt_iff hsb hsa, hmag]
    exact lt_irrefl _
  unfold magKey at hle hge
  refine ⟨by omega, BitVec.eq_of_toNat_eq (by omega), hsign⟩

theorem addNormal_cancels (h : Cancels a b) (ha : a.Ok) (hb : b.Ok) :
    addNormal a b Exc.none ctl = (zero false, Exc.none) := by
  obtain ⟨hexp, hsig, hsign⟩ := h.eq_neg ha hb
  have hne : ¬a.sign = b.sign := by
    rw [hsign]
    cases b.sign <;> decide
  have hlow : alignLow b.sig (a.exp - b.exp).toNat = a.sig.toNat <<< 64 := by
    rw [hexp, hsig, sub_self]
    rfl
  unfold addNormal
  rw [if_neg hne, hlow, if_pos le_rfl, if_pos (Nat.sub_self _)]

variable {subtract : Bool}

theorem not_raises_of_number (h : a.isNumber = true) : a.operandRaisesInvalid = false := by
  obtain ⟨hnan, hunsup⟩ : a.cls ≠ .nan ∧ a.cls ≠ .unsupported := by
    simpa [isNumber] using h
  simp [operandRaisesInvalid, isSnan, hnan, hunsup]

theorem binaryNan_of_numbers (ha : a.isNumber = true) (hb : b.isNumber = true) :
    binaryNan a b = none := by
  obtain ⟨hna, hua⟩ : a.cls ≠ .nan ∧ a.cls ≠ .unsupported := by simpa [isNumber] using ha
  obtain ⟨hnb, hub⟩ : b.cls ≠ .nan ∧ b.cls ≠ .unsupported := by simpa [isNumber] using hb
  have ha' : (a.cls == .nan) = false := beq_false_of_ne hna
  have hb' : (b.cls == .nan) = false := beq_false_of_ne hnb
  unfold binaryNan
  rw [if_neg (not_or.mpr ⟨hua, hub⟩), ha', hb']

theorem binaryOperandExc_of_numbers (ha : a.isNumber = true) (hb : b.isNumber = true) :
    binaryOperandExc a b = Exc.none := by
  unfold binaryOperandExc
  rw [not_raises_of_number ha, not_raises_of_number hb]
  rfl

theorem isNumber_of_cls (h : a.cls = .zero ∨ a.cls = .normal ∨ a.cls = .inf) :
    a.isNumber = true := by
  unfold isNumber
  rcases h with h | h | h <;> rw [h] <;> rfl

theorem addSub_zero_zero (ha : a.cls = .zero) (hb : b.cls = .zero) :
    addSub a b subtract ctl = (zero (a.sign && (addend b subtract).sign), Exc.none) := by
  have hna := isNumber_of_cls (.inl ha)
  have hnb := isNumber_of_cls (.inl hb)
  have hb' : (addend b subtract).cls = .zero := hb
  unfold addSub
  rw [binaryNan_of_numbers hna hnb, binaryOperandExc_of_numbers hna hnb, addend_eq]
  dsimp only
  rw [ha, hb']

theorem addSub_normal_normal (ha : a.cls = .normal) (hb : b.cls = .normal) :
    addSub a b subtract ctl =
      if b.exp ≤ a.exp then addNormal a (addend b subtract) Exc.none ctl
      else addNormal (addend b subtract) a Exc.none ctl := by
  have hna := isNumber_of_cls (.inr (.inl ha))
  have hnb := isNumber_of_cls (.inr (.inl hb))
  have hb' : (addend b subtract).cls = .normal := hb
  unfold addSub
  rw [binaryNan_of_numbers hna hnb, binaryOperandExc_of_numbers hna hnb, addend_eq]
  dsimp only
  rw [ha, hb']
  rfl

theorem addSub_beside (h : BesideZero a (addend b subtract) x)
    (hx : x.cls = .normal ∨ x.cls = .inf) :
    addSub a b subtract ctl = (if x.cls = .normal then x else inf x.sign, Exc.none) := by
  have hnx := isNumber_of_cls (.inr hx)
  rcases h with ⟨ha, rfl⟩ | ⟨hb, rfl⟩
  · have hna := isNumber_of_cls (.inl ha)
    have hnb : b.isNumber = true := hnx
    unfold addSub
    rw [binaryNan_of_numbers hna hnb, binaryOperandExc_of_numbers hna hnb, addend_eq]
    dsimp only
    rcases hx with hx | hx <;> rw [ha, hx] <;> rfl
  · have hnb : b.isNumber = true := isNumber_of_cls (.inl hb)
    unfold addSub
    rw [binaryNan_of_numbers hnx hnb, binaryOperandExc_of_numbers hnx hnb, addend_eq]
    dsimp only
    rcases hx with hx | hx <;> rw [hx, hb] <;> rfl

theorem addSub_beside_nan (h : BesideZero a b x) (hx : x.cls = .nan) :
    addSub a b subtract ctl = (x.quieted, if x.isSnan then Exc.ie else Exc.none) := by
  have hsnan : x.operandRaisesInvalid = x.isSnan := by
    unfold operandRaisesInvalid
    rw [hx]
    exact Bool.or_false _
  rcases h with ⟨ha, rfl⟩ | ⟨hb, rfl⟩
  · have hraise := not_raises_of_number (isNumber_of_cls (.inl ha))
    unfold addSub binaryNan binaryOperandExc
    rw [hraise, hsnan, ha, hx]
    rfl
  · have hraise := not_raises_of_number (isNumber_of_cls (.inl hb))
    unfold addSub binaryNan binaryOperandExc
    rw [hraise, hsnan, hb, hx, Bool.or_false]
    rfl

theorem addSub_beside_unsupported (h : BesideZero a b x) (hx : x.cls = .unsupported) :
    addSub a b subtract ctl = (indefinite, Exc.ie) := by
  have hraise : x.operandRaisesInvalid = true := by
    unfold operandRaisesInvalid
    rw [hx]
    exact Bool.or_true _
  have hbase : binaryOperandExc a b = Exc.ie := by
    apply if_pos
    rcases h with ⟨-, rfl⟩ | ⟨-, rfl⟩ <;> simp [hraise]
  have hnan : binaryNan a b = some indefinite := by
    apply if_pos
    rcases h with ⟨-, rfl⟩ | ⟨-, rfl⟩
    · exact .inr hx
    · exact .inl hx
  unfold addSub
  rw [hnan, hbase]

theorem Cancels.symm (h : Cancels a b) : Cancels b a :=
  ⟨h.2.1, h.1, (add_comm _ _).trans h.2.2⟩

theorem addSub_sumsToZero (ha : a.Ok) (hb : b.Ok) (h : SumsToZero a (addend b subtract)) :
    addSub a b subtract ctl = (zero (a.sign && (addend b subtract).sign), Exc.none) := by
  rcases h with ⟨hza, hzb⟩ | hcancel
  · exact addSub_zero_zero hza hzb
  · have hb' : (addend b subtract).Ok := hb
    have hsign := (hcancel.eq_neg ha hb').2.2
    have hpos : (a.sign && (addend b subtract).sign) = false := by
      rw [hsign]
      cases (addend b subtract).sign <;> rfl
    have hcls : b.cls = .normal := hcancel.2.1
    rw [addSub_normal_normal hcancel.1 hcls, hpos]
    split
    · exact addNormal_cancels hcancel ha hb'
    · exact addNormal_cancels hcancel.symm hb' ha

theorem zero_sign_iff (s t : Bool) :
    (zero (s && t), Exc.none) = (zero (if s = t then s else decide (ctl.mode = .down)), Exc.none) ↔
      s = t ∨ ctl.mode ≠ .down := by
  by_cases hst : s = t
  · subst hst
    simp
  · have hand : (s && t) = false := by
      cases s <;> cases t <;> simp at hst ⊢
    rw [if_neg hst, hand]
    by_cases hdown : ctl.mode = .down
    · simp [hst, zero]
    · simp [hdown]

/-- The sums in which a zero takes part or comes out are right exactly if nothing is to be rounded
and the sign does not depend on the mode. -/
theorem addSub_zero_right_iff (a b : Operand) (subtract : Bool) (ctl : Ctl) :
    ZeroSumRight ctl a.val b.val subtract (addSub a.val b.val subtract ctl) ↔
      ZeroSumPlain ctl a.val (addend b.val subtract) := by
  have hokb : (addend b.val subtract).Ok := b.property
  have hokx {x : F80} (hx : BesideZero a.val (addend b.val subtract) x) : x.Ok := by
    rcases hx with ⟨-, rfl⟩ | ⟨-, rfl⟩
    · exact hokb
    · exact a.property
  have hnumber {x : F80} (hx : BesideZero a.val (addend b.val subtract) x)
      (hcls : x.cls = .normal) : addSub a.val b.val subtract ctl = (x, Exc.none) := by
    rw [addSub_beside hx (.inl hcls), if_pos hcls]
  constructor
  · intro hright
    constructor
    · intro hzero
      have hr := hright.zero hzero
      rw [addSub_sumsToZero a.property b.property hzero] at hr
      exact (zero_sign_iff _ _).mp hr
    · intro x hx hcls
      have hr := hright.number x hx hcls
      rw [hnumber hx hcls] at hr
      exact (rounds_self_iff (hokx hx) hcls).mp hr
  · intro hplain
    constructor
    · intro hzero
      rw [addSub_sumsToZero a.property b.property hzero]
      exact (zero_sign_iff _ _).mpr (hplain.sign hzero)
    · intro x hx hcls
      rw [hnumber hx hcls]
      exact (rounds_self_iff (hokx hx) hcls).mpr (hplain.fits x hx hcls)
    · intro x hx hcls
      have hne : x.cls ≠ .normal := by
        rw [hcls]
        decide
      rw [addSub_beside hx (.inr hcls), if_neg hne]
    · intro x hx hcls
      exact addSub_beside_nan hx hcls
    · intro x hx hcls
      exact addSub_beside_unsupported hx hcls

theorem one_ok : Ok ⟨false, .normal, 0, 0x8000000000000000⟩ := fun _ => by decide

theorem aboveOne_ok : Ok ⟨false, .normal, 0, 0x8000000000000001⟩ := fun _ => by decide

def one : Operand := ⟨_, one_ok⟩

def aboveOne : Operand := ⟨_, aboveOne_ok⟩

def roundDown : Ctl := ⟨0x077f⟩

def single : Ctl := ⟨0x007f⟩

/-- One minus one is to be the negative zero when rounding down. A number with zero added to it is
not rounded to single precision. -/
theorem zero_sums_wrong : (addSub one.val one.val true roundDown = (zero false, Exc.none) ∧
      ¬ZeroSumRight roundDown one.val one.val true (addSub one.val one.val true roundDown)) ∧
    (addSub positiveZero.val aboveOne.val false single = (aboveOne.val, Exc.none) ∧
      ¬ZeroSumRight single positiveZero.val aboveOne.val false
        (addSub positiveZero.val aboveOne.val false single)) := by
  have hdown : addSub one.val one.val true roundDown = (zero false, Exc.none) := by decide
  have hsum : addSub positiveZero.val aboveOne.val false single = (aboveOne.val, Exc.none) := by
    decide
  have hcancels : SumsToZero one.val (addend one.val true) := by
    refine .inr ⟨rfl, rfl, ?_⟩
    simp [real, magnitude, addend, one, signed]
  refine ⟨⟨hdown, ?_⟩, hsum, ?_⟩
  · intro hright
    have hzero := hright.zero hcancels
    exact absurd hzero (by decide)
  · intro hright
    have hrounds := hright.number aboveOne.val (.inl ⟨rfl, rfl⟩) rfl
    rw [hsum, rounds_self_iff aboveOne.property rfl] at hrounds
    exact absurd hrounds (by decide)

end X86Jit.F80
