import X86Jit.Fpu.Arith

/-! Addition and multiplication with their operands exchanged. Of two NaNs the choice goes by kind
and significand; only where these are the same does the place of an operand decide. -/
namespace X86Jit.F80

/-- The same in sign, class, significand and, unless it is a NaN, exponent: what an encoding
shows. -/
structure Alike (a b : F80) : Prop where
  sign : a.sign = b.sign
  cls : a.cls = b.cls
  sig : a.sig = b.sig
  exp : a.cls ≠ .nan → a.exp = b.exp

theorem Alike.refl (a : F80) : Alike a a := ⟨rfl, rfl, rfl, fun _ => rfl⟩

def twins (a b : F80) : Bool :=
  a.cls == .nan && b.cls == .nan && a.sig == b.sig && a.sign != b.sign

theorem twins_iff {a b : F80} :
    twins a b = true ↔ a.cls = .nan ∧ b.cls = .nan ∧ a.sig = b.sig ∧ a.sign ≠ b.sign := by
  simp [twins, and_assoc]

variable (a b : F80)

theorem binaryOperandExc_comm : binaryOperandExc a b = binaryOperandExc b a := by
  unfold binaryOperandExc
  rw [Bool.or_comm]

variable {a b}

theorem binaryNan_of_nan (ha : a.cls = .nan) (hb : b.cls = .nan) :
    binaryNan a b = some (nanOf a b) := by
  unfold binaryNan
  rw [ha, hb]
  rfl

theorem binaryNan_comm (h : ¬(a.cls = .nan ∧ b.cls = .nan)) : binaryNan a b = binaryNan b a := by
  unfold binaryNan
  by_cases hunsupported : a.cls = .unsupported ∨ b.cls = .unsupported
  · rw [if_pos hunsupported, if_pos hunsupported.symm]
  · rw [if_neg hunsupported, if_neg (mt Or.symm hunsupported)]
    cases ha : a.cls == .nan <;> cases hb : b.cls == .nan
    case true.true => exact absurd ⟨eq_of_beq ha, eq_of_beq hb⟩ h
    all_goals rfl

theorem binaryNan_none_swap (h : binaryNan a b = none) : binaryNan b a = none := by
  have hnan : ¬(a.cls = .nan ∧ b.cls = .nan) := by
    intro ⟨ha, hb⟩
    rw [binaryNan_of_nan ha hb] at h
    cases h
  rw [← binaryNan_comm hnan, h]

/-- NaNs with different significands, or of different kinds, are chosen between in the same
way from either side. -/
theorem nanOf_comm (h : a.sig ≠ b.sig) : nanOf a b = nanOf b a := by
  have hlt : a.sig < b.sig ↔ ¬b.sig < a.sig := by
    have hne : a.sig.toNat ≠ b.sig.toNat := fun heq => h (BitVec.eq_of_toNat_eq heq)
    rw [BitVec.lt_def, BitVec.lt_def]
    omega
  unfold nanOf
  cases a.isSnan <;> cases b.isSnan
  case false.true | true.false => rfl
  all_goals
    by_cases hless : a.sig < b.sig
    · simp [hless, hlt.mp hless]
    · simp [hless, not_not.mp (mt hlt.mpr hless)]

theorem nanOf_same (ha : a.cls = .nan) (hb : b.cls = .nan) (h : a.sig = b.sig) :
    nanOf a b = a.quieted := by
  have hkind : a.isSnan = b.isSnan := by
    unfold isSnan
    rw [ha, hb, h]
  have hirrefl : ¬a.sig < b.sig := by
    rw [h, BitVec.lt_def]
    exact lt_irrefl _
  unfold nanOf
  rw [← hkind]
  cases a.isSnan <;> simp [hirrefl]

/-- An operation that gives both operands to the NaN rule first and exchanges them after it. -/
structure Symmetric (op : F80 → F80 → F80 × Exc) : Prop where
  nan : ∀ {a b n}, binaryNan a b = some n → op a b = (n, binaryOperandExc a b)
  rest : ∀ {a b}, binaryNan a b = none → op a b = op b a

variable {op : F80 → F80 → F80 × Exc}

/-- What the operations have in common: they commute exactly on operands that are no twins. -/
theorem Symmetric.alike_iff (h : Symmetric op) :
    Alike (op a b).1 (op b a).1 ∧ (op a b).2 = (op b a).2 ↔ twins a b = false := by
  rw [← Bool.not_eq_true, twins_iff]
  by_cases hnan : a.cls = .nan ∧ b.cls = .nan
  · obtain ⟨ha, hb⟩ := hnan
    rw [h.nan (binaryNan_of_nan ha hb), h.nan (binaryNan_of_nan hb ha), binaryOperandExc_comm b a]
    by_cases hsig : a.sig = b.sig
    · -- the significands are the same, so each order keeps its first operand
      rw [nanOf_same ha hb hsig, nanOf_same hb ha hsig.symm]
      constructor
      · intro ⟨halike, _⟩ htwins
        exact htwins.2.2.2 halike.sign
      · intro htwins
        have hsign : a.sign = b.sign := by
          by_contra hne
          exact htwins ⟨ha, hb, hsig, hne⟩
        have hquiet : a.quieted.sig = b.quieted.sig := by
          change a.sig ||| _ = b.sig ||| _
          rw [hsig]
        exact ⟨⟨hsign, ha.trans hb.symm, hquiet, fun hcls => absurd ha hcls⟩, rfl⟩
    · rw [nanOf_comm hsig]
      exact iff_of_true ⟨Alike.refl _, rfl⟩ fun htwins => hsig htwins.2.2.1
  · have hcomm := binaryNan_comm hnan
    have heq : op a b = op b a := by
      cases hbin : binaryNan a b with
      | none => exact h.rest hbin
      | some n =>
        rw [h.nan hbin, h.nan (hcomm ▸ hbin), binaryOperandExc_comm]
    rw [heq]
    exact iff_of_true ⟨Alike.refl _, rfl⟩ fun htwins => hnan ⟨htwins.1, htwins.2.1⟩

variable (ctl : Ctl)

theorem addNormal_comm (base : Exc) (hexp : a.exp = b.exp) :
    addNormal a b base ctl = addNormal b a base ctl := by
  have halign (v : U64) : alignLow v 0 = v.toNat <<< 64 := by
    unfold alignLow
    rw [if_neg (by decide)]
    rw [if_neg (by simp), Nat.shiftRight_zero]
  unfold addNormal
  rw [hexp, sub_self, Int.toNat_zero, halign, halign]
  generalize a.sig.toNat <<< 64 = m
  generalize b.sig.toNat <<< 64 = n
  by_cases hsign : a.sign = b.sign
  · rw [if_pos hsign, if_pos hsign.symm, hsign, Nat.add_comm m n]
  · rw [if_neg hsign, if_neg (Ne.symm hsign)]
    rcases lt_trichotomy m n with hlt | rfl | hgt
    · have hpos : n - m ≠ 0 := by omega
      rw [if_neg (not_le.mpr hlt), if_pos hlt.le, if_neg hpos]
    · rw [if_pos le_rfl, if_pos (Nat.sub_self m), if_pos le_rfl, if_pos (Nat.sub_self m)]
    · have hpos : m - n ≠ 0 := by omega
      rw [if_pos hgt.le, if_neg hpos, if_neg (not_le.mpr hgt)]

theorem add_symmetric : Symmetric fun a b => addCtl a b ctl where
  nan := by
    intro a b n h
    unfold addCtl addSub
    rw [h]
  rest := by
    intro a b h
    have hswap := binaryNan_none_swap h
    unfold addCtl addSub
    rw [h, hswap, binaryOperandExc_comm b a]
    simp only [Bool.false_eq_true, if_false]
    cases ha : a.cls <;> cases hb : b.cls <;> dsimp only
    case zero.zero => rw [Bool.and_comm]
    case normal.normal =>
      rcases lt_trichotomy a.exp b.exp with hlt | heq | hgt
      · rw [if_neg (by omega), if_pos hlt.le]
      · rw [if_pos heq.ge, if_pos heq.le]
        exact addNormal_comm ctl _ heq
      · rw [if_pos hgt.le, if_neg (by omega)]
    case inf.inf =>
      by_cases hsign : a.sign = b.sign
      · rw [if_pos hsign, if_pos hsign.symm, hsign]
      · rw [if_neg hsign, if_neg (Ne.symm hsign)]

theorem mul_symmetric : Symmetric fun a b => mulCtl a b ctl where
  nan := by
    intro a b n h
    unfold mulCtl
    rw [h]
  rest := by
    intro a b h
    have hswap := binaryNan_none_swap h
    unfold mulCtl
    rw [h, hswap, binaryOperandExc_comm b a, Bool.xor_comm b.sign, Nat.mul_comm b.sig.toNat,
      add_comm b.exp]
    cases a.cls <;> cases b.cls <;> rfl

/-- Adding and multiplying commute in every respect, except for two NaNs with the same significand
and different signs. -/
theorem add_mul_comm_iff (a b : F80) (ctl : Ctl) :
    (Alike (addCtl a b ctl).1 (addCtl b a ctl).1 ∧ (addCtl a b ctl).2 = (addCtl b a ctl).2) ∧
      (Alike (mulCtl a b ctl).1 (mulCtl b a ctl).1 ∧ (mulCtl a b ctl).2 = (mulCtl b a ctl).2) ↔
      twins a b = false := by
  rw [(add_symmetric ctl).alike_iff, (mul_symmetric ctl).alike_iff, and_self]

/-- A quiet NaN and its negative: the sum has the sign of the first operand. -/
theorem indefinite_add_not_comm :
    (addCtl indefinite { indefinite with sign := false } ⟨0x037f⟩).1.sign = true ∧
      (addCtl { indefinite with sign := false } indefinite ⟨0x037f⟩).1.sign = false := by
  decide

end X86Jit.F80
