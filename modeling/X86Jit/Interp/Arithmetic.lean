import X86Jit.Interp.State
import X86Jit.Lib.Bits

/-! The adders of the integer ALU against arithmetic in the integers: the flags say where the
exact result has left the range of the unsigned or of the signed numbers. -/
namespace X86Jit
open X86Jit.Lib BitVec Nat

section Words
variable (v : U64) (size : Size)

theorem Size.bits_pos : 8 ≤ size.bits ∧ size.bits ≤ 64 := by
  cases size <;> decide

theorem toNat_mask : (mask size).toNat = 2 ^ size.bits - 1 := by
  cases size <;> decide

theorem toNat_and_mask : (v &&& mask size).toNat = v.toNat % 2 ^ size.bits := by
  rw [toNat_and, toNat_mask]
  exact and_two_pow_sub_one_eq_mod _ _

theorem toNat_and_mask_lt : (v &&& mask size).toNat < 2 ^ size.bits := by
  rw [toNat_and_mask]
  exact Nat.mod_lt _ (Nat.two_pow_pos _)

theorem toNat_and_shiftMask :
    (v &&& shiftMask size).toNat = v.toNat % (if size.bytes = 8 then 64 else 32) := by
  cases size
  case b8 => exact and_two_pow_sub_one_eq_mod v.toNat 6
  all_goals exact and_two_pow_sub_one_eq_mod v.toNat 5

theorem toNat_and_shiftMask_lt : (v &&& shiftMask size).toNat < 64 := by
  rw [toNat_and_shiftMask]
  split <;> omega

theorem getLsbD_mask (i : ℕ) : (mask size).getLsbD i = decide (i < size.bits) := by
  rw [getLsbD, toNat_mask, testBit_two_pow_sub_one]

theorem and_mask_eq : v &&& mask size = (v.setWidth size.bits).setWidth 64 := by
  apply eq_of_getLsbD_eq
  intro i hi
  simp only [getLsbD_and, getLsbD_mask, getLsbD_setWidth, hi, decide_true,
    Bool.true_and, Bool.and_comm]

theorem setWidth_word (x : BitVec size.bits) : (x.setWidth 64).setWidth size.bits = x := by
  rw [setWidth_setWidth_of_le _ size.bits_pos.2, setWidth_eq]

theorem signBit_test : (v &&& signBit size != 0) = v.getLsbD (size.bits - 1) := by
  have hb := size.bits_pos
  exact and_one_shiftLeft_bne_zero v _ (by omega)

theorem top_bit {v : U64} (h : v.toNat < 2 ^ size.bits) :
    v.getLsbD (size.bits - 1) = decide (2 ^ (size.bits - 1) ≤ v.toNat) := by
  rw [getLsbD, testBit_eq_decide_div_mod_eq, decide_eq_decide]
  cases size <;> simp only [Size.bits, Size.bytes] at * <;> omega

theorem toInt_signExtend : (signExtend v size).toInt = (v.setWidth size.bits).toInt := by
  have hnarrow (n : ℕ) (hn : n = 8 ∨ n = 16 ∨ n = 32) :
      ((v <<< (64 - n)).sshiftRight (64 - n)).toInt = (v.setWidth n).toInt := by
    rw [toInt_sshiftRight, toInt_shiftLeft, toInt_setWidth,
      Int.shiftRight_eq_div_pow, Nat.shiftLeft_eq]
    simp only [Int.bmod]
    rcases hn with rfl | rfl | rfl <;> push_cast <;> omega
  cases size with
  | b1 => exact hnarrow 8 (Or.inl rfl)
  | b2 => exact hnarrow 16 (Or.inr (Or.inl rfl))
  | b4 => exact hnarrow 32 (Or.inr (Or.inr rfl))
  | b8 =>
    change v.toInt = (v.setWidth 64).toInt
    rw [setWidth_eq]

theorem signExtend_and_mask : signExtend (v &&& mask size) size = signExtend v size := by
  have htrunc : (v &&& mask size).setWidth size.bits = v.setWidth size.bits := by
    apply eq_of_toNat_eq
    rw [toNat_setWidth, toNat_and_mask, mod_mod, toNat_setWidth]
  rw [← toInt_inj, toInt_signExtend, toInt_signExtend, htrunc]

theorem toNat_and_nibble : (v &&& 0xf).toNat = v.toNat % 16 :=
  and_two_pow_sub_one_eq_mod v.toNat 4

theorem and_sixteen_test {w : ℕ} (v : BitVec w) (hw : 4 < w) :
    (v &&& (1#w <<< 4) != 0) = decide (v.toNat / 16 % 2 = 1) := by
  rw [and_one_shiftLeft_bne_zero v 4 hw, getLsbD, testBit_eq_decide_div_mod_eq]

theorem carry_toNat (f : Flags) : (carry f).toNat = f.cf.toNat := by
  unfold carry
  cases f.cf <;> decide

end Words

section Sums
variable (a b c : U64) (size : Size)

theorem aluAdd_res_toNat : (aluAdd a b c size).res.toNat =
      ((a &&& mask size).toNat + (b &&& mask size).toNat + c.toNat) % 2 ^ size.bits := by
  have ha := (a &&& mask size).isLt
  have hb := (b &&& mask size).isLt
  simp only [aluAdd, toNat_and_mask _ size, toNat_setWidth, toNat_add] at ha hb ⊢
  cases size <;> simp only [Size.bits, Size.bytes] at * <;> omega

theorem aluAdd_cf (hc : c.toNat ≤ 1) : (aluAdd a b c size).cf =
      decide (2 ^ size.bits ≤ (a &&& mask size).toNat + (b &&& mask size).toNat + c.toNat) := by
  have ha := toNat_and_mask_lt a size
  have hb := toNat_and_mask_lt b size
  simp only [aluAdd, shiftRight_and_one_bne_zero, getLsbD, testBit_eq_decide_div_mod_eq,
    toNat_setWidth, toNat_add, decide_eq_decide]
  cases size <;> simp only [Size.bits, Size.bytes] at * <;> omega

theorem aluSub_res_toNat (hc : c.toNat ≤ 1) : (aluSub a b c size).res.toNat =
      ((a &&& mask size).toNat + (2 ^ 64 - (b &&& mask size).toNat) + (2 ^ 64 - c.toNat)) %
        2 ^ size.bits := by
  have ha := toNat_and_mask_lt a size
  have hb := toNat_and_mask_lt b size
  simp only [aluSub, toNat_and_mask _ size, toNat_setWidth, toNat_sub] at ha hb ⊢
  cases size <;> simp only [Size.bits, Size.bytes] at * <;> omega

end Sums

def Size.unsigned (size : Size) (v : U64) : ℤ := (v.setWidth size.bits).toNat

def Size.signed (size : Size) (v : U64) : ℤ := (v.setWidth size.bits).toInt

/-- Of the operands as unsigned numbers, as signed numbers, and of their low nibbles. -/
structure Exact where
  unsigned : ℤ
  signed : ℤ
  nibble : ℤ

def exactAdd (size : Size) (a b : U64) (c : ℤ) : Exact where
  unsigned := size.unsigned a + size.unsigned b + c
  signed := size.signed a + size.signed b + c
  nibble := size.unsigned a % 16 + size.unsigned b % 16 + c

def exactSub (size : Size) (a b : U64) (c : ℤ) : Exact where
  unsigned := size.unsigned a - size.unsigned b - c
  signed := size.signed a - size.signed b - c
  nibble := size.unsigned a % 16 - size.unsigned b % 16 - c

namespace Exact

def res (e : Exact) (size : Size) : ℤ := e.unsigned % 2 ^ size.bits

/-- CF, AF and OF say that the exact result is out of range, the others speak of what is left
of it. -/
def flag (e : Exact) (size : Size) : Flag → Bool
  | .cf => decide ¬(0 ≤ e.unsigned ∧ e.unsigned < 2 ^ size.bits)
  | .pf => decide (Even (BitVec.ofInt 8 (e.res size)).cpop.toNat)
  | .af => decide ¬(0 ≤ e.nibble ∧ e.nibble < 16)
  | .zf => decide (e.res size = 0)
  | .sf => decide (2 ^ (size.bits - 1) ≤ e.res size)
  | .of => decide ¬(-2 ^ (size.bits - 1) ≤ e.signed ∧ e.signed < 2 ^ (size.bits - 1))

structure Gives (e : Exact) (size : Size) (r : AluResult) : Prop where
  res : (r.res.toNat : ℤ) = e.res size
  flag : ∀ x, r.get x = e.flag size x

theorem Gives.of_res {e : Exact} {size : Size} {r : AluResult}
    (hres : (r.res.toNat : ℤ) = e.res size) (hpf : r.pf = parity r.res)
    (hzf : r.zf = (r.res == 0)) (hsf : r.sf = (r.res &&& signBit size != 0))
    (hcf : r.cf = e.flag size .cf) (haf : r.af = e.flag size .af)
    (hof : r.of = e.flag size .of) : e.Gives size r := by
  refine ⟨hres, ?_⟩
  have hlt : r.res.toNat < 2 ^ size.bits := by
    have hmod := Int.emod_lt_of_pos e.unsigned (Int.pow_pos (by decide) : 0 < (2 : ℤ) ^ size.bits)
    rw [← Exact.res, ← hres] at hmod
    exact_mod_cast hmod
  intro x
  cases x with
  | cf => exact hcf
  | af => exact haf
  | of => exact hof
  | pf =>
    have hbyte : r.res.setWidth 8 = BitVec.ofInt 8 (e.res size) := by
      rw [← hres, ofInt_natCast]
      apply eq_of_toNat_eq
      rw [toNat_setWidth, toNat_ofNat]
    change r.pf = _
    rw [hpf, parity, evenParity, hbyte, Exact.flag, beq_eq_decide, decide_eq_decide, even_iff]
  | zf =>
    change r.zf = _
    rw [hzf, beq_eq_decide, Exact.flag, decide_eq_decide, ← hres, ← toNat_inj]
    exact_mod_cast Iff.rfl
  | «sf» =>
    change r.sf = _
    rw [hsf, signBit_test, top_bit size hlt, Exact.flag, decide_eq_decide, ← hres]
    exact_mod_cast Iff.rfl

end Exact

variable (size : Size) (a b : U64)

theorem unsigned_eq : size.unsigned a = ((a &&& mask size).toNat : ℤ) := by
  rw [Size.unsigned, toNat_setWidth, toNat_and_mask]

theorem signed_eq :
    size.signed a = if 2 ^ (size.bits - 1) ≤ (a &&& mask size).toNat
      then ((a &&& mask size).toNat : ℤ) - 2 ^ size.bits else (a &&& mask size).toNat := by
  rw [Size.signed, toInt_eq_toNat_cond, toNat_setWidth, ← toNat_and_mask]
  generalize (a &&& mask size).toNat = n
  have hhalf : 2 * n < 2 ^ size.bits ↔ ¬2 ^ (size.bits - 1) ≤ n := by
    cases size <;> simp only [Size.bits, Size.bytes] <;> omega
  by_cases h : 2 ^ (size.bits - 1) ≤ n
  · rw [if_pos h, if_neg (fun hlt => hhalf.mp hlt h)]
    rfl
  · rw [if_neg h, if_pos (hhalf.mpr h)]

theorem aluAdd_gives {c : U64} (hc : c.toNat ≤ 1) :
    (exactAdd size a b c.toNat).Gives size (aluAdd a b c size) := by
  have ha := toNat_and_mask_lt a size
  have hb := toNat_and_mask_lt b size
  have hres := aluAdd_res_toNat a b c size
  have hlt : (aluAdd a b c size).res.toNat < 2 ^ size.bits := by
    rw [hres]
    exact Nat.mod_lt _ (Nat.two_pow_pos _)
  refine .of_res ?_ rfl rfl rfl ?_ ?_ ?_
  · rw [hres, Exact.res, exactAdd, unsigned_eq, unsigned_eq]
    rfl
  · rw [aluAdd_cf a b c size hc, Exact.flag, decide_eq_decide, exactAdd, unsigned_eq, unsigned_eq]
    cases size <;> simp only [Size.bits, Size.bytes] at * <;> omega
  · have h16 : (0x10 : U64) = 1#64 <<< 4 := by decide
    rw [Exact.flag, exactAdd, unsigned_eq, unsigned_eq, aluAdd]
    rw [h16, and_sixteen_test _ (by decide), decide_eq_decide]
    simp only [toNat_add, toNat_and_nibble]
    omega
  · change (~~~((a &&& mask size) ^^^ (b &&& mask size)) &&&
      ((a &&& mask size) ^^^ (aluAdd a b c size).res) &&& signBit size != 0) = _
    have hin : size.bits - 1 < 64 := by have := size.bits_pos; omega
    rw [signBit_test, getLsbD_and, getLsbD_not, getLsbD_xor,
      getLsbD_xor, top_bit size hlt, top_bit size ha, top_bit size hb, hres, Exact.flag,
      exactAdd, signed_eq, signed_eq, decide_eq_true hin]
    generalize (a &&& mask size).toNat = x at ha
    generalize (b &&& mask size).toNat = y at hb
    generalize c.toNat = z at hc
    rw [Bool.eq_iff_iff, Bool.true_and, Bool.and_eq_true, Bool.not_eq_true', bne_eq_false_iff_eq,
      bne_iff_ne, decide_eq_true_eq, ne_eq, decide_eq_decide, decide_eq_decide]
    cases size <;> simp only [Size.bits, Size.bytes] at * <;> omega

theorem aluSub_gives {c : U64} (hc : c.toNat ≤ 1) :
    (exactSub size a b c.toNat).Gives size (aluSub a b c size) := by
  have ha := toNat_and_mask_lt a size
  have hb := toNat_and_mask_lt b size
  have hres := aluSub_res_toNat a b c size hc
  have hlt : (aluSub a b c size).res.toNat < 2 ^ size.bits := by
    rw [hres]
    exact Nat.mod_lt _ (Nat.two_pow_pos _)
  refine .of_res ?_ rfl rfl rfl ?_ ?_ ?_
  · rw [hres, Exact.res, exactSub, unsigned_eq, unsigned_eq]
    cases size <;> simp only [Size.bits, Size.bytes] at * <;> omega
  · change (setWidth 128 (a &&& mask size)).ult _ = _
    rw [ult_eq_decide, toNat_add, toNat_setWidth, toNat_setWidth,
      toNat_setWidth, Exact.flag, decide_eq_decide, exactSub, unsigned_eq, unsigned_eq]
    cases size <;> simp only [Size.bits, Size.bytes] at * <;> omega
  · change ((a &&& mask size) &&& 0xf).ult (((b &&& mask size) &&& 0xf) + c) = _
    rw [ult_eq_decide, toNat_add, toNat_and_nibble, toNat_and_nibble, Exact.flag,
      decide_eq_decide, exactSub, unsigned_eq, unsigned_eq]
    dsimp only
    omega
  · change (((a &&& mask size) ^^^ (b &&& mask size)) &&&
      ((a &&& mask size) ^^^ (aluSub a b c size).res) &&& signBit size != 0) = _
    rw [signBit_test, getLsbD_and, getLsbD_xor, getLsbD_xor,
      top_bit size hlt, top_bit size ha, top_bit size hb, hres, Exact.flag, exactSub, signed_eq,
      signed_eq]
    generalize (a &&& mask size).toNat = x at ha
    generalize (b &&& mask size).toNat = y at hb
    generalize c.toNat = z at hc
    rw [Bool.eq_iff_iff, Bool.and_eq_true, bne_iff_ne, bne_iff_ne, decide_eq_true_eq, ne_eq, ne_eq,
      decide_eq_decide, decide_eq_decide]
    cases size <;> simp only [Size.bits, Size.bytes] at * <;> omega

/-- What the operation left: the exact value, and the exact flags where the mask selects them. -/
structure Exact.Commits (e : Exact) (size : Size) (m : FlagMask) (f : Flags) (out : U64 × Flags) :
    Prop where
  value : (out.1.toNat : ℤ) = e.res size
  flags : ∀ x, out.2.get x = if m.has x then e.flag size x else f.get x

theorem Exact.Gives.commits {e : Exact} {size : Size} {r : AluResult} (h : e.Gives size r)
    (f : Flags) (m : FlagMask) : e.Commits size m f (r.res, apply f m r) := by
  refine ⟨h.res, ?_⟩
  intro x
  rw [get_apply, h.flag]

section Conditions

/-- What a condition code asks after `b`, and a borrow, were subtracted from `a`. -/
def Cond.asks (size : Size) (a b : U64) (c : ℤ) : Cond → Bool
  | .eq => decide (size.unsigned a = (size.unsigned b + c) % 2 ^ size.bits)
  | .ne => decide (size.unsigned a ≠ (size.unsigned b + c) % 2 ^ size.bits)
  | .below => decide (size.unsigned a < size.unsigned b + c)
  | .belowEq => decide (size.unsigned a ≤ size.unsigned b + c)
  | .above => decide (size.unsigned b + c < size.unsigned a)
  | .aboveEq => decide (size.unsigned b + c ≤ size.unsigned a)
  | .less => decide (size.signed a < size.signed b + c)
  | .lessEq => decide (size.signed a ≤ size.signed b + c)
  | .greater => decide (size.signed b + c < size.signed a)
  | .greaterEq => decide (size.signed b + c ≤ size.signed a)
  | .sign => (exactSub size a b c).flag size .sf
  | .noSign => !(exactSub size a b c).flag size .sf
  | .overflow => (exactSub size a b c).flag size .of
  | .noOverflow => !(exactSub size a b c).flag size .of
  | .parity => (exactSub size a b c).flag size .pf
  | .noParity => !(exactSub size a b c).flag size .pf

variable {c : ℤ} {f : Flags} (h : ∀ x, f.get x = (exactSub size a b c).flag size x)
include h

theorem zf_iff : f.zf = true ↔ size.unsigned a = (size.unsigned b + c) % 2 ^ size.bits := by
  have ha := toNat_and_mask_lt a size
  have hz : f.zf = (exactSub size a b c).flag size .zf := h .zf
  rw [hz, Exact.flag, decide_eq_true_eq, Exact.res, exactSub, unsigned_eq]
  cases size <;> simp only [Size.bits, Size.bytes] at * <;> omega

variable (hc : 0 ≤ c ∧ c ≤ 1)
include hc

theorem cf_iff : f.cf = true ↔ size.unsigned a < size.unsigned b + c := by
  have ha := toNat_and_mask_lt a size
  have hz : f.cf = (exactSub size a b c).flag size .cf := h .cf
  rw [hz, Exact.flag, decide_eq_true_eq, exactSub, unsigned_eq, unsigned_eq]
  cases size <;> simp only [Size.bits, Size.bytes] at * <;> omega

/-- SF is the sign of the difference that is left, and OF says that it is the wrong one. -/
theorem sf_ne_of_iff : f.sf ≠ f.of ↔ size.signed a < size.signed b + c := by
  have ha := toNat_and_mask_lt a size
  have hb := toNat_and_mask_lt b size
  have hs : f.sf = (exactSub size a b c).flag size .sf := h .sf
  have ho : f.of = (exactSub size a b c).flag size .of := h .of
  rw [hs, ho, Exact.flag, Exact.flag, ne_eq, decide_eq_decide, Exact.res, exactSub, unsigned_eq,
    unsigned_eq, signed_eq, signed_eq]
  cases size <;> simp only [Size.bits, Size.bytes] at * <;> omega

theorem belowEq_iff : f.cf = true ∨ f.zf = true ↔ size.unsigned a ≤ size.unsigned b + c := by
  have ha := toNat_and_mask_lt a size
  rw [cf_iff size a b h hc, zf_iff size a b h, unsigned_eq, unsigned_eq]
  cases size <;> simp only [Size.bits, Size.bytes] at * <;> omega

theorem lessEq_iff : f.sf ≠ f.of ∨ f.zf = true ↔ size.signed a ≤ size.signed b + c := by
  have ha := toNat_and_mask_lt a size
  rw [sf_ne_of_iff size a b h hc, zf_iff size a b h, unsigned_eq, unsigned_eq, signed_eq,
    signed_eq]
  cases size <;> simp only [Size.bits, Size.bytes] at * <;> omega

theorem evalCond_asks (cond : Cond) : evalCond cond f = cond.asks size a b c := by
  have hzf := zf_iff size a b h
  have hcf := cf_iff size a b h hc
  have hlt := sf_ne_of_iff size a b h hc
  have hle := belowEq_iff size a b h hc
  have hsle := lessEq_iff size a b h hc
  rw [Bool.eq_iff_iff]
  cases cond with
  | eq => exact hzf.trans decide_eq_true_iff.symm
  | ne => simp [evalCond, Cond.asks, ← hzf]
  | below => exact hcf.trans decide_eq_true_iff.symm
  | aboveEq => simp [evalCond, Cond.asks, ← not_lt, ← hcf]
  | belowEq => simp [evalCond, Cond.asks, ← hle]
  | above => simp [evalCond, Cond.asks, ← not_le, ← hle]
  | less => simp [evalCond, Cond.asks, ← hlt]
  | greaterEq => simp [evalCond, Cond.asks, ← not_lt, ← hlt]
  | lessEq => simp [evalCond, Cond.asks, ← hsle]
  | greater => simp [evalCond, Cond.asks, ← not_le, ← hsle]
  | sign => exact Bool.eq_iff_iff.mp (h .sf)
  | noSign => exact Bool.eq_iff_iff.mp (congrArg not (h .sf))
  | overflow => exact Bool.eq_iff_iff.mp (h .of)
  | noOverflow => exact Bool.eq_iff_iff.mp (congrArg not (h .of))
  | parity => exact Bool.eq_iff_iff.mp (h .pf)
  | noParity => exact Bool.eq_iff_iff.mp (congrArg not (h .pf))

end Conditions

/-- The four adding operations are those of the integers, and after a subtraction every condition
code compares the operands as it says. -/
theorem arithmetic_exact (f : Flags) (a b : U64) (size : Size) (m : FlagMask) :
    (exactAdd size a b 0).Commits size m f (execAdd f a b size m) ∧
      (exactAdd size a b f.cf.toNat).Commits size m f (execAdc f a b size m) ∧
      (exactSub size a b 0).Commits size m f (execSub f a b size m) ∧
      (exactSub size a b f.cf.toNat).Commits size m f (execSbb f a b size m) ∧
      (∀ cond, evalCond cond (execSub f a b size .all).2 = cond.asks size a b 0) ∧
      ∀ cond, evalCond cond (execSbb f a b size .all).2 = cond.asks size a b f.cf.toNat := by
  have hcarry := carry_toNat f
  have hle : (carry f).toNat ≤ 1 := hcarry ▸ f.cf.toNat_le
  have hadd (m : FlagMask) := (aluAdd_gives size a b (c := 0) (zero_le 1)).commits f m
  have hadc (m : FlagMask) := (aluAdd_gives size a b hle).commits f m
  have hsub (m : FlagMask) := (aluSub_gives size a b (c := 0) (zero_le 1)).commits f m
  have hsbb (m : FlagMask) := (aluSub_gives size a b hle).commits f m
  rw [hcarry] at hadc hsbb
  refine ⟨hadd m, hadc m, hsub m, hsbb m, ?_, ?_⟩
  · intro cond
    refine evalCond_asks size a b ?_ (by decide) cond
    intro x
    exact ((hsub .all).flags x).trans (if_pos (FlagMask.has_all x))
  · intro cond
    refine evalCond_asks size a b ?_ (by cases f.cf <;> decide) cond
    intro x
    exact ((hsbb .all).flags x).trans (if_pos (FlagMask.has_all x))

end X86Jit
