import X86Jit.Interp.Exec
import X86Jit.Lib.BitPoly

/-! The carry-less product and the CRC, against polynomials over the field of two elements. -/
namespace X86Jit
open X86Jit.Lib Polynomial List

def clmul (x y : U64) : U128 :=
  (range 64).foldl (fun r i => if y.getLsbD i then r ^^^ (x.setWidth 128 <<< i) else r) 0

def selectHalf (a : U128) (high : Bool) : U64 :=
  if high then (a >>> 64).setWidth 64 else a.setWidth 64

def pclmul (a b : U128) (imm : U8) : U128 :=
  clmul (selectHalf a (imm &&& 0x01 != 0)) (selectHalf b (imm &&& 0x10 != 0))

theorem bitPoly_clmul (x y : U64) : bitPoly (clmul x y) = bitPoly x * bitPoly y := by
  have hsteps (k : ℕ) (hk : k ≤ 64) : bitPoly ((range k).foldl
      (fun r i => if y.getLsbD i then r ^^^ (x.setWidth 128 <<< i) else r) 0) =
      bitPoly x * ∑ i ∈ Finset.range k, if y.getLsbD i then X ^ i else 0 := by
    induction k with
    | zero => exact bitPoly_zero.trans (mul_zero _).symm
    | succ k ih =>
      rw [range_succ, foldl_append, Finset.sum_range_succ, mul_add, ← ih (by omega)]
      by_cases hy : y.getLsbD k
      · simp only [foldl_cons, foldl_nil, hy, if_true]
        rw [bitPoly_xor, bitPoly_shiftLeft x (by omega)]
      · simp [hy]
  exact hsteps 64 le_rfl

theorem bitPoly_halves (a : U128) :
    bitPoly a = bitPoly (selectHalf a false) + bitPoly (selectHalf a true) * X ^ 64 := by
  have hsplit : a = (selectHalf a false).setWidth 128 ^^^
      ((selectHalf a true).setWidth 128 <<< 64) := by
    apply BitVec.eq_of_getLsbD_eq
    intro i hi
    by_cases hlow : i < 64
    · simp [selectHalf, hlow, hi]
    · have hin : i - 64 < 64 := by omega
      simp [selectHalf, hlow, hi, hin, Nat.add_sub_cancel' (not_lt.mp hlow)]
  have hpoly := congrArg bitPoly hsplit
  rwa [bitPoly_xor, bitPoly_setWidth _ (by decide), bitPoly_shiftLeft _ (by decide)] at hpoly

structure PclmulLaws : Prop where
  product : ∀ a b imm, bitPoly (pclmul a b imm) =
    bitPoly (selectHalf a (imm &&& 0x01 != 0)) * bitPoly (selectHalf b (imm &&& 0x10 != 0))
  comm : ∀ x y, clmul x y = clmul y x
  xor_left : ∀ x x' y, clmul (x ^^^ x') y = clmul x y ^^^ clmul x' y
  xor_right : ∀ x y y', clmul x (y ^^^ y') = clmul x y ^^^ clmul x y'
  wide : ∀ a b : U128, bitPoly ((pclmul a b 0x00).setWidth 256 ^^^
    ((pclmul a b 0x01 ^^^ pclmul a b 0x10).setWidth 256 <<< 64) ^^^
      ((pclmul a b 0x11).setWidth 256 <<< 128)) = bitPoly a * bitPoly b

/-- The carry-less multiply is the product of polynomials over the field of two elements. -/
theorem pclmul_laws : PclmulLaws where
  product a b imm := bitPoly_clmul _ _
  comm x y := by
    apply bitPoly_injective
    rw [bitPoly_clmul, bitPoly_clmul, mul_comm]
  xor_left x x' y := by
    apply bitPoly_injective
    rw [bitPoly_xor, bitPoly_clmul, bitPoly_clmul, bitPoly_clmul, bitPoly_xor, add_mul]
  xor_right x y y' := by
    apply bitPoly_injective
    rw [bitPoly_xor, bitPoly_clmul, bitPoly_clmul, bitPoly_clmul, bitPoly_xor, mul_add]
  wide a b := by
    have hlow : pclmul a b 0x00 = clmul (selectHalf a false) (selectHalf b false) := rfl
    have hleft : pclmul a b 0x01 = clmul (selectHalf a true) (selectHalf b false) := rfl
    have hright : pclmul a b 0x10 = clmul (selectHalf a false) (selectHalf b true) := rfl
    have hhigh : pclmul a b 0x11 = clmul (selectHalf a true) (selectHalf b true) := rfl
    rw [hlow, hleft, hright, hhigh, bitPoly_xor, bitPoly_xor, bitPoly_setWidth _ (by decide),
      bitPoly_shiftLeft _ (by decide), bitPoly_shiftLeft _ (by decide), bitPoly_xor,
      bitPoly_halves a, bitPoly_halves b]
    simp only [bitPoly_clmul]
    ring

/-- `x ^ 32` and the bits `crcBit` has in reflected order. -/
noncomputable def crcPoly : (ZMod 2)[X] := X ^ 32 + bitPoly (0x1edc6f41 : U32)

/-- The lowest bit of a byte comes first. -/
noncomputable def messagePoly (bs : List U8) : (ZMod 2)[X] :=
  bs.foldl (fun p b => p * X ^ 8 + bitPoly b.reverse) 0

def crcByte (crc : U32) (b : U8) : U32 := crcBit^[8] (crc ^^^ b.setWidth 32)

theorem crcPoly_monic : crcPoly.Monic := monic_X_pow_add (degree_bitPoly_lt _)

theorem degree_crcPoly : crcPoly.degree = (32 : ℕ) := by
  have hlt : (bitPoly (0x1edc6f41 : U32)).degree < (X ^ 32 : (ZMod 2)[X]).degree := by
    rw [degree_X_pow]
    exact degree_bitPoly_lt _
  rw [crcPoly, degree_add_eq_left_of_degree_lt hlt, degree_X_pow]

theorem getLsbD_reverse {w i : ℕ} (x : BitVec w) (hi : i < w) :
    x.reverse.getLsbD i = x.getLsbD (w - 1 - i) := by
  rw [BitVec.getLsbD_reverse, BitVec.getMsbD, decide_eq_true hi, Bool.true_and]

theorem reverse_xor (x y : U32) : (x ^^^ y).reverse = x.reverse ^^^ y.reverse := by
  apply BitVec.eq_of_getLsbD_eq
  intro i hi
  simp only [BitVec.getLsbD_xor, getLsbD_reverse _ hi]

theorem reverse_crcBit (c : U32) : (crcBit c).reverse =
    (c.reverse <<< 1) ^^^ if c.reverse.msb then 0x1edc6f41 else 0 := by
  have hshift : (c >>> 1).reverse = c.reverse <<< 1 := by
    apply BitVec.eq_of_getLsbD_eq
    intro i hi
    rw [getLsbD_reverse _ hi, BitVec.getLsbD_shiftLeft, BitVec.getLsbD_ushiftRight]
    cases i with
    | zero => exact BitVec.getLsbD_of_ge c 32 le_rfl
    | succ i =>
      have hfrom : 1 + (30 - i) = 31 - i := by omega
      simp [getLsbD_reverse c (Nat.lt_of_succ_lt hi), hfrom, hi]
  have hlow : c &&& 1 = (BitVec.ofBool (c.getLsbD 0)).setWidth 32 :=
    BitVec.and_one_eq_setWidth_ofBool_getLsbD
  have hmsb : c.reverse.msb = c.getLsbD 0 := by
    rw [BitVec.msb_eq_getLsbD_last, getLsbD_reverse c (by decide)]
  rw [crcBit, reverse_xor, hshift, hlow, hmsb]
  congr 1
  cases c.getLsbD 0 <;> decide +kernel

theorem bitPoly_crcBit (c : U32) :
    bitPoly (crcBit c).reverse = (bitPoly c.reverse * X) %ₘ crcPoly := by
  refine ((div_modByMonic_unique (if c.reverse.msb then 1 else 0) _ crcPoly_monic ⟨?_, ?_⟩).2).symm
  · rw [reverse_crcBit, bitPoly_xor, bitPoly_shiftLeft_one, crcPoly]
    cases c.reverse.msb
    · simpa using bitPoly_zero
    · simp only [if_true, mul_one]
      rw [add_assoc (bitPoly _ * X), add_assoc, CharTwo.add_self_eq_zero, add_zero]
  · rw [degree_crcPoly]
    exact degree_bitPoly_lt _

theorem mod_mul_add (p q r : (ZMod 2)[X]) :
    (p %ₘ crcPoly * q + r) %ₘ crcPoly = (p * q + r) %ₘ crcPoly := by
  apply modByMonic_eq_of_dvd_sub crcPoly_monic
  rw [modByMonic_eq_sub_mul_div]
  exact ⟨-(p /ₘ crcPoly * q), by ring⟩

theorem bitPoly_crcBit_iterate (c : U32) (n : ℕ) :
    bitPoly (crcBit^[n] c).reverse = (bitPoly c.reverse * X ^ n) %ₘ crcPoly := by
  induction n with
  | zero =>
    rw [pow_zero, mul_one, Function.iterate_zero_apply, eq_comm,
      modByMonic_eq_self_iff crcPoly_monic, degree_crcPoly]
    exact degree_bitPoly_lt _
  | succ n ih =>
    have hmod := mod_mul_add (bitPoly c.reverse * X ^ n) X 0
    rw [add_zero, add_zero] at hmod
    rw [Function.iterate_succ_apply', bitPoly_crcBit, ih, hmod, pow_succ, mul_assoc]

theorem bitPoly_crcByte (c : U32) (b : U8) : bitPoly (crcByte c b).reverse =
    (bitPoly c.reverse * X ^ 8 + bitPoly b.reverse * X ^ 32) %ₘ crcPoly := by
  have hbyte : (b.setWidth 32).reverse = b.reverse.setWidth 32 <<< 24 := by
    apply BitVec.eq_of_getLsbD_eq
    intro i hi
    rw [getLsbD_reverse _ hi, BitVec.getLsbD_shiftLeft, BitVec.getLsbD_setWidth,
      BitVec.getLsbD_setWidth]
    by_cases hhigh : 24 ≤ i
    · have hfrom : 8 - 1 - (i - 24) = 32 - 1 - i := by omega
      rw [getLsbD_reverse b (by omega), hfrom]
      have hin : i - 24 < 32 ∧ 31 - i < 32 ∧ ¬i < 24 := by omega
      simp [hin, hi]
    · rw [BitVec.getLsbD_of_ge b (32 - 1 - i) (by omega)]
      simp [not_le.mp hhigh]
  rw [crcByte, bitPoly_crcBit_iterate, reverse_xor, bitPoly_xor, hbyte,
    bitPoly_shiftLeft _ (by decide), add_mul, mul_assoc, ← pow_add]

theorem bitPoly_crcBytes (c : U32) (bs : List U8) :
    bitPoly (bs.foldl crcByte c).reverse =
      (bitPoly c.reverse * X ^ (8 * bs.length) + messagePoly bs * X ^ 32) %ₘ crcPoly := by
  induction bs using reverseRecOn with
  | nil =>
    have hnone := bitPoly_crcBit_iterate c 0
    rw [length_nil, mul_zero, messagePoly, foldl_nil, foldl_nil, zero_mul, add_zero]
    exact hnone
  | append_singleton bs b ih =>
    have hmessage : messagePoly (bs ++ [b]) = messagePoly bs * X ^ 8 + bitPoly b.reverse := by
      rw [messagePoly, foldl_append]
      rfl
    rw [foldl_append, foldl_cons, foldl_nil, bitPoly_crcByte, ih, mod_mul_add,
      hmessage, length_append, length_singleton]
    refine congrArg (· %ₘ crcPoly) ?_
    ring

theorem crc32c_eq (c : U32) (src : U64) (n : ℕ) :
    crc32c c src n = (Memory.leBytes src n).foldl crcByte c := by
  rw [crc32c, Memory.leBytes, foldl_map]
  congr 1
  funext c i
  have hbyte : ((src >>> (i * 8)) &&& 0xff).setWidth 32 =
      ((src >>> (8 * i)).setWidth 8).setWidth 32 := by
    apply BitVec.eq_of_toNat_eq
    rw [mul_comm i, BitVec.toNat_setWidth, BitVec.toNat_setWidth, BitVec.toNat_setWidth,
      BitVec.toNat_and]
    exact congrArg (· % 2 ^ 32) (Nat.and_two_pow_sub_one_eq_mod _ 8)
  rw [crcByte, hbyte]

theorem foldl_crc32c (crc : U32) (chunks : List (Size × U64)) :
    chunks.foldl (fun c p => crc32c c p.2 p.1.bytes) crc =
      (chunks.flatMap fun p => Memory.leBytes p.2 p.1.bytes).foldl crcByte crc := by
  induction chunks generalizing crc with
  | nil => rfl
  | cons p chunks ih => rw [foldl_cons, ih, flatMap_cons, foldl_append, crc32c_eq]

/-- However a message is cut into words, the register ends with its remainder. -/
theorem crc32c_chunks (crc : U32) (chunks : List (Size × U64)) :
    let bs := chunks.flatMap fun p => Memory.leBytes p.2 p.1.bytes
    let value := chunks.foldl (fun c p => crc32c c p.2 p.1.bytes) crc
    value = bs.foldl crcByte crc ∧ bitPoly value.reverse =
      (bitPoly crc.reverse * X ^ (8 * bs.length) + messagePoly bs * X ^ 32) %ₘ crcPoly := by
  refine ⟨foldl_crc32c crc chunks, ?_⟩
  rw [foldl_crc32c]
  exact bitPoly_crcBytes crc _

end X86Jit
