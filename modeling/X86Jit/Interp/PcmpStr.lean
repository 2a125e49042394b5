import Mathlib.Data.BitVec
import X86Jit.Lib.Bits

/-! The packed string compares. The manual's definition stands beside that of the code. -/
namespace X86Jit.PcmpStr
open X86Jit.Lib BitVec Bool

section Control
variable (imm : BitVec 8)

def words : Bool := imm &&& 1 != 0
def signed : Bool := imm &&& 2 != 0
def agg : BitVec 8 := (imm >>> 2) &&& 3
def polarity : BitVec 8 := (imm >>> 4) &&& 3

/-- The index is that of the highest bit, or the mask has whole elements. -/
def high : Bool := imm &&& 0x40 != 0

def count : ℕ := if words imm then 8 else 16
def elemBits : ℕ := if words imm then 16 else 8

end Control

structure StrFlags where
  cf : Bool
  zf : Bool
  sf : Bool
  of : Bool
  deriving DecidableEq, Repr

variable (a b : BitVec 128) (len1 len2 : ℕ) (imm : BitVec 8)

def elemMask : BitVec 128 := if words imm then 0xffff else 0xff

def get (v : BitVec 128) (i : ℕ) : BitVec 32 :=
  let raw := ((v >>> (i * elemBits imm)) &&& elemMask imm).setWidth 32
  if signed imm then
    if words imm then (raw.setWidth 16).signExtend 32 else (raw.setWidth 8).signExtend 32
  else raw

/-- The comparison of two elements, with what is forced where one of them is beyond its length. -/
def overridden (i j : ℕ) : Bool :=
  let base :=
    if agg imm = 1 then
      -- the even elements are the lower bounds of ranges, the odd ones the upper bounds
      if j % 2 = 0 then (get imm a j).sle (get imm b i) else (get imm b i).sle (get imm a j)
    else get imm a j == get imm b i
  let ai := decide (len1 ≤ j)
  let bi := decide (len2 ≤ i)
  if agg imm = 0 ∨ agg imm = 1 then
    if ai || bi then false else base
  else if agg imm = 2 then
    if ai && bi then true else if ai != bi then false else base
  else if ai then true
  else if bi then false
  else base

def bit (i : ℕ) : Bool :=
  if agg imm = 0 then (List.range (count imm)).any fun j => overridden a b len1 len2 imm i j
  else if agg imm = 1 then
    (List.range (count imm / 2)).any fun t =>
      overridden a b len1 len2 imm i (2 * t) && overridden a b len1 len2 imm i (2 * t + 1)
  else if agg imm = 2 then overridden a b len1 len2 imm i i
  else
    (List.range (count imm)).all fun j =>
      if i + j < count imm then overridden a b len1 len2 imm (i + j) j
      -- past the end of the second operand, the first one has to be at its end
      else decide (len1 ≤ j)

def intres1 : BitVec 32 :=
  (List.range (count imm)).foldl
    (fun r i => if bit a b len1 len2 imm i then r ||| (1#32 <<< i) else r) 0

def nmask : BitVec 32 := if words imm then 0xff else 0xffff

def intres2 : BitVec 32 :=
  (if polarity imm = 1 then ~~~(intres1 a b len1 len2 imm) &&& nmask imm
    else if polarity imm = 3 then
      -- only the elements of the second operand that are there
      intres1 a b len1 len2 imm ^^^ ((1#32 <<< min len2 (count imm)) - 1)
    else intres1 a b len1 len2 imm &&& nmask imm) &&& nmask imm

def flags : StrFlags :=
  ⟨intres2 a b len1 len2 imm != 0, decide (len2 < count imm), decide (len1 < count imm),
    intres2 a b len1 len2 imm &&& 1 != 0⟩

def trailingZeros (v : BitVec 32) : ℕ := ((List.range 32).find? fun i => v.getLsbD i).getD 32
def leadingZeros (v : BitVec 32) : ℕ := ((List.range 32).find? fun i => v.getLsbD (31 - i)).getD 32

def pcmpstr : ℕ × StrFlags :=
  let r := intres2 a b len1 len2 imm
  (if r = 0 then count imm else if high imm then 31 - leadingZeros r else trailingZeros r,
    flags a b len1 len2 imm)

def pcmpstrMask : BitVec 128 × StrFlags :=
  let r := intres2 a b len1 len2 imm
  (if high imm then
      (List.range (count imm)).foldl
        (fun m i => if r &&& (1#32 <<< i) ≠ 0 then m ||| (elemMask imm <<< (i * elemBits imm))
          else m) 0
    else r.setWidth 128,
    flags a b len1 len2 imm)

def pcmpistrLen (imm : BitVec 8) (v : BitVec 128) : ℕ :=
  ((List.range (count imm)).find? fun i =>
    (v >>> (i * elemBits imm)) &&& elemMask imm == 0).getD (count imm)

def pcmpstrLengths (a b : BitVec 128) (eax edx : BitVec 32) (imm : BitVec 8) (isExplicit : Bool) :
    ℕ × ℕ :=
  if isExplicit then
    (min eax.toInt.natAbs (count imm), min edx.toInt.natAbs (count imm))
  else (pcmpistrLen imm a, pcmpistrLen imm b)

def pcmpstrRun (a b : BitVec 128) (eax edx : BitVec 32) (imm : BitVec 8) (isExplicit : Bool) :
    ℕ × StrFlags :=
  let len := pcmpstrLengths a b eax edx imm isExplicit
  pcmpstr a b len.1 len.2 imm

inductive Aggregation
  | equalAny | ranges | equalEach | equalOrdered
  deriving DecidableEq, Repr

namespace Manual

def aggregation : Aggregation :=
  match imm.getLsbD 3, imm.getLsbD 2 with
  | false, false => .equalAny
  | false, true => .ranges
  | true, false => .equalEach
  | true, true => .equalOrdered

def element (v : BitVec 128) (i : ℕ) : ℤ :=
  match imm.getLsbD 0, imm.getLsbD 1 with
  | false, false => (v.extractLsb' (8 * i) 8).toNat
  | false, true => (v.extractLsb' (8 * i) 8).toInt
  | true, false => (v.extractLsb' (16 * i) 16).toNat
  | true, true => (v.extractLsb' (16 * i) 16).toInt

def elements : ℕ := if imm.getLsbD 0 then 8 else 16

/-- Element `k` of the second operand compared with element `i` of the first. -/
def boolRes (k i : ℕ) : Bool :=
  if aggregation imm = .ranges then
    if i % 2 = 0 then decide (element imm a i ≤ element imm b k)
    else decide (element imm b k ≤ element imm a i)
  else decide (element imm a i = element imm b k)

/-- What is forced by an element that is not valid, of the first operand and of the second. -/
def overrideIfDataInvalid (valid1 valid2 res : Bool) : Aggregation → Bool
  | .equalAny | .ranges => valid1 && valid2 && res
  | .equalEach =>
    match valid1, valid2 with
    | false, false => true
    | true, true => res
    | _, _ => false
  | .equalOrdered =>
    match valid1, valid2 with
    | false, _ => true
    | true, false => false
    | true, true => res

def res (k i : ℕ) : Bool :=
  overrideIfDataInvalid (decide (i < len1)) (decide (k < len2)) (boolRes a b imm k i)
    (aggregation imm)

/-- In the ordered comparison the pairs end with the last element of the second operand. -/
def intRes1 (j : ℕ) : Bool :=
  match aggregation imm with
  | .equalAny => (List.range (elements imm)).any fun i => res a b len1 len2 imm j i
  | .ranges =>
    (List.range (elements imm / 2)).any fun t =>
      res a b len1 len2 imm j (2 * t) && res a b len1 len2 imm j (2 * t + 1)
  | .equalEach => res a b len1 len2 imm j j
  | .equalOrdered => (List.range (elements imm - j)).all fun i => res a b len1 len2 imm (j + i) i

def intRes2 (j : ℕ) : Bool :=
  match imm.getLsbD 5, imm.getLsbD 4 with
  | _, false => intRes1 a b len1 len2 imm j
  | false, true => !intRes1 a b len1 len2 imm j
  | true, true =>
    if j < len2 then !intRes1 a b len1 len2 imm j else intRes1 a b len1 len2 imm j

structure IsIndex (i : ℕ) : Prop where
  none : (∀ j < elements imm, intRes2 a b len1 len2 imm j = false) → i = elements imm
  some : (∃ j < elements imm, intRes2 a b len1 len2 imm j = true) →
    i < elements imm ∧ intRes2 a b len1 len2 imm i = true ∧
      ∀ j < elements imm, intRes2 a b len1 len2 imm j = true →
        if imm.getLsbD 6 then j ≤ i else i ≤ j

def mask (p : ℕ) : Bool :=
  if imm.getLsbD 6 then intRes2 a b len1 len2 imm (p / if imm.getLsbD 0 then 16 else 8)
  else decide (p < elements imm) && intRes2 a b len1 len2 imm p

def flags : StrFlags :=
  ⟨(List.range (elements imm)).any (intRes2 a b len1 len2 imm), decide (len2 < elements imm),
    decide (len1 < elements imm), intRes2 a b len1 len2 imm 0⟩

end Manual

theorem words_eq : words imm = imm.getLsbD 0 := and_one_bne_zero imm
theorem signed_eq : signed imm = imm.getLsbD 1 := and_one_shiftLeft_bne_zero imm 1 (by omega)
theorem high_eq : high imm = imm.getLsbD 6 := and_one_shiftLeft_bne_zero imm 6 (by omega)

theorem count_eq : count imm = Manual.elements imm := by
  unfold count Manual.elements
  rw [words_eq]

theorem count_cases : count imm = 8 ∧ elemBits imm = 16 ∧ elemMask imm = 0xffff ∨
    count imm = 16 ∧ elemBits imm = 8 ∧ elemMask imm = 0xff := by
  unfold count elemBits elemMask
  cases words imm with
  | false => exact .inr ⟨rfl, rfl, rfl⟩
  | true => exact .inl ⟨rfl, rfl, rfl⟩

theorem agg_cases : agg imm = 0 ∧ Manual.aggregation imm = .equalAny ∨
    agg imm = 1 ∧ Manual.aggregation imm = .ranges ∨
    agg imm = 2 ∧ Manual.aggregation imm = .equalEach ∨
    agg imm = 3 ∧ Manual.aggregation imm = .equalOrdered := by
  revert imm
  decide

theorem polarity_cases : polarity imm = 1 ∧ imm.getLsbD 5 = false ∧ imm.getLsbD 4 = true ∨
    polarity imm = 3 ∧ imm.getLsbD 5 = true ∧ imm.getLsbD 4 = true ∨
    polarity imm ≠ 1 ∧ polarity imm ≠ 3 ∧ imm.getLsbD 4 = false := by
  revert imm
  decide

variable {j i : ℕ} {imm : BitVec 8} (v : BitVec 128) {w : ℕ}

theorem shift_and_mask (i : ℕ) {m : BitVec 128} (hm : ∀ j < 128, m.getLsbD j = decide (j < w)) :
    (v >>> (i * w)) &&& m = (v.extractLsb' (w * i) w).setWidth 128 := by
  apply eq_of_getLsbD_eq
  intro j hj
  rw [getLsbD_and, getLsbD_ushiftRight, hm j hj, getLsbD_setWidth,
    getLsbD_extractLsb', Nat.mul_comm i w, and_comm (v.getLsbD _), decide_eq_true hj,
    Bool.true_and]

theorem toInt_widened (hw : w ≤ 16) (x : BitVec w) :
    ((x.setWidth 128).setWidth 32).toInt = x.toNat := by
  rw [setWidth_setWidth_of_le _ (by omega)]
  have hlt : x.toNat < 2 ^ 16 := x.isLt.trans_le (Nat.pow_le_pow_right (by omega) hw)
  have hnat : (x.setWidth 32).toNat = x.toNat := by
    rw [toNat_setWidth, Nat.mod_eq_of_lt (by omega)]
  rw [toInt_eq_toNat_of_lt (by omega), hnat]

theorem toInt_extended (hw : w ≤ 32) (x : BitVec w) :
    ((((x.setWidth 128).setWidth 32).setWidth w).signExtend 32).toInt = x.toInt := by
  rw [setWidth_setWidth_of_le _ hw, setWidth_setWidth_of_le _ (by omega),
    setWidth_eq, toInt_signExtend_of_le hw]

theorem toInt_get (i : ℕ) : (get imm v i).toInt = Manual.element imm v i := by
  have hbyte := shift_and_mask v i (w := 8) (m := 0xff) (by decide)
  have hword := shift_and_mask v i (w := 16) (m := 0xffff) (by decide)
  unfold get Manual.element elemBits elemMask
  rw [words_eq, signed_eq]
  cases imm.getLsbD 0 with
  | false =>
    cases imm.getLsbD 1 with
    | false =>
      have hsame := congrArg (fun r => (r.setWidth 32).toInt) hbyte
      exact hsame.trans (toInt_widened (by omega) _)
    | true =>
      have hsame := congrArg (fun r => (((r.setWidth 32).setWidth 8).signExtend 32).toInt) hbyte
      exact hsame.trans (toInt_extended (by omega) _)
  | true =>
    cases imm.getLsbD 1 with
    | false =>
      have hsame := congrArg (fun r => (r.setWidth 32).toInt) hword
      exact hsame.trans (toInt_widened (by omega) _)
    | true =>
      have hsame := congrArg (fun r => (((r.setWidth 32).setWidth 16).signExtend 32).toInt) hword
      exact hsame.trans (toInt_extended (by omega) _)

theorem get_sle_get (v w : BitVec 128) (i j : ℕ) :
    (get imm v i).sle (get imm w j) = decide (Manual.element imm v i ≤ Manual.element imm w j) := by
  rw [sle_eq_decide, toInt_get, toInt_get]

theorem get_beq_get (v w : BitVec 128) (i j : ℕ) :
    (get imm v i == get imm w j) = decide (Manual.element imm v i = Manual.element imm w j) := by
  rw [← toInt_get, ← toInt_get, beq_eq_decide, decide_eq_decide, toInt_inj]

theorem overridden_eq (i j : ℕ) :
    overridden a b len1 len2 imm i j = Manual.res a b len1 len2 imm i j := by
  have hai : decide (len1 ≤ j) = !decide (j < len1) := by
    rw [← decide_not, decide_eq_decide]
    omega
  have hbi : decide (len2 ≤ i) = !decide (i < len2) := by
    rw [← decide_not, decide_eq_decide]
    omega
  unfold overridden Manual.res Manual.boolRes
  simp only [get_sle_get, get_beq_get, hai, hbi]
  -- the table of the manual, by the two validities
  obtain ⟨hagg, hname⟩ | ⟨hagg, hname⟩ | ⟨hagg, hname⟩ | ⟨hagg, hname⟩ := agg_cases imm
  all_goals
    rw [hagg, hname]
    cases decide (j < len1) <;> cases decide (i < len2) <;> rfl

/-- The first operand, put at element `i`, does not pass the end of the second. -/
def fits (len1 : ℕ) (imm : BitVec 8) (i : ℕ) : Bool :=
  decide (min len1 (count imm) + i ≤ count imm)

theorem ordered_eq (p : ℕ → Bool) (hi : i < count imm) : ((List.range (count imm)).all fun j =>
      if i + j < count imm then p j else decide (len1 ≤ j)) =
      ((List.range (count imm - i)).all p && fits len1 imm i) := by
  unfold fits
  rw [Bool.eq_iff_iff, Bool.and_eq_true, List.all_eq_true, List.all_eq_true, decide_eq_true_iff]
  simp only [List.mem_range]
  constructor
  · intro h
    refine ⟨?_, ?_⟩
    · intro j hj
      have hpair := h j (by omega)
      rwa [if_pos (by omega)] at hpair
    · by_contra hpast
      -- the first pair past the end
      have hpair := h (count imm - i) (by omega)
      rw [if_neg (by omega), decide_eq_true_iff] at hpair
      omega
  · intro h j hj
    obtain ⟨hpairs, hfits⟩ := h
    by_cases hin : i + j < count imm
    · rw [if_pos hin]
      exact hpairs j (by omega)
    · rw [if_neg hin, decide_eq_true_iff]
      omega

/-- The result is that of the manual, but for an ordered comparison where the first operand passes
the end of the second. -/
theorem bit_eq (hi : i < count imm) : bit a b len1 len2 imm i =
    (Manual.intRes1 a b len1 len2 imm i &&
      (decide (Manual.aggregation imm ≠ .equalOrdered) || fits len1 imm i)) := by
  unfold bit Manual.intRes1
  simp only [overridden_eq, ← count_eq]
  obtain ⟨hagg, hname⟩ | ⟨hagg, hname⟩ | ⟨hagg, hname⟩ | ⟨hagg, hname⟩ := agg_cases imm
  · rw [hagg, hname]
    exact (Bool.and_true _).symm
  · rw [hagg, hname]
    exact (Bool.and_true _).symm
  · rw [hagg, hname]
    exact (Bool.and_true _).symm
  · rw [hagg, hname]
    exact ordered_eq len1 (fun j => Manual.res a b len1 len2 imm (i + j) j) hi

theorem getLsbD_intres1 (hj : j < 32) : (intres1 a b len1 len2 imm).getLsbD j =
    (decide (j < count imm) && bit a b len1 len2 imm j) := by
  have hone (i : ℕ) : (1#32 <<< i).getLsbD j = decide (i = j) := by
    rw [← twoPow_eq, getLsbD_twoPow]
    by_cases hij : i = j
    · rw [decide_eq_true (by omega), Bool.true_and]
    · rw [decide_eq_false hij, Bool.and_false]
  unfold intres1
  rw [getLsbD_foldl_or]
  simp only [hone]
  rw [Bool.eq_iff_iff]
  simp

theorem getLsbD_nmask (hj : j < 32) : (nmask imm).getLsbD j = decide (j < count imm) := by
  have hbits : ∀ j < 32, (0xff : BitVec 32).getLsbD j = decide (j < 8) ∧
      (0xffff : BitVec 32).getLsbD j = decide (j < 16) := by decide
  unfold nmask count
  cases words imm with
  | false => exact (hbits j hj).2
  | true => exact (hbits j hj).1

def polarized (imm : BitVec 8) (len2 : ℕ) (j : ℕ) (r : Bool) : Bool :=
  if imm.getLsbD 4 then
    if imm.getLsbD 5 then (if j < len2 then !r else r) else !r
  else r

theorem intRes2_eq (j : ℕ) : Manual.intRes2 a b len1 len2 imm j =
    polarized imm len2 j (Manual.intRes1 a b len1 len2 imm j) := by
  unfold Manual.intRes2 polarized
  cases imm.getLsbD 5 <;> cases imm.getLsbD 4 <;> rfl

theorem polarized_inj {len2 : ℕ} {r s : Bool}
    (h : polarized imm len2 j r = polarized imm len2 j s) :
    r = s := by
  unfold polarized at h
  split at h
  · split at h
    · split at h
      · exact not_inj h
      · exact h
    · exact not_inj h
  · exact h

theorem getLsbD_intres2 (hj : j < 32) : (intres2 a b len1 len2 imm).getLsbD j =
    (decide (j < count imm) && polarized imm len2 j (bit a b len1 len2 imm j)) := by
  have hcount : count imm ≤ 16 := by
    obtain ⟨h, -⟩ | ⟨h, -⟩ := count_cases imm <;> omega
  have hvalid := getLsbD_ones (w := 32) (n := min len2 (count imm)) (by omega) j
  unfold intres2 polarized
  rw [getLsbD_and, getLsbD_nmask hj]
  by_cases hin : j < count imm
  · rw [decide_eq_true hin, Bool.and_true, Bool.true_and]
    obtain ⟨hpol, h5, h4⟩ | ⟨hpol, h5, h4⟩ | ⟨hne1, hne3, h4⟩ := polarity_cases imm
    · rw [if_pos hpol, h4, h5, if_pos rfl, if_neg Bool.false_ne_true, getLsbD_and,
        getLsbD_not, getLsbD_nmask hj, getLsbD_intres1 _ _ _ _ hj, decide_eq_true hin,
        decide_eq_true hj]
      simp
    · have hne : polarity imm ≠ 1 := by
        rw [hpol]
        decide
      rw [if_neg hne, if_pos hpol, h4, h5, if_pos rfl, if_pos rfl, getLsbD_xor, hvalid,
        getLsbD_intres1 _ _ _ _ hj, decide_eq_true hin, Bool.true_and]
      by_cases hthere : j < len2
      · rw [if_pos hthere, decide_eq_true (by omega), Bool.xor_true]
      · rw [if_neg hthere, decide_eq_false (by omega), Bool.xor_false]
    · rw [if_neg hne1, if_neg hne3, h4, if_neg Bool.false_ne_true, getLsbD_and,
        getLsbD_nmask hj, getLsbD_intres1 _ _ _ _ hj, decide_eq_true hin]
      simp
  · rw [decide_eq_false hin, Bool.and_false, Bool.false_and]

variable {v : BitVec 32}

theorem exists_bit (h : v ≠ 0) : ∃ i < 32, v.getLsbD i = true := by
  by_contra hnone
  push Not at hnone
  apply h
  apply eq_of_getLsbD_eq
  intro i hi
  exact (eq_false_iff.mpr (hnone i hi)).trans BitVec.getLsbD_zero.symm

theorem trailingZeros_spec (h : v ≠ 0) : v.getLsbD (trailingZeros v) = true ∧
    ∀ j, v.getLsbD j = true → trailingZeros v ≤ j := by
  unfold trailingZeros
  cases hfind : (List.range 32).find? fun i => v.getLsbD i with
  | none =>
    obtain ⟨i, hi, hbit⟩ := exists_bit h
    exact absurd hbit (List.find?_eq_none.mp hfind i (List.mem_range.mpr hi))
  | some i =>
    obtain ⟨hbit, -, hbefore⟩ := List.find?_range_eq_some.mp hfind
    refine ⟨hbit, ?_⟩
    intro j hj
    by_contra hlt
    have hclear := hbefore j (Nat.lt_of_not_le hlt)
    rw [hj] at hclear
    cases hclear

theorem leadingZeros_spec (h : v ≠ 0) : v.getLsbD (31 - leadingZeros v) = true ∧
    ∀ j, v.getLsbD j = true → j ≤ 31 - leadingZeros v := by
  unfold leadingZeros
  cases hfind : (List.range 32).find? fun i => v.getLsbD (31 - i) with
  | none =>
    obtain ⟨i, hi, hbit⟩ := exists_bit h
    have hclear := List.find?_eq_none.mp hfind (31 - i) (List.mem_range.mpr (by omega))
    have hplace : 31 - (31 - i) = i := by omega
    rw [hplace] at hclear
    exact absurd hbit hclear
  | some i =>
    obtain ⟨hbit, -, hbefore⟩ := List.find?_range_eq_some.mp hfind
    refine ⟨hbit, ?_⟩
    intro j hj
    have hj32 : j < 32 := lt_of_getLsbD hj
    by_contra hlt
    have hclear := hbefore (31 - j) (by
      dsimp only [Option.getD_some] at hlt
      omega)
    have hplace : 31 - (31 - j) = j := by omega
    rw [hplace, hj] at hclear
    cases hclear

variable {a b : BitVec 128} {len1 len2 : ℕ}

def BitsRight (a b : BitVec 128) (len1 len2 : ℕ) (imm : BitVec 8) : Prop :=
  ∀ j < 32, (intres2 a b len1 len2 imm).getLsbD j =
    (decide (j < Manual.elements imm) && Manual.intRes2 a b len1 len2 imm j)

/-- The operation is that of the manual: the bits, the index, the mask and the flags. -/
structure AsManual (a b : BitVec 128) (len1 len2 : ℕ) (imm : BitVec 8) : Prop where
  bits : BitsRight a b len1 len2 imm
  index : Manual.IsIndex a b len1 len2 imm (pcmpstr a b len1 len2 imm).1
  mask : ∀ p < 128, (pcmpstrMask a b len1 len2 imm).1.getLsbD p =
    Manual.mask a b len1 len2 imm p
  flags : (pcmpstr a b len1 len2 imm).2 = Manual.flags a b len1 len2 imm ∧
    (pcmpstrMask a b len1 len2 imm).2 = Manual.flags a b len1 len2 imm

theorem elements_le (imm : BitVec 8) : Manual.elements imm ≤ 16 := by
  rw [← count_eq]
  obtain ⟨h, -⟩ | ⟨h, -⟩ := count_cases imm
  · omega
  · omega

theorem elements_pos (imm : BitVec 8) : 0 < Manual.elements imm := by
  rw [← count_eq]
  obtain ⟨h, -⟩ | ⟨h, -⟩ := count_cases imm
  · omega
  · omega

namespace BitsRight

theorem set_iff (h : BitsRight a b len1 len2 imm) : (intres2 a b len1 len2 imm).getLsbD j = true ↔
      j < Manual.elements imm ∧ Manual.intRes2 a b len1 len2 imm j = true := by
  have hsmall := elements_le imm
  by_cases hj : j < 32
  · rw [h j hj, Bool.and_eq_true, decide_eq_true_iff]
  · rw [getLsbD_of_ge _ _ (by omega)]
    constructor
    · intro hfalse
      cases hfalse
    · intro hin
      omega

theorem eq_zero_iff (h : BitsRight a b len1 len2 imm) : intres2 a b len1 len2 imm = 0 ↔
    ∀ j < Manual.elements imm, Manual.intRes2 a b len1 len2 imm j = false := by
  constructor
  · intro hzero j hj
    rw [← not_eq_true]
    intro hset
    have hbit := h.set_iff.mpr ⟨hj, hset⟩
    rw [hzero] at hbit
    exact absurd (hbit.symm.trans getLsbD_zero) Bool.noConfusion
  · intro hnone
    by_contra hne
    obtain ⟨j, -, hbit⟩ := exists_bit hne
    obtain ⟨hj, hset⟩ := h.set_iff.mp hbit
    rw [hnone j hj] at hset
    cases hset

theorem flags_eq (h : BitsRight a b len1 len2 imm) :
    flags a b len1 len2 imm = Manual.flags a b len1 len2 imm := by
  have hcf : (intres2 a b len1 len2 imm != 0) =
      (List.range (Manual.elements imm)).any (Manual.intRes2 a b len1 len2 imm) := by
    rw [Bool.eq_iff_iff, bne_iff_ne, Ne, h.eq_zero_iff, List.any_eq_true]
    push Not
    simp only [List.mem_range, not_eq_false]
  have hof : (intres2 a b len1 len2 imm &&& 1 != 0) = Manual.intRes2 a b len1 len2 imm 0 := by
    rw [and_one_bne_zero, h 0 (by omega), decide_eq_true (elements_pos imm), Bool.true_and]
  unfold flags Manual.flags
  rw [hcf, hof, count_eq]

theorem index (h : BitsRight a b len1 len2 imm) :
    Manual.IsIndex a b len1 len2 imm (pcmpstr a b len1 len2 imm).1 := by
  constructor
  · intro hnone
    unfold pcmpstr
    dsimp only
    rw [if_pos (h.eq_zero_iff.mpr hnone), count_eq]
  · intro hsome
    have hne : intres2 a b len1 len2 imm ≠ 0 := by
      intro hzero
      obtain ⟨j, hj, hset⟩ := hsome
      rw [h.eq_zero_iff.mp hzero j hj] at hset
      cases hset
    unfold pcmpstr
    dsimp only
    rw [if_neg hne, high_eq]
    cases imm.getLsbD 6 with
    | false =>
      obtain ⟨hbit, hleast⟩ := trailingZeros_spec hne
      obtain ⟨hin, hset⟩ := h.set_iff.mp hbit
      exact ⟨hin, hset, fun j hj hj' => hleast j (h.set_iff.mpr ⟨hj, hj'⟩)⟩
    | true =>
      obtain ⟨hbit, hgreatest⟩ := leadingZeros_spec hne
      obtain ⟨hin, hset⟩ := h.set_iff.mp hbit
      exact ⟨hin, hset, fun j hj hj' => hgreatest j (h.set_iff.mpr ⟨hj, hj'⟩)⟩

theorem getLsbD_elemMask_shift (imm : BitVec 8) (i : ℕ) {p : ℕ} (hp : p < 128) :
    (elemMask imm <<< (i * elemBits imm)).getLsbD p = decide (i = p / elemBits imm) := by
  have hshift {w : ℕ} {m : BitVec 128} (hm : ∀ k < 128, m.getLsbD k = decide (k < w)) :
      (m <<< (i * w)).getLsbD p = (!decide (p < i * w) && decide (p - i * w < w)) := by
    rw [getLsbD_shiftLeft, hm _ (by omega), decide_eq_true hp, Bool.true_and]
  obtain ⟨-, hbits, hmask⟩ | ⟨-, hbits, hmask⟩ := count_cases imm
  · rw [hbits, hmask, hshift (by decide), ← decide_not, ← decide_and, decide_eq_decide]
    omega
  · rw [hbits, hmask, hshift (by decide), ← decide_not, ← decide_and, decide_eq_decide]
    omega

theorem mask (h : BitsRight a b len1 len2 imm) {p : ℕ} (hp : p < 128) :
    (pcmpstrMask a b len1 len2 imm).1.getLsbD p = Manual.mask a b len1 len2 imm p := by
  unfold pcmpstrMask Manual.mask
  dsimp only
  rw [high_eq]
  cases imm.getLsbD 6 with
  | false =>
    rw [if_neg Bool.false_ne_true, if_neg Bool.false_ne_true, getLsbD_setWidth,
      decide_eq_true hp, Bool.true_and, Bool.eq_iff_iff, h.set_iff, Bool.and_eq_true,
      decide_eq_true_iff]
  | true =>
    -- bit `p` belongs to one element, and the masks of the others leave it alone
    have hbits : (if imm.getLsbD 0 then 16 else 8) = elemBits imm := by
      unfold elemBits
      rw [words_eq]
    have helem : p / elemBits imm < count imm := by
      obtain ⟨hc, he, -⟩ | ⟨hc, he, -⟩ := count_cases imm
      · rw [hc, he]
        omega
      · rw [hc, he]
        omega
    have hsmall := elements_le imm
    have htest {i : ℕ} (hi : i < count imm) :
        decide (intres2 a b len1 len2 imm &&& (1#32 <<< i) ≠ 0) =
          Manual.intRes2 a b len1 len2 imm i := by
      rw [count_eq] at hi
      have hbit := and_one_shiftLeft_bne_zero (intres2 a b len1 len2 imm) i (by omega)
      rw [h i (by omega), decide_eq_true hi, Bool.true_and] at hbit
      rw [← hbit, bne, beq_eq_decide, ← decide_not]
    rw [if_pos rfl, if_pos rfl, hbits, getLsbD_foldl_or]
    simp only [getLsbD_elemMask_shift imm _ hp]
    have hzero : (0 : BitVec 128).getLsbD p = false := getLsbD_zero
    rw [hzero, Bool.false_or, Bool.eq_iff_iff, List.any_eq_true]
    constructor
    · intro hany
      obtain ⟨i, hi, hset⟩ := hany
      obtain ⟨hbit, hplace⟩ := and_eq_true_iff.mp hset
      rw [htest (List.mem_range.mp hi), of_decide_eq_true hplace] at hbit
      exact hbit
    · intro hset
      refine ⟨p / elemBits imm, List.mem_range.mpr helem, ?_⟩
      rw [htest helem, hset, decide_eq_true rfl]
      rfl

end BitsRight

/-- The first operand matches the second from an element on as far as that goes, and has more
elements than that. -/
def MatchPassesEnd (a b : BitVec 128) (len1 len2 : ℕ) (imm : BitVec 8) : Prop :=
  Manual.aggregation imm = .equalOrdered ∧
    ∃ i < Manual.elements imm, Manual.elements imm < min len1 (Manual.elements imm) + i ∧
      ∀ j, i + j < Manual.elements imm → j < len1 →
        i + j < len2 ∧ Manual.element imm a j = Manual.element imm b (i + j)

theorem intRes1_ordered_iff (h : Manual.aggregation imm = .equalOrdered) :
    Manual.intRes1 a b len1 len2 imm i = true ↔ ∀ j, i + j < Manual.elements imm → j < len1 →
        i + j < len2 ∧ Manual.element imm a j = Manual.element imm b (i + j) := by
  have hres (j : ℕ) : Manual.res a b len1 len2 imm (i + j) j = true ↔
      (j < len1 → i + j < len2 ∧ Manual.element imm a j = Manual.element imm b (i + j)) := by
    unfold Manual.res Manual.boolRes
    rw [h]
    by_cases h1 : j < len1
    · by_cases h2 : i + j < len2
      · rw [decide_eq_true h1, decide_eq_true h2]
        simp [Manual.overrideIfDataInvalid, h1, h2]
      · rw [decide_eq_true h1, decide_eq_false h2]
        simp [Manual.overrideIfDataInvalid, h1, h2]
    · rw [decide_eq_false h1]
      simp [Manual.overrideIfDataInvalid, h1]
  unfold Manual.intRes1
  rw [h]
  rw [List.all_eq_true]
  simp only [List.mem_range, hres]
  constructor
  · intro hall j hj
    exact hall j (by omega)
  · intro hall j hj
    exact hall j (by omega)

theorem bit_eq_intRes1_iff (hi : i < count imm) :
    bit a b len1 len2 imm i = Manual.intRes1 a b len1 len2 imm i ↔
      (Manual.aggregation imm = .equalOrdered → Manual.intRes1 a b len1 len2 imm i = true →
        fits len1 imm i = true) := by
  rw [bit_eq a b len1 len2 hi]
  by_cases hagg : Manual.aggregation imm = .equalOrdered
  · rw [decide_eq_false (not_not_intro hagg), Bool.false_or]
    cases Manual.intRes1 a b len1 len2 imm i with
    | false => simp
    | true => simp [hagg]
  · rw [decide_eq_true hagg, Bool.true_or, Bool.and_true]
    simp [hagg]

theorem bitsRight_iff_bits : BitsRight a b len1 len2 imm ↔ ∀ i < count imm,
    bit a b len1 len2 imm i = Manual.intRes1 a b len1 len2 imm i := by
  have hsmall := elements_le imm
  have hcount := count_eq imm
  constructor
  · intro h i hi
    have hbit := h i (by omega)
    rw [getLsbD_intres2 _ _ _ _ (by omega), ← hcount, decide_eq_true hi, Bool.true_and,
      Bool.true_and, intRes2_eq] at hbit
    exact polarized_inj hbit
  · intro h j hj
    rw [getLsbD_intres2 _ _ _ _ hj, ← hcount, intRes2_eq]
    by_cases hin : j < count imm
    · rw [h j hin]
    · rw [decide_eq_false hin, Bool.false_and, Bool.false_and]

theorem bitsRight_iff : BitsRight a b len1 len2 imm ↔ ¬MatchPassesEnd a b len1 len2 imm := by
  have hcount := count_eq imm
  rw [bitsRight_iff_bits]
  unfold MatchPassesEnd
  push Not
  constructor
  · intro h hagg i hi hmore
    by_contra hmatch
    push Not at hmatch
    rw [← hcount] at hi
    have hfits := (bit_eq_intRes1_iff hi).mp (h i hi) hagg ((intRes1_ordered_iff hagg).mpr hmatch)
    unfold fits at hfits
    rw [decide_eq_true_iff] at hfits
    omega
  · intro h i hi
    rw [bit_eq_intRes1_iff hi]
    intro hagg hset
    unfold fits
    rw [decide_eq_true_iff]
    by_contra hmore
    obtain ⟨j, hj, hlen, hdiffer⟩ := h hagg i (by omega) (by omega)
    obtain ⟨hlen2, hsame⟩ := (intRes1_ordered_iff hagg).mp hset j hj hlen
    exact hdiffer hlen2 hsame

/-- The compare gives what the manual says exactly if no match of the first operand runs past the end
of the second. -/
theorem asManual_iff (a b : BitVec 128) (len1 len2 : ℕ) (imm : BitVec 8) :
    AsManual a b len1 len2 imm ↔ ¬MatchPassesEnd a b len1 len2 imm := by
  rw [← bitsRight_iff]
  constructor
  · intro h
    exact h.bits
  · intro h
    exact ⟨h, h.index, fun p hp => h.mask hp, h.flags_eq, h.flags_eq⟩

/-- "ab" in a string that ends with an "a" after fifteen other bytes. -/
def partialText : BitVec 128 := 0x61787878787878787878787878787878

/-- An ordered comparison misses the match that begins at the last element, and clears CF. -/
theorem partial_match_missed :
    pcmpstrRun 0x6261 partialText 0 0 0x0c false = (16, ⟨false, false, true, false⟩) ∧
      Manual.intRes2 0x6261 partialText 2 16 0x0c 15 = true ∧
      Manual.flags 0x6261 partialText 2 16 0x0c = ⟨true, false, true, false⟩ ∧
      pcmpstrLengths 0x6261 partialText 0 0 0x0c false = (2, 16) ∧
      ¬AsManual 0x6261 partialText 2 16 0x0c := by
  refine ⟨by decide +kernel, by decide +kernel, by decide +kernel, by decide +kernel, ?_⟩
  intro h
  have hflags := h.flags.1
  revert hflags
  decide +kernel

end X86Jit.PcmpStr
