import Mathlib.Data.BitVec
import Mathlib.Data.Finset.Card
import Mathlib.Data.Finset.Range
import Mathlib.Logic.Function.Basic
import X86Jit.Lib.Bits

/-! Sets of small numbers packed into words of 64 bits, and the loop that lists the bits of
a word by clearing its lowest one. -/
namespace X86Jit.Lib
open Nat

abbrev Bitset (n : ℕ) := Fin n → BitVec 64

namespace Bitset
variable {n : ℕ} (f : Bitset n)

def has (p : ℕ) : Bool :=
  if h : p / 64 < n then (f ⟨p / 64, h⟩).getLsbD (p % 64) else false

def elems : Finset ℕ := (Finset.range (64 * n)).filter fun p => f.has p = true

variable {p : ℕ}

theorem has_of_lt (h : p / 64 < n) : f.has p = (f ⟨p / 64, h⟩).getLsbD (p % 64) := dif_pos h

variable {f : Bitset n}

theorem lt_of_has (h : f.has p = true) : p / 64 < n := by
  by_contra hlt
  rw [has, dif_neg hlt] at h
  cases h

theorem mem_elems : p ∈ f.elems ↔ f.has p = true := by
  rw [elems, Finset.mem_filter, Finset.mem_range]
  refine ⟨And.right, fun h => ⟨?_, h⟩⟩
  have hlt := lt_of_has h
  omega

theorem word_ne_zero_iff {w : ℕ} (hw : w < n) :
    f ⟨w, hw⟩ ≠ 0 ↔ ∃ p, p / 64 = w ∧ f.has p = true := by
  constructor
  · intro hne
    by_contra hnone
    apply hne
    apply BitVec.eq_of_getLsbD_eq
    intro i hi
    have hdiv : (64 * w + i) / 64 = w := by omega
    have hmod : (64 * w + i) % 64 = i := by omega
    have hlt : (64 * w + i) / 64 < n := by omega
    have hnot : ¬f.has (64 * w + i) = true := fun h => hnone ⟨_, hdiv, h⟩
    rw [has_of_lt f hlt, hmod] at hnot
    simp only [hdiv, Bool.not_eq_true] at hnot
    rw [hnot]
    exact BitVec.getLsbD_zero.symm
  · rintro ⟨p, rfl, hp⟩ h0
    rw [has_of_lt f hw, h0] at hp
    simp at hp

def mask (p : ℕ) : BitVec 64 := 1#64 <<< (p % 64)

theorem mask_test (h : p / 64 < n) : f ⟨p / 64, h⟩ &&& mask p = 0 ↔ f.has p = false := by
  have htest := and_one_shiftLeft_bne_zero (f ⟨p / 64, h⟩) (p % 64) (mod_lt p (by decide))
  rw [has_of_lt f h, ← htest, mask, bne_eq_false_iff_eq]

theorem getLsbD_mask (p i : ℕ) : (mask p).getLsbD i = decide (p % 64 = i) := by
  have hlt : p % 64 < 64 := mod_lt p (by decide)
  rw [mask, ← BitVec.twoPow_eq, BitVec.getLsbD_twoPow, decide_eq_true hlt, Bool.true_and]

theorem has_update {w q : ℕ} (h : w < n) (word : BitVec 64) :
    Bitset.has (Function.update f ⟨w, h⟩ word) q =
      if q / 64 = w then word.getLsbD (q % 64) else f.has q := by
  by_cases hq : q / 64 < n
  · rw [has_of_lt _ hq, has_of_lt f hq]
    by_cases hword : q / 64 = w
    · have hfin : (⟨q / 64, hq⟩ : Fin n) = ⟨w, h⟩ := Fin.ext hword
      rw [hfin, Function.update_self, if_pos hword]
    · have hfin : (⟨q / 64, hq⟩ : Fin n) ≠ ⟨w, h⟩ := fun he => hword (Fin.mk.inj he)
      rw [Function.update_of_ne hfin, if_neg hword]
  · have hword : q / 64 ≠ w := fun he => hq (he ▸ h)
    rw [has, dif_neg hq, if_neg hword, has, dif_neg hq]

variable (f : Bitset n) {q : ℕ} (h : p / 64 < n)

theorem has_update_or : Bitset.has (Function.update f ⟨p / 64, h⟩ (f ⟨p / 64, h⟩ ||| mask p)) q =
      (f.has q || decide (q = p)) := by
  rw [has_update]
  by_cases hword : q / 64 = p / 64
  · have hbit : p % 64 = q % 64 ↔ q = p := by omega
    rw [if_pos hword, BitVec.getLsbD_or, getLsbD_mask, has_of_lt f (hword ▸ h)]
    simp only [hword, hbit]
  · have hne : q ≠ p := fun he => hword (he ▸ rfl)
    rw [if_neg hword, decide_eq_false hne, Bool.or_false]

theorem has_update_and :
    Bitset.has (Function.update f ⟨p / 64, h⟩ (f ⟨p / 64, h⟩ &&& ~~~mask p)) q =
      (f.has q && decide (q ≠ p)) := by
  rw [has_update]
  by_cases hword : q / 64 = p / 64
  · have hbit : p % 64 = q % 64 ↔ q = p := by omega
    have hlt : q % 64 < 64 := mod_lt q (by decide)
    rw [if_pos hword, BitVec.getLsbD_and, BitVec.getLsbD_not, getLsbD_mask, decide_eq_true hlt,
      Bool.true_and, has_of_lt f (hword ▸ h)]
    simp only [hword, hbit, decide_not]
  · have hne : q ≠ p := fun he => hword (he ▸ rfl)
    rw [if_neg hword, decide_eq_true hne, Bool.and_true]

variable {f g : Bitset n} {w : ℕ}

def Adds (f : Bitset n) (p : ℕ) (g : Bitset n) : Prop :=
  ∀ q, g.has q = (f.has q || decide (q = p))

def Drops (f : Bitset n) (p : ℕ) (g : Bitset n) : Prop :=
  ∀ q, g.has q = (f.has q && decide (q ≠ p))

theorem Adds.has_iff (h : f.Adds p g) : g.has q = true ↔ f.has q = true ∨ q = p := by
  rw [h, Bool.or_eq_true, decide_eq_true_eq]

theorem Drops.has_iff (h : f.Drops p g) : g.has q = true ↔ f.has q = true ∧ q ≠ p := by
  rw [h, Bool.and_eq_true, decide_eq_true_eq]

theorem Adds.elems (h : f.Adds p g) : g.elems = insert p f.elems := by
  ext q
  rw [mem_elems, h.has_iff, Finset.mem_insert, mem_elems, or_comm]

theorem Drops.elems (h : f.Drops p g) : g.elems = f.elems.erase p := by
  ext q
  rw [mem_elems, h.has_iff, Finset.mem_erase, mem_elems, and_comm]

theorem adds_self (hp : f.has p = true) : f.Adds p f := by
  intro q
  by_cases hq : q = p
  · rw [hq, hp]
    rfl
  · rw [decide_eq_false hq, Bool.or_false]

theorem drops_self (hp : f.has p = false) : f.Drops p f := by
  intro q
  by_cases hq : q = p
  · rw [hq, hp]
    rfl
  · rw [decide_eq_true hq, Bool.and_true]

theorem Adds.word_iff (h : f.Adds p g) : (∃ q, q / 64 = w ∧ g.has q = true) ↔
    (∃ q, q / 64 = w ∧ f.has q = true) ∨ w = p / 64 := by
  constructor
  · rintro ⟨q, hq, hin⟩
    rcases h.has_iff.mp hin with hin | rfl
    · exact .inl ⟨q, hq, hin⟩
    · exact .inr hq.symm
  · rintro (⟨q, hq, hin⟩ | rfl)
    · exact ⟨q, hq, h.has_iff.mpr (.inl hin)⟩
    · exact ⟨p, rfl, h.has_iff.mpr (.inr rfl)⟩

theorem Drops.word_iff (h : f.Drops p g) (hw : w ≠ p / 64) :
    (∃ q, q / 64 = w ∧ g.has q = true) ↔ ∃ q, q / 64 = w ∧ f.has q = true := by
  apply exists_congr
  intro q
  apply and_congr_right
  rintro rfl
  rw [h.has_iff]
  apply and_iff_left
  rintro rfl
  exact hw rfl

end Bitset

variable {x : BitVec 64}

theorem toNat_and_pred_lt (h : x ≠ 0) : (x &&& (x - 1)).toNat < x.toNat := by
  have hpos : 0 < x.toNat := Nat.pos_of_ne_zero fun h0 => h (BitVec.eq_of_toNat_eq h0)
  have hle : 1#64 ≤ x := BitVec.le_def.mpr hpos
  have hpred : (x - 1#64).toNat = x.toNat - 1 := BitVec.toNat_sub_of_le hle
  calc (x &&& (x - 1)).toNat = x.toNat &&& (x - 1).toNat := BitVec.toNat_and ..
    _ ≤ (x - 1).toNat := and_le_right
    _ = x.toNat - 1 := hpred
    _ < x.toNat := sub_lt hpos one_pos

def lowBits (x : BitVec 64) : List ℕ :=
  if h : x = 0 then [] else x.ctz.toNat :: lowBits (x &&& (x - 1))
termination_by x.toNat
decreasing_by exact toNat_and_pred_lt h

theorem toNat_eq_ctz (h : x ≠ 0) :
    x.toNat = 2 ^ (x.ctz.toNat + 1) * (x.toNat / 2 ^ (x.ctz.toNat + 1)) + 2 ^ x.ctz.toNat := by
  have hlow : x.toNat % 2 ^ (x.ctz.toNat + 1) = 2 ^ x.ctz.toNat := by
    apply eq_of_testBit_eq
    intro i
    rw [testBit_mod_two_pow]
    rcases lt_trichotomy i x.ctz.toNat with hlt | heq | hgt
    · have hbit : x.toNat.testBit i = false := BitVec.getLsbD_false_of_lt_ctz hlt
      simp [hbit, hlt.ne']
    · have hbit : x.toNat.testBit x.ctz.toNat = true := BitVec.getLsbD_true_ctz_of_ne_zero h
      rw [heq, hbit]
      simp
    · simp [hgt.ne, Nat.not_lt.mpr hgt]
  have hdiv := div_add_mod x.toNat (2 ^ (x.ctz.toNat + 1))
  rw [hlow] at hdiv
  exact hdiv.symm

theorem getLsbD_and_pred (h : x ≠ 0) (i : ℕ) :
    (x &&& (x - 1)).getLsbD i = (x.getLsbD i && decide (i ≠ x.ctz.toNat)) := by
  have hform := toNat_eq_ctz h
  generalize x.ctz.toNat = t at hform
  generalize x.toNat / 2 ^ (t + 1) = q at hform
  have hlt : 2 ^ t < 2 ^ (t + 1) := Nat.pow_lt_pow_right Nat.one_lt_two (Nat.lt_succ_self t)
  have hle : 1#64 ≤ x := BitVec.le_def.mpr (by rw [hform]; simp; omega)
  have hpred : (x - 1).toNat = 2 ^ (t + 1) * q + (2 ^ t - 1) := by
    have hsub : (x - 1#64).toNat = x.toNat - 1 := BitVec.toNat_sub_of_le hle
    rw [show (1 : BitVec 64) = 1#64 from rfl]
    omega
  have hx : x.getLsbD i = (2 ^ (t + 1) * q + 2 ^ t).testBit i := by rw [← hform]; rfl
  have hy : (x - 1).getLsbD i = (2 ^ (t + 1) * q + (2 ^ t - 1)).testBit i := by rw [← hpred]; rfl
  rw [BitVec.getLsbD_and, hx, hy, testBit_two_pow_mul_add _ hlt,
    testBit_two_pow_mul_add _ (by omega)]
  by_cases hi : i < t + 1
  · rw [if_pos hi, if_pos hi, testBit_two_pow, testBit_two_pow_sub_one]
    by_cases heq : i = t
    · simp [heq]
    · simp [Ne.symm heq]
  · have hne : i ≠ t := by omega
    rw [if_neg hi, if_neg hi]
    simp [hne]

theorem lowBits_spec (x : BitVec 64) :
    (∀ i, i ∈ lowBits x ↔ x.getLsbD i = true) ∧ (lowBits x).Pairwise (· < ·) := by
  induction x using lowBits.induct with
  | case1 =>
    rw [lowBits]
    exact ⟨fun i => by simp, List.Pairwise.nil⟩
  | case2 x h ih =>
    obtain ⟨hmem, hsorted⟩ := ih
    rw [lowBits, dif_neg h]
    constructor
    · intro i
      rw [List.mem_cons, hmem, getLsbD_and_pred h, Bool.and_eq_true, decide_eq_true_eq]
      constructor
      · rintro (rfl | hi)
        · exact BitVec.getLsbD_true_ctz_of_ne_zero h
        · exact hi.1
      · intro hi
        by_cases heq : i = x.ctz.toNat
        · exact Or.inl heq
        · exact Or.inr ⟨hi, heq⟩
    · rw [List.pairwise_cons]
      refine ⟨?_, hsorted⟩
      intro i hi
      rw [hmem, getLsbD_and_pred h, Bool.and_eq_true, decide_eq_true_eq] at hi
      rcases lt_trichotomy i x.ctz.toNat with hlt | heq | hgt
      · rw [BitVec.getLsbD_false_of_lt_ctz hlt] at hi
        exact absurd hi.1 Bool.false_ne_true
      · exact absurd heq hi.2
      · exact hgt

end X86Jit.Lib
