import Mathlib.Order.Bounds.Basic
import X86Jit.Core.Memory

/-! The code-page watermark: what the packed word says about the pages marked so far,
and when the test compiled stores make on it can be trusted. -/
namespace X86Jit
open X86Jit.Lib

variable (cr : U64)

def rangeLo : ℕ := cr.toNat / 2 ^ 32

def rangeLen : ℕ := cr.toNat % 2 ^ 32

theorem rangeLo_lt : rangeLo cr < 2 ^ 32 := by
  unfold rangeLo
  omega

theorem toNat_shiftRight_32 : (cr >>> 32).toNat = rangeLo cr := by
  rw [BitVec.toNat_ushiftRight, Nat.shiftRight_eq_div_pow, rangeLo]

theorem toNat_and_32 : (cr &&& 0xffffffff).toNat = rangeLen cr := by
  exact Nat.and_two_pow_sub_one_eq_mod _ 32

theorem sub_ult_range (cr p : U64) : (p - (cr >>> 32)).ult (cr &&& 0xffffffff) = true ↔
      rangeLo cr ≤ p.toNat ∧ p.toNat < rangeLo cr + rangeLen cr := by
  have hlo := rangeLo_lt cr
  have hlen : rangeLen cr < 2 ^ 32 := Nat.mod_lt _ (by decide)
  rw [BitVec.ult_iff_toNat_lt, BitVec.toNat_sub, toNat_shiftRight_32, toNat_and_32]
  omega

theorem codeGate_iff (addr : ℕ) (haddr : addr < 2 ^ 64) :
    codeGate cr (BitVec.ofNat 64 addr) = true ↔
      rangeLo cr ≤ addr / 4096 ∧ addr / 4096 < rangeLo cr + rangeLen cr := by
  have hpage : (BitVec.ofNat 64 addr >>> codePageBits).toNat = addr / 4096 := by
    rw [BitVec.toNat_ushiftRight, BitVec.toNat_ofNat, Nat.mod_eq_of_lt haddr,
      Nat.shiftRight_eq_div_pow]
    rfl
  rw [codeGate, sub_ult_range, hpage]

theorem toNat_pack (lo len : U64) (hlo : lo.toNat < 2 ^ 32) (hlen : len.toNat < 2 ^ 32) :
    ((lo <<< 32) ||| len).toNat = lo.toNat * 2 ^ 32 + len.toNat := by
  rw [BitVec.toNat_or, BitVec.toNat_shiftLeft, Nat.shiftLeft_eq, Nat.mod_eq_of_lt (by omega),
    ← Nat.shiftLeft_eq, ← Nat.shiftLeft_add_eq_or_of_lt hlen]

variable (p : ℕ)

theorem toNat_page (hp : p < 2 ^ 32) : (BitVec.ofNat 64 p).toNat = p := by
  rw [BitVec.toNat_ofNat, Nat.mod_eq_of_lt (by omega)]

theorem widen_inside (hp : p < 2 ^ 32) (hlo : rangeLo cr ≤ p) (hhi : p < rangeLo cr + rangeLen cr) :
    Memory.widenCodeRange cr (BitVec.ofNat 64 p) = cr := by
  have hlen : cr &&& 0xffffffff ≠ 0 := by
    intro h0
    have := toNat_and_32 cr
    rw [h0] at this
    change 0 = _ at this
    omega
  have hin : ((BitVec.ofNat 64 p) - (cr >>> 32)).ult (cr &&& 0xffffffff) = true := by
    rw [sub_ult_range, toNat_page p hp]
    exact ⟨hlo, hhi⟩
  simp only [Memory.widenCodeRange, hlen, hin, ne_eq, not_false_eq_true, and_self, if_true]

theorem ofNat_pred {x : U64} {n : ℕ} (h : x.toNat = n) :
    (if x = 0 then 0 else x - 1) = BitVec.ofNat 64 (n - 1) := by
  apply BitVec.eq_of_toNat_eq
  by_cases h0 : x = 0
  · subst h0
    rw [← h]
    rfl
  · have hn : x.toNat ≠ 0 := fun hn => h0 (BitVec.eq_of_toNat_eq hn)
    have h1 : (1 : U64).toNat = 1 := rfl
    rw [if_neg h0, BitVec.toNat_sub, BitVec.toNat_ofNat]
    omega

theorem ofNat_extent {x y : U64} {lo hi : ℕ} (hx : x.toNat = lo) (hy : y.toNat = hi) (h : lo ≤ hi) :
    y - x + 2 = BitVec.ofNat 64 (hi - lo + 2) := by
  have h2 : (2 : U64).toNat = 2 := rfl
  apply BitVec.eq_of_toNat_eq
  rw [BitVec.toNat_add, BitVec.toNat_sub, BitVec.toNat_ofNat]
  omega

theorem widen_outside (hp : p < 2 ^ 32) (hout : ¬ (rangeLo cr ≤ p ∧ p < rangeLo cr + rangeLen cr))
    (lo hi : ℕ)
    (hlo : lo = if rangeLen cr = 0 then p else min (rangeLo cr + 1) p)
    (hhi : hi = if rangeLen cr = 0 then p else max (rangeLo cr + rangeLen cr - 1) p) :
    Memory.widenCodeRange cr (BitVec.ofNat 64 p) =
      (BitVec.ofNat 64 (lo - 1) <<< 32) ||| BitVec.ofNat 64 (hi - lo + 2) := by
  have hpage := toNat_page p hp
  have hlolt := rangeLo_lt cr
  have hlenlt : rangeLen cr < 2 ^ 32 := Nat.mod_lt _ (by decide)
  have hcond : ¬ (cr &&& 0xffffffff ≠ 0 ∧
      ((BitVec.ofNat 64 p) - (cr >>> 32)).ult (cr &&& 0xffffffff) = true) := by
    rintro ⟨-, hin⟩
    rw [sub_ult_range, hpage] at hin
    exact hout hin
  have hlen0 : cr &&& 0xffffffff = 0 ↔ rangeLen cr = 0 := by
    rw [← toNat_and_32, BitVec.toNat_eq]
    rfl
  have hlo1 : ((cr >>> 32) + 1).toNat = rangeLo cr + 1 := by
    have h1 : (1 : U64).toNat = 1 := rfl
    rw [BitVec.toNat_add, toNat_shiftRight_32]
    omega
  simp only [Memory.widenCodeRange, if_neg hcond]
  -- an empty range starts at the page, another one grows to it on either side
  by_cases h0 : rangeLen cr = 0
  · rw [if_pos h0] at hlo hhi
    simp only [if_pos (hlen0.mpr h0), ite_self]
    subst hlo hhi
    rw [ofNat_pred hpage, ofNat_extent hpage hpage le_rfl]
  · have hhi1 : ((cr >>> 32) + (cr &&& 0xffffffff) - 1).toNat = rangeLo cr + rangeLen cr - 1 := by
      have h1 : (1 : U64).toNat = 1 := rfl
      rw [BitVec.toNat_sub, BitVec.toNat_add, toNat_shiftRight_32, toNat_and_32]
      omega
    rw [if_neg h0] at hlo hhi
    simp only [if_neg (mt hlen0.mp h0)]
    have hx : (if ((cr >>> 32) + 1).ult (BitVec.ofNat 64 p) = true then (cr >>> 32) + 1
        else BitVec.ofNat 64 p).toNat = lo := by
      simp only [BitVec.ult_iff_toNat_lt, hlo1]
      split
      · rw [hlo1]
        omega
      · rw [hpage]
        omega
    have hy : (if ((cr >>> 32) + (cr &&& 0xffffffff) - 1).ult (BitVec.ofNat 64 p) = true
        then BitVec.ofNat 64 p else (cr >>> 32) + (cr &&& 0xffffffff) - 1).toNat = hi := by
      simp only [BitVec.ult_iff_toNat_lt, hhi1]
      split
      · rw [hpage]
        omega
      · rw [hhi1]
        omega
    rw [ofNat_pred hx, ofNat_extent hx hy (by omega)]

theorem range_repacked {lo len : ℕ} (hlo : lo < 2 ^ 32) (hlen : len < 2 ^ 32) :
    rangeLo ((BitVec.ofNat 64 lo <<< 32) ||| BitVec.ofNat 64 len) = lo ∧
      rangeLen ((BitVec.ofNat 64 lo <<< 32) ||| BitVec.ofNat 64 len) = len := by
  have hp := toNat_pack (BitVec.ofNat 64 lo) (BitVec.ofNat 64 len)
    (by rw [toNat_page lo hlo]; exact hlo) (by rw [toNat_page len hlen]; exact hlen)
  rw [toNat_page lo hlo, toNat_page len hlen] at hp
  unfold rangeLo rangeLen
  omega

def topPage : ℕ := 2 ^ 32 - 2

/-- The watermark records the extent of the pages marked, its low bound one page down. With page 0
the high bound may be one page too large. -/
structure Records (marked : Set ℕ) (cr : U64) (lowest highest : ℕ) : Prop where
  least : IsLeast marked lowest
  greatest : IsGreatest marked highest
  lo_eq : rangeLo cr = lowest - 1
  above : highest < rangeLo cr + rangeLen cr
  below : rangeLo cr + rangeLen cr ≤ highest + 2
  exact : 1 ≤ lowest → rangeLo cr + rangeLen cr = highest + 1

def Tracks (marked : Set ℕ) (cr : U64) : Prop :=
  (marked = ∅ ∧ rangeLen cr = 0) ∨ ∃ lowest highest, Records marked cr lowest highest

/-- Not the page just below the lowest one marked, and not one that stretches the range over every
trackable page. -/
def KeepsSkew (marked : Set ℕ) (page : ℕ) : Prop :=
  (page = 0 ∨ ¬ IsLeast marked (page + 1)) ∧
    ¬ (page = 0 ∧ topPage ∈ marked ∧ 0 ∉ marked ∧ 1 ∉ marked)

theorem Tracks.widen {marked : Set ℕ} {cr : U64} (h : Tracks marked cr) {page : ℕ}
    (hp : page ≤ topPage) (hmax : ∀ q ∈ marked, q ≤ topPage) (hk : KeepsSkew marked page) :
    Tracks (insert page marked) (Memory.widenCodeRange cr (BitVec.ofNat 64 page)) := by
  have hp32 : page < 2 ^ 32 := by
    unfold topPage at hp
    omega
  rcases h with ⟨rfl, hlen⟩ | ⟨m, M, hr⟩
  · -- the first page: an empty range has no bounds to keep
    have hw := widen_outside cr page hp32 (by omega) page page (by simp [hlen]) (by simp [hlen])
    obtain ⟨hlo, hle⟩ := range_repacked (show page - 1 < 2 ^ 32 by omega)
      (show page - page + 2 < 2 ^ 32 by omega)
    refine Or.inr ⟨page, page, ?_, ?_, ?_, ?_, ?_, ?_⟩
    · simp
    · simp
    all_goals rw [hw]; omega
  · have hM : M ≤ topPage := hmax M hr.greatest.1
    have hmM : m ≤ M := hr.least.2 hr.greatest.1
    have hlo := hr.lo_eq
    have hab := hr.above
    have hbe := hr.below
    have hex := hr.exact
    have hlen : rangeLen cr ≠ 0 := by omega
    have hleast : IsLeast (insert page marked) (min page m) := hr.least.insert page
    have hgreatest : IsGreatest (insert page marked) (max page M) := hr.greatest.insert page
    unfold topPage at hp hM
    by_cases hin : rangeLo cr ≤ page ∧ page < rangeLo cr + rangeLen cr
    · -- the early exit: only page 0 may lie below the lowest page marked
      have hsk : page = 0 ∨ page + 1 ≠ m := by
        rcases hk.1 with h0 | hne
        · exact Or.inl h0
        · right
          rintro rfl
          exact hne hr.least
      rw [widen_inside cr page hp32 hin.1 hin.2]
      exact Or.inr ⟨_, _, hleast, hgreatest, by omega, by omega, by omega, by omega⟩
    · have hw := widen_outside cr page hp32 hin (min (m - 1 + 1) page)
        (max (rangeLo cr + rangeLen cr - 1) page) (by simp [hlen, hlo]) (by simp [hlen])
      have hfit : ¬ (page = 0 ∧ 2 ≤ m ∧ M = 2 ^ 32 - 2) := by
        rintro ⟨h0, hm, hMt⟩
        have htop : topPage = M := hMt.symm
        refine hk.2 ⟨h0, htop ▸ hr.greatest.1, ?_, ?_⟩
        · intro hmem
          have := hr.least.2 hmem
          omega
        · intro hmem
          have := hr.least.2 hmem
          omega
      obtain ⟨hlo', hle'⟩ := range_repacked
        (show min (m - 1 + 1) page - 1 < 2 ^ 32 by omega)
        (show max (rangeLo cr + rangeLen cr - 1) page - min (m - 1 + 1) page + 2 < 2 ^ 32 by omega)
      rw [hw]
      exact Or.inr ⟨_, _, hleast, hgreatest, by omega, by omega, by omega, by omega⟩

end X86Jit
