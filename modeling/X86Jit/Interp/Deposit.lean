import Mathlib.Data.Nat.Bitwise
import Mathlib.Data.Nat.Count
import X86Jit.Interp.Arithmetic
import X86Jit.Interp.Exec

/-! `pdep` and `pext` against the ranks of the mask's bits. -/
namespace X86Jit
open X86Jit.Lib BitVec Nat

theorem exists_rank {p : ℕ → Prop} [DecidablePred p] {n k : ℕ} (h : k < n.count p) :
    ∃ i < n, p i ∧ i.count p = k := by
  induction n with
  | zero => simp at h
  | succ n ih =>
    by_cases hlt : k < n.count p
    · obtain ⟨i, hi, hrank⟩ := ih hlt
      exact ⟨i, hi.trans n.lt_succ_self, hrank⟩
    · rw [count_succ] at h
      split at h
      next hp => exact ⟨n, n.lt_succ_self, hp, by omega⟩
      next => omega

variable {size : Size} {m x y : U64} {i k : ℕ}

abbrev rank (m : U64) (i : ℕ) : ℕ := i.count (m.getLsbD · = true)

theorem mem_ranked {n : ℕ} : (i, k) ∈ ranked m n ↔ i < n ∧ m.getLsbD i ∧ rank m i = k := by
  induction n with
  | zero => simp [ranked]
  | succ n ih =>
    have hlen : ((List.range n).filter fun i => m.getLsbD i).length = rank m n := by
      rw [rank, count, List.countP_eq_length_filter]
      simp
    have hsplit : ranked m (n + 1) =
        ranked m n ++ if m.getLsbD n then [(n, rank m n)] else [] := by
      rw [ranked, List.range_succ, List.filter_append, List.zipIdx_append, hlen, zero_add, ranked]
      cases hm : m.getLsbD n <;> simp [hm]
    rw [hsplit, List.mem_append, ih]
    cases hm : m.getLsbD n <;> grind

def deposit (size : Size) (m x : U64) : U64 := (bmiResult x m size .pdep).1

def extract (size : Size) (m x : U64) : U64 := (bmiResult x m size .pext).1

theorem ranked_and_mask : ranked (m &&& mask size) size.bits = ranked m size.bits := by
  unfold ranked
  congr 1
  apply List.filter_congr
  intro i hi
  simp [getLsbD_mask, List.mem_range.mp hi]

theorem rank_lt (hi : i < size.bits) : rank m i < size.bits :=
  lt_of_le_of_lt (count_le _) hi

theorem getLsbD_foldl_bitAt (l : List (ℕ × ℕ)) (b : ℕ × ℕ → Bool) (pos : ℕ × ℕ → ℕ) :
    (l.foldl (fun r p => r ||| bitAt 64 (b p) (pos p)) 0).getLsbD k ↔
      k < 64 ∧ ∃ p ∈ l, b p ∧ pos p = k := by
  have hbit (p : ℕ × ℕ) : (bitAt 64 (b p) (pos p)).getLsbD k ↔ k < 64 ∧ b p ∧ pos p = k := by
    rw [bitAt, getLsbD_shiftLeft, getLsbD_setWidth, getLsbD_ofBool]
    grind
  have hfold := getLsbD_foldl_or l (fun _ => True) (fun p => bitAt 64 (b p) (pos p)) 0 k
  simp only [if_true] at hfold
  simp only [hfold, decide_true, Bool.true_and]
  grind

theorem getLsbD_deposit : (deposit size m x).getLsbD i ↔
    i < size.bits ∧ m.getLsbD i ∧ x.getLsbD (rank m i) := by
  have hbits : size.bits ≤ 64 := by cases size <;> decide
  simp only [deposit, bmiResult, getLsbD_and, Bool.and_eq_true, getLsbD_foldl_bitAt,
    ranked_and_mask, Prod.exists, mem_ranked, getLsbD_mask, decide_eq_true_eq]
  constructor
  · rintro ⟨⟨-, _, k, ⟨hi, hm, rfl⟩, ⟨hx, -⟩, rfl⟩, -⟩
    exact ⟨hi, hm, hx⟩
  · rintro ⟨hi, hm, hx⟩
    exact ⟨⟨by omega, i, _, ⟨hi, hm, rfl⟩, ⟨hx, rank_lt hi⟩, rfl⟩, hi⟩

theorem getLsbD_extract : (extract size m x).getLsbD k ↔
    ∃ i < size.bits, m.getLsbD i ∧ rank m i = k ∧ x.getLsbD i := by
  have hbits : size.bits ≤ 64 := by cases size <;> decide
  simp only [extract, bmiResult, getLsbD_and, Bool.and_eq_true, getLsbD_foldl_bitAt,
    ranked_and_mask, Prod.exists, mem_ranked, getLsbD_mask, decide_eq_true_eq]
  constructor
  · rintro ⟨⟨-, i, _, ⟨hi, hm, hk⟩, ⟨hx, -⟩, rfl⟩, -⟩
    exact ⟨i, hi, hm, hk, hx⟩
  · rintro ⟨i, hi, hm, rfl, hx⟩
    have hk := rank_lt (m := m) hi
    exact ⟨⟨by omega, i, _, ⟨hi, hm, rfl⟩, ⟨hx, hi⟩, rfl⟩, hk⟩

structure DepositLaws (size : Size) (m : U64) : Prop where
  extract_deposit : ∀ x, (extract size m (deposit size m x)).toNat = x.toNat % 2 ^ rank m size.bits
  deposit_extract : ∀ x, deposit size m (extract size m x) = x &&& (m &&& mask size)
  bijective : Set.BijOn (deposit size m) {x | x.toNat < 2 ^ rank m size.bits}
    {y | y &&& (m &&& mask size) = y}
  monotone : ∀ x y, x.toNat < y.toNat → y.toNat < 2 ^ rank m size.bits →
    (deposit size m x).toNat < (deposit size m y).toNat

theorem extract_deposit : (extract size m (deposit size m x)).toNat =
    x.toNat % 2 ^ rank m size.bits := by
  apply eq_of_testBit_eq
  intro k
  rw [testBit_mod_two_pow, Bool.eq_iff_iff, Bool.and_eq_true, decide_eq_true_eq]
  change (extract size m (deposit size m x)).getLsbD k = true ↔ _
  simp only [getLsbD_extract, getLsbD_deposit]
  constructor
  · rintro ⟨i, hi, hm, rfl, -, -, hx⟩
    exact ⟨count_strict_mono hm hi, hx⟩
  · rintro ⟨hk, hx⟩
    obtain ⟨i, hi, hm, rfl⟩ := exists_rank hk
    exact ⟨i, hi, hm, rfl, hi, hm, hx⟩

theorem deposit_extract : deposit size m (extract size m x) = x &&& (m &&& mask size) := by
  apply eq_of_getLsbD_eq
  intro i _
  rw [Bool.eq_iff_iff, getLsbD_deposit, getLsbD_extract]
  simp only [getLsbD_and, getLsbD_mask, Bool.and_eq_true, decide_eq_true_eq]
  constructor
  · rintro ⟨hi, hm, j, -, hj, hrank, hx⟩
    rw [count_injective hj hm hrank] at hx
    exact ⟨hx, hm, hi⟩
  · rintro ⟨hx, hm, hi⟩
    exact ⟨hi, hm, i, hi, hm, rfl, hx⟩

theorem exists_bit_of_lt {a b : ℕ} (h : a < b) :
    ∃ j, a.testBit j = false ∧ b.testBit j = true ∧ ∀ k, j < k → a.testBit k = b.testBit k := by
  have hne : a ^^^ b ≠ 0 := by simpa using h.ne
  obtain ⟨j, hj, habove⟩ := exists_most_significant_bit hne
  have hsame : ∀ k, j < k → a.testBit k = b.testBit k := by
    intro k hk
    simpa using habove k hk
  rw [testBit_xor] at hj
  cases ha : a.testBit j with
  | false => exact ⟨j, ha, by simpa [ha] using hj, hsame⟩
  | true =>
    have hb : b.testBit j = false := by simpa [ha] using hj
    exact absurd (lt_of_testBit j hb ha fun k hk => (hsame k hk).symm) h.asymm

theorem deposit_lt (h : x.toNat < y.toNat) (hy : y.toNat < 2 ^ rank m size.bits) :
    (deposit size m x).toNat < (deposit size m y).toNat := by
  obtain ⟨j, hx, hj, habove⟩ := exists_bit_of_lt h
  have hlt : j < rank m size.bits := by
    by_contra hge
    have hpow : y.toNat < 2 ^ j := hy.trans_le (Nat.pow_le_pow_right Nat.two_pos (not_lt.mp hge))
    rw [testBit_lt_two_pow hpow] at hj
    cases hj
  obtain ⟨i, hi, hm, rfl⟩ := exists_rank hlt
  apply lt_of_testBit i
  · apply Bool.eq_false_iff.mpr
    intro hbit
    exact Bool.false_ne_true (hx.symm.trans (getLsbD_deposit.mp hbit).2.2)
  · exact getLsbD_deposit.mpr ⟨hi, hm, hj⟩
  · intro k hk
    change (deposit size m x).getLsbD k = (deposit size m y).getLsbD k
    rw [Bool.eq_iff_iff, getLsbD_deposit, getLsbD_deposit]
    have hrank : rank m i < rank m k := count_strict_mono hm hk
    have hsame : x.getLsbD (rank m k) = y.getLsbD (rank m k) := habove _ hrank
    rw [hsame]

/-- `pdep` and `pext` are inverse to each other on the bits of the mask, in their order. -/
theorem deposit_laws (size : Size) (m : U64) : DepositLaws size m where
  extract_deposit _ := extract_deposit
  deposit_extract _ := deposit_extract
  bijective := by
    have hinv : Set.InvOn (extract size m) (deposit size m) {x | x.toNat < 2 ^ rank m size.bits}
        {y | y &&& (m &&& mask size) = y} := by
      refine ⟨fun x hx => ?_, fun y hy => deposit_extract.trans hy⟩
      exact eq_of_toNat_eq (extract_deposit.trans (mod_eq_of_lt hx))
    refine hinv.bijOn (fun x hx => ?_) fun y hy => ?_
    · exact deposit_extract.symm.trans (congrArg _ (hinv.1 hx))
    · have hback := @extract_deposit size m (extract size m y)
      rw [hinv.2 hy] at hback
      exact hback.trans_lt (Nat.mod_lt _ (Nat.two_pow_pos _))
  monotone _ _ := deposit_lt

end X86Jit
