import Mathlib.Data.List.Induction
import Mathlib.Data.List.Pairwise
import Mathlib.Data.Nat.Basic

/-! Ascending numbers gathered into runs of consecutive ones. -/
namespace X86Jit.Lib
open List

/-- Each run, its first number and its length, lies in the set and cannot be made longer at either
end; they ascend and cover the set. -/
structure IsRuns (S : ℕ → Prop) (runs : List (ℕ × ℕ)) : Prop where
  pos : ∀ q ∈ runs, 0 < q.2
  within : ∀ q ∈ runs, ∀ i < q.2, S (q.1 + i)
  ends : ∀ q ∈ runs, ¬S (q.1 + q.2)
  starts : ∀ q ∈ runs, ∀ j, j + 1 = q.1 → ¬S j
  ascending : runs.Pairwise fun q q' => q.1 + q.2 < q'.1
  cover : ∀ p, S p → ∃ q ∈ runs, q.1 ≤ p ∧ p < q.1 + q.2

def joinRun (runs : List (ℕ × ℕ)) (p : ℕ) : List (ℕ × ℕ) :=
  match runs.getLast? with
  | some q => if p = q.1 + q.2 then runs.dropLast ++ [(q.1, q.2 + 1)] else runs ++ [(p, 1)]
  | none => runs ++ [(p, 1)]

theorem joinRun_nil (p : ℕ) : joinRun [] p = [(p, 1)] := rfl

theorem joinRun_concat (runs : List (ℕ × ℕ)) (q : ℕ × ℕ) (p : ℕ) :
    joinRun (runs ++ [q]) p =
      if p = q.1 + q.2 then runs ++ [(q.1, q.2 + 1)] else runs ++ [q] ++ [(p, 1)] := by
  unfold joinRun
  rw [getLast?_concat]
  rw [dropLast_concat]

variable {S : ℕ → Prop} {runs : List (ℕ × ℕ)} {p : ℕ}

theorem IsRuns.end_le (h : IsRuns S runs) (hp : ∀ x, S x → x < p) {q : ℕ × ℕ} (hq : q ∈ runs) :
    q.1 + q.2 ≤ p := by
  have hpos := h.pos q hq
  have hlast := hp _ (h.within q hq (q.2 - 1) (by omega))
  omega

theorem IsRuns.begin (h : IsRuns S runs) (hp : ∀ q ∈ runs, q.1 + q.2 < p)
    (hS : ∀ x, S x → x < p) : IsRuns (fun x => S x ∨ x = p) (runs ++ [(p, 1)]) := by
  have hcase (q : ℕ × ℕ) (hq : q ∈ runs ++ [(p, 1)]) : q ∈ runs ∨ q = (p, 1) := by
    rcases mem_append.mp hq with hq | hq
    · exact Or.inl hq
    · exact Or.inr (mem_singleton.mp hq)
  constructor
  · intro q hq
    rcases hcase q hq with hq | rfl
    · exact h.pos q hq
    · exact Nat.one_pos
  · intro q hq i hi
    rcases hcase q hq with hq | rfl
    · exact Or.inl (h.within q hq i hi)
    · have hi0 : i = 0 := Nat.lt_one_iff.mp hi
      exact Or.inr (by rw [hi0, Nat.add_zero])
  · intro q hq
    rcases hcase q hq with hq | rfl
    · rintro (hs | hs)
      · exact h.ends q hq hs
      · exact Nat.ne_of_lt (hp q hq) hs
    · rintro (hs | hs)
      · exact absurd (hS _ hs) (by simp)
      · exact absurd hs (by simp)
  · intro q hq j hj
    rcases hcase q hq with hq | rfl
    · rintro (hs | hs)
      · exact h.starts q hq j hj hs
      · have := hp q hq
        omega
    · -- The number before the new run would end an older run at it.
      rintro (hs | hs)
      · obtain ⟨q', hq', hlo, hhi⟩ := h.cover j hs
        have := hp q' hq'
        omega
      · dsimp only at hj
        omega
  · rw [pairwise_append]
    refine ⟨h.ascending, pairwise_singleton _ _, ?_⟩
    intro q hq q' hq'
    rw [mem_singleton.mp hq']
    exact hp q hq
  · rintro x (hx | rfl)
    · obtain ⟨q, hq, hlo, hhi⟩ := h.cover x hx
      exact ⟨q, mem_append_left _ hq, hlo, hhi⟩
    · exact ⟨(x, 1), by simp, le_refl _, Nat.lt_succ_self x⟩

theorem IsRuns.extend {a k : ℕ} (h : IsRuns S (runs ++ [(a, k)])) (hS : ∀ x, S x → x < a + k) :
    IsRuns (fun x => S x ∨ x = a + k) (runs ++ [(a, k + 1)]) := by
  -- the earlier runs end before `a`, so the new number touches none of them
  have hlast : (a, k) ∈ runs ++ [(a, k)] := by simp
  have hsub (q : ℕ × ℕ) (hq : q ∈ runs) : q ∈ runs ++ [(a, k)] := mem_append_left _ hq
  have hasc := pairwise_append.mp h.ascending
  have hbefore (q : ℕ × ℕ) (hq : q ∈ runs) : q.1 + q.2 < a :=
    hasc.2.2 q hq (a, k) (mem_singleton_self _)
  have hcase (q : ℕ × ℕ) (hq : q ∈ runs ++ [(a, k + 1)]) : q ∈ runs ∨ q = (a, k + 1) := by
    rcases mem_append.mp hq with hq | hq
    · exact Or.inl hq
    · exact Or.inr (mem_singleton.mp hq)
  constructor
  · intro q hq
    rcases hcase q hq with hq | rfl
    · exact h.pos q (hsub q hq)
    · exact Nat.succ_pos k
  · intro q hq i hi
    rcases hcase q hq with hq | rfl
    · exact Or.inl (h.within q (hsub q hq) i hi)
    · rcases Nat.lt_succ_iff_lt_or_eq.mp hi with hi | rfl
      · exact Or.inl (h.within (a, k) hlast i hi)
      · exact Or.inr rfl
  · intro q hq
    rcases hcase q hq with hq | rfl
    · rintro (hs | hs)
      · exact h.ends q (hsub q hq) hs
      · have := hbefore q hq
        omega
    · rintro (hs | hs)
      · have := hS _ hs
        omega
      · dsimp only at hs
        omega
  · intro q hq j hj
    rcases hcase q hq with hq | rfl
    · rintro (hs | hs)
      · exact h.starts q (hsub q hq) j hj hs
      · have := hbefore q hq
        omega
    · rintro (hs | hs)
      · exact h.starts (a, k) hlast j hj hs
      · dsimp only at hj
        omega
  · rw [pairwise_append]
    refine ⟨hasc.1, pairwise_singleton _ _, ?_⟩
    intro q hq q' hq'
    rw [mem_singleton.mp hq']
    exact hbefore q hq
  · rintro x (hx | rfl)
    · obtain ⟨q, hq, hlo, hhi⟩ := h.cover x hx
      rcases mem_append.mp hq with hq | hq
      · exact ⟨q, mem_append_left _ hq, hlo, hhi⟩
      · rw [mem_singleton.mp hq] at hlo hhi
        exact ⟨(a, k + 1), by simp, hlo, Nat.lt_succ_of_lt hhi⟩
    · exact ⟨(a, k + 1), by simp, Nat.le_add_right a k, Nat.lt_succ_self (a + k)⟩

theorem IsRuns.join (h : IsRuns S runs) (hp : ∀ x, S x → x < p) :
    IsRuns (fun x => S x ∨ x = p) (joinRun runs p) := by
  rcases eq_nil_or_concat runs with rfl | ⟨init, q, rfl⟩
  · rw [joinRun_nil]
    exact h.begin (fun q hq => absurd hq not_mem_nil) hp
  · rw [concat_eq_append] at h ⊢
    rw [joinRun_concat]
    have hend := h.end_le hp (mem_append_right init (mem_singleton_self q))
    split
    case isTrue heq =>
      rw [heq] at hp ⊢
      exact h.extend hp
    case isFalse hne =>
      refine h.begin ?_ hp
      intro q' hq'
      rcases mem_append.mp hq' with hq' | hq'
      · have hasc := (pairwise_append.mp h.ascending).2.2 q' hq' q (mem_singleton_self q)
        omega
      · rw [mem_singleton.mp hq']
        omega

theorem isRuns_foldl {l : List ℕ} (h : l.Pairwise (· < ·)) :
    IsRuns (· ∈ l) (l.foldl joinRun []) := by
  induction l using reverseRecOn with
  | nil => exact ⟨by simp, by simp, by simp, by simp, List.Pairwise.nil, by simp⟩
  | append_singleton l p ih =>
    obtain ⟨hl, -, hp⟩ := pairwise_append.mp h
    have hstep := (ih hl).join fun x hx => hp x hx p (mem_singleton_self p)
    rw [foldl_append, foldl_cons, foldl_nil]
    simpa only [mem_append, mem_singleton] using hstep

end X86Jit.Lib
