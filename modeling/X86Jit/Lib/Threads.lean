import Mathlib.Algebra.BigOperators.Group.Finset.Basic
import Mathlib.Algebra.Order.BigOperators.Group.Finset
import X86Jit.Lib.Runs

/-! Threads that take atomic steps on a shared state, in any order. An invariant says what the
shared state still lacks because of the places the threads are at. -/
namespace X86Jit.Lib
open Finset

structure Threads (τ σ ℓ : Type) where
  shared : σ
  place : τ → ℓ

namespace Threads
variable {τ σ ℓ α : Type} [DecidableEq τ]

def moved (c : Threads τ σ ℓ) (t : τ) (l : ℓ) (s : σ) : Threads τ σ ℓ :=
  ⟨s, Function.update c.place t l⟩

def step (next : σ → ℓ → α → Option (ℓ × σ)) (c : Threads τ σ ℓ) (a : τ × α) :
    Option (Threads τ σ ℓ) :=
  (next c.shared (c.place a.1) a.2).map fun r => c.moved a.1 r.1 r.2

def Some (c : Threads τ σ ℓ) (P : ℓ → Prop) : Prop := ∃ t, P (c.place t)

def Other (c : Threads τ σ ℓ) (t : τ) (P : ℓ → Prop) : Prop := ∃ u, u ≠ t ∧ P (c.place u)

variable {c c' : Threads τ σ ℓ} {t : τ} {l : ℓ} {s : σ} {P : ℓ → Prop}
  {next : σ → ℓ → α → Option (ℓ × σ)} {a : α}

theorem step_eq_some : step next c (t, a) = some c' ↔
    ∃ l s, next c.shared (c.place t) a = some (l, s) ∧ c' = c.moved t l s := by
  unfold step
  rw [Option.map_eq_some_iff]
  constructor
  · rintro ⟨⟨l, s⟩, hnext, rfl⟩
    exact ⟨l, s, hnext, rfl⟩
  · rintro ⟨l, s, hnext, rfl⟩
    exact ⟨(l, s), hnext, rfl⟩

@[simp] theorem moved_shared : (c.moved t l s).shared = s := rfl

@[simp] theorem moved_place_self : (c.moved t l s).place t = l := Function.update_self _ _ _

theorem moved_place_of_ne {u : τ} (h : u ≠ t) : (c.moved t l s).place u = c.place u :=
  Function.update_of_ne h _ _

theorem moved_moved {l' : ℓ} {s' : σ} : (c.moved t l s).moved t l' s' = c.moved t l' s' := by
  unfold moved
  rw [Function.update_idem]

omit [DecidableEq τ] in
theorem some_iff (t : τ) : c.Some P ↔ P (c.place t) ∨ c.Other t P := by
  constructor
  · rintro ⟨u, hu⟩
    by_cases hut : u = t
    · exact .inl (hut ▸ hu)
    · exact .inr ⟨u, hut, hu⟩
  · rintro (h | ⟨u, -, hu⟩)
    · exact ⟨t, h⟩
    · exact ⟨u, hu⟩

theorem other_moved : (c.moved t l s).Other t P ↔ c.Other t P := by
  apply exists_congr
  intro u
  apply and_congr_right
  intro hu
  rw [moved_place_of_ne hu]

theorem some_moved : (c.moved t l s).Some P ↔ P l ∨ c.Other t P := by
  rw [some_iff t, moved_place_self, other_moved]

theorem Some.moved (h : c.Some P) (ht : P (c.place t) → P l) : (c.moved t l s).Some P := by
  rw [some_moved]
  exact ((some_iff t).mp h).imp_left ht

section Total
variable [Fintype τ]

def total (c : Threads τ σ ℓ) (f : ℓ → ℤ) : ℤ := ∑ t, f (c.place t)

theorem total_moved (f : ℓ → ℤ) : (c.moved t l s).total f = c.total f - f (c.place t) + f l := by
  have hrest : ∑ u ∈ univ.erase t, f ((c.moved t l s).place u) =
      ∑ u ∈ univ.erase t, f (c.place u) := by
    apply sum_congr rfl
    intro u hu
    rw [moved_place_of_ne (ne_of_mem_erase hu)]
  unfold total
  rw [← add_sum_erase _ _ (mem_univ t), hrest,
    ← add_sum_erase _ (fun u => f (c.place u)) (mem_univ t), moved_place_self]
  omega

omit [DecidableEq τ] in
theorem total_eq_zero {f : ℓ → ℤ} (h : ∀ t, f (c.place t) = 0) : c.total f = 0 :=
  sum_eq_zero fun t _ => h t

section Nonneg
variable {f : ℓ → ℤ} (hf : ∀ l, 0 ≤ f l)
include hf

omit [DecidableEq τ] in
theorem total_nonneg : 0 ≤ c.total f := sum_nonneg fun t _ => hf (c.place t)

omit [DecidableEq τ] in
theorem le_total (t : τ) : f (c.place t) ≤ c.total f :=
  single_le_sum (fun u _ => hf (c.place u)) (mem_univ t)

omit [DecidableEq τ] in
theorem total_eq_zero_iff : c.total f = 0 ↔ ∀ t, f (c.place t) = 0 := by
  constructor
  · intro h t
    have hle := c.le_total hf t
    have hpos := hf (c.place t)
    omega
  · exact total_eq_zero

theorem pair_le_total {u : τ} (h : t ≠ u) : f (c.place t) + f (c.place u) ≤ c.total f := by
  unfold total
  rw [← add_sum_erase _ (fun u => f (c.place u)) (mem_univ t)]
  have hmem : u ∈ univ.erase t := mem_erase.mpr ⟨h.symm, mem_univ u⟩
  have hrest : f (c.place u) ≤ ∑ u ∈ univ.erase t, f (c.place u) :=
    single_le_sum (fun w _ => hf (c.place w)) hmem
  omega

end Nonneg

end Total

end Threads

end X86Jit.Lib
