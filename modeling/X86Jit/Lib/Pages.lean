import Mathlib.Data.List.Basic
import Mathlib.Data.Nat.Basic

/-! Pages touched by an access of a byte range. -/
namespace X86Jit.Lib

def pagesBetween (k first last : ℕ) : List ℕ :=
  List.range' (first / k) (last / k + 1 - first / k)

theorem mem_pagesBetween {k first last p : ℕ} :
    p ∈ pagesBetween k first last ↔ first / k ≤ p ∧ p ≤ last / k := by
  rw [pagesBetween, List.mem_range'_1]
  omega

theorem mem_pagesBetween_iff_meets {k first last p : ℕ} (hk : 0 < k) :
    p ∈ pagesBetween k first last ↔ first < p * k + k ∧ p * k ≤ last := by
  rw [mem_pagesBetween, ← Nat.lt_succ_iff, Nat.div_lt_iff_lt_mul hk, Nat.succ_mul,
    Nat.le_div_iff_mul_le hk]

end X86Jit.Lib
