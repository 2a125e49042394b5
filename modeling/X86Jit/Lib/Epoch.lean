import Mathlib.Order.Basic
import Mathlib.Data.Nat.Basic

/-! Validity guarded by an epoch. A holder that remembers the epoch under which it found a thing
good may rely on it exactly while that is still the epoch. -/
namespace X86Jit.Lib

variable {α : Type*} {now now' t t' : ℕ} {good good' : α → Prop} {x : α}

/-- `x` was found good under epoch `t`: if `t` is still the epoch, it still is. -/
def Stamped (now : ℕ) (good : α → Prop) (t : ℕ) (x : α) : Prop := t ≤ now ∧ (t = now → good x)

def Advances (now now' : ℕ) (good good' : α → Prop) : Prop :=
  (now' = now ∧ ∀ x, good x → good' x) ∨ now < now'

theorem Advances.le (h : Advances now now' good good') : now ≤ now' := by
  rcases h with ⟨heq, -⟩ | hlt
  · exact heq.ge
  · exact hlt.le

theorem Stamped.of_good (h : good x) (hle : t ≤ now) : Stamped now good t x :=
  ⟨hle, fun _ => h⟩

theorem Stamped.current (h : Stamped now good t x) (heq : t = now) : good x := h.2 heq

/-- A stamp survives every step: after the epoch has moved it promises nothing. -/
theorem Stamped.advance (h : Stamped now good t x) (ha : Advances now now' good good') :
    Stamped now' good' t x := by
  refine ⟨h.1.trans ha.le, ?_⟩
  intro heq
  rcases ha with ⟨hnow, hkeep⟩ | hlt
  · exact hkeep x (h.2 (heq.trans hnow))
  · have := h.1
    omega

end X86Jit.Lib
