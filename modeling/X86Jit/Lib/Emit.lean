import X86Jit.Lib.DeadStores

/-! Generators of straight-line code over numbered temporaries, and rules of pre- and
postconditions for what the generated code does. -/
namespace X86Jit.Lib

structure Emitted (ω α : Type) where
  val : α
  next : ℕ
  ops : List ω

def Emit (ε ω α : Type) := ℕ → Except ε (Emitted ω α)

namespace Emit
variable {ε ω α β : Type}

instance : Monad (Emit ε ω) where
  pure a := fun t => .ok ⟨a, t, []⟩
  bind m f := fun t =>
    match m t with
    | .error e => .error e
    | .ok r =>
      match f r.val r.next with
      | .error e => .error e
      | .ok r' => .ok ⟨r'.val, r'.next, r.ops ++ r'.ops⟩

def fresh : Emit ε ω ℕ := fun t => .ok ⟨t, t + 1, []⟩

def push (op : ω) : Emit ε ω Unit := fun t => .ok ⟨(), t, [op]⟩

def fail (e : ε) : Emit ε ω α := fun _ => .error e

theorem bind_ok {m : Emit ε ω α} {f : α → Emit ε ω β} {t : ℕ} {r : Emitted ω β} :
    (m >>= f) t = .ok r ↔ ∃ r₁ r₂, m t = .ok r₁ ∧ f r₁.val r₁.next = .ok r₂ ∧
      r = ⟨r₂.val, r₂.next, r₁.ops ++ r₂.ops⟩ := by
  change (match m t with
    | .error e => .error e
    | .ok r =>
      match f r.val r.next with
      | .error e => .error e
      | .ok r' => .ok ⟨r'.val, r'.next, r.ops ++ r'.ops⟩ : Except ε (Emitted ω β)) = .ok r ↔ _
  cases hm : m t with
  | error e => simp
  | ok r₁ =>
    cases hf : f r₁.val r₁.next with
    | error e => simp [hf]
    | ok r₂ => simp [hf, eq_comm]

end Emit

namespace Walked
variable {σ ρ : Type}

def Meets (w : Walked σ ρ) (P : σ → Prop) (Q : ρ → Prop) : Prop :=
  match w with
  | fell s => P s
  | left _ e => Q e

theorem meets_later {w : Walked σ ρ} {P : σ → Prop} {Q : ρ → Prop} :
    w.later.Meets P Q ↔ w.Meets P Q := by
  cases w <;> rfl

theorem Meets.imp {w : Walked σ ρ} {P P' : σ → Prop} {Q Q' : ρ → Prop} (h : w.Meets P Q)
    (hP : ∀ s, P s → P' s) (hQ : ∀ e, Q e → Q' e) : w.Meets P' Q' := by
  cases w with
  | fell s => exact hP s h
  | left k e => exact hQ e h

end Walked

theorem walk_append {ω σ ρ : Type} {exec : ω → σ → Except ρ σ} {l l' : List ω} {s : σ}
    {P : σ → Prop} {Q : ρ → Prop}
    (h : (walk exec l s).Meets (fun s' => (walk exec l' s').Meets P Q) Q) :
    (walk exec (l ++ l') s).Meets P Q := by
  induction l generalizing s with
  | nil => exact h
  | cons op l ih =>
    rw [List.cons_append]
    cases ho : exec op s with
    | error e =>
      rw [walk_cons_error ho] at h ⊢
      exact h
    | ok s₁ =>
      rw [walk_cons_ok ho, Walked.meets_later] at h ⊢
      exact ih h

namespace Emit
variable {ε ω α β σ ρ : Type} (exec : ω → σ → Except ρ σ)

/-- Run from `s`, the code `m` emits from temporary `t` on falls through into `P` or leaves
with `Q`. Nothing is asked where `m` fails. -/
def Ensures (m : Emit ε ω α) (t : ℕ) (s : σ) (P : α → ℕ → σ → Prop) (Q : ρ → Prop) : Prop :=
  ∀ r, m t = .ok r → (walk exec r.ops s).Meets (P r.val r.next) Q

variable {exec} {t : ℕ} {s : σ} {P : α → ℕ → σ → Prop} {Q : ρ → Prop}

theorem Ensures.pure {a : α} (h : P a t s) : Ensures exec (Pure.pure a : Emit ε ω α) t s P Q := by
  intro r hr
  cases hr
  exact h

theorem Ensures.fresh {P : ℕ → ℕ → σ → Prop} (h : P t (t + 1) s) :
    Ensures exec (fresh : Emit ε ω ℕ) t s P Q := by
  intro r hr
  cases hr
  exact h

theorem Ensures.fail {e : ε} : Ensures exec (fail e : Emit ε ω α) t s P Q := by
  intro r hr
  cases hr

theorem Ensures.push {op : ω} {P : Unit → ℕ → σ → Prop} (hok : ∀ s', exec op s = .ok s' → P () t s')
    (herr : ∀ e, exec op s = .error e → Q e) : Ensures exec (push op : Emit ε ω Unit) t s P Q := by
  intro r hr
  cases hr
  cases h : exec op s with
  | ok s' =>
    rw [walk_cons_ok h]
    exact hok s' h
  | error e =>
    rw [walk_cons_error h]
    exact herr e h

theorem Ensures.push_ok {op : ω} {s' : σ} {P : Unit → ℕ → σ → Prop} (h : exec op s = .ok s')
    (hP : P () t s') : Ensures exec (Emit.push op : Emit ε ω Unit) t s P Q := by
  apply Ensures.push
  · intro s'' h'
    cases h.symm.trans h'
    exact hP
  · intro e h'
    cases h.symm.trans h'

variable {m : Emit ε ω α} {f : α → Emit ε ω β}

theorem Ensures.bind {P : β → ℕ → σ → Prop}
    (h : Ensures exec m t s (fun a t' s' => Ensures exec (f a) t' s' P Q) Q) :
    Ensures exec (m >>= f) t s P Q := by
  intro r hr
  obtain ⟨r₁, r₂, h₁, h₂, rfl⟩ := bind_ok.mp hr
  apply walk_append
  exact (h r₁ h₁).imp (fun s' hs => hs r₂ h₂) fun _ => id

theorem Ensures.imp {P' : α → ℕ → σ → Prop} {Q' : ρ → Prop}
    (h : Ensures exec m t s P Q) (hP : ∀ a t' s', P a t' s' → P' a t' s')
    (hQ : ∀ e, Q e → Q' e) : Ensures exec m t s P' Q' := by
  intro r hr
  exact (h r hr).imp (hP _ _) hQ

theorem Ensures.seq {P' : β → ℕ → σ → Prop}
    (h : Ensures exec m t s P Q) (hf : ∀ a t' s', P a t' s' → Ensures exec (f a) t' s' P' Q) :
    Ensures exec (m >>= f) t s P' Q :=
  .bind (h.imp hf fun _ => id)

def Total (m : Emit ε ω α) : Prop := ∀ t, ∃ r, m t = .ok r

theorem Total.pure {a : α} : Total (Pure.pure a : Emit ε ω α) := fun t => ⟨⟨a, t, []⟩, rfl⟩

theorem Total.fresh : Total (fresh : Emit ε ω ℕ) := fun t => ⟨⟨t, t + 1, []⟩, rfl⟩

theorem Total.push {op : ω} : Total (push op : Emit ε ω Unit) := fun t => ⟨⟨(), t, [op]⟩, rfl⟩

theorem Total.bind (hm : Total m) (hf : ∀ a, Total (f a)) : Total (m >>= f) := by
  intro t
  obtain ⟨r₁, h₁⟩ := hm t
  obtain ⟨r₂, h₂⟩ := hf r₁.val r₁.next
  exact ⟨_, bind_ok.mpr ⟨r₁, r₂, h₁, h₂, rfl⟩⟩

end Emit

namespace Emit
variable {ε ω α β : Type}

def Gives (m : Emit ε ω α) (S : α → List ω → Prop) : Prop := ∀ t r, m t = .ok r → S r.val r.ops

variable {S : α → List ω → Prop}

theorem Gives.pure {a : α} (h : S a []) : (Pure.pure a : Emit ε ω α).Gives S := by
  intro t r hr
  cases hr
  exact h

theorem Gives.fresh {S : ℕ → List ω → Prop} (h : ∀ t, S t []) : (fresh : Emit ε ω ℕ).Gives S := by
  intro t r hr
  cases hr
  exact h t

theorem Gives.fail {e : ε} : (fail e : Emit ε ω α).Gives S := by
  intro t r hr
  cases hr

theorem Gives.push {op : ω} {S : Unit → List ω → Prop} (h : S () [op]) :
    (Emit.push op : Emit ε ω Unit).Gives S := by
  intro t r hr
  cases hr
  exact h

theorem Gives.bind {m : Emit ε ω α} {f : α → Emit ε ω β} {T : α → List ω → Prop}
    {S : β → List ω → Prop} (h : m.Gives T)
    (hf : ∀ a l, T a l → (f a).Gives fun b l' => S b (l ++ l')) : (m >>= f).Gives S := by
  intro t r hr
  obtain ⟨r₁, r₂, h₁, h₂, rfl⟩ := bind_ok.mp hr
  exact hf r₁.val r₁.ops (h t r₁ h₁) r₁.next r₂ h₂

theorem Gives.imp {m : Emit ε ω α} {T : α → List ω → Prop} (h : m.Gives T)
    (hS : ∀ a l, T a l → S a l) : m.Gives S := by
  intro t r hr
  exact hS r.val r.ops (h t r hr)

end Emit

end X86Jit.Lib
