import Mathlib.Data.Bool.Basic
import Mathlib.Data.List.Basic

/-! Dropping dead writes of named cells from a straight-line program. After a dropped write the
cell is stale: the shortened program holds an old value in it. -/
namespace X86Jit.Lib

inductive Walked (σ ε : Type)
  | fell (s : σ)
  | left (k : ℕ) (e : ε)

def Walked.leftAt {σ ε : Type} : Walked σ ε → Option ℕ
  | fell _ => none
  | left k _ => some k

def Walked.later {σ ε : Type} : Walked σ ε → Walked σ ε
  | fell s => fell s
  | left k e => left (k + 1) e

def walk {Op σ ε : Type} (exec : Op → σ → Except ε σ) : List Op → σ → Walked σ ε
  | [], s => .fell s
  | op :: rest, s =>
    match exec op s with
    | .ok t => (walk exec rest t).later
    | .error e => .left 0 e

inductive Reaches {Op σ ε : Type} (exec : Op → σ → Except ε σ) : List Op → σ → Op → σ → Prop
  | here {op rest s} : Reaches exec (op :: rest) s op s
  | later {op rest s t op' t'} (h : exec op s = .ok t) (hrest : Reaches exec rest t op' t') :
      Reaches exec (op :: rest) s op' t'

section Walk
variable {Op σ ε : Type} {exec : Op → σ → Except ε σ} {op : Op} {rest : List Op} {s t : σ} {e : ε}

theorem walk_cons_ok (h : exec op s = .ok t) :
    walk exec (op :: rest) s = (walk exec rest t).later := by
  simp only [walk, h]

theorem walk_cons_error (h : exec op s = .error e) : walk exec (op :: rest) s = .left 0 e := by
  simp only [walk, h]

theorem later_eq_fell {w : Walked σ ε} : w.later = .fell s ↔ w = .fell s := by
  cases w <;> simp [Walked.later]

theorem later_eq_left {w : Walked σ ε} {k : ℕ} :
    w.later = .left k e ↔ ∃ j, k = j + 1 ∧ w = .left j e := by
  cases w with
  | fell s => simp [Walked.later]
  | left j e' =>
    simp only [Walked.later, Walked.left.injEq]
    constructor
    · rintro ⟨rfl, rfl⟩
      exact ⟨j, rfl, rfl, rfl⟩
    · rintro ⟨_, rfl, rfl, rfl⟩
      exact ⟨rfl, rfl⟩

theorem walk_eq_left_iff {l : List Op} :
    (∃ k, walk exec l s = .left k e) ↔ ∃ op t, Reaches exec l s op t ∧ exec op t = .error e := by
  constructor
  · rintro ⟨k, h⟩
    induction l generalizing s k with
    | nil => cases h
    | cons op rest ih =>
      cases ho : exec op s with
      | error e' =>
        rw [walk_cons_error ho] at h
        cases h
        exact ⟨op, s, .here, ho⟩
      | ok t =>
        rw [walk_cons_ok ho] at h
        obtain ⟨j, rfl, hj⟩ := later_eq_left.mp h
        obtain ⟨op', t', hreach, herr⟩ := ih j hj
        exact ⟨op', t', .later ho hreach, herr⟩
  · rintro ⟨op, t, hreach, herr⟩
    induction hreach with
    | here => exact ⟨0, walk_cons_error herr⟩
    | later ho _ ih =>
      obtain ⟨k, hk⟩ := ih herr
      refine ⟨k + 1, ?_⟩
      rw [walk_cons_ok ho, hk]
      rfl

end Walk

structure StoreUse (Cell Op : Type) where
  reads : Op → Cell → Bool
  sure : Op → Cell → Bool

namespace StoreUse
variable {Cell Op : Type}

/-- Whether a cell is written again before a listed reader. The end of the program reads
every cell. -/
def dead (u : StoreUse Cell Op) : List Op → Cell → Bool
  | [], _ => false
  | op :: rest, x => !u.reads op x && (u.sure op x || dead u rest x)

/-- Every op has lost the writes that are dead after it. `narrowed D` relates an op to its form
without the writes `D`. -/
inductive Eliminated (u : StoreUse Cell Op) (narrowed : (Cell → Bool) → Op → Op → Prop) :
    List Op → List Op → Prop
  | nil : Eliminated u narrowed [] []
  | cons {op op' : Op} {rest rest' : List Op} (head : narrowed (u.dead rest) op op')
      (tail : Eliminated u narrowed rest rest') :
      Eliminated u narrowed (op :: rest) (op' :: rest')

def Unread (u : StoreUse Cell Op) (D : Cell → Bool) (ops : List Op) : Prop :=
  ∀ x, D x = true → u.dead ops x = true

variable {u : StoreUse Cell Op} {D : Cell → Bool} {op : Op} {rest : List Op} {x : Cell}

theorem unread_none (ops : List Op) : u.Unread (fun _ => false) ops := by
  intro x hx
  cases hx

theorem Unread.not_read (h : u.Unread D (op :: rest)) (hr : u.reads op x = true) : D x = false := by
  rw [Bool.eq_false_iff]
  intro hx
  have hdead := h x hx
  rw [dead, hr] at hdead
  cases hdead

theorem Unread.tail (h : u.Unread D (op :: rest)) (hs : u.sure op x = false) (hx : D x = true) :
    u.dead rest x = true := by
  have hdead := h x hx
  rw [dead, hs] at hdead
  exact (Bool.and_eq_true_iff.mp hdead).2

theorem Unread.nil (h : u.Unread D []) : D = fun _ => false := by
  funext x
  rw [Bool.eq_false_iff]
  intro hx
  cases h x hx

end StoreUse

/-- The writes a pass may drop from an op, and the cells an op writes in a given state. -/
structure StoreRun {Cell Op : Type} (u : StoreUse Cell Op) (σ : Type) where
  droppable : Op → Cell → Bool
  wrote : Op → σ → Cell → Bool
  wrote_of_sure : ∀ {op s x}, u.sure op x = true → wrote op s x = true

namespace StoreRun
variable {Cell Op σ ε : Type} {u : StoreUse Cell Op}

def staleAfter (r : StoreRun u σ) (op : Op) (s : σ) (rest : List Op) (D : Cell → Bool)
    (x : Cell) : Bool :=
  if r.wrote op s x then r.droppable op x && u.dead rest x else D x

def staleBefore (r : StoreRun u σ) (exec : Op → σ → Except ε σ) :
    (Cell → Bool) → List Op → σ → ℕ → Cell → Bool
  | D, [], _, _ => D
  | D, _ :: _, _, 0 => D
  | D, op :: rest, s, k + 1 =>
    match exec op s with
    | .ok t => staleBefore r exec (r.staleAfter op s rest D) rest t k
    | .error _ => D

/-- No op before `k` looks at a stale cell behind the analysis' back. -/
def HiddenLive (r : StoreRun u σ) (exec : Op → σ → Except ε σ) (hidden : Op → Cell → Bool)
    (D : Cell → Bool) (ops : List Op) (s : σ) (k : ℕ) : Prop :=
  ∀ j, j < k → ∀ op ∈ ops[j]?, ∀ x, hidden op x = true → r.staleBefore exec D ops s j x = false

variable {r : StoreRun u σ} {exec : Op → σ → Except ε σ} {hidden : Op → Cell → Bool}
  {D : Cell → Bool} {op : Op} {rest ops : List Op} {s t : σ} {k : ℕ} {x : Cell}

theorem staleBefore_succ (h : exec op s = .ok t) : r.staleBefore exec D (op :: rest) s (k + 1) =
      r.staleBefore exec (r.staleAfter op s rest D) rest t k := by
  rw [staleBefore, h]

theorem HiddenLive.head (h : r.HiddenLive exec hidden D (op :: rest) s (k + 1)) :
    ∀ x, hidden op x = true → D x = false :=
  h 0 (Nat.succ_pos k) op rfl

theorem HiddenLive.tail (h : r.HiddenLive exec hidden D (op :: rest) s (k + 1))
    (hop : exec op s = .ok t) : r.HiddenLive exec hidden (r.staleAfter op s rest D) rest t k := by
  intro j hj op' hop' x hx
  rw [← staleBefore_succ hop]
  exact h (j + 1) (Nat.succ_lt_succ hj) op' hop' x hx

theorem unread_staleAfter (r : StoreRun u σ) (h : u.Unread D (op :: rest)) (s : σ) :
    u.Unread (r.staleAfter op s rest D) rest := by
  intro x hx
  unfold staleAfter at hx
  split at hx
  · exact (Bool.and_eq_true_iff.mp hx).2
  · rename_i hw
    apply h.tail _ hx
    rw [Bool.eq_false_iff]
    exact fun hs => hw (r.wrote_of_sure hs)

section Simulation
variable (exec : Op → σ → Except ε σ) (narrowed : (Cell → Bool) → Op → Op → Prop)
  (hidden : Op → Cell → Bool) (R : (Cell → Bool) → σ → σ → Prop) (E : ε → ε → Prop)

/-- States related by `R D` agree outside the cells `D`. An op that goes on may not look at a stale
cell; one that leaves shows every cell. -/
structure Simulates (r : StoreRun u σ) : Prop where
  next : ∀ {D op op' rest s s' t}, u.Unread D (op :: rest) →
    (∀ x, hidden op x = true → D x = false) → narrowed (u.dead rest) op op' → R D s s' →
      exec op s = .ok t → ∃ t', exec op' s' = .ok t' ∧ R (r.staleAfter op s rest D) t t'
  leave : ∀ {D op op' s s' e}, narrowed D op op' → R (fun _ => false) s s' →
    exec op s = .error e → ∃ e', exec op' s' = .error e' ∧ E e e'
  leave_unsure : ∀ {op s e}, exec op s = .error e → ∀ x, u.sure op x = false

variable {exec narrowed hidden R E} {ops' : List Op} {s' : σ} {e : ε}
  (sim : r.Simulates exec narrowed hidden R E)
include sim

theorem Simulates.fell (helim : u.Eliminated narrowed ops ops') (hun : u.Unread D ops)
    (hlive : r.HiddenLive exec hidden D ops s ops.length) (hR : R D s s')
    (h : walk exec ops s = .fell t) :
    ∃ t', walk exec ops' s' = .fell t' ∧ R (fun _ => false) t t' := by
  induction helim generalizing D s s' with
  | nil =>
    cases h
    refine ⟨s', rfl, ?_⟩
    rwa [← hun.nil]
  | @cons op op' rest rest' head tail ih =>
    cases hop : exec op s with
    | error e =>
      rw [walk_cons_error hop] at h
      cases h
    | ok t₁ =>
      rw [walk_cons_ok hop, later_eq_fell] at h
      obtain ⟨t₁', hop', hR'⟩ := sim.next hun hlive.head head hR hop
      obtain ⟨t', hrun, hend⟩ := ih (r.unread_staleAfter hun s) (hlive.tail hop) hR' h
      refine ⟨t', ?_, hend⟩
      rw [walk_cons_ok hop', later_eq_fell]
      exact hrun

theorem Simulates.left (helim : u.Eliminated narrowed ops ops') (hun : u.Unread D ops)
    (hlive : r.HiddenLive exec hidden D ops s k)
    (hshown : ∀ x, r.staleBefore exec D ops s k x = false) (hR : R D s s')
    (h : walk exec ops s = .left k e) : ∃ e', walk exec ops' s' = .left k e' ∧ E e e' := by
  induction helim generalizing D s s' k with
  | nil => cases h
  | @cons op op' rest rest' head tail ih =>
    cases hop : exec op s with
    | error e₁ =>
      rw [walk_cons_error hop] at h
      cases h
      have hD : D = fun _ => false := funext hshown
      obtain ⟨e', hop', hE⟩ := sim.leave head (by rwa [hD] at hR) hop
      exact ⟨e', walk_cons_error hop', hE⟩
    | ok t₁ =>
      rw [walk_cons_ok hop, later_eq_left] at h
      obtain ⟨j, rfl, hj⟩ := h
      rw [staleBefore_succ hop] at hshown
      obtain ⟨t₁', hop', hR'⟩ := sim.next hun hlive.head head hR hop
      obtain ⟨e', hrun, hE⟩ := ih (r.unread_staleAfter hun s) (hlive.tail hop) hshown hR' hj
      refine ⟨e', ?_, hE⟩
      rw [walk_cons_ok hop', later_eq_left]
      exact ⟨j, rfl, hrun⟩

/-- At the last op nothing is stale: no write after it could have made an earlier one dead. -/
theorem Simulates.shown_at_last (hun : u.Unread D ops) (h : walk exec ops s = .left k e)
    (hlast : k + 1 = ops.length) (x : Cell) : r.staleBefore exec D ops s k x = false := by
  induction ops generalizing D s k with
  | nil => cases h
  | cons op rest ih =>
    cases hop : exec op s with
    | error e₁ =>
      rw [walk_cons_error hop] at h
      cases h
      obtain rfl : rest = [] := List.length_eq_zero_iff.mp (Nat.succ_inj.mp hlast).symm
      rw [Bool.eq_false_iff]
      intro hx
      cases hun.tail (sim.leave_unsure hop x) hx
    | ok t₁ =>
      rw [walk_cons_ok hop, later_eq_left] at h
      obtain ⟨j, rfl, hj⟩ := h
      rw [staleBefore_succ hop]
      exact ih (r.unread_staleAfter hun s) hj (Nat.succ_inj.mp hlast)

end Simulation

end StoreRun

end X86Jit.Lib
