import X86Jit.Fpu.Moves

/-! Exceptions that are not masked. An op raises what there is to raise before it writes anything;
the ops with two results are the exception to this. -/
namespace X86Jit
open FpuM Arm

variable {i : ℕ} {u₀ : Fpu}

namespace Fpu
variable {u : Fpu}

def without (u : Fpu) (i : ℕ) : Fpu := { u with sw := u.sw &&& ~~~(1#16 <<< i) }

/-- The same unit, with at most the exceptions of the other one recorded. -/
structure Below (u₀ u : Fpu) : Prop where
  same : u₀ = { u with sw := u₀.sw }
  bits : ∀ i < 7, u₀.sw.getLsbD i = true → u.sw.getLsbD i = true

theorem Below.cw (h : Below u₀ u) : u₀.cw = u.cw := by
  rw [h.same]

theorem without_below (u : Fpu) (i : ℕ) : Below (u.without i) u := by
  constructor
  · rfl
  · intro j hj h
    unfold without at h
    rw [BitVec.getLsbD_and, Bool.and_eq_true] at h
    exact h.1

theorem getLsbD_without (i : ℕ) : (u.without i).sw.getLsbD i = false := by
  unfold without
  simp

theorem without_eq (h : u.sw.getLsbD i = false) : u.without i = u := by
  have hsw : u.sw &&& ~~~(1#16 <<< i) = u.sw := by
    apply BitVec.eq_of_getLsbD_eq
    intro j hj
    rw [BitVec.getLsbD_and, BitVec.getLsbD_not, decide_eq_true hj]
    by_cases hij : j = i
    · rw [hij, h, Bool.false_and]
    · have hone : j < i ∨ (1#16).getLsbD (j - i) = false := by
        rw [BitVec.getLsbD_one]
        simp only [Bool.and_eq_false_iff, decide_eq_false_iff_not]
        omega
      cases hone with
      | inl hlt => simp [hlt]
      | inr hzero => simp [hzero]
  unfold without
  rw [hsw]

theorem unmasked_iff (w cw : U16) : w &&& ~~~cw &&& 0x3f ≠ 0 ↔
    ∃ i < 6, w.getLsbD i = true ∧ cw.getLsbD i = false := by
  have hsix : ∀ i < 16, (0x3f : U16).getLsbD i = decide (i < 6) := by decide
  have hbit (i : ℕ) (hi : i < 16) : (w &&& ~~~cw &&& 0x3f).getLsbD i =
      (w.getLsbD i && !cw.getLsbD i && decide (i < 6)) := by
    rw [BitVec.getLsbD_and, BitVec.getLsbD_and, BitVec.getLsbD_not, decide_eq_true hi, hsix i hi,
      Bool.true_and]
  constructor
  · intro hne
    by_contra hnone
    push Not at hnone
    apply hne
    apply BitVec.eq_of_getLsbD_eq
    intro i hi
    rw [hbit i hi]
    by_cases hlow : i < 6
    · cases hw : w.getLsbD i with
      | false => simp
      | true => simp [hnone i hlow hw]
    · simp [hlow]
  · intro hsome hzero
    obtain ⟨i, hi, hw, hcw⟩ := hsome
    have := hbit i (by omega)
    rw [hzero, hw, hcw, decide_eq_true hi] at this
    simp at this

end Fpu

variable {e : Exc} {v u : Fpu}

section Raising

theorem Fpu.raise_eq (u : Fpu) (he : e ≠ 0) : u.raise e =
    if (u.sw ||| (e &&& 0x7f)) &&& ~~~u.cw &&& 0x3f ≠ 0 then
      ({ u with sw := u.sw ||| (e &&& 0x7f) ||| 0x8080 }, true)
    else ({ u with sw := u.sw ||| (e &&& 0x7f) }, false) := if_neg he

theorem bit_recorded (w : U16) (e : Exc) (i : ℕ) (hi : i < 7) :
    (w ||| (e &&& 0x7f)).getLsbD i = (w.getLsbD i || e.getLsbD i) ∧
      (w ||| (e &&& 0x7f) ||| 0x8080).getLsbD i = (w.getLsbD i || e.getLsbD i) := by
  have hseven : ∀ i < 7, (0x7f : U16).getLsbD i = true := by decide
  have hhigh : ∀ i < 7, (0x8080 : U16).getLsbD i = false := by decide
  simp only [BitVec.getLsbD_or, BitVec.getLsbD_and, hseven i hi, hhigh i hi, Bool.and_true,
    Bool.or_false, and_self]

/-- Only the status word changes; it asks to abandon the op if and only if an exception that is then
recorded is not masked. -/
structure Raised (u v : Fpu) (e : Exc) (stop : Bool) : Prop where
  only : v = { u with sw := v.sw }
  bits : ∀ i < 7, v.sw.getLsbD i = (u.sw.getLsbD i || e.getLsbD i)
  summary : stop = true → v.sw.getLsbD 7 = true
  stops_iff : e ≠ 0 → (stop = true ↔ ∃ i < 6, v.sw.getLsbD i = true ∧ u.cw.getLsbD i = false)

theorem Fpu.raise_zero (u : Fpu) (he : e = 0) : u.raise e = (u, false) := if_pos he

theorem Fpu.raise_raised (u : Fpu) (e : Exc) : Raised u (u.raise e).1 e (u.raise e).2 := by
  by_cases he : e = 0
  · rw [u.raise_zero he, he]
    exact ⟨rfl, fun i _ => by simp, nofun, fun h => absurd rfl h⟩
  · have htest := unmasked_iff (u.sw ||| (e &&& 0x7f)) u.cw
    have hbits (i : ℕ) (hi : i < 7) := bit_recorded u.sw e i hi
    rw [u.raise_eq he]
    by_cases hstop : (u.sw ||| (e &&& 0x7f)) &&& ~~~u.cw &&& 0x3f ≠ 0
    · rw [if_pos hstop]
      obtain ⟨i, hi, hw, hcw⟩ := htest.mp hstop
      have hset : ∃ i < 6, (u.sw ||| (e &&& 0x7f) ||| 0x8080).getLsbD i = true ∧
          u.cw.getLsbD i = false := by
        refine ⟨i, hi, ?_, hcw⟩
        rw [(hbits i (by omega)).2, ← (hbits i (by omega)).1]
        exact hw
      exact ⟨rfl, fun i hi => (hbits i hi).2, fun _ => by simp, fun _ => iff_of_true rfl hset⟩
    · rw [if_neg hstop]
      exact ⟨rfl, fun i hi => (hbits i hi).1, nofun,
        fun _ => iff_of_false Bool.false_ne_true fun h => hstop (htest.mpr h)⟩

theorem Raised.below {v₀ : Fpu} {stop₀ stop : Bool} (h₀ : Raised u₀ v₀ e stop₀)
    (h : Raised u v e stop) (hbelow : Fpu.Below u₀ u) : Fpu.Below v₀ v := by
  constructor
  · rw [h₀.only, h.only, hbelow.same]
  · intro i hi hbit
    rw [h₀.bits i hi, Bool.or_eq_true] at hbit
    rw [h.bits i hi, Bool.or_eq_true]
    exact hbit.imp_left (hbelow.bits i hi)

variable {u v : Fpu} {e : Exc} {x : Unit}

theorem final_raising : final (raising e u) = (u.raise e).1 := by
  unfold raising
  dsimp only
  split <;> rfl

theorem raising_error (h : raising e u = .error x v) :
    (u.raise e).2 = true ∧ v = (u.raise e).1 := by
  unfold raising at h
  dsimp only at h
  split at h
  · case isTrue hstop =>
    cases h
    exact ⟨hstop, rfl⟩
  · cases h

theorem raising_ok (h : raising e u = .ok x v) : (u.raise e).2 = false ∧ v = (u.raise e).1 := by
  unfold raising at h
  dsimp only at h
  split at h
  · cases h
  · case isFalse hstop =>
    cases h
    exact ⟨Bool.not_eq_true _ ▸ hstop, rfl⟩

end Raising

variable {p : Prop}

section Guards
open Fpu

/-- A part of an op that only looks and raises. It goes on only if what it has raised is masked, and
where more is recorded it stops no later. -/
structure Guard {α : Type} (c : FpuM α) : Prop where
  only : ∀ u, final (c u) = { u with sw := (final (c u)).sw }
  grows : ∀ u, ∀ i < 7, u.sw.getLsbD i = true → (final (c u)).sw.getLsbD i = true
  summary : ∀ {u e v}, c u = .error e v → v.sw.getLsbD 7 = true
  masked : ∀ {u a v}, c u = .ok a v → ∀ i < 6, u.cw.getLsbD i = false →
    v.sw.getLsbD i = true → u.sw.getLsbD i = true
  stops : ∀ {u₀ u e₀ v₀}, Below u₀ u → c u₀ = .error e₀ v₀ → ∃ e v, c u = .error e v
  both : ∀ {u₀ u a₀ v₀ a v}, Below u₀ u → c u₀ = .ok a₀ v₀ → c u = .ok a v →
    a = a₀ ∧ Below v₀ v

namespace Guard
variable {α β : Type} {c : FpuM α}

theorem only_ok (h : Guard c) {a : α} (hc : c u = .ok a v) : v = { u with sw := v.sw } := by
  have := h.only u
  rwa [hc] at this

theorem only_error (h : Guard c) {e : Unit} (hc : c u = .error e v) :
    v = { u with sw := v.sw } := by
  have := h.only u
  rwa [hc] at this

theorem of_ok {f : Fpu → α} {g : Fpu → U16}
    (hrun : ∀ u, c u = .ok (f u) { u with sw := g u })
    (hval : ∀ {u₀ u}, Below u₀ u → f u = f u₀)
    (hbits : ∀ u, ∀ i < 7, (g u).getLsbD i = u.sw.getLsbD i) : Guard c where
  only u := by
    rw [hrun]
    rfl
  grows u i hi h := by
    rw [hrun]
    exact (hbits u i hi).trans h
  summary h := by
    rw [hrun] at h
    cases h
  masked h i hi _ hbit := by
    rw [hrun] at h
    cases h
    exact (hbits _ i (by omega)).symm.trans hbit
  stops _ h := by
    rw [hrun] at h
    cases h
  both {u₀ u a₀ v₀ a v} hbelow h₀ h := by
    rw [hrun] at h₀ h
    cases h₀
    cases h
    have hsame : ({ u₀ with sw := g u₀ } : Fpu) = { u with sw := g u₀ } := by
      rw [hbelow.same]
    refine ⟨hval hbelow, hsame, ?_⟩
    intro i hi hbit
    have hold : u₀.sw.getLsbD i = true := (hbits u₀ i hi).symm.trans hbit
    exact (hbits u i hi).trans (hbelow.bits i hi hold)

theorem pure (a : α) : Guard (Pure.pure a : FpuM α) :=
  of_ok (f := fun _ => a) (fun _ => rfl) (fun _ => rfl) fun _ _ _ => rfl

theorem raising (e : Exc) : Guard (FpuM.raising e) := by
  refine ⟨?_, ?_, ?_, ?_, ?_, ?_⟩
  · intro u
    rw [final_raising]
    exact (u.raise_raised e).only
  · intro u i hi h
    rw [final_raising, (u.raise_raised e).bits i hi, h, Bool.true_or]
  · intro u x v h
    obtain ⟨hstop, rfl⟩ := raising_error h
    exact (u.raise_raised e).summary hstop
  · intro u x v h i hi hcw hbit
    obtain ⟨hgo, rfl⟩ := raising_ok h
    by_cases he : e = 0
    · rwa [u.raise_zero he] at hbit
    · have hstop := ((u.raise_raised e).stops_iff he).mpr ⟨i, hi, hbit, hcw⟩
      rw [hgo] at hstop
      cases hstop
  · intro u₀ u x v hbelow h
    obtain ⟨hstop, -⟩ := raising_error h
    have he : e ≠ 0 := by
      intro hzero
      rw [u₀.raise_zero hzero] at hstop
      cases hstop
    -- what stops the op where less is recorded is recorded here as well
    obtain ⟨i, hi, hbit, hcw⟩ := ((u₀.raise_raised e).stops_iff he).mp hstop
    have hmore := ((u₀.raise_raised e).below (u.raise_raised e) hbelow).bits i (by omega) hbit
    have hstops := ((u.raise_raised e).stops_iff he).mpr ⟨i, hi, hmore, hbelow.cw ▸ hcw⟩
    exact ⟨(), (u.raise e).1, if_pos hstops⟩
  · intro u₀ u a₀ v₀ a v hbelow h₀ h
    obtain ⟨-, rfl⟩ := raising_ok h₀
    obtain ⟨-, rfl⟩ := raising_ok h
    exact ⟨rfl, (u₀.raise_raised e).below (u.raise_raised e) hbelow⟩

theorem get {f : Fpu → FpuM α} (hsw : ∀ u w, f { u with sw := w } = f u)
    (h : ∀ u, Guard (f u)) : Guard (MonadState.get >>= f) := by
  have hrun (u : Fpu) : (MonadState.get >>= f : FpuM α) u = f u u := rfl
  have hsame {u₀ u : Fpu} (hbelow : Below u₀ u) : f u₀ = f u := by
    rw [hbelow.same, hsw]
  refine ⟨?_, ?_, ?_, ?_, ?_, ?_⟩
  · intro u
    exact (h u).only u
  · intro u
    exact (h u).grows u
  · intro u e v hc
    exact (h u).summary hc
  · intro u a v hc
    exact (h u).masked hc
  · intro u₀ u e₀ v₀ hbelow hc
    rw [hrun, hsame hbelow] at hc
    exact (h u).stops hbelow hc
  · intro u₀ u a₀ v₀ a v hbelow hc₀ hc
    rw [hrun, hsame hbelow] at hc₀
    exact (h u).both hbelow hc₀ hc

theorem bind {f : α → FpuM β} (hc : Guard c) (hf : ∀ a, Guard (f a)) : Guard (c >>= f) := by
  refine ⟨?_, ?_, ?_, ?_, ?_, ?_⟩
  · intro u
    cases h : c u with
    | error e v =>
      rw [bind_of_error h]
      exact hc.only_error h
    | ok a v =>
      have hrest := (hf a).only v
      rw [bind_of_ok h, hrest, hc.only_ok h]
  · intro u i hi hbit
    have hfirst := hc.grows u i hi hbit
    cases h : c u with
    | error e v =>
      rw [h] at hfirst
      rw [bind_of_error h]
      exact hfirst
    | ok a v =>
      rw [h] at hfirst
      rw [bind_of_ok h]
      exact (hf a).grows v i hi hfirst
  · intro u e w hrun
    cases h : c u with
    | error e v =>
      rw [bind_of_error h] at hrun
      cases hrun
      exact hc.summary h
    | ok a v =>
      rw [bind_of_ok h] at hrun
      exact (hf a).summary hrun
  · intro u b w hrun i hi hcw hbit
    cases h : c u with
    | error e v =>
      rw [bind_of_error h] at hrun
      cases hrun
    | ok a v =>
      rw [bind_of_ok h] at hrun
      have hcw' : v.cw.getLsbD i = false := by rw [hc.only_ok h, hcw]
      exact hc.masked h i hi hcw ((hf a).masked hrun i hi hcw' hbit)
  · intro u₀ u e₀ w₀ hbelow hrun
    cases h : c u with
    | error e v => exact ⟨e, v, bind_of_error h⟩
    | ok a v =>
      cases h₀ : c u₀ with
      | error e v₀ =>
        obtain ⟨e', v', hstop⟩ := hc.stops hbelow h₀
        rw [h] at hstop
        cases hstop
      | ok a₀ v₀ =>
        obtain ⟨rfl, hbelow'⟩ := hc.both hbelow h₀ h
        rw [bind_of_ok h₀] at hrun
        rw [bind_of_ok h]
        exact (hf a).stops hbelow' hrun
  · intro u₀ u b₀ w₀ b w hbelow hrun₀ hrun
    cases h : c u with
    | error e v =>
      rw [bind_of_error h] at hrun
      cases hrun
    | ok a v =>
      cases h₀ : c u₀ with
      | error e v₀ =>
        rw [bind_of_error h₀] at hrun₀
        cases hrun₀
      | ok a₀ v₀ =>
        obtain ⟨rfl, hbelow'⟩ := hc.both hbelow h₀ h
        rw [bind_of_ok h₀] at hrun₀
        rw [bind_of_ok h] at hrun
        exact (hf a).both hbelow' hrun₀ hrun

theorem underflow : Guard FpuM.underflow := by
  have hc1 : ∀ i < 7, (~~~c1).getLsbD i = true := by decide
  apply bind _ fun _ => raising _
  apply of_ok (f := fun _ => ()) (fun _ => rfl) fun _ => rfl
  intro u i hi
  rw [BitVec.getLsbD_and, hc1 i hi, Bool.and_true]

theorem ite [Decidable p] {d : FpuM α} (hc : Guard c) (hd : Guard d) :
    Guard (if p then c else d) := by
  split
  · exact hc
  · exact hd

theorem look (i : ℕ) (a : α) (f : BitVec 80 → α) : Guard (do
    let u ← MonadState.get
    if u.isEmpty (u.slot i) then
      FpuM.underflow
      return a
    return f (u.fpr (u.slot i)) : FpuM α) := by
  apply get
  · intro u w
    rfl
  · intro u
    exact ite (bind underflow fun _ => pure _) (pure _)

theorem operand (i : ℕ) : Guard (FpuM.operand i) := look i F80.indefinite F80.fromBytes

end Guard

end Guards

section Safety
open Fpu

/-- An exception of those that come before a result is raised between the two units, and it is not
masked. -/
def Unmasked (u v : Fpu) : Prop :=
  ∃ i < 3, u.sw.getLsbD i = false ∧ v.sw.getLsbD i = true ∧ u.cw.getLsbD i = false

structure Stopped (u v : Fpu) : Prop where
  only : v = { u with sw := v.sw }
  grows : ∀ i < 7, u.sw.getLsbD i = true → v.sw.getLsbD i = true
  summary : v.sw.getLsbD 7 = true

/-- An op that is abandoned with nothing written if it raises an unmasked exception. -/
def Safe {α : Type} (m : FpuM α) : Prop :=
  ∀ u₀ u, Below u₀ u → Unmasked u₀ (final (m u₀)) → Stopped u (final (m u))

/-- The same for an op that has a result, which it does not give then. -/
def Refuses {α : Type} (m : FpuM α) : Prop :=
  ∀ u₀ u, Below u₀ u → Unmasked u₀ (final (m u₀)) → ∃ e v, m u = .error e v ∧ Stopped u v

def RaisesOnly (e : Exc) {α : Type} (m : FpuM α) : Prop :=
  ∀ u, ∀ i < 7, (final (m u)).sw.getLsbD i = true → u.sw.getLsbD i = true ∨ e.getLsbD i = true

def Silent {α : Type} (m : FpuM α) : Prop := RaisesOnly 0 m

variable {α β : Type}

theorem RaisesOnly.bind {m : FpuM α} {f : α → FpuM β} (hm : RaisesOnly e m)
    (hf : ∀ a, RaisesOnly e (f a)) : RaisesOnly e (m >>= f) := by
  intro u i hi hbit
  have hfirst := hm u i hi
  cases h : m u with
  | error x v =>
    rw [h] at hfirst
    rw [bind_of_error h] at hbit
    exact hfirst hbit
  | ok a v =>
    rw [h] at hfirst
    rw [bind_of_ok h] at hbit
    cases hf a v i hi hbit with
    | inl hbefore => exact hfirst hbefore
    | inr he => exact .inr he

theorem RaisesOnly.ite [Decidable p] {m n : FpuM α} (hm : RaisesOnly e m)
    (hn : RaisesOnly e n) : RaisesOnly e (if p then m else n) := by
  split
  · exact hm
  · exact hn

variable {m : FpuM α} {u : Fpu}

theorem Silent.old (h : Silent m) (hi : i < 7)
    (hbit : (final (m u)).sw.getLsbD i = true) : u.sw.getLsbD i = true := by
  cases h u i hi hbit with
  | inl hold => exact hold
  | inr hzero => exact absurd (hzero.symm.trans BitVec.getLsbD_zero) Bool.noConfusion

theorem Silent.raisesOnly (h : Silent m) (e : Exc) : RaisesOnly e m :=
  fun _ _ hi hbit => .inl (h.old hi hbit)

theorem Silent.bind {f : α → FpuM β} (hm : Silent m) (hf : ∀ a, Silent (f a)) :
    Silent (m >>= f) := RaisesOnly.bind hm hf

theorem Silent.pure (a : α) : Silent (Pure.pure a : FpuM α) := fun _ _ _ h => .inl h

theorem Silent.modify {f : Fpu → Fpu}
    (h : ∀ u, ∀ i < 7, (f u).sw.getLsbD i = true → u.sw.getLsbD i = true) :
    Silent (modify f : FpuM Unit) := fun u i hi hbit => .inl (h u i hi hbit)

theorem Silent.popIf (pops : Bool) : Silent (popIf pops) := by
  apply Silent.modify
  intro u i hi h
  cases pops with
  | false => exact h
  | true => exact h

variable {c : FpuM α}

theorem Guard.stopped (hc : Guard c) {e : Unit} (h : c u = .error e v) : Stopped u v := by
  have hgrows := hc.grows u
  rw [h] at hgrows
  exact ⟨hc.only_error h, hgrows, hc.summary h⟩

theorem Guard.refuses (hc : Guard c) : Refuses c := by
  intro u₀ u hbelow hraised
  obtain ⟨i, hi, hclear, hset, hcw⟩ := hraised
  cases h : c u₀ with
  | error e v =>
    obtain ⟨e', v', hstop⟩ := hc.stops hbelow h
    exact ⟨e', v', hstop, hc.stopped hstop⟩
  | ok a v =>
    rw [h] at hset
    have := hc.masked h i (by omega) hcw hset
    rw [hclear] at this
    cases this

theorem Silent.refuses (h : Silent m) : Refuses m := by
  intro u₀ u _ hraised
  obtain ⟨i, hi, hclear, hset, -⟩ := hraised
  have := h.old (by omega) hset
  rw [hclear] at this
  cases this

theorem Refuses.bind {f : α → FpuM β} (hc : Guard c) (hf : ∀ a, Silent (f a)) :
    Refuses (c >>= f) := by
  intro u₀ u hbelow hraised
  have hfirst : Unmasked u₀ (final (c u₀)) := by
    obtain ⟨i, hi, hclear, hset, hcw⟩ := hraised
    refine ⟨i, hi, hclear, ?_, hcw⟩
    cases h : c u₀ with
    | error e v =>
      rw [bind_of_error h] at hset
      exact hset
    | ok a v =>
      rw [bind_of_ok h] at hset
      exact (hf a).old (by omega) hset
  obtain ⟨e, v, hstop, hstopped⟩ := hc.refuses u₀ u hbelow hfirst
  exact ⟨e, v, bind_of_error hstop, hstopped⟩

theorem Refuses.safe (h : Refuses m) : Safe m := by
  intro u₀ u hbelow hraised
  obtain ⟨e, v, hstop, hstopped⟩ := h u₀ u hbelow hraised
  rw [hstop]
  exact hstopped

theorem Silent.safe (h : Silent m) : Safe m := h.refuses.safe

theorem Stopped.trans {w : Fpu} (hsame : v = { u with sw := v.sw })
    (hgrows : ∀ i < 7, u.sw.getLsbD i = true → v.sw.getLsbD i = true) (h : Stopped v w) :
    Stopped u w := by
  refine ⟨?_, fun i hi hbit => h.grows i hi (hgrows i hi hbit), h.summary⟩
  have honly := h.only
  rw [hsame] at honly
  exact honly

theorem Safe.bind {f : α → FpuM β} (hc : Guard c) (hf : ∀ a, Safe (f a)) : Safe (c >>= f) := by
  intro u₀ u hbelow hraised
  cases h : c u with
  | error e v =>
    rw [bind_of_error h]
    exact hc.stopped h
  | ok a v =>
    rw [bind_of_ok h]
    cases h₀ : c u₀ with
    | error e v₀ =>
      obtain ⟨e', v', hstop⟩ := hc.stops hbelow h₀
      rw [h] at hstop
      cases hstop
    | ok a₀ v₀ =>
      obtain ⟨rfl, hbelow'⟩ := hc.both hbelow h₀ h
      rw [bind_of_ok h₀] at hraised
      obtain ⟨i, hi, hclear, hset, hcw⟩ := hraised
      -- what is not masked cannot have come from the first part, which went on
      have hclear' : v₀.sw.getLsbD i = false := by
        rw [← Bool.not_eq_true]
        intro hbit
        have := hc.masked h₀ i (by omega) hcw hbit
        rw [hclear] at this
        cases this
      have hcw' : v₀.cw.getLsbD i = false := by rw [hc.only_ok h₀, hcw]
      have hgrows := hc.grows u
      rw [h] at hgrows
      apply Stopped.trans (hc.only_ok h) hgrows
      exact hf a v₀ v hbelow' ⟨i, hi, hclear', hset, hcw'⟩

theorem Safe.get {f : Fpu → FpuM α} (hsw : ∀ u w, f { u with sw := w } = f u)
    (h : ∀ u, Safe (f u)) : Safe (MonadState.get >>= f) := by
  intro u₀ u hbelow hraised
  have hsame : f u₀ = f u := by rw [hbelow.same, hsw]
  change Unmasked u₀ (final (f u₀ u₀)) at hraised
  rw [hsame] at hraised
  exact h u u₀ u hbelow hraised

theorem Safe.ite [Decidable p] {n : FpuM α} (hm : Safe m) (hn : Safe n) :
    Safe (if p then m else n) := by
  split
  · exact hm
  · exact hn

theorem setSt_silent (i : ℕ) (f : Fpu → F80) :
    Silent (modify fun u => u.setSt i (f u) : FpuM Unit) :=
  Silent.modify fun _ _ _ h => h

def overflow (u : Fpu) : Fpu × Bool :=
  ({ u with sw := u.sw ||| c1 } : Fpu).raise (Exc.ie ||| Exc.sf)

theorem pushRaw_room (h : u.room = true) (b : BitVec 80) : (u.pushRaw b).sw = u.sw &&& ~~~c1 := by
  unfold room at h
  unfold Fpu.pushRaw
  rw [if_pos h]

theorem pushRaw_full (h : u.room = false) (b : BitVec 80) : (u.pushRaw b).sw = (overflow u).1.sw ∧
      ((overflow u).2 = true → u.pushRaw b = (overflow u).1) := by
  unfold room at h
  unfold Fpu.pushRaw
  dsimp only
  rw [if_neg (Bool.eq_false_iff.mp h)]
  unfold overflow
  constructor
  · split
    · rfl
    · rfl
  · intro hstop
    rw [if_pos hstop]

theorem overflow_bits (u : Fpu) (hi : i < 7) :
    (overflow u).1.sw.getLsbD i = (u.sw.getLsbD i || (Exc.ie ||| Exc.sf).getLsbD i) := by
  have hc1 : ∀ i < 7, c1.getLsbD i = false := by decide
  have hraised := ({ u with sw := u.sw ||| c1 } : Fpu).raise_raised (Exc.ie ||| Exc.sf)
  have hbit := hraised.bits i hi
  rw [BitVec.getLsbD_or, hc1 i hi, Bool.or_false] at hbit
  exact hbit

theorem overflow_stopped (hcw : u.cw.getLsbD 0 = false) :
    (overflow u).2 = true ∧ Stopped u (overflow u).1 := by
  have hraised := ({ u with sw := u.sw ||| c1 } : Fpu).raise_raised (Exc.ie ||| Exc.sf)
  have hbit : (overflow u).1.sw.getLsbD 0 = true := by
    rw [overflow_bits u (by omega)]
    exact Bool.or_true _
  have hstop : (overflow u).2 = true :=
    (hraised.stops_iff (by decide)).mpr ⟨0, by omega, hbit, hcw⟩
  refine ⟨hstop, hraised.only, ?_, hraised.summary hstop⟩
  intro i hi h
  rw [overflow_bits u hi, h, Bool.true_or]

theorem pushRaw_unmasked {b : BitVec 80} (h : Unmasked u (u.pushRaw b)) :
    u.room = false ∧ u.cw.getLsbD 0 = false := by
  have hlow : ∀ i < 3, (Exc.ie ||| Exc.sf).getLsbD i = true → i = 0 := by decide
  obtain ⟨i, hi, hclear, hset, hcw⟩ := h
  cases hroom : u.room with
  | true =>
    rw [pushRaw_room hroom, BitVec.getLsbD_and, hclear] at hset
    cases hset
  | false =>
    rw [(pushRaw_full hroom b).1, overflow_bits u (by omega), hclear] at hset
    rw [hlow i hi hset] at hcw
    exact ⟨rfl, hcw⟩

theorem pushRaw_safe (f : Fpu → BitVec 80) :
    Safe (modify fun u => u.pushRaw (f u) : FpuM Unit) := by
  intro u₀ u hbelow hraised
  change Stopped u (u.pushRaw (f u))
  obtain ⟨hroom₀, hcw₀⟩ := pushRaw_unmasked hraised
  have hroom : u.room = false := by
    rw [← hroom₀, hbelow.same]
    rfl
  obtain ⟨hstop, hstopped⟩ := overflow_stopped (hbelow.cw ▸ hcw₀)
  rw [(pushRaw_full hroom _).2 hstop]
  exact hstopped

end Safety

section Arms
open Fpu

def Arm.ChecksFirst : Arm → Prop
  | .quiet p => Safe p
  | .load _ p => ∀ b, Safe (p b)
  | .store p after => Refuses p ∧ Silent after
  | .ax => True
  | .compare p => Refuses p

variable {sti : U8}

theorem setCodes_silent (c : Bool × Bool × Bool) :
    Silent (modify fun u => u.setCodes c : FpuM Unit) := by
  have hkeep : ∀ i < 7, (~~~(0x4700 : U16)).getLsbD i = true := by decide
  have hcodes (b : Bool) (i : ℕ) (hi : i < 7) (w : U16)
      (hw : w = 0x0100 ∨ w = 0x0400 ∨ w = 0x4000) : (if b then w else 0).getLsbD i = false := by
    have hzero : ∀ i < 7, (0x0100 : U16).getLsbD i = false ∧
        (0x0400 : U16).getLsbD i = false ∧ (0x4000 : U16).getLsbD i = false := by
      decide
    cases b with
    | false => exact BitVec.getLsbD_zero
    | true =>
      obtain rfl | rfl | rfl := hw
      · exact (hzero i hi).1
      · exact (hzero i hi).2.1
      · exact (hzero i hi).2.2
  apply Silent.modify
  intro u i hi h
  unfold Fpu.setCodes at h
  rw [BitVec.getLsbD_or, BitVec.getLsbD_or, BitVec.getLsbD_or, hcodes _ i hi _ (.inl rfl),
    hcodes _ i hi _ (.inr (.inl rfl)), hcodes _ i hi _ (.inr (.inr rfl)), BitVec.getLsbD_and,
    hkeep i hi] at h
  simpa using h

theorem fldFloat_checks (n : ℕ) (value : List U8 → F80) :
    (Arm.fldFloat n value).ChecksFirst := by
  intro b
  apply Safe.ite
  · apply Safe.bind (.raising _)
    intro _
    exact pushRaw_safe _
  · exact pushRaw_safe _

theorem fild_checks (n : ℕ) (value : List U8 → F80) : (fild n value).ChecksFirst :=
  fun _ => pushRaw_safe _

theorem fstConverted_checks (pops : Bool) {bytes : Fpu → F80 → List U8}
    (hsw : ∀ u w v, bytes { u with sw := w } v = bytes u v) :
    (Arm.fstConverted pops bytes).ChecksFirst := by
  refine ⟨Guard.refuses ?_, Silent.popIf pops⟩
  apply Guard.bind (.operand 0)
  intro v
  apply Guard.get
  · intro u w
    rw [hsw]
  · intro u
    exact .pure _

theorem fstpF80_checks : Arm.fstpF80.ChecksFirst :=
  ⟨Guard.refuses (.look 0 _ fun r => wideBytes r 10), Silent.popIf true⟩

theorem arithMem_checks (n : ℕ) (value : List U8 → F80)
    (op : F80 → F80 → Ctl → F80 × Exc) : (Arm.arithMem n value op).ChecksFirst := by
  intro b
  apply Safe.bind (.operand 0)
  intro a
  apply Safe.get
  · intro u w
    rfl
  · intro u
    apply Safe.bind (.raising _)
    intro _
    exact (setSt_silent 0 _).safe

theorem ficom_checks (n : ℕ) (value : List U8 → F80) (pops : Bool) :
    (Arm.ficom n value pops).ChecksFirst := by
  intro b
  apply Safe.bind (.operand 0)
  intro a
  have hcodes (c : Bool × Bool × Bool) :
      Safe (do modify fun u => u.setCodes c; popIf pops) :=
    ((setCodes_silent c).bind fun _ => Silent.popIf pops).safe
  apply Safe.ite
  · exact Safe.bind (.raising _) fun _ => hcodes _
  · exact hcodes _

theorem arithReg_checks (dst : ℕ) (op : F80 → F80 → Ctl → F80 × Exc) (pops : Bool) :
    (Arm.arithReg sti dst op pops).ChecksFirst := by
  apply Safe.bind (.operand 0)
  intro s0
  apply Safe.bind (.operand sti.toNat)
  intro si
  apply Safe.get
  · intro u w
    rfl
  · intro u
    apply Safe.bind (.raising _)
    intro _
    exact ((setSt_silent dst _).bind fun _ => Silent.popIf pops).safe

theorem fstSti_checks (pops : Bool) : (Arm.fstSti sti pops).ChecksFirst := by
  apply Safe.bind (.operand 0)
  intro v
  exact ((setSt_silent sti.toNat _).bind fun _ => Silent.popIf pops).safe

theorem unary_checks (f : X87Precision → F80 → F80) : (Arm.unary f).ChecksFirst := by
  apply Safe.bind (.operand 0)
  intro x
  exact (setSt_silent 0 fun u => f u.precision x).safe

theorem binaryPop_checks (f : X87Precision → F80 → F80 → F80) : (Arm.binaryPop f).ChecksFirst := by
  apply Safe.bind (.operand 1)
  intro y
  apply Safe.bind (.operand 0)
  intro x
  exact ((setSt_silent 1 fun u => f u.precision y x).bind fun _ => Silent.popIf true).safe

theorem trig_checks (f : X87Precision → F80 → F80) : (Arm.trig f none).ChecksFirst := by
  apply Safe.bind (.operand 0)
  intro x
  apply Safe.ite
  · exact ((setSt_silent 0 fun u => f u.precision x).bind fun _ => Silent.pure ()).safe
  · exact (Silent.pure ()).safe

theorem comi_checks (pops : Bool) : (Arm.comi sti pops).ChecksFirst := by
  let both : FpuM (F80 × F80) := do
    let a ← operand 0
    let b ← operand sti.toNat
    return (a, b)
  have hboth : Guard both :=
    .bind (.operand 0) fun _ => .bind (.operand sti.toNat) fun _ => .pure _
  have hrest (x : F80 × F80) : Silent (popIf pops >>= fun _ => pure (F80.compare x.1 x.2)) :=
    (Silent.popIf pops).bind fun _ => Silent.pure _
  have hrefuses := Refuses.bind hboth hrest
  simp only [both, bind_assoc] at hrefuses
  exact hrefuses

variable {M : Type} [FpMem M] {H : Host} {kind : FpuKind} {addr : U64}

theorem armOf_checks (henv : kind ≠ .fldenv) (htan : kind ≠ .fptan) (hsincos : kind ≠ .fsincos) :
    (armOf H kind sti).ChecksFirst := by
  have hfistp (n : ℕ) : (fistp n).ChecksFirst := fstConverted_checks true fun _ _ _ => rfl
  have hfisttp (n : ℕ) : (fisttp n).ChecksFirst := fstConverted_checks true fun _ _ _ => rfl
  have hfst (pops : Bool) (bytes : F80 → List U8) :
      (Arm.fstConverted pops fun _ => bytes).ChecksFirst :=
    fstConverted_checks pops fun _ _ _ => rfl
  have hreads (f : Fpu → List U8) :
      Refuses (do return f (← get) : FpuM (List U8)) :=
    Silent.refuses fun _ _ _ h => .inl h
  cases kind with
  | fldF64 | fldF32 => exact fldFloat_checks _ _
  | fldF80 => exact fun _ => pushRaw_safe _
  | fildI16 | fildI32 | fildI64 => exact fild_checks _ _
  | fstpF64 | fstF64 | fstpF32 | fstF32 => exact hfst _ _
  | fstpF80 => exact fstpF80_checks
  | fistpI16 | fistpI32 | fistpI64 => exact hfistp _
  | fisttpI16 | fisttpI32 | fisttpI64 => exact hfisttp _
  | faddMemF64 | fsubMemF64 | fsubrMemF64 | fmulMemF64 | fdivMemF64 | fdivrMemF64
  | faddMemF32 | fsubMemF32 | fsubrMemF32 | fmulMemF32 | fdivMemF32 | fdivrMemF32
  | fiaddMemI16 | fisubMemI16 | fisubrMemI16 | fimulMemI16 | fidivMemI16 | fidivrMemI16
  | fiaddMemI32 | fisubMemI32 | fisubrMemI32 | fimulMemI32 | fidivMemI32 | fidivrMemI32 =>
    exact arithMem_checks _ _ _
  | ficomI16 | ficomI32 | ficompI16 | ficompI32 => exact ficom_checks _ _ _
  | fldSti =>
    apply Safe.bind (.operand sti.toNat)
    intro v
    exact pushRaw_safe _
  | fld1 | fldz => exact pushRaw_safe _
  | faddP | fsubP | fsubrP | fmulP | fdivP | fdivrP
  | faddSti | fsubSti | fsubrSti | fmulSti | fdivSti | fdivrSti
  | faddToSti | fsubToSti | fsubrToSti | fmulToSti | fdivToSti | fdivrToSti =>
    exact arithReg_checks _ _ _
  | fstSti | fstpSti => exact fstSti_checks _
  | fxch =>
    apply Safe.bind (.operand 0)
    intro a
    apply Safe.bind (.operand sti.toNat)
    intro b
    apply Silent.safe
    exact fun _ _ _ h => .inl h
  | fucomi | fcomi | fucomip | fcomip => exact comi_checks _
  | fabs => exact unary_checks fun _ v => v.abs
  | fchs => exact unary_checks fun _ v => v.neg
  | f2xm1 => exact unary_checks H.exp2m1
  | fldcw =>
    intro b
    apply Silent.safe
    exact fun _ _ _ h => .inl h
  | fnstcw | fnstswMem => exact ⟨hreads _, Silent.pure _⟩
  | fnstenv => exact ⟨hreads _, Silent.modify fun _ _ _ h => h⟩
  | fnstsw => trivial
  | fldenv => exact absurd rfl henv
  | fninit =>
    apply Silent.safe
    apply Silent.modify
    intro u i hi h
    exact absurd (h.symm.trans BitVec.getLsbD_zero) Bool.noConfusion
  | fnclex =>
    apply Silent.safe
    apply Silent.modify
    intro u i hi h
    unfold Fpu.clearExceptions at h
    rw [BitVec.getLsbD_and, Bool.and_eq_true] at h
    exact h.1
  | fprem =>
    apply Safe.bind (.operand 0)
    intro a
    apply Safe.bind (.operand 1)
    intro b
    exact (setSt_silent 0 _).safe
  | fsin => exact trig_checks H.sin
  | fcos => exact trig_checks H.cos
  | fptan => exact absurd rfl htan
  | fsincos => exact absurd rfl hsincos
  | fpatan => exact binaryPop_checks H.atan2
  | fyl2x => exact binaryPop_checks H.ylog2x
  | fyl2xp1 => exact binaryPop_checks H.ylog2xp1

section Run
variable {s : X87State M} {n : ℕ} {e : Unit} {u : Fpu}

theorem Arm.run_load_none {p : List U8 → FpuM Unit} (h : FpMem.load s.mem addr n = none) :
    ((Arm.load n p).run addr s).2 = s := by
  unfold Arm.run
  dsimp only
  rw [h]

theorem Arm.run_load_some {p : List U8 → FpuM Unit} {b : List U8}
    (h : FpMem.load s.mem addr n = some b) :
    ((Arm.load n p).run addr s).2 = s.setFpu (final (p b s.cpu.fpu)) := by
  unfold Arm.run
  dsimp only
  rw [h]

theorem Arm.run_store_error {p : FpuM (List U8)} {after : FpuM Unit}
    (h : p s.cpu.fpu = .error e u) : ((Arm.store p after).run addr s).2 = s.setFpu u := by
  unfold Arm.run
  dsimp only
  rw [h]

theorem Arm.run_compare_error {p : FpuM (Bool × Bool × Bool)} (h : p s.cpu.fpu = .error e u) :
    ((Arm.compare p).run addr s).2 = s.setFpu u := by
  unfold Arm.run
  dsimp only
  rw [h]

theorem Arm.run_store_bits {p : FpuM (List U8)} {after : FpuM Unit} (hafter : Silent after)
    (hi : i < 7) (h : ((Arm.store p after).run addr s).2.cpu.fpu.sw.getLsbD i = true) :
    (final (p s.cpu.fpu)).sw.getLsbD i = true := by
  unfold Arm.run at h
  dsimp only at h
  cases hp : p s.cpu.fpu with
  | error e v =>
    rw [hp] at h
    exact h
  | ok bs v =>
    rw [hp] at h
    dsimp only at h
    split at h
    · exact hafter.old hi h
    · exact h

theorem Arm.run_compare_fpu (p : FpuM (Bool × Bool × Bool)) :
    ((Arm.compare p).run addr s).2.cpu.fpu = final (p s.cpu.fpu) := by
  unfold Arm.run
  dsimp only
  split
  · case h_1 hp =>
    rw [hp]
    rfl
  · case h_2 hp =>
    rw [hp]
    rfl

theorem Arm.run_stopped {arm : Arm} (harm : arm.ChecksFirst)
    (hbelow : Below u₀ s.cpu.fpu) (hraised : Unmasked u₀ (arm.run addr (s.setFpu u₀)).2.cpu.fpu) :
    ∃ v, (arm.run addr s).2 = s.setFpu v ∧ Stopped s.cpu.fpu v := by
  have hnothing : ¬Unmasked u₀ u₀ := by
    intro hself
    obtain ⟨i, -, hclear, hset, -⟩ := hself
    rw [hclear] at hset
    cases hset
  cases arm with
  | quiet p => exact ⟨_, rfl, harm u₀ _ hbelow hraised⟩
  | load n p =>
    cases hload : FpMem.load s.mem addr n with
    | none =>
      rw [run_load_none (s := s.setFpu u₀) hload] at hraised
      exact absurd hraised hnothing
    | some b =>
      rw [run_load_some (s := s.setFpu u₀) hload] at hraised
      exact ⟨_, run_load_some hload, harm b u₀ _ hbelow hraised⟩
  | store p after =>
    obtain ⟨hp, hafter⟩ := harm
    obtain ⟨i, hi, hclear, hset, hcw⟩ := hraised
    have hfirst : Unmasked u₀ (final (p u₀)) :=
      ⟨i, hi, hclear, run_store_bits hafter (by omega) hset, hcw⟩
    obtain ⟨e, v, hstop, hstopped⟩ := hp u₀ _ hbelow hfirst
    exact ⟨v, run_store_error hstop, hstopped⟩
  | ax => exact absurd hraised hnothing
  | compare p =>
    rw [run_compare_fpu] at hraised
    obtain ⟨e, v, hstop, hstopped⟩ := harm u₀ _ hbelow hraised
    exact ⟨v, run_compare_error hstop, hstopped⟩

end Run

end Arms

section TwoResults
open Fpu
variable {f g : X87Precision → F80 → F80} {u : Fpu}

theorem underflow_raisesOnly : RaisesOnly (Exc.ie ||| Exc.sf) underflow := by
  apply RaisesOnly.bind
  · apply Silent.raisesOnly
    apply Silent.modify
    intro u i hi h
    rw [BitVec.getLsbD_and, Bool.and_eq_true] at h
    exact h.1
  · intro _ u i hi h
    have hfinal : final (raising (Exc.ie ||| Exc.sf) u) = (u.raise (Exc.ie ||| Exc.sf)).1 := by
      unfold raising
      dsimp only
      split <;> rfl
    rw [hfinal, (u.raise_raised _).bits i hi, Bool.or_eq_true] at h
    exact h

theorem operand_raisesOnly (i : ℕ) : RaisesOnly (Exc.ie ||| Exc.sf) (operand i) := by
  have hget : Silent (MonadState.get : FpuM Fpu) := fun _ _ _ h => .inl h
  apply (hget.raisesOnly _).bind
  intro u
  apply RaisesOnly.ite
  · exact underflow_raisesOnly.bind fun _ => (Silent.pure _).raisesOnly _
  · exact (Silent.pure _).raisesOnly _

theorem pushRaw_raisesOnly (b : Fpu → BitVec 80) :
    RaisesOnly (Exc.ie ||| Exc.sf) (modify fun u => u.pushRaw (b u) : FpuM Unit) := by
  intro u i hi h
  change (u.pushRaw (b u)).sw.getLsbD i = true at h
  cases hroom : u.room with
  | true =>
    rw [pushRaw_room hroom, BitVec.getLsbD_and, Bool.and_eq_true] at h
    exact .inl h.1
  | false =>
    rw [(pushRaw_full hroom _).1, overflow_bits u hi, Bool.or_eq_true] at h
    exact h

def twoResults (f g : X87Precision → F80 → F80) : FpuM Unit := do
  let x ← operand 0
  if inReductionDomain x then
    modify fun u => u.setSt 0 (f u.precision x)
    modify fun u => u.push (g u.precision x)

theorem twoResults_raisesOnly : RaisesOnly (Exc.ie ||| Exc.sf) (twoResults f g) := by
  apply (operand_raisesOnly 0).bind
  intro x
  apply RaisesOnly.ite
  · apply ((setSt_silent 0 fun u => f u.precision x).raisesOnly _).bind
    intro _
    exact pushRaw_raisesOnly fun u => (g u.precision x).toBytes
  · exact (Silent.pure ()).raisesOnly _

def Fpu.top0 (u : Fpu) : F80 := F80.fromBytes (u.st 0)

def halfDone (f : X87Precision → F80 → F80) (u : Fpu) : Fpu := u.setSt 0 (f u.precision u.top0)

theorem twoResults_used (h : u.used 0 = true) : final (twoResults f g u) =
    if inReductionDomain u.top0 then (halfDone f u).pushRaw (g u.precision u.top0).toBytes
    else u := by
  unfold twoResults
  rw [bind_operand_used h]
  unfold Fpu.top0
  split
  · rfl
  · rfl

theorem halfDone_eq (h : u.used 0 = true) : halfDone f u =
    { u with fpr := Function.update u.fpr (u.slot 0) (f u.precision u.top0).toBytes } :=
  put_used _ (Bool.not_eq_true' _ ▸ h)

theorem room_halfDone (h : u.used 0 = true) : (halfDone f u).room = u.room := by
  rw [halfDone_eq h]
  rfl

theorem operand_empty (h : u.used 0 = false) (hcw : u.cw.getLsbD 0 = false) :
    ∃ e v, operand 0 u = .error e v := by
  have hempty : u.isEmpty (u.slot 0) = true := Bool.not_eq_false' _ ▸ h
  have hinvalid : u.underflowed.sw.getLsbD 0 = true := by
    unfold Fpu.underflowed
    rw [BitVec.getLsbD_or]
    exact Bool.or_true _
  have htest := (unmasked_iff u.underflowed.sw u.cw).mpr ⟨0, by omega, hinvalid, hcw⟩
  have hrun : operand 0 u = (underflow >>= fun _ => pure F80.indefinite) u := by
    change (if u.isEmpty (u.slot 0) = true then _ else _ : FpuM F80) u = _
    rw [hempty, if_pos rfl]
  rw [hrun]
  exact ⟨_, _, bind_of_error ((underflow_eq u).trans (if_pos htest))⟩

/-- There is no register for the second result, with that unmasked. The first result has taken the
place of the operand by then, which is lost unless it is its own result. -/
structure Loses (f : X87Precision → F80 → F80) (u : Fpu) : Prop where
  unmasked : u.cw.getLsbD 0 = false
  used : u.used 0 = true
  full : u.room = false
  reduced : inReductionDomain u.top0 = true
  changed : (f u.precision u.top0).toBytes ≠ u.st 0

theorem twoResults_overflow (hused : u.used 0 = true) (hfull : u.room = false)
    (hreduced : inReductionDomain u.top0 = true) (hcw : u.cw.getLsbD 0 = false) :
    final (twoResults f g u) = (overflow (halfDone f u)).1 ∧
      Stopped (halfDone f u) (overflow (halfDone f u)).1 := by
  have hroom : (halfDone f u).room = false := (room_halfDone hused).trans hfull
  have hcw' : (halfDone f u).cw.getLsbD 0 = false := by rw [halfDone_eq hused, hcw]
  obtain ⟨hstop, hstopped⟩ := overflow_stopped hcw'
  refine ⟨?_, hstopped⟩
  rw [twoResults_used hused, if_pos hreduced]
  exact (pushRaw_full hroom _).2 hstop

theorem twoResults_lost (h : Loses f u) :
    (final (twoResults f g (u.without 0))).sw.getLsbD 0 = true ∧
      (final (twoResults f g u)).fpr ≠ u.fpr := by
  constructor
  · rw [(twoResults_overflow (u := u.without 0) h.used h.full h.reduced h.unmasked).1,
      overflow_bits _ (by omega)]
    exact Bool.or_true _
  · intro hsame
    obtain ⟨hfinal, hstopped⟩ := twoResults_overflow (g := g) h.used h.full h.reduced
      h.unmasked
    have hslot : (halfDone f u).fpr (u.slot 0) = u.st 0 := by
      have hfpr := congrFun hsame (u.slot 0)
      rw [hfinal, hstopped.only] at hfpr
      exact hfpr
    rw [halfDone_eq h.used] at hslot
    dsimp only at hslot
    rw [Function.update_self] at hslot
    exact h.changed hslot

theorem twoResults_stopped (hkeeps : ¬Loses f u) (hraised : ∃ i < 3,
      (final (twoResults f g (u.without i))).sw.getLsbD i = true ∧ u.cw.getLsbD i = false) :
    Stopped u (final (twoResults f g u)) := by
  have hlow : ∀ i < 3, (Exc.ie ||| Exc.sf).getLsbD i = true → i = 0 := by decide
  obtain ⟨i, hi, hset, hcw⟩ := hraised
  have hclear : (u.without i).sw.getLsbD i = false := getLsbD_without i
  have hinvalid := twoResults_raisesOnly _ i (by omega) hset
  rw [hclear] at hinvalid
  obtain rfl : i = 0 := hlow i hi (hinvalid.resolve_left Bool.false_ne_true)
  cases hused : u.used 0 with
  | false =>
    obtain ⟨e, v, hstop⟩ := operand_empty hused hcw
    have hfinal : twoResults f g u = .error e v := bind_of_error hstop
    rw [hfinal]
    exact (Guard.operand 0).stopped hstop
  | true =>
    rw [twoResults_used (u := u.without 0) hused] at hset
    by_cases hreduced : inReductionDomain u.top0 = true
    · rw [if_pos (show inReductionDomain (u.without 0).top0 = true from hreduced)] at hset
      have hfull : u.room = false := by
        have hpush : Unmasked (halfDone f (u.without 0)) _ := ⟨0, by omega, hclear, hset, hcw⟩
        rw [← (pushRaw_unmasked hpush).1, room_halfDone (u := u.without 0) hused]
        rfl
      have hsame : (f u.precision u.top0).toBytes = u.st 0 := by
        by_contra hchanged
        exact hkeeps ⟨hcw, hused, hfull, hreduced, hchanged⟩
      have hhalf : halfDone f u = u := by
        rw [halfDone_eq hused, hsame]
        exact congrArg (fun r => { u with fpr := r }) (Function.update_eq_self ..)
      obtain ⟨hfinal, hstopped⟩ := twoResults_overflow (g := g) hused hfull hreduced hcw
      rw [hhalf] at hfinal hstopped
      rw [hfinal]
      exact hstopped
    · rw [if_neg (show ¬inReductionDomain (u.without 0).top0 = true from hreduced)] at hset
      rw [hclear] at hset
      cases hset

end TwoResults

section Abandoned
open Fpu
variable {M : Type} [FpMem M] (H : Host) (kind : FpuKind) (addr : U64) (sti : U8)

/-- The op records an exception that was not recorded before. `fldenv` loads the status word as a
whole. -/
def Raises (s : X87State M) (i : ℕ) : Prop :=
  kind ≠ .fldenv ∧
    (execX87 H kind addr sti (s.setFpu (s.cpu.fpu.without i))).2.cpu.fpu.sw.getLsbD i = true

/-- Invalid operation, denormal operand or divide by zero. A stack fault comes with an invalid
operation and has no mask of its own. -/
def RaisesUnmasked (s : X87State M) : Prop :=
  ∃ i < 3, Raises H kind addr sti s i ∧ s.cpu.fpu.cw.getLsbD i = false

/-- Nothing is left of the op but the status word, with every exception that it raises and their
summary. -/
structure Abandoned (s : X87State M) : Prop where
  unchanged : (execX87 H kind addr sti s).2 =
    s.setFpu { s.cpu.fpu with sw := (execX87 H kind addr sti s).2.cpu.fpu.sw }
  recorded : ∀ i < 7, Raises H kind addr sti s i →
    (execX87 H kind addr sti s).2.cpu.fpu.sw.getLsbD i = true
  summary : (execX87 H kind addr sti s).2.cpu.fpu.sw.getLsbD 7 = true

def FpuKind.firstResult : FpuKind → Option (X87Precision → F80 → F80)
  | .fptan => some H.tan
  | .fsincos => some H.sin
  | _ => none

variable {H kind addr sti} {s : X87State M}

theorem abandoned_of_stopped (hrun : (execX87 H kind addr sti s).2 = s.setFpu v)
    (h : Stopped s.cpu.fpu v) : Abandoned H kind addr sti s where
  unchanged := by
    rw [hrun]
    exact congrArg s.setFpu h.only
  recorded i hi hraises := by
    by_cases hbit : s.cpu.fpu.sw.getLsbD i = true
    · rw [hrun]
      exact h.grows i hi hbit
    · -- the run that `Raises` looks at is the op itself
      have hsame := hraises.2
      rw [without_eq (Bool.not_eq_true _ ▸ hbit)] at hsame
      exact hsame
  summary := by
    rw [hrun]
    exact h.summary

theorem abandoned_iff_of_twoResults {f g : X87Precision → F80 → F80} (hkind : kind ≠ .fldenv)
    (harm : armOf H kind sti = .quiet (twoResults f g)) :
    (RaisesUnmasked H kind addr sti s → Abandoned H kind addr sti s) ↔ ¬Loses f s.cpu.fpu := by
  have hrun (s : X87State M) :
      (execX87 H kind addr sti s).2 = s.setFpu (final (twoResults f g s.cpu.fpu)) := by
    unfold execX87
    rw [harm]
    rfl
  have hraises (i : ℕ) : Raises H kind addr sti s i ↔
      (final (twoResults f g (s.cpu.fpu.without i))).sw.getLsbD i = true := by
    unfold Raises
    rw [hrun]
    exact and_iff_right hkind
  constructor
  · intro habandoned hloses
    obtain ⟨hraised, hlost⟩ := twoResults_lost hloses
    have hunchanged :=
      (habandoned ⟨0, by omega, (hraises 0).mpr hraised, hloses.unmasked⟩).unchanged
    apply hlost
    have hfpr := congrArg (fun s => s.cpu.fpu.fpr) hunchanged
    rw [hrun] at hfpr
    exact hfpr
  · intro hkeeps hraised
    obtain ⟨i, hi, hset, hcw⟩ := hraised
    exact abandoned_of_stopped (hrun s)
      (twoResults_stopped hkeeps ⟨i, hi, (hraises i).mp hset, hcw⟩)

theorem abandoned_of_checks (harm : (armOf H kind sti).ChecksFirst)
    (hraised : RaisesUnmasked H kind addr sti s) : Abandoned H kind addr sti s := by
  obtain ⟨i, hi, hset, hcw⟩ := hraised
  have hclear : (s.cpu.fpu.without i).sw.getLsbD i = false := getLsbD_without i
  obtain ⟨v, hrun, hstopped⟩ :=
    run_stopped harm (s.cpu.fpu.without_below i) ⟨i, hi, hclear, hset.2, hcw⟩
  exact abandoned_of_stopped hrun hstopped

/-- Every x87 op that raises an unmasked exception before its result leaves the registers and memory
alone, except an op with two results that loses its operand. -/
theorem unmasked_abandoned_iff (H : Host) (kind : FpuKind) (addr : U64) (sti : U8)
    (s : X87State M) : (RaisesUnmasked H kind addr sti s → Abandoned H kind addr sti s) ↔
      ¬∃ f ∈ kind.firstResult H, Loses f s.cpu.fpu := by
  have hsome {f : X87Precision → F80 → F80} (hfirst : kind.firstResult H = some f) :
      (∃ f ∈ kind.firstResult H, Loses f s.cpu.fpu) ↔ Loses f s.cpu.fpu := by
    rw [hfirst]
    simp
  by_cases htan : kind = .fptan
  · subst htan
    rw [hsome rfl]
    exact abandoned_iff_of_twoResults (g := fun _ _ => F80.fromI64 1) nofun rfl
  by_cases hsincos : kind = .fsincos
  · subst hsincos
    rw [hsome rfl]
    exact abandoned_iff_of_twoResults nofun rfl
  have hnone : kind.firstResult H = none := by
    cases kind with
    | fptan => exact absurd rfl htan
    | fsincos => exact absurd rfl hsincos
    | _ => rfl
  rw [hnone]
  apply iff_of_true
  · intro hraised
    by_cases henv : kind = .fldenv
    · obtain ⟨i, -, hset, -⟩ := hraised
      exact absurd henv hset.1
    · exact abandoned_of_checks (armOf_checks henv htan hsincos) hraised
  · rintro ⟨f, hf, -⟩
    cases hf

def tangentHost : Host := { blankHost with tan := fun _ _ => F80.fromF64 0x3ff8eb245cbee3a6 }

def eightOnes : X87State Memory :=
  resetState.setFpu
    { Fpu.reset with fpr := fun _ => 0x3fff_8000_0000_0000_0000, cw := 0x037e, empty := 0 }

/-- `fptan` overflows the stack and is abandoned with the tangent in the place of 1. -/
theorem fptan_loses_operand : RaisesUnmasked tangentHost .fptan 0 0 eightOnes ∧
      eightOnes.cpu.fpu.st 0 = 0x3fff_8000_0000_0000_0000 ∧
      (execX87 tangentHost .fptan 0 0 eightOnes).2.cpu.fpu.top = eightOnes.cpu.fpu.top ∧
      (execX87 tangentHost .fptan 0 0 eightOnes).2.cpu.fpu.st 0 = 0x3fff_c759_22e5_f71d_3000 ∧
      ¬Abandoned tangentHost .fptan 0 0 eightOnes := by
  have hafter : (execX87 tangentHost .fptan 0 0 eightOnes).2.cpu.fpu.st 0 =
      0x3fff_c759_22e5_f71d_3000 := by decide +kernel
  refine ⟨⟨0, by omega, ⟨nofun, by decide +kernel⟩, by decide⟩, rfl, by decide +kernel, hafter, ?_⟩
  intro h
  have hst := congrArg (fun s => s.cpu.fpu.st 0) h.unchanged
  exact absurd hst (by decide +kernel)

end Abandoned

end X86Jit
