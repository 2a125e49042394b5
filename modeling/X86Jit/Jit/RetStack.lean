import Mathlib.Data.List.Basic
import X86Jit.Core.Flags

/-! Return prediction: a ring of frames that compiled calls push and compiled returns pop. -/
namespace X86Jit.Jit
open Function List

def retStackLen : ℕ := 64

/-- A frame is a return address and the slot for the code there. -/
structure RetStack where
  sp : U64
  entries : ℕ → U64 × U64

/-- `clear` is the flush of the vcpu's caches when the epoch has moved. -/
inductive RetEvent
  | call (ra slot : U64)
  | ret (actual : U64)
  | clear

namespace RetStack
variable (r : RetStack)

/-- The length is a power of two, so the mask is a remainder. -/
def frameAddr (sp : U64) : ℕ := sp.toNat % retStackLen

def push (ra slot : U64) : RetStack :=
  ⟨r.sp + 1, update r.entries (frameAddr r.sp) (ra, slot)⟩

/-- The slot a return goes through, whether it is filled (`RET_CHAIN`) or not (`RET_LINK`). None is
`RET_CONTINUE`. -/
def predict (actual : U64) : RetStack × Option U64 :=
  if r.sp = 0 then (r, none)
  else
    let frame := r.entries (frameAddr (r.sp - 1))
    ({ r with sp := r.sp - 1 }, if frame.1 = actual then some frame.2 else none)

def step : RetEvent → RetStack
  | .call ra slot => r.push ra slot
  | .ret actual => (r.predict actual).1
  | .clear => { r with sp := 0 }

def run (h : List RetEvent) : RetStack := h.foldl step r

theorem run_append (h h' : List RetEvent) : r.run (h ++ h') = (r.run h).run h' := foldl_append

variable {r}

theorem predict_of_ne (hne : r.sp ≠ 0) (actual : U64) : r.predict actual =
    ({ r with sp := r.sp - 1 }, if (r.entries (frameAddr (r.sp - 1))).1 = actual then
      some (r.entries (frameAddr (r.sp - 1))).2 else none) := if_neg hne

theorem sp_pred_lt (hne : r.sp ≠ 0) : (r.sp - 1).toNat < r.sp.toNat := by
  bv_omega

theorem toNat_sp_push {ra slot : U64} (hfew : r.sp.toNat + 1 < 2 ^ 64) :
    (r.push ra slot).sp.toNat = r.sp.toNat + 1 := by
  rw [push]
  bv_omega

theorem ne_zero_of_sp_eq_push {r' : RetStack} {ra slot : U64} (hsp : r'.sp = (r.push ra slot).sp)
    (hfew : r.sp.toNat + 1 < 2 ^ 64) : r'.sp ≠ 0 := by
  rw [hsp, ← BitVec.toNat_ne_iff_ne, toNat_sp_push hfew]
  exact Nat.succ_ne_zero _

end RetStack

open RetStack

/-- Nested calls and returns, with at most `d` calls outstanding at a time. -/
inductive Nested : ℕ → List RetEvent → Prop
  | nil {d} : Nested d []
  | call {d w w'} (ra slot : U64) (hbody : Nested d w) (hrest : Nested (d + 1) w') :
      Nested (d + 1) (.call ra slot :: w ++ .ret ra :: w')

/-- From an empty ring with the history `h`: a return goes on only through the slot of a call with
the address it has popped; and a call's own return does, if at most 63 calls are outstanding
above it at a time and the counter does not wrap. -/
structure Predicts (h : List RetEvent) (r : RetStack) : Prop where
  sound : ∀ actual slot, (r.predict actual).2 = some slot →
    r.entries (frameAddr (r.sp - 1)) = (actual, slot) ∧ .call actual slot ∈ h
  complete : ∀ ra slot d w, d < retStackLen → Nested d w → r.sp.toNat + 1 + d < 2 ^ 64 →
    (((r.push ra slot).run w).predict ra).2 = some slot

section Invariants
variable {r : RetStack} {h : List RetEvent}

def Pushed (h : List RetEvent) (r : RetStack) : Prop :=
  ∀ j < r.sp.toNat, ∃ ra slot, .call ra slot ∈ h ∧ r.entries (j % retStackLen) = (ra, slot)

theorem Pushed.step (hr : Pushed h r) (e : RetEvent) : Pushed (h ++ [e]) (r.step e) := by
  have hold : Pushed (h ++ [e]) r := by
    intro j hj
    obtain ⟨ra, slot, hmem, heq⟩ := hr j hj
    exact ⟨ra, slot, mem_append_left _ hmem, heq⟩
  cases e with
  | call ra slot =>
    intro j hj
    by_cases hplace : j % retStackLen = frameAddr r.sp
    · refine ⟨ra, slot, mem_append_right _ (mem_singleton_self _), ?_⟩
      rw [hplace]
      exact update_self ..
    · have hle : j < r.sp.toNat + 1 := hj.trans_le (Nat.mod_le _ _)
      have hne : j ≠ r.sp.toNat := fun heq => hplace (congrArg (· % retStackLen) heq)
      obtain ⟨ra', slot', hmem, heq⟩ := hold j (by omega)
      exact ⟨ra', slot', hmem, (update_of_ne hplace ..).trans heq⟩
  | ret actual =>
    by_cases hne : r.sp = 0
    · rwa [RetStack.step, RetStack.predict, if_pos hne]
    · rw [RetStack.step, predict_of_ne hne]
      exact fun j hj => hold j (hj.trans (sp_pred_lt hne))
  | clear => exact fun j hj => absurd hj (Nat.not_lt_zero j)

theorem Pushed.run (hr : Pushed h r) (h' : List RetEvent) : Pushed (h ++ h') (r.run h') := by
  induction h' generalizing h r with
  | nil => rwa [append_nil]
  | cons e h' ih =>
    rw [append_cons]
    exact ih (hr.step e)

/-- Nested calls leave the counter as it was and write only the frames above it. -/
theorem Nested.run {d : ℕ} {w : List RetEvent} (hw : Nested d w) (hfew : r.sp.toNat + d < 2 ^ 64) :
    (r.run w).sp = r.sp ∧ ∀ j, (∀ i < d, j ≠ (r.sp.toNat + i) % retStackLen) →
      (r.run w).entries j = r.entries j := by
  induction hw generalizing r with
  | nil => exact ⟨rfl, fun _ _ => rfl⟩
  | @call d w w' ra slot hbody hrest ihbody ihrest =>
    have hsp : (r.push ra slot).sp.toNat = r.sp.toNat + 1 := toNat_sp_push (by omega)
    obtain ⟨hback, hbelow⟩ := ihbody (r := r.push ra slot) (by omega)
    have hret : ((r.push ra slot).run w).step (.ret ra) =
        ⟨r.sp, ((r.push ra slot).run w).entries⟩ := by
      rw [RetStack.step, predict_of_ne (ne_zero_of_sp_eq_push hback (by omega)),
        hback]
      exact congrArg (RetStack.mk · _) (BitVec.add_sub_cancel _ _)
    rw [run_append]
    change ((((r.push ra slot).run w).step (.ret ra)).run w').sp = _ ∧ _
    rw [hret]
    obtain ⟨hlast, habove⟩ := ihrest (r := ⟨r.sp, ((r.push ra slot).run w).entries⟩) hfew
    refine ⟨hlast, fun j hj => ?_⟩
    change ((((r.push ra slot).run w).step (.ret ra)).run w').entries j = _
    rw [hret, habove j hj, hbelow j]
    · exact update_of_ne (hj 0 (Nat.succ_pos d)) ..
    · intro i hi
      rw [hsp, Nat.add_right_comm]
      exact hj (i + 1) (Nat.succ_lt_succ hi)

end Invariants

/-- After every history the ring predicts only what a call pushed, and the return of every call whose
body is nested no deeper than the ring. -/
theorem returns_predicted (entries : ℕ → U64 × U64) (h : List RetEvent) :
    Predicts h (RetStack.run ⟨0, entries⟩ h) := by
  have hempty : Pushed [] ⟨0, entries⟩ := fun j hj => absurd hj (Nat.not_lt_zero j)
  have hpushed := hempty.run h
  generalize RetStack.run ⟨0, entries⟩ h = r at hpushed
  constructor
  · intro actual slot hslot
    by_cases hne : r.sp = 0
    · rw [predict, if_pos hne] at hslot
      cases hslot
    · rw [predict_of_ne hne] at hslot
      obtain ⟨ra, slot', hmem, hpair⟩ := hpushed _ (sp_pred_lt hne)
      change r.entries (frameAddr (r.sp - 1)) = _ at hpair
      rw [hpair] at hslot ⊢
      obtain ⟨rfl, heq⟩ := Option.ite_none_right_eq_some.mp hslot
      obtain rfl := Option.some.inj heq
      exact ⟨rfl, hmem⟩
  · intro ra slot d w hd hw hfew
    have hsp : (r.push ra slot).sp.toNat = r.sp.toNat + 1 := toNat_sp_push (by omega)
    obtain ⟨hback, hbelow⟩ := hw.run (r := r.push ra slot) (by omega)
    have hframe : ((r.push ra slot).run w).entries (frameAddr r.sp) = (ra, slot) := by
      rw [hbelow]
      · exact update_self ..
      · intro i hi
        rw [frameAddr]
        unfold retStackLen at *
        omega
    have hplace : (r.push ra slot).sp - 1 = r.sp := BitVec.add_sub_cancel _ _
    rw [predict_of_ne (ne_zero_of_sp_eq_push hback (by omega)), hback, hplace,
      hframe, if_pos rfl]

/-- With `2 ^ 64` calls outstanding the ring looks empty to the innermost return. -/
theorem innermost_not_predicted :
    ((RetStack.run ⟨0, fun _ => 0⟩ (replicate (2 ^ 64) (.call 0 0))).predict 0).2 = none := by
  have hcalls (n : ℕ) :
      (RetStack.run ⟨0, fun _ => 0⟩ (replicate n (.call 0 0))).sp = BitVec.ofNat 64 n := by
    induction n with
    | zero => rfl
    | succ n ih =>
      rw [replicate_succ', run_append, BitVec.ofNat_add, ← ih]
      rfl
  have hwrap : BitVec.ofNat 64 (2 ^ 64) = 0 := rfl
  rw [predict, if_pos ((hcalls (2 ^ 64)).trans hwrap)]

end X86Jit.Jit
