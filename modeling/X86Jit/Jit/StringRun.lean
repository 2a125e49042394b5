import Mathlib.Logic.Function.Iterate
import X86Jit.Interp.StringRun
import X86Jit.Jit.GuestStore

/-! The string instructions as compiled code: a helper runs the shared loop over the raw
view and reports once, from the destination register before and after. -/
namespace X86Jit
open X86Jit.Lib
open Jit

/-- The raw view checks bounds only. -/
instance : StrMem JitMem where
  sload := JitMem.sload
  sstore := JitMem.sstore

namespace StrInsn
variable (i : StrInsn)

/-- From the lower value of the register to one element past the higher one. -/
def report (rdi rdi' : U64) : U64 × ℕ :=
  let lo := min rdi.toNat rdi'.toNat
  let hi := min (max rdi.toNat rdi'.toNat + i.elem.bytes) (2 ^ 64 - 1)
  (BitVec.ofNat 64 lo, hi - lo)

/-- The compiled helper: run the loop, then report what the whole registers say. -/
def helper (c : StrCpu) (s : JitMem) : (StrCpu × JitMem) × Ret :=
  let out := i.run c s
  let rdi' := out.1.1.rdi
  let ret := match out.2 with
    | none => .next
    | some f => .unmapped f.addr
  if (i.op = .movs ∨ i.op = .stos) ∧ rdi' ≠ c.rdi then
    ((out.1.1, out.1.2.noteWrite (i.report c.rdi rdi').1 (i.report c.rdi rdi').2), ret)
  else (out.1, ret)

def rdiAfter (c : StrCpu) (k : ℕ) : U64 := (i.advance c.flags.df)^[k] c.rdi

def elements (c : StrCpu) (n : ℕ) : List (U64 × ℕ) :=
  (List.range n).map fun k => (i.dstLin (i.rdiAfter c k), i.elem.bytes)

variable {i} {c : StrCpu}

theorem elements_succ (c' : StrCpu) (n : ℕ)
    (hrdi : c'.rdi = i.advance c.flags.df c.rdi) (hflags : c'.flags = c.flags) :
    i.elements c (n + 1) = (i.dstLin c.rdi, i.elem.bytes) :: i.elements c' n := by
  unfold elements rdiAfter
  rw [List.range_succ_eq_map, List.map_cons, List.map_map, hrdi, hflags]
  rfl

theorem element_loads {c' : StrCpu} {s s' : JitMem} (hop : ¬(i.op = .movs ∨ i.op = .stos))
    (h : i.element c s = .ok (c', s')) : s' = s := by
  cases hk : i.op with
  | movs => exact absurd (Or.inl hk) hop
  | stos => exact absurd (Or.inr hk) hop
  | lods =>
    simp only [element, hk, bind_eq_ok] at h
    obtain ⟨v, -, hret⟩ := h
    cases hret
    rfl
  | scas =>
    simp only [element, hk, bind_eq_ok] at h
    obtain ⟨b, -, hret⟩ := h
    cases hret
    rfl
  | cmps =>
    simp only [element, hk, bind_eq_ok] at h
    obtain ⟨a, -, b, -, hret⟩ := h
    cases hret
    rfl

theorem loop_loads (hop : ¬(i.op = .movs ∨ i.op = .stos)) (fuel : ℕ) (c : StrCpu) (s : JitMem) :
    (i.loop fuel c s).1.2 = s := by
  induction fuel generalizing c s with
  | zero => rfl
  | succ fuel ih =>
    rw [loop]
    split
    · rfl
    cases he : i.element c s with
    | error a => rfl
    | ok out =>
      obtain ⟨c', s'⟩ := out
      rw [element_loads hop he]
      dsimp only
      split
      · rfl
      · exact ih (i.count c') s

end StrInsn

end X86Jit
