import X86Jit.Interp.Arithmetic
import X86Jit.Jit.Alu

/-! What it means for compiled code and the interpreter to agree on an integer op,
and the rules both back ends share for committing flags. -/
namespace X86Jit.Jit
open X86Jit.Clif X86Jit.Lib BitVec

@[simp] theorem emitMask_eq (v : U64) (size : Size) : emitMask v size = v &&& mask size := by
  cases size
  case b8 => exact and_allOnes.symm
  case b4 =>
    apply eq_of_toNat_eq
    rw [toNat_and_mask]
    simp only [emitMask, uextend, ireduce, toNat_setWidth, Size.bits, Size.bytes]
    omega
  all_goals rfl

@[simp] theorem emitSignExtend_eq (v : U64) (size : Size) :
    emitSignExtend v size = signExtend v size := rfl

@[simp] theorem emitShiftCount_eq (b : U64) (size : Size) :
    emitShiftCount b size = b &&& shiftMask size := rfl

theorem ireduce_bit (v : U64) (n : ℕ) : ireduce 8 ((v >>> n) &&& 1) = flagByte (v.getLsbD n) := by
  have h := and_one_setWidth (v >>> n) 8 (by decide)
  rw [ireduce, h]
  simp only [getLsbD_ushiftRight]
  cases v.getLsbD n <;> decide

@[simp] theorem emitMsb_eq (v : U64) (size : Size) :
    emitMsb v size = flagByte (v &&& signBit size != 0) := by
  rw [signBit_test]
  cases size
  case b8 =>
    have h : v >>> 63 = (v >>> 63) &&& 1 := by
      apply eq_of_toNat_eq
      rw [toNat_and]
      simp only [toNat_ushiftRight]
      change _ = _ &&& 2 ^ 1 - 1
      rw [Nat.and_two_pow_sub_one_eq_mod]
      omega
    change ireduce 8 (v >>> 63) = _
    rw [h]
    exact ireduce_bit v 63
  all_goals exact ireduce_bit v _

def FlagBytes.Shows (fb : FlagBytes) (x : Flag) (v : Bool) : Prop :=
  match x with
  | .cf => fb.cf = flagByte v
  | .pf => evenParity fb.pfSrc = v
  | .af => (fb.afSrc &&& 0x10 != 0) = v
  | .zf => fb.zf = flagByte v
  | .sf => fb.sf = flagByte v
  | .of => fb.of = flagByte v

/-- The bytes stand for these flags: booleans as 0 and 1, PF and AF as their source
bytes read them. -/
def FlagBytes.Represents (fb : FlagBytes) (f : Flags) : Prop := ∀ x, fb.Shows x (f.get x)

theorem FlagBytes.shows_storeFlags (fb c : FlagBytes) (m : FlagMask) (x : Flag) (v : Bool) :
    (storeFlags fb m c).Shows x v ↔ if m.has x then c.Shows x v else fb.Shows x v := by
  cases x
  all_goals
    simp only [storeFlags]
    split_ifs <;> rfl

theorem FlagBytes.represents_storeFlags_iff {fb : FlagBytes} {f : Flags} (h : fb.Represents f)
    (m : FlagMask) (c : FlagBytes) (r : AluResult) :
    (storeFlags fb m c).Represents (apply f m r) ↔ ∀ x, m.has x = true → c.Shows x (r.get x) := by
  constructor
  · intro hs x hx
    have hsx := (FlagBytes.shows_storeFlags fb c m x _).mp (hs x)
    rwa [if_pos hx, get_apply, if_pos hx] at hsx
  · intro hc x
    rw [FlagBytes.shows_storeFlags, get_apply]
    by_cases hx : m.has x = true
    · rw [if_pos hx, if_pos hx]
      exact hc x hx
    · rw [if_neg hx, if_neg hx]
      exact h x

theorem zero_af_test : ((0 : U8) &&& 0x10 != 0) = false := by decide

theorem FlagBytes.Represents.loadCarry_eq {fb : FlagBytes} {f : Flags} (h : fb.Represents f) :
    loadCarry fb = carry f := by
  have hc : fb.cf = flagByte f.cf := h .cf
  rw [loadCarry, hc, carry]
  cases f.cf <;> decide

/-- The two back ends leave the same value and flag words standing for one another. -/
def Agree {α : Type} (r : α × Flags) (e : α × FlagBytes) : Prop :=
  e.1 = r.1 ∧ e.2.Represents r.2

section Agreement
variable {f : Flags} {fb : FlagBytes} (h : fb.Represents f) (m : FlagMask)
include h

theorem commit_agree_iff {res cnt : U64} {c : FlagBytes} {r : AluResult} :
    Agree (if !m.isNone && cnt.toNat != 0 then (res, apply f m r) else (res, f))
        (if m.isNone then (res, fb) else if icmpEq cnt 0 != 0 then (res, fb)
          else (res, storeFlags fb m c)) ↔
      (cnt ≠ 0 → ∀ x, m.has x = true → c.Shows x (r.get x)) := by
  by_cases hm : m.isNone = true
  · simp [hm, Agree, h, FlagMask.has_of_isNone hm]
  · by_cases h0 : cnt = 0
    · subst h0
      simp [Agree, h, icmpEq]
    · have hn : cnt.toNat ≠ 0 := by
        intro hn
        exact h0 (eq_of_toNat_eq hn)
      simp only [hm, icmpEq, flagByte_ne_zero, beq_iff_eq, h0, Bool.not_false, Bool.true_and,
        bne_iff_ne, hn, ne_eq, not_false_eq_true, if_true, if_false, Bool.false_eq_true,
        true_implies, Agree, true_and]
      exact FlagBytes.represents_storeFlags_iff h m c r

end Agreement

end X86Jit.Jit
