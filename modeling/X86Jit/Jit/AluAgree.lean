import X86Jit.Jit.AluAddSub
import X86Jit.Jit.AluMul
import X86Jit.Jit.AluRotate

/-! When the emitted code and the interpreter agree on an integer ALU op. -/
namespace X86Jit.Jit
open X86Jit.Clif X86Jit.Lib

/-- The two result lists are equal and the stored flag bytes stand for the
interpreter's flags. -/
def AluAgree (k : AluKind) (size : Size) (m : FlagMask) (a b count : U64) (f : Flags)
    (fb : FlagBytes) : Prop :=
  Agree (execAlu k size m a b count f) (emitAlu k size m a b count fb)

/-- A double shift must not have a masked count equal to the operand width unless its fill is zero,
and a rotate by a nonzero count must not be asked for PF, ZF or SF. -/
def AluAgreeWhen (size : Size) (m : FlagMask) (b count : U64) : AluKind → Prop
  | .rol | .ror => count &&& shiftMask size ≠ 0 → RotateMask m
  | .rcl | .rcr => (count &&& shiftMask size).toNat % (size.bits + 1) ≠ 0 → RotateMask m
  | .doubleShift _ => (count &&& shiftMask size).toNat = size.bits → b &&& mask size = 0
  | _ => True

theorem agree_singleton_iff (r : U64 × Flags) (e : U64 × FlagBytes) :
    Agree ([r.1], r.2) ([e.1], e.2) ↔ Agree r e := by
  simp [Agree]

/-- The compiled and the interpreted op agree on every first operand, carry-in and flag
word exactly under `AluAgreeWhen`. -/
theorem aluAgree_iff (k : AluKind) (size : Size) (m : FlagMask) (b count : U64) :
    (∀ a f fb, fb.Represents f → AluAgree k size m a b count f fb) ↔
      AluAgreeWhen size m b count k := by
  have hzero : (0 : U64).toNat ≤ 1 := by decide
  have hcarry (f : Flags) : (carry f).toNat ≤ 1 := by
    rw [carry_toNat]
    cases f.cf <;> decide
  cases k
  case rol =>
    simp only [AluAgree, execAlu, emitAlu, agree_singleton_iff]
    exact rol_family_iff size m count
  case ror =>
    simp only [AluAgree, execAlu, emitAlu, agree_singleton_iff]
    exact ror_family_iff size m count
  case rcl =>
    simp only [AluAgree, execAlu, emitAlu, agree_singleton_iff]
    exact rcx_family_iff size m count true
  case rcr =>
    simp only [AluAgree, execAlu, emitAlu, agree_singleton_iff]
    exact rcx_family_iff size m count false
  case doubleShift left =>
    simp only [AluAgree, execAlu, emitAlu, agree_singleton_iff]
    constructor
    · intro hall
      have h := FlagBytes.ofFlags_represents (noFlags false)
      exact (doubleShift_agree_iff size h 0 b count left m).mp (hall 0 _ _ h)
    · intro hwhen a f fb h
      exact (doubleShift_agree_iff size h a b count left m).mpr hwhen
  -- the other ops agree unconditionally
  all_goals
    refine iff_of_true ?_ trivial
    intro a f fb h
  case mul signed =>
    obtain ⟨hv, hr⟩ := mul_agree h a b size m signed
    refine ⟨?_, hr⟩
    simp only [emitAlu, execAlu, hv]
  case adc =>
    refine (agree_singleton_iff _ _).mpr ?_
    rw [h.loadCarry_eq]
    exact add_agree h a b (carry f) size m (hcarry f)
  case sbb =>
    refine (agree_singleton_iff _ _).mpr ?_
    rw [h.loadCarry_eq]
    exact sub_agree h a b (carry f) size m (hcarry f)
  all_goals refine (agree_singleton_iff _ _).mpr ?_
  case add => exact add_agree h a b 0 size m hzero
  case sub => exact sub_agree h a b 0 size m hzero
  case and => exact logic_agree h size m (a &&& b)
  case or => exact logic_agree h size m (a ||| b)
  case xor => exact logic_agree h size m (a ^^^ b)
  case shl => exact shl_agree h a count size m
  case shr => exact shr_agree h a count size m
  case sar => exact sar_agree h a count size m

/-- `shld ax, bx, 16` with `bx = 1`: compiled code leaves 1 in `ax`, the interpreter 0. -/
theorem shld_width_disagrees : ¬ AluAgree (.doubleShift true) .b2 .shift 0 1 16 (noFlags false)
      (FlagBytes.ofFlags (noFlags false)) := by
  intro hag
  have hv := hag.1
  revert hv
  decide

end X86Jit.Jit
