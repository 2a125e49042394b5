import X86Jit.Core.Flags

/-! The 80-bit extended float of the x87 registers: sign, exponent and a 64-bit significand
with its integer bit written out. -/
namespace X86Jit

inductive F80.Class
  | zero | normal | inf | nan
  /-- An encoding that is refused as an operand: its integer bit is clear although its biased
  exponent is not zero. -/
  | unsupported
  deriving DecidableEq, Repr

/-- A normal value is `(-1)^sign * sig * 2^(exp - 63)`; an unsupported one keeps its biased
exponent. -/
structure F80 where
  sign : Bool
  cls : F80.Class
  exp : ℤ
  sig : U64
  deriving DecidableEq, Repr

namespace F80

def bias : ℤ := 16383
def expMax : ℤ := 0x7fff

def emax : ℤ := expMax - 1 - bias
def emin : ℤ := 1 - bias

def zero (sign : Bool) : F80 := ⟨sign, .zero, 0, 0⟩
def inf (sign : Bool) : F80 := ⟨sign, .inf, 0, 0⟩

def indefinite : F80 := ⟨true, .nan, 0, 0xc000000000000000⟩

/-- A normal significand has its integer bit, and the exponent is one that an encoding has or, down
to 64 below, one that encodes to a denormal or zero. -/
def Ok (a : F80) : Prop :=
  a.cls = .normal → 2 ^ 63 ≤ a.sig.toNat ∧ emin - 64 ≤ a.exp ∧ a.exp ≤ emax

/-- Denormals, also those with the integer bit set, are normalised; everything else with a misplaced
integer bit is unsupported. -/
def fromBytes (b : BitVec 80) : F80 :=
  let sig := b.setWidth 64
  let sign := b.getLsbD 79
  let biased : ℤ := (b.extractLsb' 64 15).toNat
  let integerBit := sig.getLsbD 63
  if biased = expMax then
    if !integerBit then ⟨sign, .unsupported, biased, sig⟩
    else if sig = 0x8000000000000000 then inf sign
    else ⟨sign, .nan, 0, sig⟩
  else if biased = 0 then
    if sig = 0 then zero sign
    else ⟨sign, .normal, emin - sig.clz.toNat, sig <<< sig.clz.toNat⟩
  else if !integerBit then ⟨sign, .unsupported, biased, sig⟩
  else ⟨sign, .normal, biased - bias, sig⟩

theorem clz_lt {v : U64} (h : v ≠ 0) : v.clz.toNat < 64 := by
  have hlt := BitVec.clz_lt_iff_ne_zero.mpr h
  exact hlt

theorem toNat_normalised {v : U64} (h : v ≠ 0) :
    (v <<< v.clz.toNat).toNat = v.toNat * 2 ^ v.clz.toNat ∧ 2 ^ 63 ≤ v.toNat * 2 ^ v.clz.toNat := by
  have hn := clz_lt h
  have hlow : 2 ^ (64 - 1 - v.clz.toNat) ≤ v.toNat :=
    BitVec.two_pow_sub_clz_le_toNat_of_ne_zero (by decide) h
  have hhigh : v.toNat < 2 ^ (64 - v.clz.toNat) := BitVec.toNat_lt_two_pow_sub_clz
  have hpos : 0 < 2 ^ v.clz.toNat := Nat.two_pow_pos _
  constructor
  · rw [BitVec.toNat_shiftLeft, Nat.shiftLeft_eq, Nat.mod_eq_of_lt]
    calc v.toNat * 2 ^ v.clz.toNat < 2 ^ (64 - v.clz.toNat) * 2 ^ v.clz.toNat :=
          Nat.mul_lt_mul_of_pos_right hhigh hpos
      _ = 2 ^ 64 := by rw [← Nat.pow_add, Nat.sub_add_cancel hn.le]
  · calc 2 ^ 63 = 2 ^ (64 - 1 - v.clz.toNat) * 2 ^ v.clz.toNat := by
          have hle : v.clz.toNat ≤ 64 - 1 := by omega
          rw [← Nat.pow_add, Nat.sub_add_cancel hle]
      _ ≤ v.toNat * 2 ^ v.clz.toNat := Nat.mul_le_mul_right _ hlow

theorem le_toNat_of_msb {v : U64} (h : v.getLsbD 63 = true) : 2 ^ 63 ≤ v.toNat := by
  have hmsb : v.msb = true := h
  rw [BitVec.msb_eq_decide] at hmsb
  exact of_decide_eq_true hmsb

theorem fromBytes_ok (b : BitVec 80) : (fromBytes b).Ok := by
  intro hnormal
  unfold fromBytes at hnormal ⊢
  dsimp only at hnormal ⊢
  split at hnormal
  case isTrue htop =>
    split at hnormal
    · cases hnormal
    · split at hnormal <;> cases hnormal
  case isFalse htop =>
    rw [if_neg htop]
    unfold expMax at htop
    unfold emin emax expMax bias
    split at hnormal
    case isTrue hzero =>
      rw [if_pos hzero]
      split at hnormal
      · cases hnormal
      case isFalse hsig =>
        -- a denormal: its leading zeros come off the exponent
        rw [if_neg hsig]
        have hclz := clz_lt hsig
        obtain ⟨hnat, hmsb⟩ := toNat_normalised hsig
        refine ⟨hnat ▸ hmsb, ?_, ?_⟩
        · dsimp only
          omega
        · dsimp only
          omega
    case isFalse hzero =>
      rw [if_neg hzero]
      split at hnormal
      · cases hnormal
      case isFalse hbit =>
        rw [if_neg hbit]
        rw [Bool.not_eq_true', Bool.not_eq_false] at hbit
        refine ⟨le_toNat_of_msb hbit, ?_, ?_⟩
        · dsimp only
          omega
        · dsimp only
          omega

/-- A shifted exponent has no low bits, so joining it with the significand is a sum. -/
def orderedKey (a : F80) : ℤ :=
  let mag : ℤ :=
    match a.cls with
    | .zero => 0
    | .inf => (2 ^ 127 - 1) / 2
    | .nan | .unsupported => 0
    | .normal => a.exp * 2 ^ 64 + a.sig.toNat
  if a.sign then -mag else mag

/-- The outcome of a comparison as ZF, PF and CF; all three are set for an unordered pair. -/
def compare (a b : F80) : Bool × Bool × Bool :=
  if a.cls = .nan ∨ b.cls = .nan then (true, true, true)
  else if a.orderedKey = b.orderedKey then (true, false, false)
  else if a.orderedKey < b.orderedKey then (false, false, true)
  else (false, false, false)

end F80

end X86Jit
