import Mathlib.Data.BitVec
import Mathlib.Logic.Function.Basic

/-! Operand sizes, flag masks and the flag word of the guest CPU. PF and AF are
not stored as booleans: the state keeps the byte each one is derived from. -/
namespace X86Jit

abbrev U8 := BitVec 8
abbrev U16 := BitVec 16
abbrev U32 := BitVec 32
abbrev U64 := BitVec 64
abbrev U128 := BitVec 128

inductive Size
  | b1 | b2 | b4 | b8
  deriving DecidableEq, Repr

def Size.bytes : Size → ℕ
  | .b1 => 1
  | .b2 => 2
  | .b4 => 4
  | .b8 => 8

def Size.bits (s : Size) : ℕ := s.bytes * 8

inductive Flag
  | cf | pf | af | zf | sf | of
  deriving DecidableEq, Repr

instance {p : Flag → Prop} [DecidablePred p] : Decidable (∀ x, p x) :=
  decidable_of_iff (p .cf ∧ p .pf ∧ p .af ∧ p .zf ∧ p .sf ∧ p .of) <| by
    constructor
    · rintro ⟨hcf, hpf, haf, hzf, hsf, hof⟩ x
      cases x <;> assumption
    · intro h
      exact ⟨h _, h _, h _, h _, h _, h _⟩

def Flag.index : Flag → ℕ
  | .cf => 0
  | .pf => 1
  | .af => 2
  | .zf => 3
  | .sf => 4
  | .of => 5

structure FlagMask where
  bits : U8
  deriving DecidableEq, Repr

namespace FlagMask

def none : FlagMask := ⟨0⟩
def all : FlagMask := ⟨0b111111⟩
def allButCf : FlagMask := ⟨0b111110⟩
def shift : FlagMask := ⟨0b111011⟩
def cfOf : FlagMask := ⟨0b100001⟩

def isNone (m : FlagMask) : Bool := m.bits == 0

def has (m : FlagMask) (f : Flag) : Bool := m.bits.getLsbD f.index

theorem has_of_isNone {m : FlagMask} (h : m.isNone = true) (f : Flag) : m.has f = false := by
  have hb : m.bits = 0 := by simpa [isNone] using h
  simp [has, hb]

end FlagMask

/-- `pfSrc` is the low byte of the value PF was computed from; `afSrc` holds AF in bit 4. -/
structure Flags where
  cf : Bool
  pfSrc : U8
  afSrc : U8
  zf : Bool
  sf : Bool
  of : Bool
  df : Bool
  ifl : Bool
  deriving DecidableEq, Repr

def pfSrcOne : U8 := 0
def pfSrcZero : U8 := 1
def afSrcOne : U8 := 0x10
def afSrcZero : U8 := 0

def evenParity (b : U8) : Bool := b.cpop.toNat % 2 == 0

namespace Flags

variable (f : Flags)

def pf : Bool := evenParity f.pfSrc
def setPf (f : Flags) (v : Bool) : Flags := { f with pfSrc := if v then pfSrcOne else pfSrcZero }
def af (f : Flags) : Bool := f.afSrc &&& 0x10 != 0
def setAf (f : Flags) (v : Bool) : Flags := { f with afSrc := if v then afSrcOne else afSrcZero }

def get : Flag → Bool
  | .cf => f.cf
  | .pf => f.pf
  | .af => f.af
  | .zf => f.zf
  | .sf => f.sf
  | .of => f.of

def set (x : Flag) (v : Bool) : Flags :=
  match x with
  | .cf => { f with cf := v }
  | .pf => f.setPf v
  | .af => f.setAf v
  | .zf => { f with zf := v }
  | .sf => { f with sf := v }
  | .of => { f with of := v }

/-- Two flag words no guest can tell apart: the source bytes may differ. -/
def SameArch (f g : Flags) : Prop :=
  (∀ x, f.get x = g.get x) ∧ f.df = g.df ∧ f.ifl = g.ifl

@[simp] theorem pf_setPf (v : Bool) : (f.setPf v).pf = v := by
  cases v
  · change evenParity 1 = false
    decide
  · change evenParity 0 = true
    decide

@[simp] theorem af_setAf (v : Bool) : (f.setAf v).af = v := by
  cases v
  · change ((0 : U8) &&& 0x10 != 0) = false
    decide
  · change ((0x10 : U8) &&& 0x10 != 0) = true
    decide

theorem get_set (x y : Flag) (v : Bool) : (f.set x v).get y = if y = x then v else f.get y := by
  cases x <;> cases y <;> first | rfl | exact pf_setPf f v | exact af_setAf f v

@[simp] theorem df_set (x : Flag) (v : Bool) : (f.set x v).df = f.df := by
  cases x <;> rfl

@[simp] theorem ifl_set (x : Flag) (v : Bool) : (f.set x v).ifl = f.ifl := by
  cases x <;> rfl

theorem SameArch.refl : f.SameArch f := ⟨fun _ => rfl, rfl, rfl⟩

structure AgreeOff (D : Flag → Bool) (f g : Flags) : Prop where
  get : ∀ x, D x = false → g.get x = f.get x
  df : g.df = f.df
  ifl : g.ifl = f.ifl

namespace AgreeOff
variable {D D' : Flag → Bool} {f g : Flags}

theorem refl (D : Flag → Bool) (f : Flags) : AgreeOff D f f := ⟨fun _ _ => rfl, rfl, rfl⟩

theorem mono (h : AgreeOff D f g) (hD : ∀ x, D' x = false → D x = false) : AgreeOff D' f g :=
  ⟨fun x hx => h.get x (hD x hx), h.df, h.ifl⟩

theorem set (h : AgreeOff D f g) (x : Flag) (v : Bool) :
    AgreeOff (fun y => D y && y != x) (f.set x v) (g.set x v) := by
  refine ⟨?_, ?_, ?_⟩
  · intro y hy
    rw [get_set, get_set]
    split
    · rfl
    · rename_i hne
      apply h.get
      simpa [hne] using hy
  · simp [h.df]
  · simp [h.ifl]

end AgreeOff

end Flags

end X86Jit
