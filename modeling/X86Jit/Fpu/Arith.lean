import X86Jit.Fpu.F80

/-! The arithmetic of the x87 unit: add, subtract, multiply, divide and square root under the
precision and rounding fields of the control word, with the exceptions each one reports. -/
namespace X86Jit

structure Ctl where
  word : U16
  deriving DecidableEq, Repr

namespace Ctl
variable (c : Ctl)

def rc : ℕ := ((c.word >>> 10) &&& 3).toNat

def masksUnderflow : Bool := c.word.getLsbD 4

/-- The width of the significand; the reserved setting counts as the full one. -/
def sigBits : ℕ :=
  match ((c.word >>> 8) &&& 3).toNat with
  | 0 => 24
  | 2 => 53
  | _ => 64

end Ctl

abbrev Exc := U16

namespace Exc

def none : Exc := 0
def ie : Exc := 1
def de : Exc := 2
def ze : Exc := 4
def oe : Exc := 8
def ue : Exc := 16
def pe : Exc := 32
def sf : Exc := 64

def has (e o : Exc) : Bool := e &&& o != 0

end Exc

namespace F80

def isSnan (a : F80) : Bool := a.cls == .nan && a.sig &&& 0x4000000000000000 == 0

def operandRaisesInvalid (a : F80) : Bool := a.isSnan || a.cls == .unsupported

def quieted (a : F80) : F80 := { a with sig := a.sig ||| 0x4000000000000000 }

/-- A quiet NaN comes before a signaling one, of two alike the larger significand. -/
def nanOf (a b : F80) : F80 :=
  quieted (match a.isSnan, b.isSnan with
    | true, false => b
    | false, true => a
    | _, _ => if a.sig < b.sig then b else a)

/-- An unsupported operand gives the indefinite. -/
def binaryNan (a b : F80) : Option F80 :=
  if a.cls = .unsupported ∨ b.cls = .unsupported then some indefinite
  else
    match a.cls == .nan, b.cls == .nan with
    | false, false => none
    | true, false => some a.quieted
    | false, true => some b.quieted
    | true, true => some (nanOf a b)

def unaryNan (a : F80) : Option F80 :=
  match a.cls with
  | .unsupported => some indefinite
  | .nan => some a.quieted
  | _ => none

def binaryOperandExc (a b : F80) : Exc :=
  if a.operandRaisesInvalid || b.operandRaisesInvalid then Exc.ie else Exc.none

def roundsUp (rc : ℕ) (sign lsbOdd : Bool) (cmpHalf : Ordering) (inexact : Bool) : Bool :=
  match rc with
  | 0 => cmpHalf == .gt || (cmpHalf == .eq && lsbOdd)
  | 1 => inexact && sign
  | 2 => inexact && !sign
  | _ => false

variable (sign : Bool)

def maxFinite : F80 := ⟨sign, .normal, emax, BitVec.allOnes 64⟩

/-- Overflow gives an infinity or the largest finite value, as the mode says. -/
def overflowTo (ctl : Ctl) (sign : Bool) : F80 :=
  let toInf :=
    match ctl.rc with
    | 0 => true
    | 1 => sign
    | 2 => !sign
    | _ => false
  if toInf then inf sign else maxFinite sign

/-- Encoding a tiny result may lose bits that rounding kept; masked underflow is reported only with
a loss. -/
def tinyExc (ctl : Ctl) (exp : ℤ) (sig : U64) (inexact : Bool) : Exc :=
  let shift := (emin - exp).toNat
  let denormalizationLoses := 64 ≤ shift || sig.toNat % 2 ^ shift != 0
  let tinyInexact := inexact || denormalizationLoses
  (if tinyInexact then Exc.pe else Exc.none) |||
    if !ctl.masksUnderflow || tinyInexact then Exc.ue else Exc.none

/-- Tiny results keep an exponent below the smallest one; the encoding makes them denormal. -/
def finishExc (exp : ℤ) (sig : U64) (ctl : Ctl) (inexact : Bool) : F80 × Exc :=
  let exc := if inexact then Exc.pe else Exc.none
  if emax < exp then (overflowTo ctl sign, exc ||| Exc.oe ||| Exc.pe)
  else if exp < emin then
    let exc := exc ||| tinyExc ctl exp sig inexact
    if exp < emin - 64 then (zero sign, exc) else (⟨sign, .normal, exp, sig⟩, exc)
  else (⟨sign, .normal, exp, sig⟩, exc)

def packNormalExc (exp : ℤ) (sig : U64) (ctl : Ctl) (inexact : Bool) : F80 × Exc :=
  if sig = 0 then (zero sign, if inexact then Exc.pe else Exc.none)
  else if sig >>> 63 = 0 then
    finishExc sign (exp - sig.clz.toNat) (sig <<< sig.clz.toNat) ctl inexact
  else finishExc sign exp sig ctl inexact

/-- The kept bits, how the dropped ones compare with half a unit, and whether any were set. `frac`
only breaks a tie. -/
def dropBits (m sh : ℕ) (frac : Option Ordering) : ℕ × Ordering × Bool :=
  let dropped := m % 2 ^ sh
  let cmp := Ord.compare dropped (2 ^ (sh - 1))
  (m >>> sh % 2 ^ 64, if cmp = .eq ∧ frac.isSome then .gt else cmp, dropped != 0 || frac.isSome)

def keepBits (m sh : ℕ) (frac : Option Ordering) : ℕ × Ordering × Bool :=
  (m <<< sh % 2 ^ 64,
    match frac with
    | none => (.lt, false)
    | some o => if 0 < sh then (.lt, true) else (o, true))

def carryUp (p kept : ℕ) (exp : ℤ) : ℕ × ℤ :=
  if 64 ≤ p then
    if 2 ^ 64 ≤ kept + 1 then (1 <<< 63, exp + 1) else (kept + 1, exp)
  else if (kept + 1) >>> p ≠ 0 then ((kept + 1) >>> 1, exp + 1) else (kept + 1, exp)

/-- Round `m + f` times `2^(refExp - 127)`, where `frac` compares `f` with one half. -/
def normalizeRoundFracExc (refExp : ℤ) (m : ℕ) (frac : Option Ordering) (ctl : Ctl) : F80 × Exc :=
  if m = 0 then (zero sign, Exc.none)
  else
    let p := ctl.sigBits
    let hb := m.log2
    let exp := refExp - (127 - hb)
    let drop : ℤ := hb - (p - 1)
    let kept :=
      if 0 < drop then dropBits m drop.toNat frac else keepBits m (-drop).toNat frac
    let rounded :=
      if roundsUp ctl.rc sign (kept.1 % 2 == 1) kept.2.1 kept.2.2 then carryUp p kept.1 exp
      else (kept.1, exp)
    packNormalExc sign rounded.2 (BitVec.ofNat 64 (rounded.1 <<< (64 - p))) ctl kept.2.2

def normalizeRoundExc (refExp : ℤ) (m : ℕ) (ctl : Ctl) : F80 × Exc :=
  normalizeRoundFracExc sign refExp m none ctl

/-- The smaller operand aligned with the larger one; bits shifted out are kept as the lowest
bit. -/
def alignLow (sig : U64) (shift : ℕ) : ℕ :=
  if 128 ≤ shift then (if sig ≠ 0 then 1 else 0)
  else
    let base := sig.toNat <<< 64
    let shifted := base >>> shift
    if 0 < shift ∧ base % 2 ^ shift ≠ 0 then shifted ||| 1 else shifted

def addNormal (hi lo : F80) (base : Exc) (ctl : Ctl) : F80 × Exc :=
  let hm := hi.sig.toNat <<< 64
  let lm := alignLow lo.sig (hi.exp - lo.exp).toNat
  let report (r : F80 × Exc) : F80 × Exc := (r.1, base ||| r.2)
  if hi.sign = lo.sign then
    let sum := hm + lm
    if 2 ^ 128 ≤ sum then
      report (normalizeRoundExc hi.sign (hi.exp + 1) ((sum % 2 ^ 128) >>> 1 ||| 1 <<< 127) ctl)
    else report (normalizeRoundExc hi.sign hi.exp sum ctl)
  else if lm ≤ hm then
    if hm - lm = 0 then (zero false, base)
    else report (normalizeRoundExc hi.sign hi.exp (hm - lm) ctl)
  else report (normalizeRoundExc lo.sign hi.exp (lm - hm) ctl)

/-- Addition, or subtraction by negating the second operand, which a NaN must not see. -/
def addSub (a b : F80) (subtract : Bool) (ctl : Ctl) : F80 × Exc :=
  let base := binaryOperandExc a b
  match binaryNan a b with
  | some n => (n, base)
  | none =>
    let b := if subtract then { b with sign := !b.sign } else b
    match a.cls, b.cls with
    | .nan, _ | .unsupported, _ | _, .nan | _, .unsupported => (indefinite, base ||| Exc.ie)
    | .inf, .inf => if a.sign = b.sign then (inf a.sign, base) else (indefinite, base ||| Exc.ie)
    | .inf, _ => (inf a.sign, base)
    | _, .inf => (inf b.sign, base)
    | .zero, .zero => (zero (a.sign && b.sign), base)
    | .zero, _ => (b, base)
    | _, .zero => (a, base)
    | .normal, .normal =>
      if b.exp ≤ a.exp then addNormal a b base ctl else addNormal b a base ctl

def addCtl (a b : F80) (ctl : Ctl) : F80 × Exc := addSub a b false ctl
def subCtl (a b : F80) (ctl : Ctl) : F80 × Exc := addSub a b true ctl

def mulCtl (a b : F80) (ctl : Ctl) : F80 × Exc :=
  let sign := a.sign ^^ b.sign
  let base := binaryOperandExc a b
  match binaryNan a b with
  | some n => (n, base)
  | none =>
    match a.cls, b.cls with
    | .nan, _ | .unsupported, _ | _, .nan | _, .unsupported => (indefinite, base ||| Exc.ie)
    | .inf, .zero | .zero, .inf => (indefinite, base ||| Exc.ie)
    | .inf, _ | _, .inf => (inf sign, base)
    | .zero, _ | _, .zero => (zero sign, base)
    | .normal, .normal =>
      let r := normalizeRoundExc sign (a.exp + b.exp + 1) (a.sig.toNat * b.sig.toNat) ctl
      (r.1, base ||| r.2)

def divCtl (a b : F80) (ctl : Ctl) : F80 × Exc :=
  let sign := a.sign ^^ b.sign
  let base := binaryOperandExc a b
  match binaryNan a b with
  | some n => (n, base)
  | none =>
    match a.cls, b.cls with
    | .nan, _ | .unsupported, _ | _, .nan | _, .unsupported => (indefinite, base ||| Exc.ie)
    | .inf, .inf | .zero, .zero => (indefinite, base ||| Exc.ie)
    | .inf, _ => (inf sign, base)
    | _, .inf => (zero sign, base)
    | _, .zero => (inf sign, base ||| Exc.ze)
    | .zero, _ => (zero sign, base)
    | .normal, .normal =>
      let num := a.sig.toNat <<< 64
      let q := num / b.sig.toNat
      let rem := num % b.sig.toNat
      let frac := if rem ≠ 0 then some (Ord.compare (2 * rem) b.sig.toNat) else none
      let r := normalizeRoundFracExc sign (a.exp - b.exp + 63) q frac ctl
      (r.1, base ||| r.2)

def newton (x r : ℕ) : ℕ :=
  let next := (r + x / r) / 2
  if next < r then newton x next else r
termination_by r

def stepDown (x : ℕ) : ℕ → ℕ
  | 0 => 0
  | r + 1 => if x < (r + 1) * (r + 1) then stepDown x r else r + 1

def isqrt128 (x : ℕ) : ℕ × ℕ :=
  if x = 0 then (0, 0)
  else
    let r := stepDown x (newton x (1 <<< ((x.log2 + 1) / 2 + 1)))
    (r, x - r * r)

def sqrtCtl (a : F80) (ctl : Ctl) : F80 × Exc :=
  let base := if a.operandRaisesInvalid then Exc.ie else Exc.none
  match unaryNan a with
  | some n => (n, base)
  | none =>
    match a.cls with
    | .nan | .unsupported => (indefinite, base ||| Exc.ie)
    | .zero => (zero a.sign, base)
    | .inf => if a.sign then (indefinite, base ||| Exc.ie) else (inf false, base)
    | .normal =>
      if a.sign then (indefinite, base ||| Exc.ie)
      else
        let e2 := a.exp - 63
        let s := if e2 % 2 = 0 then 64 else 63
        let root := isqrt128 (a.sig.toNat <<< s)
        let frac :=
          if root.2 ≠ 0 then some (if root.1 < root.2 then Ordering.gt else .lt) else none
        let r := normalizeRoundFracExc false ((e2 - s).tdiv 2 + 127) root.1 frac ctl
        (r.1, base ||| r.2)

end F80

end X86Jit
