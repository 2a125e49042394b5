import X86Jit.Fpu.Arith

/-! The 80-bit float to and from its encoding, doubles and integers, and the remainder, which
is built from these. -/
namespace X86Jit.F80

/-- A tiny value is shifted until its exponent is that of a denormal, which drops bits. -/
def toBytes (a : F80) : BitVec 80 :=
  let r : U64 × U16 :=
    match a.cls with
    | .zero => (0, 0)
    | .inf => (0x8000000000000000, 0x7fff)
    -- only the integer bit is forced, so a signaling NaN stays one
    | .nan => (a.sig ||| 0x8000000000000000, 0x7fff)
    | .unsupported => (a.sig, BitVec.ofInt 16 a.exp)
    | .normal =>
      let e := a.exp + bias
      if expMax ≤ e then (0x8000000000000000, 0x7fff)
      else if e ≤ 0 then
        let shift := (1 - e).toNat
        if 64 ≤ shift then (0, 0) else (a.sig >>> shift, 0)
      else (a.sig, BitVec.ofInt 16 e)
  ((if a.sign then 0x8000 else 0) ||| (r.2 &&& 0x7fff)) ++ r.1

def fromF64 (bits : U64) : F80 :=
  let sign := bits.getLsbD 63
  let exp : ℤ := ((bits >>> 52) &&& 0x7ff).toNat
  let frac := bits &&& 0xfffffffffffff
  if exp = 0x7ff then
    if frac = 0 then inf sign else ⟨sign, .nan, 0, (frac <<< 11) ||| 0xc000000000000000⟩
  else if exp = 0 then
    if frac = 0 then zero sign
    else
      let shift := frac.clz.toNat - 11
      ⟨sign, .normal, 1 - 1023 - shift, frac <<< (shift + 11)⟩
  else ⟨sign, .normal, exp - 1023, 0x8000000000000000 ||| (frac <<< 11)⟩

def roundShift (v : U64) (n : ℕ) : U64 :=
  if n = 0 then v
  else if 64 ≤ n then 0
  else
    let dropped := v &&& ((1 <<< n) - 1)
    let half : U64 := 1 <<< (n - 1)
    let r := v >>> n
    if half.ult dropped || (dropped == half && r &&& 1 != 0) then r + 1 else r

def toF64 (a : F80) : U64 :=
  let sign : U64 := if a.sign then 0x8000000000000000 else 0
  match a.cls with
  | .zero => sign
  | .inf => sign ||| 0x7ff0000000000000
  | .nan =>
    let payload := (a.sig >>> 11) &&& 0xfffffffffffff
    sign ||| 0x7ff0000000000000 ||| (if payload = 0 then 1 else payload)
  | .unsupported => 0xfff8000000000000
  | .normal =>
    let m := roundShift a.sig 11
    -- rounding up can carry into the next binade
    let r : U64 × ℤ := if m >>> 53 ≠ 0 then (m >>> 1, a.exp + 1) else (m, a.exp)
    let biased := r.2 + 1023
    if 0x7ff ≤ biased then sign ||| 0x7ff0000000000000
    else if biased ≤ 0 then
      let shift := (1 - biased).toNat + 11
      if 64 ≤ shift then sign else sign ||| roundShift a.sig shift
    else sign ||| (BitVec.ofInt 64 biased <<< 52) ||| (r.1 &&& 0xfffffffffffff)

def fromI64 (v : U64) : F80 :=
  if v = 0 then zero false
  else
    let mag := if v.msb then -v else v
    let shift := mag.clz.toNat
    ⟨v.msb, .normal, 63 - shift, mag <<< shift⟩

def applySign (mag : U64) (sign : Bool) : U64 := if sign then -mag else mag

def decideRound (int frac half : U64) (sign : Bool) (rc : ℕ) : Bool :=
  match rc with
  | 1 => sign && frac != 0
  | 2 => !sign && frac != 0
  | 3 => false
  | _ => half.ult frac || (frac == half && int &&& 1 != 0)

def roundFractionUp (sign : Bool) (rc : ℕ) : Bool :=
  match rc with
  | 1 => sign
  | 2 => !sign
  | _ => false

def minI64 : U64 := 0x8000000000000000

def toI64Rc (a : F80) (rc : ℕ) : U64 :=
  match a.cls with
  | .zero => 0
  | .nan | .inf | .unsupported => minI64
  | .normal =>
    if 63 ≤ a.exp then minI64
    else if a.exp < -1 then if roundFractionUp a.sign rc then applySign 1 a.sign else 0
    else if a.exp = -1 then
      let up := decideRound 0 a.sig 0x8000000000000000 a.sign rc
      applySign (if up then 1 else 0) a.sign
    else
      let shift := (63 - a.exp).toNat
      let int := a.sig >>> shift
      let frac := a.sig &&& ((1 <<< shift) - 1)
      let up := decideRound int frac (1 <<< (shift - 1)) a.sign rc
      applySign (int + if up then 1 else 0) a.sign

def resetCtl : Ctl := ⟨0x037f⟩

/-- The partial remainder. The quotient is one rounded division, cut to an integer. -/
def rem (a b : F80) : F80 :=
  match binaryNan a b with
  | some n => n
  | none =>
    match a.cls, b.cls with
    | .nan, _ | .unsupported, _ | _, .nan | _, .unsupported => indefinite
    | .inf, _ | _, .zero => indefinite
    | .zero, _ | _, .inf => a
    | .normal, .normal =>
      let q := toI64Rc (divCtl a b resetCtl).1 3
      (subCtl a (mulCtl (fromI64 q) b resetCtl).1 resetCtl).1

def abs (a : F80) : F80 := { a with sign := false }

def neg (a : F80) : F80 := { a with sign := !a.sign }

end X86Jit.F80
