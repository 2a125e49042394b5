import X86Jit.Interp.Alu
import X86Jit.Jit.Clif

/-! What the code emitted for an integer ALU op computes: the value of each result
temp and the bytes it stores into the flag fields of the CPU state. -/
namespace X86Jit.Jit
open X86Jit.Clif

structure FlagBytes where
  cf : U8
  pfSrc : U8
  afSrc : U8
  zf : U8
  sf : U8
  of : U8
  deriving DecidableEq, Repr

variable (fb : FlagBytes)

def storeFlags (m : FlagMask) (c : FlagBytes) : FlagBytes :=
  { cf := if m.has .cf then c.cf else fb.cf
    pfSrc := if m.has .pf then c.pfSrc else fb.pfSrc
    afSrc := if m.has .af then c.afSrc else fb.afSrc
    zf := if m.has .zf then c.zf else fb.zf
    sf := if m.has .sf then c.sf else fb.sf
    of := if m.has .of then c.of else fb.of }

def emitMask (v : U64) : Size → U64
  | .b8 => v
  | .b4 => uextend 64 (ireduce 32 v)
  | size => v &&& ((1#64 <<< size.bits) - 1)

def emitMsb (v : U64) (size : Size) : U8 :=
  let sh := v >>> (size.bits - 1)
  ireduce 8 (if 8 ≤ size.bytes then sh else sh &&& 1)

def emitSignExtend (v : U64) (size : Size) : U64 :=
  if 8 ≤ size.bytes then v
  else (v <<< (64 - size.bits)).sshiftRight (64 - size.bits)

def emitShiftCount (b : U64) (size : Size) : U64 := b &&& (if size.bytes = 8 then 63 else 31)

def maskImm (size : Size) : U64 := if 8 ≤ size.bytes then -1 else (1#64 <<< size.bits) - 1

def bit (v amount : U64) : U8 := ireduce 8 (ushr v amount &&& 1)

def pfSrc (res : U64) : U8 := ireduce 8 res

def afSrc (a b res : U64) : U8 := ireduce 8 (a ^^^ b ^^^ res)

def loadCarry : U64 := uextend 64 fb.cf

/-- At the full width the carry is found by two comparisons, below it it is a bit of the 64-bit sum.
-/
def addSubValue (am bm cin : U64) (size : Size) (sub : Bool) : U64 × U8 :=
  if sub then
    let d := am - bm
    let bor1 := icmpUlt am bm
    let bor2 := icmpUlt d cin
    (emitMask (d - cin) size, bor1 ||| bor2)
  else if 8 ≤ size.bytes then
    let s1 := am + bm
    let c1 := icmpUlt s1 am
    let res := s1 + cin
    let c2 := icmpUlt res s1
    (res, c1 ||| c2)
  else
    let s := am + bm + cin
    (emitMask s size, ireduce 8 ((s >>> size.bits) &&& 1))

def addSub (a b cin : U64) (size : Size) (m : FlagMask) (sub : Bool) : U64 × FlagBytes :=
  let am := emitMask a size
  let bm := emitMask b size
  let (res, cf) := addSubValue am bm cin size sub
  let axb := am ^^^ bm
  let axr := am ^^^ res
  let ofAnd := if sub then axb &&& axr else ~~~axb &&& axr
  (res, storeFlags fb m
    { cf, pfSrc := pfSrc res, afSrc := afSrc am bm res, zf := icmpEq res 0,
      sf := emitMsb res size, of := emitMsb ofAnd size })

inductive ShiftKind
  | shl | shr | sar | rol | ror
  deriving DecidableEq, Repr

def rotate (vm cnt : U64) (size : Size) (left : Bool) : U64 :=
  if 8 ≤ size.bytes then
    if left then Clif.rotl vm cnt else Clif.rotr vm cnt
  else
    let sv := ireduce size.bits vm
    uextend 64 (if left then Clif.rotl sv cnt else Clif.rotr sv cnt)

def shiftValue (kind : ShiftKind) (vm cnt : U64) (size : Size) : U64 :=
  match kind with
  | .shl => emitMask (ishl vm cnt) size
  | .shr => ushr vm cnt
  | .sar => emitMask (sshr (emitSignExtend vm size) cnt) size
  | .rol => rotate vm cnt size true
  | .ror => rotate vm cnt size false

def shiftCfOf (kind : ShiftKind) (vm cnt res : U64) (size : Size) : U8 × U8 :=
  match kind with
  | .shl =>
    let n := BitVec.ofNat 64 size.bits
    let cf := select (icmpUle cnt n) (bit vm (irsub cnt n)) 0
    (cf, emitMsb res size ^^^ cf)
  | .shr => (bit vm (cnt + -1), emitMsb vm size)
  | .sar => (bit (emitSignExtend vm size) (cnt + -1), 0)
  | .rol =>
    let cf := ireduce 8 (res &&& 1)
    (cf, emitMsb res size ^^^ cf)
  | .ror =>
    let cf := emitMsb res size
    (cf, cf ^^^ ireduce 8 ((res >>> (size.bits - 2)) &&& 1))

def shiftFlagBytes (res : U64) (size : Size) (cf of : U8) : FlagBytes :=
  { cf, pfSrc := pfSrc res, afSrc := 0, zf := icmpEq res 0, sf := emitMsb res size, of }

def emitShift (kind : ShiftKind) (a b : U64) (size : Size) (m : FlagMask) : U64 × FlagBytes :=
  let vm := emitMask a size
  let cnt := emitShiftCount b size
  let res := shiftValue kind vm cnt size
  if m.isNone then (res, fb)
  else if icmpEq cnt 0 != 0 then (res, fb)
  else
    let (cf, of) := shiftCfOf kind vm cnt res size
    (res, storeFlags fb m (shiftFlagBytes res size cf of))

def rcxBody (size : Size) (left : Bool) (v cf : U64) : U64 × U64 :=
  if left then (emitMask ((v <<< 1) ||| cf) size, (v >>> (size.bits - 1)) &&& 1)
  else ((v >>> 1) ||| (cf <<< (size.bits - 1)), v &&& 1)

/-- The emitted loop `while i < n`; the fuel is a bound on the passes left. -/
def rcxLoop (size : Size) (left : Bool) (n : U64) : ℕ → U64 → U64 → U64 → U64 × U64
  | 0, v, cf, _ => (v, cf)
  | fuel + 1, v, cf, i =>
    if i.ult n then
      let s := rcxBody size left v cf
      rcxLoop size left n fuel s.1 s.2 (i + 1)
    else (v, cf)

def emitRcx (a b : U64) (size : Size) (m : FlagMask) (left : Bool) : U64 × FlagBytes :=
  let x := emitMask a size
  let nmasked := b &&& (if size.bytes = 8 then 0x3f else 0x1f)
  let n := nmasked % BitVec.ofNat 64 (size.bits + 1)
  let (res, cfOut) := rcxLoop size left n 64 x (loadCarry fb) 0
  if m.isNone then (res, fb)
  else if icmpEq n 0 != 0 then (res, fb)
  else
    let cf8 := ireduce 8 cfOut
    let msb := emitMsb res size
    let of := msb ^^^ (if left then cf8 else ireduce 8 ((res >>> (size.bits - 2)) &&& 1))
    (res, storeFlags fb m (shiftFlagBytes res size cf8 of))

def emitDoubleShift (a b count : U64) (size : Size) (left : Bool)
    (m : FlagMask) : U64 × FlagBytes :=
  let va := emitMask a size
  let vb := emitMask b size
  let cnt := emitShiftCount count size
  let nsub := irsub cnt (BitVec.ofNat 64 size.bits)
  let shifted := if left then ishl va cnt ||| ushr vb nsub else ushr va cnt ||| ishl vb nsub
  let iszero := icmpEq cnt 0
  let res := select iszero va (emitMask shifted size)
  if m.isNone then (res, fb)
  else if iszero != 0 then (res, fb)
  else
    let cf := if left then bit va nsub else bit va (cnt + -1)
    let of := emitMsb res size ^^^ emitMsb va size
    (res, storeFlags fb m (shiftFlagBytes res size cf of))

def emitMul (a b : U64) (size : Size) (signed : Bool) (m : FlagMask) : (U64 × U64) × FlagBytes :=
  let (lo, hi, overflow) :=
    if size.bytes < 8 then
      let va := if signed then emitSignExtend a size else a &&& maskImm size
      let vb := if signed then emitSignExtend b size else b &&& maskImm size
      let prod := va * vb
      let lo := prod &&& maskImm size
      let hi := (prod >>> size.bits) &&& maskImm size
      (lo, hi, if signed then icmpNe prod (emitSignExtend lo size) else icmpNe hi 0)
    else
      let lo := a * b
      let hi := if signed then smulhi a b else umulhi a b
      (lo, hi, if signed then icmpNe hi (lo.sshiftRight 63) else icmpNe hi 0)
  if m.isNone then ((lo, hi), fb)
  else ((lo, hi), storeFlags fb m
    { cf := overflow, pfSrc := pfSrcZero, afSrc := 0, zf := 0, sf := 0, of := overflow })

def logic (r : U64) (size : Size) (m : FlagMask) : U64 × FlagBytes :=
  let res := emitMask r size
  (res, storeFlags fb m
    { cf := 0, pfSrc := pfSrc res, afSrc := 0, zf := icmpEq res 0, sf := emitMsb res size,
      of := 0 })

def emitAlu (k : AluKind) (size : Size) (m : FlagMask) (a b count : U64) (fb : FlagBytes) :
    List U64 × FlagBytes :=
  let one (r : U64 × FlagBytes) : List U64 × FlagBytes := ([r.1], r.2)
  match k with
  | .add => one (addSub fb a b 0 size m false)
  | .adc => one (addSub fb a b (loadCarry fb) size m false)
  | .sub => one (addSub fb a b 0 size m true)
  | .sbb => one (addSub fb a b (loadCarry fb) size m true)
  | .and => one (logic fb (a &&& b) size m)
  | .or => one (logic fb (a ||| b) size m)
  | .xor => one (logic fb (a ^^^ b) size m)
  | .shl => one (emitShift fb .shl a count size m)
  | .shr => one (emitShift fb .shr a count size m)
  | .sar => one (emitShift fb .sar a count size m)
  | .rol => one (emitShift fb .rol a count size m)
  | .ror => one (emitShift fb .ror a count size m)
  | .rcl => one (emitRcx fb a count size m true)
  | .rcr => one (emitRcx fb a count size m false)
  | .doubleShift left => one (emitDoubleShift fb a b count size left m)
  | .mul signed =>
    let r := emitMul fb a b size signed m
    ([r.1.1, r.1.2], r.2)

end X86Jit.Jit
