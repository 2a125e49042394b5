import X86Jit.Core.Flags

/-! The interpreter's integer ALU: each op computes its value and a candidate for
all six flags, and `apply` commits the candidates the op's mask selects. -/
namespace X86Jit

variable (size : Size)

def mask : U64 :=
  if 8 ≤ size.bytes then BitVec.allOnes 64 else (1#64 <<< size.bits) - 1

def shiftMask : U64 := if size.bytes = 8 then 63 else 31

def signBit : U64 := 1#64 <<< (size.bits - 1)

def signExtend (v : U64) (size : Size) : U64 :=
  if 8 ≤ size.bytes then v
  else (v <<< (64 - size.bits)).sshiftRight (64 - size.bits)

def parity (v : U64) : Bool := evenParity (v.setWidth 8)

structure AluResult where
  res : U64
  cf : Bool
  pf : Bool
  af : Bool
  zf : Bool
  sf : Bool
  of : Bool
  deriving DecidableEq, Repr

def AluResult.get (r : AluResult) : Flag → Bool
  | .cf => r.cf
  | .pf => r.pf
  | .af => r.af
  | .zf => r.zf
  | .sf => r.sf
  | .of => r.of

def aluAdd (a b carryIn : U64) (size : Size) : AluResult :=
  let a := a &&& mask size
  let b := b &&& mask size
  let wide : U128 := a.setWidth 128 + b.setWidth 128 + carryIn.setWidth 128
  let res := wide.setWidth 64 &&& mask size
  { res
    cf := (wide >>> size.bits) &&& 1 != 0
    pf := parity res
    af := ((a &&& 0xf) + (b &&& 0xf) + carryIn) &&& 0x10 != 0
    zf := res == 0
    sf := res &&& signBit size != 0
    of := (~~~(a ^^^ b) &&& (a ^^^ res)) &&& signBit size != 0 }

def aluSub (a b borrowIn : U64) (size : Size) : AluResult :=
  let a := a &&& mask size
  let b := b &&& mask size
  let wide : U128 := a.setWidth 128 - b.setWidth 128 - borrowIn.setWidth 128
  let res := wide.setWidth 64 &&& mask size
  { res
    cf := (a.setWidth 128).ult (b.setWidth 128 + borrowIn.setWidth 128)
    pf := parity res
    af := (a &&& 0xf).ult ((b &&& 0xf) + borrowIn)
    zf := res == 0
    sf := res &&& signBit size != 0
    of := ((a ^^^ b) &&& (a ^^^ res)) &&& signBit size != 0 }

def rotl (v : U64) (cnt : ℕ) (size : Size) : U64 :=
  ((v.setWidth size.bits).rotateLeft cnt).setWidth 64

def rotr (v : U64) (cnt : ℕ) (size : Size) : U64 :=
  ((v.setWidth size.bits).rotateRight cnt).setWidth 64

def rclStep (s : U64 × Bool) : U64 × Bool :=
  (((s.1 <<< 1) ||| (BitVec.ofBool s.2).setWidth 64) &&& mask size,
    (s.1 >>> (size.bits - 1)) &&& 1 != 0)

def rcl (v : U64) (cnt : ℕ) (cfIn : Bool) (size : Size) : U64 × Bool :=
  (rclStep size)^[cnt] (v, cfIn)

def rcrStep (s : U64 × Bool) : U64 × Bool :=
  ((s.1 >>> 1) ||| ((BitVec.ofBool s.2).setWidth 64 <<< (size.bits - 1)), s.1 &&& 1 != 0)

def rcr (v : U64) (cnt : ℕ) (cfIn : Bool) (size : Size) : U64 × Bool :=
  (rcrStep size)^[cnt] (v, cfIn)

/-- Rotates compute CF and OF only; the other candidates are constant. -/
def cfOf (res : U64) (cf of : Bool) : AluResult :=
  { res, cf, pf := false, af := false, zf := false, sf := false, of }

def shiftResult (res : U64) (size : Size) (cf of : Bool) : AluResult :=
  { res, cf, pf := parity res, af := false, zf := res == 0,
    sf := res &&& signBit size != 0, of }

def aluLogic (res : U64) (size : Size) : AluResult :=
  let res := res &&& mask size
  { res, cf := false, pf := parity res, af := false, zf := res == 0,
    sf := res &&& signBit size != 0, of := false }

def applyOne (m : FlagMask) (r : AluResult) (f : Flags) (x : Flag) : Flags :=
  if m.has x then f.set x (r.get x) else f

def apply (f : Flags) (m : FlagMask) (r : AluResult) : Flags :=
  if m.isNone then f
  else [Flag.cf, .pf, .af, .zf, .sf, .of].foldl (applyOne m r) f

theorem get_applyOne (m : FlagMask) (r : AluResult) (f : Flags) (x y : Flag) :
    (applyOne m r f x).get y = if y = x ∧ m.has x = true then r.get x else f.get y := by
  unfold applyOne
  by_cases h : m.has x = true
  · simp [h, Flags.get_set]
  · simp [h]

/-- The whole effect of `apply`: a selected flag takes its candidate, every other
flag keeps its value. -/
theorem get_apply (f : Flags) (m : FlagMask) (r : AluResult) (x : Flag) :
    (apply f m r).get x = if m.has x then r.get x else f.get x := by
  unfold apply
  split
  case isTrue h => simp [FlagMask.has_of_isNone h]
  case isFalse =>
    cases x <;> simp [get_applyOne]

theorem df_applyOne (m : FlagMask) (r : AluResult) (f : Flags) (x : Flag) :
    (applyOne m r f x).df = f.df ∧ (applyOne m r f x).ifl = f.ifl := by
  unfold applyOne
  split <;> simp

theorem df_apply (f : Flags) (m : FlagMask) (r : AluResult) :
    (apply f m r).df = f.df ∧ (apply f m r).ifl = f.ifl := by
  unfold apply
  split
  · exact ⟨rfl, rfl⟩
  · simp [df_applyOne]

theorem Flags.AgreeOff.apply {D : Flag → Bool} {f g : Flags} (h : AgreeOff D f g) (m : FlagMask)
    (r : AluResult) :
    AgreeOff (fun x => D x && !m.has x) (X86Jit.apply f m r) (X86Jit.apply g m r) := by
  refine ⟨?_, ?_, ?_⟩
  · intro x hx
    rw [get_apply, get_apply]
    split
    · rfl
    · rename_i hm
      apply h.get
      simpa [hm] using hx
  · rw [(df_apply f m r).1, (df_apply g m r).1, h.df]
  · rw [(df_apply f m r).2, (df_apply g m r).2, h.ifl]

theorem FlagMask.has_all (x : Flag) : FlagMask.all.has x = true := by
  cases x <;> decide

section Exec
variable (f : Flags) (a b count : U64) (size : Size) (m : FlagMask)

def carry (f : Flags) : U64 := (BitVec.ofBool f.cf).setWidth 64

def execAdd : U64 × Flags :=
  let r := aluAdd a b 0 size
  (r.res, apply f m r)

def execAdc : U64 × Flags :=
  let r := aluAdd a b (carry f) size
  (r.res, apply f m r)

def execSub : U64 × Flags :=
  let r := aluSub a b 0 size
  (r.res, apply f m r)

def execSbb : U64 × Flags :=
  let r := aluSub a b (carry f) size
  (r.res, apply f m r)

def execAnd : U64 × Flags :=
  let r := aluLogic (a &&& b) size
  (r.res, apply f m r)

def execOr : U64 × Flags :=
  let r := aluLogic (a ||| b) size
  (r.res, apply f m r)

def execXor : U64 × Flags :=
  let r := aluLogic (a ^^^ b) size
  (r.res, apply f m r)

def execShl : U64 × Flags :=
  let vm := a &&& mask size
  let cnt := (count &&& shiftMask size).toNat
  let res := (vm <<< cnt) &&& mask size
  if !m.isNone && cnt != 0 then
    let n := size.bits
    let cf := decide (cnt ≤ n) && (vm >>> (n - cnt)) &&& 1 != 0
    let of := (res &&& signBit size != 0) ^^ cf
    (res, apply f m (shiftResult res size cf of))
  else (res, f)

def execShr : U64 × Flags :=
  let vm := a &&& mask size
  let cnt := (count &&& shiftMask size).toNat
  let res := vm >>> cnt
  if !m.isNone && cnt != 0 then
    let cf := (vm >>> (cnt - 1)) &&& 1 != 0
    let of := vm &&& signBit size != 0
    (res, apply f m (shiftResult res size cf of))
  else (res, f)

def execSar : U64 × Flags :=
  let vm := a &&& mask size
  let cnt := (count &&& shiftMask size).toNat
  let res := (signExtend vm size).sshiftRight cnt &&& mask size
  if !m.isNone && cnt != 0 then
    let cf := (signExtend vm size >>> (cnt - 1)) &&& 1 != 0
    (res, apply f m (shiftResult res size cf false))
  else (res, f)

/-- Shift `a`, filling from `b`. A masked count of zero leaves the value and the flags; the fill is
zero from the operand width on. -/
def execDoubleShift (left : Bool) : U64 × Flags :=
  let n := size.bits
  let av := a &&& mask size
  let bv := b &&& mask size
  let cnt := (count &&& shiftMask size).toNat
  if cnt = 0 then (av, f) else
  let lo := if left then av <<< cnt else av >>> cnt
  let hi := if cnt < n then (if left then bv >>> (n - cnt) else bv <<< (n - cnt)) else 0
  let cf :=
    if left then decide (cnt ≤ n) && (av >>> (n - cnt)) &&& 1 != 0
    else (av >>> (cnt - 1)) &&& 1 != 0
  let res := (lo ||| hi) &&& mask size
  if !m.isNone then
    let of := (res &&& signBit size != 0) ^^ (av &&& signBit size != 0)
    (res, apply f m (shiftResult res size cf of))
  else (res, f)

def execRol : U64 × Flags :=
  let vm := a &&& mask size
  let cnt := (count &&& shiftMask size).toNat
  let res := rotl vm cnt size
  if !m.isNone && cnt != 0 then
    let cf := res &&& 1 != 0
    let of := (res &&& signBit size != 0) ^^ cf
    (res, apply f m (cfOf res cf of))
  else (res, f)

def execRor : U64 × Flags :=
  let vm := a &&& mask size
  let cnt := (count &&& shiftMask size).toNat
  let res := rotr vm cnt size
  if !m.isNone && cnt != 0 then
    let cf := res &&& signBit size != 0
    let of := cf ^^ ((res >>> (size.bits - 2)) &&& 1 != 0)
    (res, apply f m (cfOf res cf of))
  else (res, f)

def rcCount : ℕ := (count &&& shiftMask size).toNat % (size.bits + 1)

def execRcl : U64 × Flags :=
  let cnt := rcCount count size
  let (res, cf) := rcl (a &&& mask size) cnt f.cf size
  if !m.isNone && cnt != 0 then
    let of := cf ^^ (res &&& signBit size != 0)
    (res, apply f m (cfOf res cf of))
  else (res, f)

def execRcr : U64 × Flags :=
  let cnt := rcCount count size
  let (res, cf) := rcr (a &&& mask size) cnt f.cf size
  if !m.isNone && cnt != 0 then
    let of := (res &&& signBit size != 0) ^^ ((res >>> (size.bits - 2)) &&& 1 != 0)
    (res, apply f m (cfOf res cf of))
  else (res, f)

/-- The product of two 64-bit factors fits the 128-bit type the code uses. -/
def execMul (signed : Bool) : (U64 × U64) × Flags :=
  let va := a &&& mask size
  let vb := b &&& mask size
  let p : ℤ :=
    if signed then (signExtend va size).toInt * (signExtend vb size).toInt
    else (va.toNat * vb.toNat : ℕ)
  let lo := BitVec.ofInt 64 p &&& mask size
  let hi := BitVec.ofInt 64 (p >>> size.bits) &&& mask size
  let overflow := if signed then p != (signExtend lo size).toInt else hi != 0
  if !m.isNone then
    ((lo, hi), apply f m (cfOf lo overflow overflow))
  else ((lo, hi), f)

end Exec

inductive AluKind
  | add | adc | sub | sbb | and | or | xor
  | shl | shr | sar | rol | ror | rcl | rcr
  | doubleShift (left : Bool)
  | mul (signed : Bool)
  deriving DecidableEq, Repr

/-- The values in the result temps, and the flags. `b` is the second operand of a binary op and the
fill of a double shift. -/
def execAlu (k : AluKind) (size : Size) (m : FlagMask) (a b count : U64) (f : Flags) :
    List U64 × Flags :=
  let one (r : U64 × Flags) : List U64 × Flags := ([r.1], r.2)
  match k with
  | .add => one (execAdd f a b size m)
  | .adc => one (execAdc f a b size m)
  | .sub => one (execSub f a b size m)
  | .sbb => one (execSbb f a b size m)
  | .and => one (execAnd f a b size m)
  | .or => one (execOr f a b size m)
  | .xor => one (execXor f a b size m)
  | .shl => one (execShl f a count size m)
  | .shr => one (execShr f a count size m)
  | .sar => one (execSar f a count size m)
  | .rol => one (execRol f a count size m)
  | .ror => one (execRor f a count size m)
  | .rcl => one (execRcl f a count size m)
  | .rcr => one (execRcr f a count size m)
  | .doubleShift left => one (execDoubleShift f a b count size m left)
  | .mul signed =>
    let r := execMul f a b size m signed
    ([r.1.1, r.1.2], r.2)

def AluKind.readsCarry : AluKind → Bool
  | .adc | .sbb | .rcl | .rcr => true
  | _ => false

/-- A shift or rotate by an effective count of zero leaves the flags alone. -/
def AluKind.writes (k : AluKind) (size : Size) (count : U64) : Bool :=
  match k with
  | .shl | .shr | .sar | .rol | .ror | .doubleShift _ => (count &&& shiftMask size).toNat != 0
  | .rcl | .rcr => rcCount count size != 0
  | _ => true

theorem apply_of_isNone {m : FlagMask} (h : m.isNone = true) (f : Flags) (r : AluResult) :
    apply f m r = f :=
  if_pos h

theorem guarded_apply {α : Type} (f : Flags) (m : FlagMask) (r : AluResult) (res : α)
    (c : Bool) :
    (if (!m.isNone && c) = true then (res, apply f m r) else (res, f)) =
      (res, if c = true then apply f m r else f) := by
  by_cases hm : m.isNone = true
  · rw [apply_of_isNone hm, if_neg (by simp [hm]), ite_self]
  · cases c <;> simp [hm]

theorem nonempty_apply {α : Type} (f : Flags) (m : FlagMask) (r : AluResult) (res : α) :
    (if (!m.isNone) = true then (res, apply f m r) else (res, f)) = (res, apply f m r) := by
  have h := guarded_apply f m r res true
  rwa [Bool.and_true] at h

/-- The values and the six candidates do not depend on the mask, nor on any flag but CF. -/
theorem execAlu_spec (k : AluKind) (size : Size) (a b count : U64) (cf : Bool) :
    ∃ vals r, ∀ m f, (k.readsCarry = true → f.cf = cf) →
      execAlu k size m a b count f =
        (vals, if k.writes size count = true then apply f m r else f) := by
  cases k with
  | add => exact ⟨[(aluAdd a b 0 size).res], aluAdd a b 0 size, fun _ _ _ => rfl⟩
  | sub => exact ⟨[(aluSub a b 0 size).res], aluSub a b 0 size, fun _ _ _ => rfl⟩
  | and => exact ⟨[(aluLogic (a &&& b) size).res], aluLogic (a &&& b) size, fun _ _ _ => rfl⟩
  | or => exact ⟨[(aluLogic (a ||| b) size).res], aluLogic (a ||| b) size, fun _ _ _ => rfl⟩
  | xor => exact ⟨[(aluLogic (a ^^^ b) size).res], aluLogic (a ^^^ b) size, fun _ _ _ => rfl⟩
  | adc =>
    let r := aluAdd a b ((BitVec.ofBool cf).setWidth 64) size
    refine ⟨[r.res], r, ?_⟩
    intro m f hcf
    simp only [r, ← hcf rfl]
    rfl
  | sbb =>
    let r := aluSub a b ((BitVec.ofBool cf).setWidth 64) size
    refine ⟨[r.res], r, ?_⟩
    intro m f hcf
    simp only [r, ← hcf rfl]
    rfl
  | shl =>
    exact ⟨_, _, fun m f _ => by simp only [execAlu, execShl, guarded_apply]; rfl⟩
  | shr =>
    exact ⟨_, _, fun m f _ => by simp only [execAlu, execShr, guarded_apply]; rfl⟩
  | sar =>
    exact ⟨_, _, fun m f _ => by simp only [execAlu, execSar, guarded_apply]; rfl⟩
  | rol =>
    exact ⟨_, _, fun m f _ => by simp only [execAlu, execRol, guarded_apply]; rfl⟩
  | ror =>
    exact ⟨_, _, fun m f _ => by simp only [execAlu, execRor, guarded_apply]; rfl⟩
  | rcl =>
    exact ⟨_, _, fun m f hcf => by simp only [execAlu, execRcl, guarded_apply, hcf rfl]; rfl⟩
  | rcr =>
    exact ⟨_, _, fun m f hcf => by simp only [execAlu, execRcr, guarded_apply, hcf rfl]; rfl⟩
  | doubleShift left =>
    by_cases hcnt : (count &&& shiftMask size).toNat = 0
    · refine ⟨[a &&& mask size], cfOf 0 false false, fun m f _ => ?_⟩
      simp [execAlu, execDoubleShift, AluKind.writes, hcnt]
    · have hwrites : (AluKind.doubleShift left).writes size count = true := by
        simpa [AluKind.writes] using hcnt
      exact ⟨_, _, fun m f _ => by
        simp only [execAlu, execDoubleShift, hcnt, if_false, nonempty_apply, hwrites, if_true]; rfl⟩
  | mul signed => exact ⟨_, _, fun m f _ => by simp only [execAlu, execMul, nonempty_apply]; rfl⟩

end X86Jit
