import X86Jit.Interp.Arithmetic
import X86Jit.Lib.Serial

/-! Shifts and rotates against the architecture's definition, one bit at a time. The double shifts
drop the fill at a count of the full width, where all of it should have come in. -/
namespace X86Jit
open X86Jit.Lib BitVec

inductive ShiftOp
  | shl | shr | sar | rol | ror | rcl | rcr | shld | shrd
  deriving DecidableEq, Repr

namespace ShiftOp

def kind : ShiftOp → AluKind
  | shl => .shl
  | shr => .shr
  | sar => .sar
  | rol => .rol
  | ror => .ror
  | rcl => .rcl
  | rcr => .rcr
  | shld => .doubleShift true
  | shrd => .doubleShift false

def isDouble : ShiftOp → Bool
  | shld | shrd => true
  | _ => false

/-- The masked count, for a rotate through the carry modulo the width plus one. -/
def steps (count : U64) (size : Size) : ShiftOp → ℕ
  | rcl | rcr => (count &&& shiftMask size).toNat % (size.bits + 1)
  | _ => (count &&& shiftMask size).toNat

/-- The architecture's step: what comes in for the bit that goes to the carry. -/
def oneBit {n : ℕ} : ShiftOp → Shifter n → Shifter n
  | shl => .left fun _ => false
  | rol => .left fun s => s.x.msb
  | rcl => .left fun s => s.cf
  | shld => .left fun s => s.fill.msb
  | shr => .right fun _ => false
  | sar => .right fun s => s.x.msb
  | ror => .right fun s => s.x.getLsbD 0
  | rcr => .right fun s => s.cf
  | shrd => .right fun s => s.fill.getLsbD 0

def serial (op : ShiftOp) (size : Size) (a b count : U64) (f : Flags) : Shifter size.bits :=
  op.oneBit^[op.steps count size] ⟨a.setWidth size.bits, f.cf, b.setWidth size.bits⟩

/-- The op leaves what the steps leave. Its flags are set anew with CF the last bit out, or left
alone after no step. -/
def IsSerial (op : ShiftOp) (size : Size) (m : FlagMask) (a b count : U64) (f : Flags) : Prop :=
  ∃ r : AluResult, r.cf = (op.serial size a b count f).cf ∧
    execAlu op.kind size m a b count f =
      ([(op.serial size a b count f).x.setWidth 64],
        if op.steps count size = 0 then f else apply f m r)

end ShiftOp

variable (size : Size) (v : U64) (x y : BitVec size.bits) (t : ℕ)

theorem word_and_mask : x.setWidth 64 &&& mask size = x.setWidth 64 := by
  rw [and_mask_eq, setWidth_word]

theorem or_and_mask (w : U64) :
    (v ||| w) &&& mask size = (v &&& mask size) ||| (w &&& mask size) := by
  rw [and_mask_eq, and_mask_eq, and_mask_eq, setWidth_or, setWidth_or]

theorem shl_word : (x.setWidth 64 <<< t) &&& mask size = (x <<< t).setWidth 64 := by
  apply eq_of_getLsbD_eq
  intro i hi
  simp only [getLsbD_and, getLsbD_shiftLeft, getLsbD_mask, getLsbD_setWidth,
    hi, decide_true, Bool.true_and]
  by_cases hin : i < size.bits
  · simp [hin, (Nat.sub_le i t).trans_lt hi]
  · simp [hin]

theorem shr_word : x.setWidth 64 >>> t = (x >>> t).setWidth 64 := by
  apply eq_of_getLsbD_eq
  intro i hi
  have hb := size.bits_pos.2
  simp only [getLsbD_setWidth, hi, decide_true, Bool.true_and]
  by_cases hin : t + i < 64
  · simp [hin]
  · simp [getLsbD_of_ge x (t + i) (by omega)]

theorem signExtend_word : signExtend (x.setWidth 64) size = x.signExtend 64 := by
  rw [← toInt_inj, toInt_signExtend, toInt_signExtend_of_le size.bits_pos.2,
    setWidth_word]

theorem sshiftRight_signExtend :
    (x.signExtend 64).sshiftRight t = (x.sshiftRight t).signExtend 64 := by
  have hb := size.bits_pos.2
  rw [← toInt_inj, toInt_sshiftRight, toInt_signExtend_of_le hb,
    toInt_signExtend_of_le hb, toInt_sshiftRight]

theorem sar_word :
    (x.signExtend 64).sshiftRight t &&& mask size = (x.sshiftRight t).setWidth 64 := by
  rw [sshiftRight_signExtend]
  apply eq_of_getLsbD_eq
  intro i hi
  rw [getLsbD_and, getLsbD_mask, getLsbD_signExtend]
  by_cases hin : i < size.bits
  · simp [hin]
  · simp [hin, getLsbD_of_ge _ i (Nat.le_of_not_lt hin)]

variable {t : ℕ}

/-- Shifted in from the other word as the code does it: at a count of the full width, nothing. -/
theorem shld_word (ht : t ≤ size.bits) : (if t = 0 then x.setWidth 64 else
      ((x.setWidth 64 <<< t) ||| if t < size.bits then y.setWidth 64 >>> (size.bits - t) else 0) &&&
        mask size) = ((x <<< t) ||| (y >>> (size.bits - t))).setWidth 64 ↔
      (t = size.bits → y.setWidth 64 = 0) := by
  have hb := size.bits_pos
  by_cases h0 : t = 0
  · simp [h0, show 0 ≠ size.bits by omega, ushiftRight_eq_zero]
  rw [if_neg h0, or_and_mask, shl_word]
  rcases ht.lt_or_eq with hlt | rfl
  · simp [hlt, hlt.ne, shr_word, word_and_mask]
  · simp [eq_comm]

theorem shrd_word (ht : t ≤ size.bits) : (if t = 0 then x.setWidth 64 else
      ((x.setWidth 64 >>> t) ||| if t < size.bits then y.setWidth 64 <<< (size.bits - t) else 0) &&&
        mask size) = ((x >>> t) ||| (y <<< (size.bits - t))).setWidth 64 ↔
      (t = size.bits → y.setWidth 64 = 0) := by
  have hb := size.bits_pos
  by_cases h0 : t = 0
  · simp [h0, show 0 ≠ size.bits by omega]
  rw [if_neg h0, or_and_mask, shr_word, word_and_mask]
  rcases ht.lt_or_eq with hlt | rfl
  · simp [hlt, hlt.ne, shl_word]
  · simp [eq_comm, ushiftRight_eq_zero]

section Carries
variable {t : ℕ} (ht : t ≠ 0)

theorem shr_carry : ((x.setWidth 64 >>> (t - 1)) &&& 1 != 0) = (x >>> (t - 1)).getLsbD 0 := by
  rw [shr_word, and_one_bne_zero]
  simp

theorem sar_carry (hlt : t < 64) :
    ((x.signExtend 64 >>> (t - 1)) &&& 1 != 0) = (x.sshiftRight (t - 1)).getLsbD 0 := by
  have hpos : ¬size.bits ≤ 0 := by have hb := size.bits_pos.1; omega
  have hin : t - 1 < 64 := by omega
  rw [shiftRight_and_one_bne_zero, getLsbD_signExtend, getLsbD_sshiftRight,
    decide_eq_true hin, decide_eq_false hpos]
  rfl

include ht

theorem shl_carry : (decide (t ≤ size.bits) && (x.setWidth 64 >>> (size.bits - t)) &&& 1 != 0) =
      (x <<< (t - 1)).msb := by
  have hb := size.bits_pos
  rw [shiftRight_and_one_bne_zero, msb_eq_getLsbD_last, getLsbD_setWidth,
    getLsbD_shiftLeft]
  by_cases hin : t ≤ size.bits
  · have hsub : size.bits - 1 - (t - 1) = size.bits - t := by omega
    have hlow : ¬size.bits - 1 < t - 1 := by omega
    have hword : size.bits - t < 64 := by omega
    have hlast : size.bits - 1 < size.bits := by omega
    simp [hin, hsub, hlow, hword, hlast]
  · have hlow : size.bits - 1 < t - 1 := by omega
    simp [hin, hlow]

theorem rol_carry : ((x.rotateLeft t).setWidth 64 &&& 1 != 0) = (x.rotateLeft (t - 1)).msb := by
  obtain ⟨k, rfl⟩ := Nat.exists_eq_succ_of_ne_zero ht
  have hpos : 0 < size.bits := by have hb := size.bits_pos.1; omega
  rw [and_one_bne_zero, Nat.succ_eq_add_one, rotateLeft_succ x k hpos, getLsbD_setWidth,
    getLsbD_shiftConcat]
  simp [hpos]

theorem ror_carry :
    ((x.rotateRight t).setWidth 64 &&& signBit size != 0) = (x.rotateRight (t - 1)).getLsbD 0 := by
  obtain ⟨k, rfl⟩ := Nat.exists_eq_succ_of_ne_zero ht
  have hb := size.bits_pos
  have hpos : 0 < size.bits := by omega
  have hlast : size.bits - 1 < 64 := by omega
  have hsize : size.bits - 1 < size.bits := by omega
  have hsucc : size.bits - 1 + 1 = size.bits := by omega
  rw [signBit_test, Nat.succ_eq_add_one, rotateRight_succ x k hpos, getLsbD_setWidth, getLsbD_shiftIn,
    hsucc, if_pos rfl,
    decide_eq_true hlast, decide_eq_true hsize]
  rfl

end Carries

def held (s : Shifter size.bits) : U64 × Bool := (s.x.setWidth 64, s.cf)

theorem rclStep_held : Function.Semiconj (held size) ShiftOp.rcl.oneBit (rclStep size) := by
  intro s
  have hb := size.bits_pos
  have hlast : size.bits - 1 < 64 := by omega
  have hbit : (s.x.shiftConcat s.cf).setWidth 64 =
      ((s.x.setWidth 64 <<< 1) ||| (ofBool s.cf).setWidth 64) &&& mask size := by
    apply eq_of_getLsbD_eq
    intro i hi
    simp only [getLsbD_setWidth, getLsbD_shiftConcat, getLsbD_and,
      getLsbD_or, getLsbD_shiftLeft, getLsbD_mask, getLsbD_ofBool, hi]
    rcases i with - | i
    · simp [Bool.and_comm]
    · simp [Bool.and_comm, (Nat.lt_succ_self i).trans hi]
  have hcarry : s.x.msb = ((s.x.setWidth 64 >>> (size.bits - 1)) &&& 1 != 0) := by
    rw [shiftRight_and_one_bne_zero, getLsbD_setWidth, msb_eq_getLsbD_last,
      decide_eq_true hlast, Bool.true_and]
  exact Prod.ext hbit hcarry

theorem rcrStep_held : Function.Semiconj (held size) ShiftOp.rcr.oneBit (rcrStep size) := by
  intro s
  have hb := size.bits_pos
  have hbit : (shiftIn s.x s.cf).setWidth 64 =
      (s.x.setWidth 64 >>> 1) ||| ((ofBool s.cf).setWidth 64 <<< (size.bits - 1)) := by
    apply eq_of_getLsbD_eq
    intro i hi
    simp only [getLsbD_setWidth, getLsbD_shiftIn, getLsbD_or,
      getLsbD_ushiftRight, getLsbD_shiftLeft, getLsbD_ofBool, hi,
      Nat.add_comm 1 i]
    rcases Nat.lt_trichotomy (i + 1) size.bits with htop | htop | htop
    · have hin : i < size.bits := by omega
      have hlow : i < size.bits - 1 := by omega
      have hword : i + 1 < 64 := by omega
      simp [htop.ne, hin, hlow, hword]
    · have hin : i < size.bits := by omega
      have hlow : i - (size.bits - 1) = 0 := by omega
      simp [htop, hin, hlow]
    · have hin : ¬i < size.bits := by omega
      have hlow : i - (size.bits - 1) ≠ 0 := by omega
      have hout : s.x.getLsbD (i + 1) = false := getLsbD_of_ge _ _ htop.le
      simp [hin, hlow, hout]
  have hcarry : s.x.getLsbD 0 = (s.x.setWidth 64 &&& 1 != 0) := by
    rw [and_one_bne_zero, getLsbD_setWidth]
    rfl
  exact Prod.ext hbit hcarry

namespace ShiftOp
variable (m : FlagMask) (a b count : U64) (f : Flags)

/-- With the flags written behind a test of the count, and CF right past it, the value decides. -/
theorem isSerial_iff (op : ShiftOp) {v : U64} {r : AluResult}
    (hexec : execAlu op.kind size m a b count f =
      ([v], if (op.steps count size != 0) = true then apply f m r else f))
    (hcf : op.steps count size ≠ 0 → r.cf = (op.serial size a b count f).cf) :
    op.IsSerial size m a b count f ↔ v = (op.serial size a b count f).x.setWidth 64 := by
  rw [IsSerial, hexec]
  constructor
  · rintro ⟨r', -, h⟩
    exact (List.cons.inj (congrArg Prod.fst h)).1
  · intro hv
    by_cases h0 : op.steps count size = 0
    · exact ⟨{ r with cf := (op.serial size a b count f).cf }, rfl, by simp [h0, hv]⟩
    · exact ⟨r, hcf h0, by simp [h0, hv]⟩

variable {n : ℕ}

theorem shl_steps (s : Shifter n) (t : ℕ) :
    shl.oneBit^[t] s = ⟨s.x <<< t, if t = 0 then s.cf else (s.x <<< (t - 1)).msb, s.fill <<< t⟩ :=
  Shifter.left_iterate (g := fun _ _ => false) (fun _ => rfl) (BitVec.shiftLeft_zero ..)
    (fun _ _ => Shifter.shiftLeft_succ ..) le_rfl

theorem shr_steps (s : Shifter n) (t : ℕ) : shr.oneBit^[t] s =
      ⟨s.x >>> t, if t = 0 then s.cf else (s.x >>> (t - 1)).getLsbD 0, s.fill >>> t⟩ :=
  Shifter.right_iterate (g := fun _ _ => false) (fun _ => rfl) (ushiftRight_zero ..)
    (fun _ _ => Shifter.ushiftRight_succ ..) le_rfl

theorem sar_steps (s : Shifter n) (t : ℕ) : sar.oneBit^[t] s =
      ⟨s.x.sshiftRight t, if t = 0 then s.cf else (s.x.sshiftRight (t - 1)).getLsbD 0,
        s.fill >>> t⟩ :=
  Shifter.right_iterate (g := fun x _ => x.msb) (fun _ => rfl) (sshiftRight_zero ..)
    (fun _ _ => sshiftRight_succ ..) le_rfl

theorem rol_steps (hn : 0 < n) (s : Shifter n) (t : ℕ) : rol.oneBit^[t] s =
      ⟨s.x.rotateLeft t, if t = 0 then s.cf else (s.x.rotateLeft (t - 1)).msb, s.fill <<< t⟩ :=
  Shifter.left_iterate (g := fun x _ => x.msb) (fun _ => rfl)
    (by simp [rotateLeft_def, ushiftRight_eq_zero]) (fun _ _ => rotateLeft_succ _ _ hn) le_rfl

theorem ror_steps (hn : 0 < n) (s : Shifter n) (t : ℕ) : ror.oneBit^[t] s =
      ⟨s.x.rotateRight t, if t = 0 then s.cf else (s.x.rotateRight (t - 1)).getLsbD 0,
        s.fill >>> t⟩ :=
  Shifter.right_iterate (g := fun x _ => x.getLsbD 0) (fun _ => rfl)
    (by simp [rotateRight_def]) (fun _ _ => rotateRight_succ _ _ hn) le_rfl

theorem shl_isSerial : shl.IsSerial size m a b count f := by
  refine (isSerial_iff size m a b count f _
    (by simp only [kind, execAlu, execShl, guarded_apply]; rfl) ?_).2 ?_
  · intro h0
    simp only [serial, shl_steps, if_neg h0, and_mask_eq]
    exact shl_carry size _ h0
  · rw [serial, shl_steps, and_mask_eq a, shl_word]
    rfl

theorem shr_isSerial : shr.IsSerial size m a b count f := by
  refine (isSerial_iff size m a b count f _
    (by simp only [kind, execAlu, execShr, guarded_apply]; rfl) ?_).2 ?_
  · intro h0
    simp only [serial, shr_steps, if_neg h0, and_mask_eq]
    exact shr_carry size _
  · rw [serial, shr_steps, and_mask_eq, shr_word]
    rfl

theorem sar_isSerial : sar.IsSerial size m a b count f := by
  refine (isSerial_iff size m a b count f _
    (by simp only [kind, execAlu, execSar, guarded_apply]; rfl) ?_).2 ?_
  · intro h0
    simp only [serial, sar_steps, if_neg h0, and_mask_eq, signExtend_word]
    exact sar_carry size _ (toNat_and_shiftMask_lt count size)
  · rw [serial, sar_steps, and_mask_eq a, signExtend_word, sar_word]
    rfl

theorem rol_isSerial : rol.IsSerial size m a b count f := by
  have hpos : 0 < size.bits := by have hb := size.bits_pos; omega
  refine (isSerial_iff size m a b count f _
    (by simp only [kind, execAlu, execRol, guarded_apply]; rfl) ?_).2 ?_
  · intro h0
    simp only [serial, rol_steps hpos, if_neg h0, and_mask_eq, rotl, setWidth_word]
    exact rol_carry size _ h0
  · rw [serial, rol_steps hpos, rotl, and_mask_eq, setWidth_word]
    rfl

theorem ror_isSerial : ror.IsSerial size m a b count f := by
  have hpos : 0 < size.bits := by have hb := size.bits_pos; omega
  refine (isSerial_iff size m a b count f _
    (by simp only [kind, execAlu, execRor, guarded_apply]; rfl) ?_).2 ?_
  · intro h0
    simp only [serial, ror_steps hpos, if_neg h0, and_mask_eq, rotr, setWidth_word]
    exact ror_carry size _ h0
  · rw [serial, ror_steps hpos, rotr, and_mask_eq, setWidth_word]
    rfl

theorem rcl_isSerial : rcl.IsSerial size m a b count f := by
  have hheld := (rclStep_held size).iterate_right (rcl.steps count size)
    ⟨a.setWidth size.bits, f.cf, b.setWidth size.bits⟩
  rw [held, held, ← and_mask_eq] at hheld
  refine (isSerial_iff size m a b count f _
    (by simp only [kind, execAlu, execRcl, guarded_apply]; rfl) ?_).2 ?_
  · intro _
    exact (congrArg Prod.snd hheld).symm
  · exact (congrArg Prod.fst hheld).symm

theorem rcr_isSerial : rcr.IsSerial size m a b count f := by
  have hheld := (rcrStep_held size).iterate_right (rcr.steps count size)
    ⟨a.setWidth size.bits, f.cf, b.setWidth size.bits⟩
  rw [held, held, ← and_mask_eq] at hheld
  refine (isSerial_iff size m a b count f _
    (by simp only [kind, execAlu, execRcr, guarded_apply]; rfl) ?_).2 ?_
  · intro _
    exact (congrArg Prod.snd hheld).symm
  · exact (congrArg Prod.fst hheld).symm

theorem shld_steps (s : Shifter n) (ht : t ≤ n) : shld.oneBit^[t] s =
      ⟨(s.x <<< t) ||| (s.fill >>> (n - t)), if t = 0 then s.cf else (s.x <<< (t - 1)).msb,
        s.fill <<< t⟩ := by
  have h0 : (s.x <<< 0) ||| (s.fill >>> (n - 0)) = s.x := by
    simp [ushiftRight_eq_zero]
  have hiter : shld.oneBit^[t] s =
      ⟨(s.x <<< t) ||| (s.fill >>> (n - t)),
        if t = 0 then s.cf else ((s.x <<< (t - 1)) ||| (s.fill >>> (n - (t - 1)))).msb,
        s.fill <<< t⟩ :=
    Shifter.left_iterate (g := fun _ y => y.msb)
      (c := fun t => (s.x <<< t) ||| (s.fill >>> (n - t))) (fun _ => rfl) h0
      (fun t ht => shld_succ s.x s.fill t ht) ht
  rw [hiter]
  by_cases hz : t = 0
  · simp only [if_pos hz]
  · have hlow : n - (t - 1) ≠ 0 ∧ ¬n ≤ t - 1 := by omega
    simp [hz, hlow]

theorem shrd_steps (s : Shifter n) (ht : t ≤ n) : shrd.oneBit^[t] s =
      ⟨(s.x >>> t) ||| (s.fill <<< (n - t)), if t = 0 then s.cf else (s.x >>> (t - 1)).getLsbD 0,
        s.fill >>> t⟩ := by
  have h0 : (s.x >>> 0) ||| (s.fill <<< (n - 0)) = s.x := by simp
  have hiter : shrd.oneBit^[t] s =
      ⟨(s.x >>> t) ||| (s.fill <<< (n - t)),
        if t = 0 then s.cf else ((s.x >>> (t - 1)) ||| (s.fill <<< (n - (t - 1)))).getLsbD 0,
        s.fill >>> t⟩ :=
    Shifter.right_iterate (g := fun _ y => y.getLsbD 0)
      (c := fun t => (s.x >>> t) ||| (s.fill <<< (n - t))) (fun _ => rfl) h0
      (fun t ht => shrd_succ s.x s.fill t ht) ht
  rw [hiter]
  by_cases hz : t = 0
  · simp only [if_pos hz]
  · have hlow : 0 < n - (t - 1) := by omega
    simp [hlow]

theorem doubleShift_exec (left : Bool) :
    let t := (count &&& shiftMask size).toNat
    let v := a &&& mask size
    let w := b &&& mask size
    ∃ r : AluResult,
      r.cf = (if left then decide (t ≤ size.bits) && (v >>> (size.bits - t)) &&& 1 != 0
        else (v >>> (t - 1)) &&& 1 != 0) ∧
      execAlu (.doubleShift left) size m a b count f =
        ([if t = 0 then v else
          ((if left then v <<< t else v >>> t) |||
            if t < size.bits then (if left then w >>> (size.bits - t) else w <<< (size.bits - t))
            else 0) &&& mask size], if (t != 0) = true then apply f m r else f) := by
  intro t v w
  by_cases h0 : t = 0
  · refine ⟨cfOf 0 _ false, rfl, ?_⟩
    simp only [execAlu, execDoubleShift]
    rw [if_pos h0, h0]
    rfl
  · refine ⟨?r, ?cf, ?exec⟩
    case exec =>
      simp only [execAlu, execDoubleShift, nonempty_apply]
      rw [if_neg h0, if_neg h0, if_pos (bne_iff_ne.2 h0)]
    case cf => rfl

theorem shld_isSerial_iff (ht : shld.steps count size ≤ size.bits) :
    shld.IsSerial size m a b count f ↔
      (shld.steps count size = size.bits → b &&& mask size = 0) := by
  obtain ⟨r, hr, hexec⟩ := doubleShift_exec size m a b count f true
  rw [isSerial_iff size m a b count f shld hexec]
  · simp only [serial, shld_steps _ ht, if_true, and_mask_eq a, and_mask_eq b]
    exact shld_word size _ _ ht
  · intro h0
    rw [serial, shld_steps _ ht, hr, if_neg h0, and_mask_eq]
    exact shl_carry size _ h0

theorem shrd_isSerial_iff (ht : shrd.steps count size ≤ size.bits) :
    shrd.IsSerial size m a b count f ↔
      (shrd.steps count size = size.bits → b &&& mask size = 0) := by
  obtain ⟨r, hr, hexec⟩ := doubleShift_exec size m a b count f false
  rw [isSerial_iff size m a b count f shrd hexec]
  · simp only [serial, shrd_steps _ ht, Bool.false_eq_true, if_false, and_mask_eq a,
      and_mask_eq b]
    exact shrd_word size _ _ ht
  · intro h0
    rw [serial, shrd_steps _ ht, hr, if_neg h0, and_mask_eq]
    exact shr_carry size _

theorem isSerial_of_single {op : ShiftOp} (hop : op.isDouble = false) :
    op.IsSerial size m a b count f := by
  cases op with
  | shl => exact shl_isSerial size m a b count f
  | shr => exact shr_isSerial size m a b count f
  | sar => exact sar_isSerial size m a b count f
  | rol => exact rol_isSerial size m a b count f
  | ror => exact ror_isSerial size m a b count f
  | rcl => exact rcl_isSerial size m a b count f
  | rcr => exact rcr_isSerial size m a b count f
  | shld | shrd => cases hop

theorem isSerial_iff_of_double {op : ShiftOp} (hop : op.isDouble = true)
    (ht : op.steps count size ≤ size.bits) : op.IsSerial size m a b count f ↔
      (op.steps count size = size.bits → b &&& mask size = 0) := by
  cases op with
  | shld => exact shld_isSerial_iff size m a b count f ht
  | shrd => exact shrd_isSerial_iff size m a b count f ht
  | shl | shr | sar | rol | ror | rcl | rcr => cases hop

/-- Shifts and rotates are their one-bit steps, but for a double shift by the operand's width with a
nonzero fill. -/
theorem shifts_serial_iff (op : ShiftOp) :
    ((op.isDouble = true → op.steps count size ≤ size.bits) → op.IsSerial size m a b count f) ↔
      (op.isDouble = true → op.steps count size = size.bits → b &&& mask size = 0) := by
  cases hop : op.isDouble
  · simp [isSerial_of_single size m a b count f hop]
  · have hiff := isSerial_iff_of_double size m a b count f hop
    constructor
    · intro h _ hn
      exact (hiff hn.le).1 (h fun _ => hn.le) hn
    · intro h hle
      exact (hiff (hle rfl)).2 (h rfl)

/-- `shld` of a 16-bit zero by 16: the code leaves zero, the steps bring in the source. -/
theorem shld_by_width_drops_source :
    let f : Flags := ⟨false, 0, 0, false, false, false, false, false⟩
    shld.steps 16 .b2 ≤ Size.bits .b2 ∧ (execAlu shld.kind .b2 .shift 0 1 16 f).1 = [0] ∧
      (shld.serial .b2 0 1 16 f).x = 1 ∧ ¬shld.IsSerial .b2 .shift 0 1 16 f := by
  refine ⟨by decide, by decide, by decide, fun h => ?_⟩
  have hzero := (shld_isSerial_iff .b2 .shift 0 1 16 _ (by decide)).1 h (by decide)
  exact absurd hzero (by decide)

end ShiftOp

end X86Jit
