import X86Jit.Jit.AluShift

/-! Rotates, with and without the carry. The values agree for every count; of the flags only CF,
OF and AF do. -/
namespace X86Jit.Jit
open X86Jit.Clif X86Jit.Lib BitVec

theorem rotate_eq (vm cnt : U64) (size : Size) :
    rotate vm cnt size true = X86Jit.rotl vm cnt.toNat size ∧
      rotate vm cnt size false = X86Jit.rotr vm cnt.toNat size := by
  have hl (w : ℕ) (x : BitVec w) : Clif.rotl x cnt = x.rotateLeft cnt.toNat :=
    rotateLeft_mod_eq_rotateLeft
  have hr (w : ℕ) (x : BitVec w) : Clif.rotr x cnt = x.rotateRight cnt.toNat :=
    rotateRight_mod_eq_rotateRight
  simp only [rotate, hl, hr]
  cases size
  case b8 =>
    constructor
    · change vm.rotateLeft cnt.toNat = ((vm.setWidth 64).rotateLeft cnt.toNat).setWidth 64
      simp
    · change vm.rotateRight cnt.toNat = ((vm.setWidth 64).rotateRight cnt.toNat).setWidth 64
      simp
  all_goals exact ⟨rfl, rfl⟩

theorem rotateFlagBytes_shows_iff (res : U64) (size : Size) (cf of : Bool) (x : Flag) :
    (shiftFlagBytes res size (flagByte cf) (flagByte of)).Shows x ((cfOf res cf of).get x) ↔
      (x = .pf → parity res = false) ∧ (x = .zf → res ≠ 0) ∧
        (x = .sf → (res &&& signBit size != 0) = false) := by
  have hz (v : Bool) : flagByte v = flagByte false ↔ v = false := flagByte_inj
  cases x
  case pf => simp [FlagBytes.Shows, shiftFlagBytes, cfOf, AluResult.get, pfSrc, parity, ireduce]
  case af =>
    simp only [FlagBytes.Shows, shiftFlagBytes, cfOf, AluResult.get]
    simp
  case zf =>
    simp only [FlagBytes.Shows, shiftFlagBytes, cfOf, AluResult.get, icmpEq, hz]
    simp
  case sf =>
    simp only [FlagBytes.Shows, shiftFlagBytes, cfOf, AluResult.get, emitMsb_eq, hz]
    simp
  all_goals simp [FlagBytes.Shows, shiftFlagBytes, cfOf, AluResult.get]

def RotateMask (m : FlagMask) : Prop := m.has .pf = false ∧ m.has .zf = false ∧ m.has .sf = false

theorem rotate_shows_of_mask {m : FlagMask} (hm : RotateMask m) (res : U64) (size : Size)
    (cf of : Bool) (x : Flag) (hx : m.has x = true) :
    (shiftFlagBytes res size (flagByte cf) (flagByte of)).Shows x ((cfOf res cf of).get x) := by
  rw [rotateFlagBytes_shows_iff]
  refine ⟨?_, ?_, ?_⟩
  · rintro rfl
    simp [hm.1] at hx
  · rintro rfl
    simp [hm.2.1] at hx
  · rintro rfl
    simp [hm.2.2] at hx

theorem rotateMask_of_shows {m : FlagMask} {size : Size} {res : U64} {cf of cf' of' : Bool}
    (hs : res &&& signBit size ≠ 0) (h0 : ∀ x, m.has x = true →
      (shiftFlagBytes 0 size (flagByte cf) (flagByte of)).Shows x ((cfOf 0 cf of).get x))
    (h1 : ∀ x, m.has x = true →
      (shiftFlagBytes res size (flagByte cf') (flagByte of')).Shows x ((cfOf res cf' of').get x)) :
    RotateMask m := by
  refine ⟨?_, ?_, ?_⟩
  · by_contra hx
    have h := (rotateFlagBytes_shows_iff _ _ _ _ _).mp (h0 .pf (by simpa using hx))
    exact absurd (h.1 rfl) (by decide)
  · by_contra hx
    have h := (rotateFlagBytes_shows_iff _ _ _ _ _).mp (h0 .zf (by simpa using hx))
    exact h.2.1 rfl rfl
  · by_contra hx
    have h := (rotateFlagBytes_shows_iff _ _ _ _ _).mp (h1 .sf (by simpa using hx))
    exact hs (by simpa using h.2.2 rfl)

def FlagBytes.ofFlags (f : Flags) : FlagBytes :=
  { cf := flagByte f.cf, pfSrc := f.pfSrc, afSrc := f.afSrc, zf := flagByte f.zf,
    sf := flagByte f.sf, of := flagByte f.of }

theorem FlagBytes.ofFlags_represents (f : Flags) : (FlagBytes.ofFlags f).Represents f := by
  intro x
  cases x <;> rfl

section Carry
variable (size : Size)

def carryWord (s : U64 × Bool) : U64 × U64 := (s.1, (ofBool s.2).setWidth 64)

theorem and_one_eq_carry (v : U64) : v &&& 1 = (ofBool (v &&& 1 != 0)).setWidth 64 := by
  rw [and_one_bne_zero]
  exact and_one_eq_setWidth_ofBool_getLsbD

def rcStep (left : Bool) : U64 × Bool → U64 × Bool := if left then rclStep size else rcrStep size

theorem rcxBody_carryWord (left : Bool) (s : U64 × Bool) :
    rcxBody size left (carryWord s).1 (carryWord s).2 = carryWord (rcStep size left s) := by
  cases left
  · exact Prod.ext rfl (and_one_eq_carry _)
  · refine Prod.ext ?_ (and_one_eq_carry _)
    simp [rcxBody, carryWord, rcStep, rclStep]

/-- The emitted loop makes the passes left to it. The induction is on the fuel, which
only has to cover them. -/
theorem rcxLoop_eq (left : Bool) (n : U64) (fuel : ℕ) :
    ∀ (s : U64 × Bool) (i : U64), n.toNat - i.toNat ≤ fuel →
      rcxLoop size left n fuel (carryWord s).1 (carryWord s).2 i =
        carryWord ((rcStep size left)^[n.toNat - i.toNat] s) := by
  induction fuel with
  | zero =>
    intro s i hi
    rw [Nat.le_zero.mp hi]
    rfl
  | succ fuel ih =>
    intro s i hi
    unfold rcxLoop
    by_cases hlt : i.toNat < n.toNat
    · have hn := n.isLt
      have hi1 : (i + 1).toNat = i.toNat + 1 := by
        change (i.toNat + 1) % 2 ^ 64 = _
        omega
      have hstep : n.toNat - i.toNat = (n.toNat - (i + 1).toNat) + 1 := by omega
      rw [if_pos (BitVec.ult_iff_toNat_lt.mpr hlt), rcxBody_carryWord, hstep,
        Function.iterate_succ_apply]
      exact ih _ _ (by omega)
    · have hz : n.toNat - i.toNat = 0 := by omega
      rw [if_neg (mt BitVec.ult_iff_toNat_lt.mp hlt), hz]
      rfl

end Carry

theorem ireduce_and_one (v : U64) : ireduce 8 (v &&& 1) = flagByte (v &&& 1 != 0) := by
  have h := ireduce_bit v 0
  rw [ushiftRight_zero] at h
  rw [h, and_one_bne_zero]

section Rotates
variable (size : Size) (m : FlagMask) (count : U64)

theorem rotate_family_iff (P : Flags → FlagBytes → U64 → Prop) (nz : Prop)
    (res : Flags → U64 → U64) (cf of : Flags → U64 → Bool)
    (hP : ∀ f fb a, fb.Represents f → (P f fb a ↔ (nz → ∀ x, m.has x = true →
      (shiftFlagBytes (res f a) size (flagByte (cf f a)) (flagByte (of f a))).Shows x
        ((cfOf (res f a) (cf f a) (of f a)).get x))))
    (f₀ f₁ : Flags) (a₀ a₁ : U64) (h₀ : res f₀ a₀ = 0) (h₁ : res f₁ a₁ &&& signBit size ≠ 0) :
    (∀ a f fb, fb.Represents f → P f fb a) ↔ (nz → RotateMask m) := by
  constructor
  · intro hall hnz
    have hz := (hP f₀ _ a₀ (FlagBytes.ofFlags_represents f₀)).mp
      (hall a₀ f₀ _ (FlagBytes.ofFlags_represents f₀)) hnz
    have hs := (hP f₁ _ a₁ (FlagBytes.ofFlags_represents f₁)).mp
      (hall a₁ f₁ _ (FlagBytes.ofFlags_represents f₁)) hnz
    rw [h₀] at hz
    exact rotateMask_of_shows h₁ hz hs
  · intro hm a f fb h
    refine (hP f fb a h).mpr ?_
    intro hnz x hx
    exact rotate_shows_of_mask (hm hnz) _ _ _ _ x hx

variable {fb : FlagBytes} {f : Flags}

theorem rol_agree_iff (h : fb.Represents f) (a : U64) :
    let res := X86Jit.rotl (a &&& mask size) (count &&& shiftMask size).toNat size
    let cf := res &&& 1 != 0
    let of := (res &&& signBit size != 0) ^^ cf
    Agree (execRol f a count size m) (emitShift fb .rol a count size m) ↔
      (count &&& shiftMask size ≠ 0 → ∀ x, m.has x = true →
        (shiftFlagBytes res size (flagByte cf) (flagByte of)).Shows x ((cfOf res cf of).get x)) := by
  simp only [execRol, emitShift, emitMask_eq, emitShiftCount_eq, shiftValue,
    (rotate_eq _ _ size).1, shiftCfOf, ireduce_and_one, emitMsb_eq, flagByte_xor]
  exact commit_agree_iff h m

theorem ror_agree_iff (h : fb.Represents f) (a : U64) :
    let res := X86Jit.rotr (a &&& mask size) (count &&& shiftMask size).toNat size
    let cf := res &&& signBit size != 0
    let of := cf ^^ ((res >>> (size.bits - 2)) &&& 1 != 0)
    Agree (execRor f a count size m) (emitShift fb .ror a count size m) ↔
      (count &&& shiftMask size ≠ 0 → ∀ x, m.has x = true →
        (shiftFlagBytes res size (flagByte cf) (flagByte of)).Shows x ((cfOf res cf of).get x)) := by
  simp only [execRor, emitShift, emitMask_eq, emitShiftCount_eq, shiftValue,
    (rotate_eq _ _ size).2, shiftCfOf, ireduce_and_one, emitMsb_eq, flagByte_xor]
  exact commit_agree_iff h m

def rcxCount : U64 :=
  (count &&& (if size.bytes = 8 then 0x3f else 0x1f)) % BitVec.ofNat 64 (size.bits + 1)

theorem toNat_rcxCount : (rcxCount size count).toNat = rcCount count size := by
  have hb := (Size.bits_pos size).2
  have hs : (BitVec.ofNat 64 (size.bits + 1)).toNat = size.bits + 1 := by
    rw [toNat_ofNat]
    omega
  rw [rcxCount, toNat_umod, hs]
  rfl

theorem rcCount_le : rcCount count size ≤ 64 := by
  have hb := (Size.bits_pos size).2
  have h : rcCount count size < size.bits + 1 := Nat.mod_lt _ (by omega)
  omega

theorem emitRcx_loop (h : fb.Represents f) (v : U64) (left : Bool) :
    rcxLoop size left (rcxCount size count) 64 v (loadCarry fb) 0 =
      carryWord ((rcStep size left)^[rcCount count size] (v, f.cf)) := by
  have hle := rcCount_le size count
  have h0 : (0 : U64).toNat = 0 := rfl
  have hl := rcxLoop_eq size left (rcxCount size count) 64 (v, f.cf) 0
    (by rw [toNat_rcxCount]; omega)
  rw [toNat_rcxCount, h0] at hl
  rw [h.loadCarry_eq]
  exact hl

def rcOf (left : Bool) (s : U64 × Bool) : Bool :=
  if left then s.2 ^^ (s.1 &&& signBit size != 0)
  else (s.1 &&& signBit size != 0) ^^ ((s.1 >>> (size.bits - 2)) &&& 1 != 0)

theorem rcx_agree_iff (h : fb.Represents f) (a : U64) (left : Bool) :
    let s := (rcStep size left)^[rcCount count size] (a &&& mask size, f.cf)
    Agree (if left then execRcl f a count size m else execRcr f a count size m)
        (emitRcx fb a count size m left) ↔
      (rcxCount size count ≠ 0 → ∀ x, m.has x = true →
        (shiftFlagBytes s.1 size (flagByte s.2) (flagByte (rcOf size left s))).Shows x
          ((cfOf s.1 s.2 (rcOf size left s)).get x)) := by
  have hloop := emitRcx_loop size count h (a &&& mask size) left
  have hcnt := toNat_rcxCount size count
  have hcf (c : Bool) : ireduce 8 ((ofBool c).setWidth 64 : U64) = flagByte c := by
    cases c <;> decide
  intro s
  have hex : (if left then execRcl f a count size m else execRcr f a count size m) =
      if !m.isNone && (rcxCount size count).toNat != 0 then
        (s.1, apply f m (cfOf s.1 s.2 (rcOf size left s)))
      else (s.1, f) := by
    rw [hcnt]
    cases left <;> rfl
  have hem : emitRcx fb a count size m left =
      if m.isNone then (s.1, fb) else if icmpEq (rcxCount size count) 0 != 0 then (s.1, fb)
      else (s.1, storeFlags fb m
        (shiftFlagBytes s.1 size (flagByte s.2) (flagByte (rcOf size left s)))) := by
    change rcxLoop size left (rcxCount size count) 64 (a &&& mask size) (loadCarry fb) 0 =
      carryWord s at hloop
    rw [rcxCount] at hloop ⊢
    simp only [emitRcx, emitMask_eq, hloop, carryWord, hcf, emitMsb_eq, ireduce_and_one]
    cases left
    · simp only [rcOf, Bool.false_eq_true, if_false, flagByte_xor]
    · simp only [rcOf, if_true, flagByte_xor, Bool.xor_comm]
  rw [hex, hem]
  exact commit_agree_iff h m

def noFlags (carry : Bool) : Flags :=
  { cf := carry, pfSrc := 0, afSrc := 0, zf := false, sf := false, of := false, df := false,
    ifl := false }

theorem mask_and_signBit : mask size &&& signBit size ≠ 0 := by
  cases size <;> decide

theorem zero_and_mask : (0 : U64) &&& mask size = 0 := BitVec.zero_and

theorem ones_and_mask : allOnes 64 &&& mask size = mask size := allOnes_and

theorem rcStep_fixed (left : Bool) : rcStep size left (0, false) = (0, false) ∧
      rcStep size left (mask size, true) = (mask size, true) := by
  cases size <;> cases left <;> decide

theorem rotl_zero_ones (cnt : ℕ) :
    X86Jit.rotl 0 cnt size = 0 ∧ X86Jit.rotl (mask size) cnt size = mask size := by
  have hm : (mask size).setWidth size.bits = allOnes size.bits := by
    cases size <;> decide
  constructor
  · simp [X86Jit.rotl, rotateLeft_def]
  · rw [X86Jit.rotl, hm, allOnes_rotateLeft]
    cases size <;> decide

theorem rotr_zero_ones (cnt : ℕ) :
    X86Jit.rotr 0 cnt size = 0 ∧ X86Jit.rotr (mask size) cnt size = mask size := by
  have hm : (mask size).setWidth size.bits = allOnes size.bits := by
    cases size <;> decide
  constructor
  · simp [X86Jit.rotr, rotateRight_def]
  · rw [X86Jit.rotr, hm, allOnes_rotateRight]
    cases size <;> decide

/-- The rotates agree on every operand exactly when the count is zero or the mask keeps
to the flags a rotate writes. -/
theorem rol_family_iff :
    (∀ a f fb, fb.Represents f → Agree (execRol f a count size m) (emitShift fb .rol a count size m))
      ↔ (count &&& shiftMask size ≠ 0 → RotateMask m) := by
  refine rotate_family_iff size m _ _ _ _ _ (fun f fb a h => rol_agree_iff size m count h a)
    (noFlags false) (noFlags true) 0 (allOnes 64) ?_ ?_
  · rw [zero_and_mask]
    exact (rotl_zero_ones size _).1
  · rw [ones_and_mask, (rotl_zero_ones size _).2]
    exact mask_and_signBit size

theorem ror_family_iff :
    (∀ a f fb, fb.Represents f → Agree (execRor f a count size m) (emitShift fb .ror a count size m))
      ↔ (count &&& shiftMask size ≠ 0 → RotateMask m) := by
  refine rotate_family_iff size m _ _ _ _ _ (fun f fb a h => ror_agree_iff size m count h a)
    (noFlags false) (noFlags true) 0 (allOnes 64) ?_ ?_
  · rw [zero_and_mask]
    exact (rotr_zero_ones size _).1
  · rw [ones_and_mask, (rotr_zero_ones size _).2]
    exact mask_and_signBit size

theorem rcx_family_iff (left : Bool) :
    (∀ a f fb, fb.Represents f →
        Agree (if left then execRcl f a count size m else execRcr f a count size m)
          (emitRcx fb a count size m left))
      ↔ (rcCount count size ≠ 0 → RotateMask m) := by
  have hcnt : rcxCount size count ≠ 0 ↔ rcCount count size ≠ 0 := by
    rw [← toNat_rcxCount, ne_eq, toNat_eq]
    rfl
  rw [← hcnt]
  refine rotate_family_iff size m _ _
    (fun f a => ((rcStep size left)^[rcCount count size] (a &&& mask size, f.cf)).1)
    (fun f a => ((rcStep size left)^[rcCount count size] (a &&& mask size, f.cf)).2) _
    (fun f fb a h => rcx_agree_iff size m count h a left)
    (noFlags false) (noFlags true) 0 (allOnes 64) ?_ ?_
  · simp only [zero_and_mask]
    exact congrArg Prod.fst (Function.iterate_fixed (rcStep_fixed size left).1 _)
  · simp only [ones_and_mask]
    have hfix := Function.iterate_fixed (rcStep_fixed size left).2 (rcCount count size)
    have hfst : ((rcStep size left)^[rcCount count size] (mask size, (noFlags true).cf)).1 =
        mask size := congrArg Prod.fst hfix
    rw [hfst]
    exact mask_and_signBit size

end Rotates

end X86Jit.Jit
