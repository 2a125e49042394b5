import X86Jit.Interp.Masked

/-! `valignd` and `valignq`. The sources are put one above the other in a buffer of 128 bytes, and
lanes are cut out of it from the shift on. -/
namespace X86Jit
open BitVec Nat

def Lanes.slice16 (x : Lanes) (q : ℕ) : U128 :=
  (x (q / 16) >>> (q % 16 * 8)) ||| (x (q / 16 + 1) <<< (128 - q % 16 * 8))

def alignBuf (w : Width) (a b : Lanes) : Lanes := fun c =>
  if c < w.lanes then b c else if c < 2 * w.lanes then a (c - w.lanes) else 0

def alignShift (shift : U8) (elem : Size) (w : Width) : ℕ :=
  shift.toNat % (2 * w.bytes / elem.bytes)

/-- A lane that is not all in the buffer is a panic. -/
def valignLanes (a b : Lanes) (shift : U8) (elem : Size) (w : Width) : Option Lanes :=
  let shiftBytes := alignShift shift elem w * elem.bytes
  if ∀ c < w.lanes, shiftBytes + c * 16 + 16 ≤ 128 then
    some fun c => if c < w.lanes then (alignBuf w a b).slice16 (shiftBytes + c * 16) else 0
  else none

def VecRegs.execVAlign (v : VecRegs) (dst a b : Fin 32) (shift : U8) (elem : Size)
    (w : Width) : Option VecRegs :=
  (valignLanes (v.lanes a) (v.lanes b) shift elem w).map fun x => v.setVec dst x w

/-- Element `j` of the first source above the second, with zeros above both. -/
def concatElem (a b : Lanes) (elem : Size) (w : Width) (j : ℕ) : U64 :=
  if j < w.elems elem then getVelem b j elem
  else if j < 2 * w.elems elem then getVelem a (j - w.elems elem) elem else 0

variable {a b : Lanes} {shift : U8} {elem : Size} {w : Width}

theorem Lanes.getLsbD_slice16 (x : Lanes) (q : ℕ) {k : ℕ} (hk : k < 128) :
    (x.slice16 q).getLsbD k = x.bit (8 * q + k) := by
  rw [slice16, bit, getLsbD_or, getLsbD_shiftLeft]
  by_cases h : q % 16 * 8 + k < 128
  · have hdiv : (8 * q + k) / 128 = q / 16 := by omega
    have hmod : (8 * q + k) % 128 = q % 16 * 8 + k := by omega
    have hlow : k < 128 - q % 16 * 8 := by omega
    simp [hdiv, hmod, hlow]
  · have hdiv : (8 * q + k) / 128 = q / 16 + 1 := by omega
    have hmod : (8 * q + k) % 128 = k - (128 - q % 16 * 8) := by omega
    have hlow : ¬k < 128 - q % 16 * 8 := by omega
    simp [hdiv, hmod, hlow, hk, getLsbD_of_ge _ _ (Nat.le_of_not_lt h)]

theorem getVelem_alignBuf (j : ℕ) : getVelem (alignBuf w a b) j elem = concatElem a b elem w j := by
  have hlane (n : ℕ) : j * elem.bytes / 16 < n * w.lanes ↔ j < n * w.elems elem := by
    cases w <;> cases elem <;>
      simp only [Width.lanes, Width.elems, Width.bytes, Size.bytes] <;> omega
  have hlow := hlane 1
  rw [one_mul, one_mul] at hlow
  unfold concatElem getVelem alignBuf
  simp only [hlow, hlane 2]
  by_cases h₁ : j < w.elems elem
  · rw [if_pos h₁, if_pos h₁]
  rw [if_neg h₁, if_neg h₁]
  by_cases h₂ : j < 2 * w.elems elem
  · have hdiv : (j - w.elems elem) * elem.bytes / 16 = j * elem.bytes / 16 - w.lanes := by
      cases w <;> cases elem <;>
        simp only [Width.elems, Width.bytes, Size.bytes] at * <;> omega
    have hmod : (j - w.elems elem) * elem.bytes % 16 = j * elem.bytes % 16 := by
      cases w <;> cases elem <;>
        simp only [Width.elems, Width.bytes, Size.bytes] at * <;> omega
    rw [if_pos h₂, if_pos h₂, hdiv, hmod]
  · simp [if_neg h₂]

theorem getVelem_valignLanes {x : Lanes} (hx : valignLanes a b shift elem w = some x) {i : ℕ}
    (hi : i < w.elems elem) :
    getVelem x i elem = concatElem a b elem w (i + alignShift shift elem w) := by
  simp only [valignLanes, Option.ite_none_right_eq_some, Option.some.injEq] at hx
  obtain ⟨-, rfl⟩ := hx
  rw [← getVelem_alignBuf]
  apply eq_of_getLsbD_eq
  intro k hk
  rw [getLsbD_getVelem, getLsbD_getVelem]
  by_cases hin : k < elem.bits
  · have hlane : (i * elem.bits + k) / 128 < w.lanes := by
      cases w <;> cases elem <;>
        simp only [Width.elems, Width.bytes, Size.bits, Size.bytes] at * <;> omega
    have hplace : 8 * (alignShift shift elem w * elem.bytes + (i * elem.bits + k) / 128 * 16) +
        (i * elem.bits + k) % 128 = (i + alignShift shift elem w) * elem.bits + k := by
      cases elem <;> simp only [Size.bits, Size.bytes] <;> omega
    rw [Lanes.bit, if_pos hlane, Lanes.getLsbD_slice16 _ _ (mod_lt _ (by decide)), hplace]
  · simp [hin]

variable (v : VecRegs) (dst a b : Fin 32) (shift : U8) (elem : Size) (w : Width)

/-- No panic, and the elements of the concatenation from the shift on, which counts modulo the
elements of one register. -/
def AlignsRight : Prop :=
  ∃ v', v.execVAlign dst a b shift elem w = some v' ∧ ∀ i < w.elems elem,
    getVelem (v'.lanes dst) i elem =
      concatElem (v.lanes a) (v.lanes b) elem w (i + shift.toNat % w.elems elem)

variable {v dst a b shift elem w}

theorem AlignsRight.concat (h : AlignsRight v dst a b shift elem w) {i : ℕ}
    (hi : i < w.elems elem) :
    concatElem (v.lanes a) (v.lanes b) elem w (i + alignShift shift elem w) =
      concatElem (v.lanes a) (v.lanes b) elem w (i + shift.toNat % w.elems elem) := by
  obtain ⟨v', hv', hright⟩ := h
  obtain ⟨x, hx, rfl⟩ := Option.map_eq_some_iff.mp hv'
  rw [← hright i hi, getVelem_setVec _ _ _ _ _ hi, getVelem_valignLanes hx hi]

theorem alignShift_eq : alignShift shift elem w = shift.toNat % (2 * w.elems elem) := by
  cases w <;> cases elem <;> rfl

theorem alignsRight_of_concat (hle : alignShift shift elem w ≤ w.elems elem)
    (h : ∀ i < w.elems elem,
      concatElem (v.lanes a) (v.lanes b) elem w (i + alignShift shift elem w) =
        concatElem (v.lanes a) (v.lanes b) elem w (i + shift.toNat % w.elems elem)) :
    AlignsRight v dst a b shift elem w := by
  have hfits : ∀ c < w.lanes, alignShift shift elem w * elem.bytes + c * 16 + 16 ≤ 128 := by
    have hbytes := mul_le_mul_right elem.bytes hle
    have hwide := Width.bytes_le w
    rw [elems_mul_bytes] at hbytes
    rw [Width.bytes] at hbytes hwide
    omega
  have hx : valignLanes (v.lanes a) (v.lanes b) shift elem w = some _ := if_pos hfits
  refine ⟨_, congrArg (Option.map _) hx, fun i hi => ?_⟩
  rw [getVelem_setVec _ _ _ _ _ hi, ← h i hi]
  exact getVelem_valignLanes hx hi

/-- Registers of ones and of zeros. -/
def VecRegs.fill (p : Fin 32 → Bool) : VecRegs :=
  let full r : U128 := if p r then allOnes 128 else 0
  ⟨full, full, fun r => (full r, full r), fun _ => 0⟩

theorem getVelem_fill (p : Fin 32 → Bool) (r : Fin 32) {j : ℕ} (hj : j < w.elems elem) :
    getVelem ((VecRegs.fill p).lanes r) j elem = if p r then mask elem else 0 := by
  have hlane : j * elem.bytes / 16 < 4 := by
    cases w <;> cases elem <;> simp only [Width.elems, Width.bytes, Width.lanes, Size.bytes] at * <;>
      omega
  have hfull (c : ℕ) (hc : c < 4) :
      (VecRegs.fill p).lanes r c = if p r then allOnes 128 else 0 := by
    rcases c with - | - | - | - | c
    case succ.succ.succ.succ => omega
    all_goals rfl
  rw [getVelem, hfull _ hlane]
  split
  · apply eq_of_getLsbD_eq
    intro k hk
    have hin : k < elem.bits → j * elem.bytes % 16 * 8 + k < 128 := by
      cases elem <;> simp only [Size.bits, Size.bytes] <;> omega
    rw [getLsbD_and, getLsbD_mask, getLsbD_setWidth, getLsbD_ushiftRight, getLsbD_allOnes]
    by_cases h : k < elem.bits
    · simp [hk, hin h]
    · simp [h]
  · simp

variable (dst a b shift elem w)

/-- The result is right for all register contents exactly if the shift, taken modulo the elements of
both sources, stays below those of one; a whole register makes no difference to one source twice. -/
theorem valign_right_iff : (∀ v, AlignsRight v dst a b shift elem w) ↔
      alignShift shift elem w < w.elems elem ∨ alignShift shift elem w = w.elems elem ∧ a = b := by
  have hpos : 0 < w.elems elem := by cases w <;> cases elem <;> decide
  have hmask : mask elem ≠ 0 := by cases elem <;> decide
  have hmod : shift.toNat % w.elems elem = alignShift shift elem w % w.elems elem := by
    rw [alignShift_eq, mod_mul_left_mod]
  have hlow := mod_lt (alignShift shift elem w) hpos
  constructor
  · intro h
    by_contra hne
    have hge : w.elems elem ≤ alignShift shift elem w := Nat.le_of_not_lt fun h => hne (.inl h)
    rcases hge.eq_or_lt with heq | hlt
    · -- the first source stands where the second should
      have hfirst := (h (VecRegs.fill (· == b))).concat hpos
      rw [hmod, ← heq, mod_self, concatElem, concatElem, if_neg (by omega), if_pos (by omega),
        if_pos hpos, getVelem_fill (w := w) _ _ (by omega), getVelem_fill _ _ hpos] at hfirst
      have hab : a ≠ b := fun hab => hne (.inr ⟨heq.symm, hab⟩)
      exact hmask (by simpa [hab] using hfirst.symm)
    · -- the last element is from above both sources
      have hlast := (h (VecRegs.fill fun _ => true)).concat (sub_lt hpos one_pos)
      rw [concatElem, if_neg (by omega), if_neg (by omega), concatElem] at hlast
      split at hlast
      · rw [getVelem_fill (w := w) _ _ (by omega)] at hlast
        exact hmask hlast.symm
      · rw [if_pos (by omega), getVelem_fill (w := w) _ _ (by omega)] at hlast
        exact hmask hlast.symm
  · rintro (hlt | ⟨heq, rfl⟩) v
    · refine alignsRight_of_concat hlt.le fun i _ => ?_
      rw [hmod, mod_eq_of_lt hlt]
    · refine alignsRight_of_concat heq.le fun i hi => ?_
      rw [hmod, heq, mod_self, add_zero, concatElem, concatElem, if_neg (by omega),
        if_pos (by omega), if_pos hi, Nat.add_sub_cancel]

/-- `valignq zmm, zmm, zmm, 9` is to shift by one element. -/
theorem valignq_by_nine_panics : (VecRegs.fill fun _ => true).execVAlign 1 2 3 9 .b8 .w512 = none :=
  rfl

end X86Jit
