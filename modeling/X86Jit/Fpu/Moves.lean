import X86Jit.Fpu.Faults
import X86Jit.Fpu.RoundTrips

/-! The moves between registers. They take a register apart and put it together again, which is
not the move of its ten bytes if these are a pseudo-denormal. -/
namespace X86Jit
open FpuM BitVec Function F80

namespace F80
variable {b : BitVec 80}

theorem toBytes_fromBytes_eq_iff : toBytes (fromBytes b) = b ↔ pseudoDenormal b = false := by
  constructor
  · intro hsame
    by_contra hpseudo
    rw [Bool.not_eq_false] at hpseudo
    obtain ⟨hnormal, -⟩ := toBytes_fromBytes_pseudo hpseudo
    have hfield : (b.extractLsb' 64 15 == 0) = true := (Bool.and_eq_true_iff.mp hpseudo).1
    rw [hsame] at hnormal
    unfold normalEncoding at hnormal
    rw [eq_of_beq hfield] at hnormal
    exact Bool.false_ne_true hnormal
  · exact toBytes_fromBytes_plain

theorem toBytes_fromBytes_twice (b : BitVec 80) :
    toBytes (fromBytes (toBytes (fromBytes b))) = toBytes (fromBytes b) := by
  cases hpseudo : pseudoDenormal b with
  | false => rw [toBytes_fromBytes_plain hpseudo, toBytes_fromBytes_plain hpseudo]
  | true => rw [(toBytes_fromBytes_pseudo hpseudo).2]

end F80

namespace Fpu
variable {u : Fpu} {i : Fin 8}

def used (u : Fpu) (i : ℕ) : Bool := !u.isEmpty (u.slot i)

def st (u : Fpu) (i : ℕ) : BitVec 80 := u.fpr (u.slot i)

def room (u : Fpu) : Bool := u.isEmpty (({ u with top := (u.top - 1) &&& 7 } : Fpu).slot 0)

theorem tagFull_of_used (h : u.isEmpty i = false) : u.tagFull i = u.empty := by
  unfold isEmpty at h
  apply eq_of_getLsbD_eq
  intro j hj
  unfold tagFull
  rw [getLsbD_and, getLsbD_not, getLsbD_shiftLeft, decide_eq_true hj]
  by_cases hsame : j = i.val
  · rw [hsame, h, Bool.false_and]
  · have hoff : (1#8).getLsbD (j - i.val) = true → j < i.val := by
      rw [getLsbD_one]
      intro hzero
      simp only [Bool.and_eq_true, decide_eq_true_eq] at hzero
      omega
    cases hbit : (1#8).getLsbD (j - i.val) with
    | false => simp
    | true => simp [hoff hbit]

theorem put_used (b : BitVec 80) (h : u.isEmpty i = false) :
    u.put i b = { u with fpr := update u.fpr i b } := by
  unfold put
  rw [tagFull_of_used h]

end Fpu

namespace FpuM

theorem operand_used {u : Fpu} {i : ℕ} (h : u.used i = true) :
    operand i u = .ok (fromBytes (u.st i)) u := by
  have hfull : u.isEmpty (u.slot i) = false := Bool.not_eq_true' _ ▸ h
  change (if u.isEmpty (u.slot i) = true then _ else _ : FpuM F80) u = _
  rw [hfull]
  rfl

theorem bind_operand_used {α : Type} {f : F80 → FpuM α} {u : Fpu} {i : ℕ}
    (h : u.used i = true) : (operand i >>= f) u = f (fromBytes (u.st i)) u :=
  bind_of_ok (operand_used h)

end FpuM

variable {M : Type} [FpMem M] {H : Host} {addr : U64} {sti : U8} {s : X87State M}

def exchanged (u : Fpu) (i : ℕ) : Fpu :=
  { u with
    fpr := update
      (update u.fpr (u.slot 0) (fromBytes (u.st i)).toBytes)
      (u.slot i) (fromBytes (u.st 0)).toBytes }

theorem execX87_fxch (h0 : s.cpu.fpu.used 0 = true) (hi : s.cpu.fpu.used sti.toNat = true) :
    (execX87 H .fxch addr sti s).2 = s.setFpu (exchanged s.cpu.fpu sti.toNat) := by
  have hfull {i : ℕ} (h : s.cpu.fpu.used i = true) :
      s.cpu.fpu.isEmpty (s.cpu.fpu.slot i) = false := Bool.not_eq_true' _ ▸ h
  change s.setFpu (final ((operand 0 >>= fun a => operand sti.toNat >>= fun b =>
    modify fun u => (u.setSt 0 b).setSt sti.toNat a : FpuM Unit) s.cpu.fpu)) = _
  rw [bind_operand_used h0, bind_operand_used hi]
  change s.setFpu ((s.cpu.fpu.setSt 0 _).setSt sti.toNat _) = _
  unfold Fpu.setSt
  rw [Fpu.put_used _ (hfull h0)]
  exact congrArg s.setFpu (Fpu.put_used _ (hfull hi))

theorem exchanged_exchanged (u : Fpu) (i : ℕ) : exchanged (exchanged u i) i =
    { u with
      fpr := update
        (update u.fpr (u.slot 0) (fromBytes (u.st 0)).toBytes)
        (u.slot i) (fromBytes (u.st i)).toBytes } := by
  have hi : (exchanged u i).st i = (fromBytes (u.st 0)).toBytes := update_self ..
  have h0 : (fromBytes ((exchanged u i).st 0)).toBytes = (fromBytes (u.st i)).toBytes := by
    by_cases hsame : u.slot 0 = u.slot i
    · have hst : u.st 0 = u.st i := congrArg u.fpr hsame
      have hone : (exchanged u i).st 0 = (exchanged u i).st i :=
        congrArg (exchanged u i).fpr hsame
      rw [hone, hi, toBytes_fromBytes_twice, hst]
    · have hother : (exchanged u i).st 0 = (fromBytes (u.st i)).toBytes := by
        change update _ _ _ (u.slot 0) = _
        rw [update_of_ne hsame, update_self]
      rw [hother, toBytes_fromBytes_twice]
  have hfpr : (exchanged (exchanged u i) i).fpr = update
      (update u.fpr (u.slot 0) (fromBytes (u.st 0)).toBytes)
      (u.slot i) (fromBytes (u.st i)).toBytes := by
    change update (update (exchanged u i).fpr (u.slot 0)
      (fromBytes ((exchanged u i).st i)).toBytes) (u.slot i)
      (fromBytes ((exchanged u i).st 0)).toBytes = _
    rw [h0, hi, toBytes_fromBytes_twice]
    funext r
    -- what the first exchange wrote is written over
    by_cases hri : r = u.slot i
    · rw [hri, update_self, update_self]
    · rw [update_of_ne hri, update_of_ne hri]
      by_cases hr0 : r = u.slot 0
      · rw [hr0, update_self, update_self]
      · rw [update_of_ne hr0, update_of_ne hr0]
        unfold exchanged
        dsimp only
        rw [update_of_ne hri, update_of_ne hr0]
  exact congrArg (fun f => { u with fpr := f }) hfpr

theorem execX87_fxch_twice (h0 : s.cpu.fpu.used 0 = true) (hi : s.cpu.fpu.used sti.toNat = true) :
    (execX87 H .fxch addr sti (execX87 H .fxch addr sti s).2).2 =
      s.setFpu (exchanged (exchanged s.cpu.fpu sti.toNat) sti.toNat) := by
  rw [execX87_fxch h0 hi]
  exact execX87_fxch h0 hi

theorem fxch_twice_iff (u : Fpu) (i : ℕ) :
    (exchanged (exchanged u i) i).fpr = u.fpr ∧ (exchanged (exchanged u i) i).empty = u.empty ↔
      pseudoDenormal (u.st 0) = false ∧ pseudoDenormal (u.st i) = false := by
  rw [exchanged_exchanged, ← toBytes_fromBytes_eq_iff, ← toBytes_fromBytes_eq_iff]
  constructor
  · rintro ⟨hfpr, -⟩
    have hi : (fromBytes (u.st i)).toBytes = u.st i := by
      have hat := congrFun hfpr (u.slot i)
      dsimp only at hat
      rwa [update_self] at hat
    refine ⟨?_, hi⟩
    by_cases hsame : u.slot 0 = u.slot i
    · have hst : u.st 0 = u.st i := congrArg u.fpr hsame
      rw [hst, hi]
    · have hat := congrFun hfpr (u.slot 0)
      dsimp only at hat
      rwa [update_of_ne hsame, update_self] at hat
  · rintro ⟨h0, hi⟩
    rw [h0, hi]
    refine ⟨?_, rfl⟩
    unfold Fpu.st
    rw [update_eq_self, update_eq_self]

theorem st_fstSti (h0 : s.cpu.fpu.used 0 = true) :
    (execX87 H .fstSti addr sti s).2.cpu.fpu.st sti.toNat =
      (fromBytes (s.cpu.fpu.st 0)).toBytes := by
  change (final ((operand 0 >>= fun v => do
    modify fun u => u.setSt sti.toNat v
    popIf false : FpuM Unit) s.cpu.fpu)).st sti.toNat = _
  rw [bind_operand_used h0]
  exact update_self ..

theorem st_fldSti (hi : s.cpu.fpu.used sti.toNat = true) (hroom : s.cpu.fpu.room = true) :
    (execX87 H .fldSti addr sti s).2.cpu.fpu.st 0 =
      (fromBytes (s.cpu.fpu.st sti.toNat)).toBytes := by
  change (final ((operand sti.toNat >>= fun v => modify fun u => u.push v : FpuM Unit)
    s.cpu.fpu)).st 0 = _
  rw [bind_operand_used hi]
  change (s.cpu.fpu.pushRaw _).st 0 = _
  unfold Fpu.room at hroom
  unfold Fpu.pushRaw
  rw [if_pos hroom]
  exact update_self ..

/-- Without a stack fault, two exchanges restore the registers, `fst` copies `ST(0)` and `fld`
copies `ST(i)` exactly if what moves is no pseudo-denormal. -/
theorem moves_verbatim_iff (H : Host) (addr : U64) (sti : U8) (s : X87State M) :
    (s.cpu.fpu.used 0 = true → s.cpu.fpu.used sti.toNat = true →
      ((execX87 H .fxch addr sti (execX87 H .fxch addr sti s).2).2.cpu.fpu.fpr = s.cpu.fpu.fpr ∧
        (execX87 H .fxch addr sti (execX87 H .fxch addr sti s).2).2.cpu.fpu.empty =
          s.cpu.fpu.empty ↔ pseudoDenormal (s.cpu.fpu.st 0) = false ∧
          pseudoDenormal (s.cpu.fpu.st sti.toNat) = false)) ∧ (s.cpu.fpu.used 0 = true →
      ((execX87 H .fstSti addr sti s).2.cpu.fpu.st sti.toNat = s.cpu.fpu.st 0 ↔
        pseudoDenormal (s.cpu.fpu.st 0) = false)) ∧
    (s.cpu.fpu.used sti.toNat = true → s.cpu.fpu.room = true →
      ((execX87 H .fldSti addr sti s).2.cpu.fpu.st 0 = s.cpu.fpu.st sti.toNat ↔
        pseudoDenormal (s.cpu.fpu.st sti.toNat) = false)) := by
  refine ⟨fun h0 hi => ?_, fun h0 => ?_, fun hi hroom => ?_⟩
  · rw [execX87_fxch_twice h0 hi]
    exact fxch_twice_iff s.cpu.fpu sti.toNat
  · rw [st_fstSti h0]
    exact toBytes_fromBytes_eq_iff
  · rw [st_fldSti hi hroom]
    exact toBytes_fromBytes_eq_iff

def denormalsLoaded : X87State Memory :=
  resetState.setFpu ((Fpu.reset.pushRaw 1).pushRaw 2)

theorem moves_verbatim_at :
    ((execX87 blankHost .fxch 0 1 (execX87 blankHost .fxch 0 1 denormalsLoaded).2).2.cpu.fpu.fpr =
        denormalsLoaded.cpu.fpu.fpr ∧ (execX87 blankHost .fxch 0 1
        (execX87 blankHost .fxch 0 1 denormalsLoaded).2).2.cpu.fpu.empty =
          denormalsLoaded.cpu.fpu.empty) ∧
      (execX87 blankHost .fstSti 0 1 denormalsLoaded).2.cpu.fpu.st 1 =
        denormalsLoaded.cpu.fpu.st 0 ∧
      (execX87 blankHost .fldSti 0 1 denormalsLoaded).2.cpu.fpu.st 0 =
        denormalsLoaded.cpu.fpu.st 1 := by
  have h := moves_verbatim_iff blankHost 0 1 denormalsLoaded
  exact ⟨(h.1 (by decide) (by decide)).mpr (by decide), (h.2.1 (by decide)).mpr (by decide),
    (h.2.2 (by decide) (by decide)).mpr (by decide)⟩

def pseudoLoaded : X87State Memory :=
  resetState.setFpu (Fpu.reset.pushRaw 0x0000_8000_0000_0000_0001)

/-- Its copy has another exponent, and so has what `fld` and two exchanges with itself give. -/
theorem pseudoDenormal_moved :
    pseudoLoaded.cpu.fpu.used 0 = true ∧ pseudoLoaded.cpu.fpu.room = true ∧
      pseudoLoaded.cpu.fpu.st 0 = 0x0000_8000_0000_0000_0001 ∧
      (execX87 blankHost .fstSti 0 1 pseudoLoaded).2.cpu.fpu.st 1 = 0x0001_8000_0000_0000_0001 ∧
      (execX87 blankHost .fldSti 0 0 pseudoLoaded).2.cpu.fpu.st 0 = 0x0001_8000_0000_0000_0001 ∧
      (execX87 blankHost .fxch 0 0 (execX87 blankHost .fxch 0 0 pseudoLoaded).2).2.cpu.fpu.st 0 =
        0x0001_8000_0000_0000_0001 := by
  decide +kernel

end X86Jit
