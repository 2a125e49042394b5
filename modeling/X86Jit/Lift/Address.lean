import X86Jit.Interp.Arithmetic
import X86Jit.Lift.Values

/-! The address of a memory operand: what the architecture says it is, what the lifted code
computes, and when the two agree. -/
namespace X86Jit.Lift
open X86Jit.Lib BitVec Nat Size

variable {V : Type} (g : Guest V)

/-- The decoder has already folded the instruction pointer into the displacement. -/
def Register.number : Register → ℕ
  | .gpr i size => (g.gpr i).toNat % 2 ^ size.bits
  | _ => 0

def MemoryOperand.offset (m : MemoryOperand) (addrSize : Size) : ℕ :=
  (m.base.number g + m.scale * m.index.number g + m.disp.toNat) % 2 ^ addrSize.bits

/-- As it stands, or as the start of a bit string that a register indexes. -/
inductive Access
  | operand
  | bitString (i : Fin 16) (size : Size)
  deriving DecidableEq, Repr

def Access.byteOffset : Access → ℤ
  | .operand => 0
  | .bitString i size => ((g.gpr i).setWidth size.bits).toInt / 8

/-- The selectors of real mode; FS and GS are no part of the modelled state. -/
def selector (fs gs : U16) : Segment → U16
  | .es => g.es
  | .cs => g.cs
  | .ss => g.ss
  | .ds => g.ds
  | .fs => fs
  | .gs => gs

def flatBase : Option Segment → ℕ
  | some .fs => g.fsBase.toNat
  | some .gs => g.gsBase.toNat
  | _ => 0

def linearAddress (fs gs : U16) (mode : CpuMode) (addrSize : Size)
    (m : MemoryOperand) (access : Access) : ℤ :=
  let offset := (m.offset g addrSize + access.byteOffset g) % 2 ^ addrSize.bits
  match mode with
  | .long64 => (offset + flatBase g m.segPrefix) % 2 ^ 64
  | .compat32 => (offset + flatBase g m.segPrefix) % 2 ^ 32
  | .real16 => 16 * (selector g fs gs m.segment).toNat + offset % 2 ^ 16

/-- Registers of the address size, a scale that can be encoded, and an absolute displacement no
wider than an address. -/
structure MemoryOperand.Faithful (m : MemoryOperand) (mode : CpuMode) (addrSize : Size) : Prop where
  width : mode = .long64 ∧ (addrSize = .b4 ∨ addrSize = .b8) ∨
    mode ≠ .long64 ∧ (addrSize = .b2 ∨ addrSize = .b4)
  base : m.base = .none ∨ (∃ i, m.base = .gpr i addrSize) ∨
    m.base = .rip ∧ m.index = .none ∧ addrSize = .b8 ∨
    m.base = .eip ∧ m.index = .none ∧ addrSize = .b4
  index : m.index = .none ∨ ∃ i, m.index = .gpr i addrSize
  scale : m.scale ∈ [1, 2, 4, 8]
  absolute : m.base = .none → m.index = .none → m.disp.toNat < 2 ^ addrSize.bits

/-- No register wider than four bytes can be named outside long mode. -/
def Access.Of (insn : Insn) (mode : CpuMode) : Access → Prop
  | .operand => True
  | .bitString i size => insn.op 1 = .register (.gpr i size) ∧ size ≠ .b1 ∧
      (size = .b8 → mode = .long64)

def accessAddr {X : Type} (insn : Insn) : Access → LiftM X Val
  | .operand => effectiveAddress insn
  | .bitString _ _ => do
    let bit ← lowerRead insn 1
    let (ea, _) ← btAccess insn bit .b1
    return ea

variable {mode : CpuMode} {addrSize : Size} {g : Guest V} {size : Size} {a : Val}

variable {X : Type} {sem : OtherOps X V} {blockEnd : U64} {t : Temp} {s : WalkState V}
  {Q : Stop (WalkState V) → Prop} {insn : Insn}

def Register.raw (g : Guest V) : Register → U64
  | .gpr i _ => g.gpr i
  | _ => 0

theorem TempsFrom.raw {s' : WalkState V} (h : TempsFrom t s s') (r : Register) :
    r.raw s'.guest = r.raw s.guest := by
  rw [h.rest]
  rfl

theorem readReg_fromGprIndex (g : Guest V) (i : Fin 16) :
    g.readReg (Reg.fromGprIndex i) = g.gpr i := by
  unfold Guest.readReg
  rw [Reg.gprIndex_fromGprIndex]

theorem readGpr_ensures (i : Fin 16) :
    Emit.Ensures (exec sem blockEnd) (readReg (Reg.fromGprIndex i)) t s
      (Yields t s (s.guest.gpr i)) Q := by
  rw [← readReg_fromGprIndex]
  exact readReg_ensures _

theorem addrBase_ensures (h : insn.mem.base = .none ∨ ∃ i size, insn.mem.base = .gpr i size) :
    Emit.Ensures (exec sem blockEnd) (addrBase insn) t s
      (YieldsSum t s (insn.mem.base.raw s.guest)) Q := by
  unfold addrBase
  rcases h with h | ⟨i, size, h⟩
  · rw [if_pos h]
    refine .pure ⟨le_rfl, TempsFrom.refl t s, ?_, ?_⟩
    · intro a ha
      cases ha
    · rw [h]
      rfl
  · have hne : insn.mem.base ≠ .none := by rw [h]; nofun
    rw [h]
    refine .bind (.pure ?_)
    refine (readGpr_ensures i).seq ?_
    intro v t₁ s₁ hv
    refine .pure ⟨hv.next, hv.frame, ?_, hv.value⟩
    intro a ha
    cases ha
    exact hv.below

def scaleShift (scale : ℕ) : ℕ := ((BitVec.ofNat 64 scale).ctz &&& 63).toNat

theorem two_pow_scaleShift {scale : ℕ} (h : scale ∈ [1, 2, 4, 8]) :
    2 ^ scaleShift scale = scale := by
  revert h
  have hall : ∀ n ∈ [1, 2, 4, 8], 2 ^ scaleShift n = n := by decide +kernel
  exact hall scale

theorem scaleIndex_ensures {idx : Val} (hidx : Val.Below t idx)
    (hscale : insn.mem.scale ∈ [1, 2, 4, 8]) :
    Emit.Ensures (exec sem blockEnd) (scaleIndex insn idx) t s
      (Yields t s (s.guest.readVal idx <<< scaleShift insn.mem.scale)) Q := by
  unfold scaleIndex
  split
  case isTrue h =>
    have hone : insn.mem.scale = 1 := by
      simp only [List.mem_cons, List.not_mem_nil, or_false] at hscale
      omega
    refine .pure ⟨le_rfl, TempsFrom.refl t s, hidx, ?_⟩
    have hshift : scaleShift 1 = 0 := by decide +kernel
    rw [hone, hshift, BitVec.shiftLeft_zero]
  case isFalse h => exact aluNone_ensures (execAlu_shl_b8 _ _ _ _)

theorem addrIndex_ensures {acc : Option Val} (hacc : ∀ a, acc = some a → Val.Below t a)
    (h : insn.mem.index = .none ∨ ∃ i size, insn.mem.index = .gpr i size)
    (hscale : insn.mem.scale ∈ [1, 2, 4, 8]) :
    Emit.Ensures (exec sem blockEnd) (addrIndex insn acc) t s (YieldsSum t s (accValue s.guest acc +
        insn.mem.index.raw s.guest <<< scaleShift insn.mem.scale)) Q := by
  unfold addrIndex
  rcases h with h | ⟨i, size, h⟩
  · rw [if_pos h]
    refine .pure ⟨le_rfl, TempsFrom.refl t s, hacc, ?_⟩
    rw [h]
    change _ = _ + (0 : U64) <<< _
    rw [ofNat_eq_ofNat, BitVec.zero_shiftLeft, BitVec.add_zero]
  · have hne : insn.mem.index ≠ .none := by rw [h]; nofun
    rw [h]
    refine .bind (.pure ?_)
    refine (readGpr_ensures i).seq ?_
    intro idx t₁ s₁ hidx
    refine (scaleIndex_ensures hidx.below hscale).seq ?_
    intro scaled t₂ s₂ hscaled
    rw [hidx.value] at hscaled
    have hall := hidx.then hscaled
    cases acc with
    | none =>
      refine .pure ⟨hall.next, hall.frame, ?_, ?_⟩
      · intro a ha
        cases ha
        exact hall.below
      · exact hall.value.trans (BitVec.zero_add _).symm
    | some a =>
      refine addAddr_ensures.seq ?_
      intro v t₃ s₃ hv
      have hv' := hall.then hv
      refine .pure ⟨hv'.next, hv'.frame, ?_, ?_⟩
      · intro a' ha'
        cases ha'
        exact hv'.below
      · change s₃.guest.readVal v = s.guest.readVal a + _
        rw [hv'.value, hall.value, hall.frame.readVal (hacc a rfl)]
        rfl

theorem addrDisp_ensures {acc : Option Val} (hacc : ∀ a, acc = some a → Val.Below t a) :
    Emit.Ensures (exec sem blockEnd) (addrDisp insn acc) t s
      (Yields t s (accValue s.guest acc + insn.mem.disp)) Q := by
  cases acc with
  | none => exact .pure ⟨le_rfl, TempsFrom.refl t s, trivial, (BitVec.zero_add _).symm⟩
  | some a =>
    by_cases h : insn.mem.disp = 0
    · simp only [addrDisp, if_pos h]
      refine .pure ⟨le_rfl, TempsFrom.refl t s, hacc a rfl, ?_⟩
      rw [h]
      exact (BitVec.add_zero _).symm
    · simp only [addrDisp, if_neg h]
      exact addAddr_ensures

def truncated (insn : Insn) (v : U64) : U64 :=
  match addrMask insn with
  | none => v
  | some m => v &&& m

theorem truncateAddr_ensures (ha : Val.Below t a) :
    Emit.Ensures (exec sem blockEnd) (truncateAddr insn a) t s
      (Yields t s (truncated insn (s.guest.readVal a))) Q := by
  unfold truncateAddr truncated
  cases addrMask insn with
  | none => exact .pure ⟨le_rfl, TempsFrom.refl t s, ha, rfl⟩
  | some m =>
    cases a with
    | imm v => exact .pure ⟨le_rfl, TempsFrom.refl t s, trivial, rfl⟩
    | temp u => exact aluNone_ensures (execAlu_and_b8 _ _ _ _)

def rawOffset (g : Guest V) (insn : Insn) : U64 :=
  insn.mem.base.raw g + insn.mem.index.raw g <<< scaleShift insn.mem.scale + insn.mem.disp

theorem registers_ensures (hbase : insn.mem.base = .none ∨ ∃ i size, insn.mem.base = .gpr i size)
    (hindex : insn.mem.index = .none ∨ ∃ i size, insn.mem.index = .gpr i size)
    (hscale : insn.mem.scale ∈ [1, 2, 4, 8]) :
    Emit.Ensures (exec sem blockEnd) (effectiveAddressNoSegment insn) t s
      (Yields t s (truncated insn (rawOffset s.guest insn))) Q := by
  have hrip : insn.mem.base ≠ .rip := by
    rcases hbase with h | ⟨i, size, h⟩ <;> rw [h] <;> nofun
  have heip : insn.mem.base ≠ .eip := by
    rcases hbase with h | ⟨i, size, h⟩ <;> rw [h] <;> nofun
  unfold effectiveAddressNoSegment
  rw [if_neg hrip, if_neg heip]
  refine (addrBase_ensures hbase).seq ?_
  intro acc t₁ s₁ h₁
  refine (addrIndex_ensures h₁.below hindex hscale).seq ?_
  intro acc' t₂ s₂ h₂
  refine (addrDisp_ensures h₂.below).seq ?_
  intro a t₃ s₃ h₃
  refine (truncateAddr_ensures h₃.below).imp ?_ fun _ => id
  intro a' t₄ s₄ h₄
  refine ⟨?_, ?_, h₄.below, ?_⟩
  · exact ((h₁.next.trans h₂.next).trans h₃.next).trans h₄.next
  · have h₁₂ := h₁.frame.trans h₂.frame h₁.next
    have h₁₃ := h₁₂.trans h₃.frame (h₁.next.trans h₂.next)
    exact h₁₃.trans h₄.frame ((h₁.next.trans h₂.next).trans h₃.next)
  · rw [h₄.value, h₃.value, h₂.value, h₁.value, h₁.frame.raw]
    rfl

theorem Register.number_modEq {r : Register} (h : ∀ i size', r = .gpr i size' → size' = size) :
    r.number g ≡ (r.raw g).toNat [MOD 2 ^ size.bits] := by
  cases r with
  | gpr i size' =>
    obtain rfl := h i size' rfl
    exact mod_modEq _ _
  | _ => rfl

theorem MemoryOperand.Faithful.baseSize {m : MemoryOperand}
    (h : m.Faithful mode addrSize) (i : Fin 16) (size : Size) (hi : m.base = .gpr i size) :
    size = addrSize := by
  rcases h.base with h | ⟨j, h⟩ | ⟨h, -⟩ | ⟨h, -⟩ <;> rw [h] at hi <;> cases hi
  rfl

theorem MemoryOperand.Faithful.indexSize {m : MemoryOperand}
    (h : m.Faithful mode addrSize) (i : Fin 16) (size : Size) (hi : m.index = .gpr i size) :
    size = addrSize := by
  rcases h.index with h | ⟨j, h⟩ <;> rw [h] at hi <;> cases hi
  rfl

theorem two_pow_bits_dvd (size : Size) : 2 ^ size.bits ∣ 2 ^ 64 := by
  apply pow_dvd_pow
  cases size <;> decide

theorem rawOffset_modEq (h : insn.mem.Faithful mode addrSize) :
    (rawOffset g insn).toNat ≡ insn.mem.offset g addrSize [MOD 2 ^ addrSize.bits] := by
  have hdvd := two_pow_bits_dvd addrSize
  have hshl : (insn.mem.index.raw g <<< scaleShift insn.mem.scale).toNat ≡
      insn.mem.scale * (insn.mem.index.raw g).toNat [MOD 2 ^ 64] := by
    rw [toNat_shiftLeft, Nat.shiftLeft_eq, two_pow_scaleShift h.scale, mul_comm]
    exact mod_modEq _ _
  have hraw : (rawOffset g insn).toNat ≡ (insn.mem.base.raw g).toNat +
      insn.mem.scale * (insn.mem.index.raw g).toNat + insn.mem.disp.toNat [MOD 2 ^ 64] := by
    refine (mod_modEq _ _).trans (Nat.ModEq.add_right _ ?_)
    exact (mod_modEq _ _).trans (hshl.add_left _)
  have hnum : insn.mem.base.number g + insn.mem.scale * insn.mem.index.number g +
      insn.mem.disp.toNat ≡ (insn.mem.base.raw g).toNat +
      insn.mem.scale * (insn.mem.index.raw g).toNat + insn.mem.disp.toNat
      [MOD 2 ^ addrSize.bits] := by
    apply Nat.ModEq.add_right
    apply Nat.ModEq.add (Register.number_modEq h.baseSize)
    exact (Register.number_modEq h.indexSize).mul_left _
  exact (hraw.of_dvd hdvd).trans (hnum.symm.trans (mod_modEq _ _).symm)

theorem toNat_and_mask (v : U64) (n : ℕ) (m : U64) (hm : m.toNat = 2 ^ n - 1) :
    (v &&& m).toNat = v.toNat % 2 ^ n := by
  rw [toNat_and, hm, and_two_pow_sub_one_eq_mod]

theorem truncated_toNat (h : insn.mem.Faithful mode addrSize)
    (hbase : insn.mem.base = .none ∨ ∃ i, insn.mem.base = .gpr i addrSize) :
    (truncated insn (rawOffset g insn)).toNat = insn.mem.offset g addrSize := by
  have hmod := rawOffset_modEq (g := g) h
  have hlt : insn.mem.offset g addrSize < 2 ^ addrSize.bits := mod_lt _ (Nat.two_pow_pos _)
  have hoff : (rawOffset g insn).toNat % 2 ^ addrSize.bits = insn.mem.offset g addrSize :=
    hmod.trans (mod_eq_of_lt hlt)
  -- with a register in the address the mask is that of its size
  have hmask (hsize : insn.mem.base.size = addrSize.bytes ∨ insn.mem.index.size = addrSize.bytes)
      (hb : insn.mem.base.size = 0 ∨ insn.mem.base.size = addrSize.bytes)
      (hi : insn.mem.index.size = 0 ∨ insn.mem.index.size = addrSize.bytes) :
      (truncated insn (rawOffset g insn)).toNat = insn.mem.offset g addrSize := by
    rw [← hoff]
    unfold truncated addrMask
    rcases hb with hb | hb <;> rcases hi with hi | hi <;> rw [hb, hi] at hsize ⊢ <;>
      cases addrSize <;> first
        | exact absurd hsize (by decide)
        | exact toNat_and_mask _ _ _ (by decide)
        | exact (mod_eq_of_lt (rawOffset g insn).isLt).symm
        | exact absurd h.width (by cases mode <;> decide)
  rcases hbase with hb | ⟨i, hb⟩
  · rcases h.index with hi | ⟨j, hi⟩
    · have htrunc : truncated insn (rawOffset g insn) = rawOffset g insn := by
        unfold truncated addrMask
        rw [hb, hi]
        rfl
      have hdisp : rawOffset g insn = insn.mem.disp := by
        unfold rawOffset
        rw [hb, hi]
        change (0 : U64) + (0 : U64) <<< _ + _ = _
        rw [ofNat_eq_ofNat, BitVec.zero_shiftLeft, BitVec.add_zero, BitVec.zero_add]
      rw [htrunc, ← hoff, hdisp]
      exact (mod_eq_of_lt (h.absolute hb hi)).symm
    · rw [hb, hi] at hmask
      exact hmask (Or.inr rfl) (Or.inl rfl) (Or.inr rfl)
  · rw [hb] at hmask
    apply hmask (Or.inl rfl) (Or.inr rfl)
    rcases h.index with hi | ⟨j, hi⟩ <;> rw [hi]
    · exact Or.inl rfl
    · exact Or.inr rfl

theorem offset_ensures (h : insn.mem.Faithful mode addrSize) :
    Emit.Ensures (exec sem blockEnd) (effectiveAddressNoSegment insn) t s
      (Yields t s (BitVec.ofNat 64 (insn.mem.offset s.guest addrSize))) Q := by
  have hmod := rawOffset_modEq (g := s.guest) h
  -- an operand relative to the instruction pointer is its displacement
  have hip (hr : insn.mem.base.raw s.guest = 0) (hi : insn.mem.index = .none) :
      rawOffset s.guest insn = insn.mem.disp := by
    unfold rawOffset
    rw [hr, hi]
    change (0 : U64) + (0 : U64) <<< _ + _ = _
    rw [ofNat_eq_ofNat, BitVec.zero_shiftLeft, BitVec.add_zero, BitVec.zero_add]
  have hlt : insn.mem.offset s.guest addrSize < 2 ^ addrSize.bits :=
    mod_lt _ (Nat.two_pow_pos _)
  have hregs (hbase : insn.mem.base = .none ∨ ∃ i, insn.mem.base = .gpr i addrSize) :
      Emit.Ensures (exec sem blockEnd) (effectiveAddressNoSegment insn) t s
        (Yields t s (BitVec.ofNat 64 (insn.mem.offset s.guest addrSize))) Q := by
    rw [← truncated_toNat h hbase, ofNat_toNat]
    apply registers_ensures _ _ h.scale
    · exact hbase.imp id fun ⟨i, hi⟩ => ⟨i, addrSize, hi⟩
    · exact h.index.imp id fun ⟨i, hi⟩ => ⟨i, addrSize, hi⟩
  rcases h.base with hb | hb | ⟨hb, hi, rfl⟩ | ⟨hb, hi, rfl⟩
  · exact hregs (Or.inl hb)
  · exact hregs (Or.inr hb)
  · have hvalue : insn.mem.disp = BitVec.ofNat 64 (insn.mem.offset s.guest .b8) := by
      rw [hip (by rw [hb]; rfl) hi] at hmod
      apply eq_of_toNat_eq
      exact (mod_eq_of_lt insn.mem.disp.isLt).symm.trans hmod
    unfold effectiveAddressNoSegment
    rw [if_pos hb]
    exact .pure ⟨le_rfl, TempsFrom.refl t s, trivial, hvalue⟩
  · have hvalue : insn.mem.disp &&& 0xffffffff =
        BitVec.ofNat 64 (insn.mem.offset s.guest .b4) := by
      rw [hip (by rw [hb]; rfl) hi] at hmod
      apply eq_of_toNat_eq
      rw [toNat_and_mask _ 32 _ (by decide)]
      refine Eq.trans (hmod.trans (mod_eq_of_lt hlt)) (mod_eq_of_lt ?_).symm
      exact hlt.trans (by decide)
    have hrip : insn.mem.base ≠ .rip := by rw [hb]; nofun
    unfold effectiveAddressNoSegment
    rw [if_neg hrip, if_pos hb]
    exact .pure ⟨le_rfl, TempsFrom.refl t s, trivial, hvalue⟩

def PastLimit (insn : Insn) (offset : U64) : Prop :=
  2 ^ 16 < (offset &&& 0xffff).toNat + insn.mem.size

/-- The limit check is made for operands of one, two and four bytes, in a segment the code adds. -/
def LimitFails (insn : Insn) (offset : U64) : Prop :=
  insn.codeSize = .code16 ∧ (icedSegmentReg insn.mem.segment).isSome = true ∧
    insn.mem.size ∈ [1, 2, 4] ∧ PastLimit insn offset

def protectionFault (insn : Insn) (s : WalkState V) : Stop (WalkState V) :=
  deliverInterrupt s 13 (maskPc insn.ip .real16)

theorem limitCheck_ensures (hQ : insn.mem.size ∈ [1, 2, 4] → PastLimit insn (s.guest.readVal a) →
      Q (protectionFault insn s)) : Emit.Ensures (exec sem blockEnd) (limitCheck insn a) t s
      (fun _ t' s' => (t' = t ∧ s' = s) ∧
        ¬(insn.mem.size ∈ [1, 2, 4] ∧ PastLimit insn (s.guest.readVal a))) Q := by
  have hcheck (size : Size) (hsize : size.bytes = insn.mem.size) (hmem : size.bytes ∈ [1, 2, 4]) :
      Emit.Ensures (exec sem blockEnd)
        (Emit.push (.segLimitCheck a size 13 (maskPc insn.ip .real16)) : LiftM X Unit) t s
        (fun _ t' s' => (t' = t ∧ s' = s) ∧
          ¬(insn.mem.size ∈ [1, 2, 4] ∧ PastLimit insn (s.guest.readVal a))) Q := by
    rw [hsize] at hmem
    by_cases h : 0x10000 < (s.guest.readVal a &&& 0xffff).toNat + size.bytes
    · have hfault : exec sem blockEnd
          (.segLimitCheck a size 13 (maskPc insn.ip .real16)) s =
            .error (protectionFault insn s) := by
        simp only [exec, if_pos h, protectionFault]
      rw [hsize] at h
      apply Emit.Ensures.push
      · intro s' hs
        cases hfault.symm.trans hs
      · intro e he
        cases hfault.symm.trans he
        exact hQ hmem h
    · have hfine : exec sem blockEnd
          (.segLimitCheck a size 13 (maskPc insn.ip .real16)) s = .ok s := by
        simp only [exec, if_neg h]
      rw [hsize] at h
      exact Emit.Ensures.push_ok hfine ⟨⟨rfl, rfl⟩, fun hpast => h hpast.2⟩
  unfold limitCheck
  split
  case h_1 h => exact hcheck .b1 h.symm (by decide)
  case h_2 h => exact hcheck .b2 h.symm (by decide)
  case h_3 h => exact hcheck .b4 h.symm (by decide)
  case h_4 h₁ h₂ h₄ =>
    refine .pure ⟨⟨rfl, rfl⟩, ?_⟩
    rintro ⟨hsize, -⟩
    simp only [List.mem_cons, List.not_mem_nil, or_false] at hsize
    rcases hsize with h | h | h
    · exact h₁ h
    · exact h₂ h
    · exact h₄ h

theorem segBaseShl4_ensures (seg : Reg) : Emit.Ensures (exec sem blockEnd) (segBaseShl4 seg) t s
      (Yields t s (s.guest.readReg seg <<< 4)) Q := by
  refine (readReg_ensures seg).seq ?_
  intro sel t₁ s₁ hsel
  have hshl : execAlu .shl .b8 .none (s₁.guest.readVal sel) (s₁.guest.readVal (.imm 4))
      (s₁.guest.readVal (.imm 4)) s₁.flags = ([s.guest.readReg seg <<< 4], s₁.flags) := by
    have hcount : ((4 : U64) &&& 63).toNat = 4 := by decide
    rw [execAlu_shl_b8, hsel.value]
    simp only [Guest.readVal, hcount]
  exact (aluNone_ensures hshl).imp (fun _ _ _ h => hsel.then h) fun _ => id

/-- The selector real-mode code adds: that of the segment in effect, if it has one. -/
def addedSelector (g : Guest V) : Segment → U16
  | .es => g.es
  | .cs => g.cs
  | .ss => g.ss
  | .ds => g.ds
  | .fs | .gs => 0

def addedBase (g : Guest V) (insn : Insn) : ℕ :=
  if insn.codeSize = .code16 then 16 * (addedSelector g insn.mem.segment).toNat
  else flatBase g insn.mem.segPrefix

theorem shl4_selector (sel : U16) :
    sel.setWidth 64 <<< 4 = BitVec.ofNat 64 (16 * sel.toNat) := by
  apply eq_of_toNat_eq
  simp only [toNat_shiftLeft, toNat_setWidth, toNat_ofNat]
  omega

theorem withSegment_checked (ha : Val.Below t a)
    (hQ : LimitFails insn (s.guest.readVal a) → Q (protectionFault insn s)) :
    Emit.Ensures (exec sem blockEnd) (withSegment insn a) t s (fun v t' s' =>
        Yields t s (s.guest.readVal a + BitVec.ofNat 64 (addedBase s.guest insn)) v t' s' ∧
          ¬LimitFails insn (s.guest.readVal a)) Q := by
  have hsame : Yields t s (s.guest.readVal a + BitVec.ofNat 64 0) a t s :=
    ⟨le_rfl, TempsFrom.refl t s, ha, (BitVec.add_zero _).symm⟩
  -- a base from one of the two base registers
  have hflat (reg : Reg) (base : U64) (hreg : s.guest.readReg reg = base) :
      Emit.Ensures (exec sem blockEnd) (do let b ← readReg reg; addAddr a b)
        t s (Yields t s (s.guest.readVal a + BitVec.ofNat 64 base.toNat)) Q := by
    refine (readReg_ensures reg).seq ?_
    intro b t₁ s₁ hb
    refine addAddr_ensures.imp ?_ fun _ => id
    intro v t₂ s₂ hv
    rw [hb.value, hb.frame.readVal ha, hreg] at hv
    rw [ofNat_toNat]
    exact hb.then hv
  unfold withSegment addedBase
  by_cases hcode : insn.codeSize = .code16
  · rw [if_pos hcode, if_pos hcode]
    have hreal (reg : Reg) (sel : U16) (hsel : s.guest.readReg reg = sel.setWidth 64)
        (hseg : (icedSegmentReg insn.mem.segment).isSome = true) :
        Emit.Ensures (exec sem blockEnd)
          (do limitCheck insn a; let base ← segBaseShl4 reg; addAddr a base)
          t s (fun v t' s' => Yields t s (s.guest.readVal a + BitVec.ofNat 64 (16 * sel.toNat))
            v t' s' ∧ ¬LimitFails insn (s.guest.readVal a)) Q := by
      refine (limitCheck_ensures fun hsize hpast => hQ ⟨hcode, hseg, hsize, hpast⟩).seq ?_
      rintro _ t' s' ⟨⟨rfl, rfl⟩, hfine⟩
      refine (segBaseShl4_ensures reg).seq ?_
      intro base t₁ s₁ hbase
      refine addAddr_ensures.imp ?_ fun _ => id
      intro v t₂ s₂ hv
      rw [hbase.value, hbase.frame.readVal ha, hsel, shl4_selector] at hv
      exact ⟨hbase.then hv, fun h => hfine h.2.2⟩
    -- FS and GS have no selector here, and their accesses are not checked
    have hnone (hseg : icedSegmentReg insn.mem.segment = none) :
        ¬LimitFails insn (s.guest.readVal a) := by
      rintro ⟨-, hsome, -⟩
      rw [hseg] at hsome
      cases hsome
    cases hseg : insn.mem.segment with
    | es => exact hreal .es s.guest.es rfl (by rw [hseg]; rfl)
    | cs => exact hreal .cs s.guest.cs rfl (by rw [hseg]; rfl)
    | ss => exact hreal .ss s.guest.ss rfl (by rw [hseg]; rfl)
    | ds => exact hreal .ds s.guest.ds rfl (by rw [hseg]; rfl)
    | fs => exact .pure ⟨hsame, hnone (by rw [hseg]; rfl)⟩
    | gs => exact .pure ⟨hsame, hnone (by rw [hseg]; rfl)⟩
  · rw [if_neg hcode, if_neg hcode]
    have hflatEnd {m : LiftM X Val} {w : U64}
        (h : Emit.Ensures (exec sem blockEnd) m t s (Yields t s w) Q) :
        Emit.Ensures (exec sem blockEnd) m t s (fun v t' s' => Yields t s w v t' s' ∧
          ¬LimitFails insn (s.guest.readVal a)) Q :=
      h.imp (fun _ _ _ hv => ⟨hv, fun hfails => hcode hfails.1⟩) fun _ => id
    cases insn.mem.segPrefix with
    | none => exact hflatEnd (.pure hsame)
    | some seg =>
      cases seg with
      | fs => exact hflatEnd (hflat .fsBase s.guest.fsBase rfl)
      | gs => exact hflatEnd (hflat .gsBase s.guest.gsBase rfl)
      | es | cs | ss | ds => exact hflatEnd (.pure hsame)

theorem withSegment_ensures (ha : Val.Below t a)
    (hQ : ∀ e, insn.codeSize = .code16 → PastLimit insn (s.guest.readVal a) → Q e) :
    Emit.Ensures (exec sem blockEnd) (withSegment insn a) t s
      (Yields t s (s.guest.readVal a + BitVec.ofNat 64 (addedBase s.guest insn))) Q := by
  have hfault : LimitFails insn (s.guest.readVal a) → Q (protectionFault insn s) :=
    fun h => hQ _ h.1 h.2.2.2
  exact (withSegment_checked ha hfault).imp (fun _ _ _ h => h.1) fun _ => id

/-- The code adds the segment base to the offset, or raises the fault of an access past the limit
with nothing but temps written. -/
theorem effectiveAddress_checked (h : insn.mem.Faithful mode addrSize)
    (hQ : ∀ s', TempsFrom t s s' →
      LimitFails insn (BitVec.ofNat 64 (insn.mem.offset s.guest addrSize)) →
        Q (protectionFault insn s')) : Emit.Ensures (exec sem blockEnd) (effectiveAddress insn) t s
      (fun v t' s' => Yields t s (BitVec.ofNat 64 (insn.mem.offset s.guest addrSize) +
        BitVec.ofNat 64 (addedBase s.guest insn)) v t' s' ∧
        ¬LimitFails insn (BitVec.ofNat 64 (insn.mem.offset s.guest addrSize))) Q := by
  refine (offset_ensures h).seq ?_
  intro a t₁ s₁ ha
  have hbase : addedBase s₁.guest insn = addedBase s.guest insn := by
    rw [ha.frame.rest]
    rfl
  rw [← ha.value] at hQ ⊢
  rw [← hbase]
  refine (withSegment_checked ha.below (hQ s₁ ha.frame)).imp ?_ fun _ => id
  rintro v t₂ s₂ ⟨hv, hfine⟩
  exact ⟨ha.then hv, hfine⟩

theorem effectiveAddress_ensures (h : insn.mem.Faithful mode addrSize)
    (hQ : ∀ e, insn.codeSize = .code16 →
      PastLimit insn (BitVec.ofNat 64 (insn.mem.offset s.guest addrSize)) → Q e) :
    Emit.Ensures (exec sem blockEnd) (effectiveAddress insn) t s
      (Yields t s (BitVec.ofNat 64 (insn.mem.offset s.guest addrSize) +
        BitVec.ofNat 64 (addedBase s.guest insn))) Q :=
  (effectiveAddress_checked h fun _ _ hfails => hQ _ hfails.1 hfails.2.2.2).imp
    (fun _ _ _ h' => h'.1) fun _ => id

def rawByteOffset (v : U64) (size : Size) : U64 := (signExtend v size).sshiftRight 3

theorem toInt_rawByteOffset (g : Guest V) (i : Fin 16) (size : Size) :
    (rawByteOffset (g.gpr i) size).toInt = (Access.bitString i size).byteOffset g := by
  unfold rawByteOffset Access.byteOffset
  rw [toInt_sshiftRight, toInt_signExtend, Int.shiftRight_eq_div_pow]
  rfl

theorem btStringAddr_ensures {addr bit : Val} (haddr : Val.Below t addr) (size : Size) :
    Emit.Ensures (exec sem blockEnd) (btStringAddr addr bit size) t s
      (Yields t s (s.guest.readVal addr + rawByteOffset (s.guest.readVal bit) size)) Q := by
  refine .bind (.fresh (.bind ?_))
  refine .push_ok rfl ?_
  let s₁ : WalkState V :=
    { s with guest := s.guest.setTemp t (signExtend (s.guest.readVal bit) size) }
  have hframe : TempsFrom t s s₁ := (TempsFrom.refl t s).setTemp le_rfl _
  have hsext : s₁.guest.readVal (.temp t) = signExtend (s.guest.readVal bit) size :=
    Function.update_self t _ s.guest.temps
  have hsar : execAlu .sar .b8 .none (s₁.guest.readVal (.temp t)) (s₁.guest.readVal (.imm 3))
      (s₁.guest.readVal (.imm 3)) s₁.flags =
      ([rawByteOffset (s.guest.readVal bit) size], s₁.flags) := by
    rw [execAlu_sar_b8, hsext]
    simp only [Guest.readVal]
    rfl
  refine (aluNone_ensures hsar).seq ?_
  intro off t₂ s₂ hoff
  refine addAddr_ensures.imp ?_ fun _ => id
  intro v t₃ s₃ hv
  rw [hoff.value, hoff.frame.readVal (haddr.mono (le_succ t)), hframe.readVal haddr] at hv
  have hall := hoff.then hv
  exact ⟨(le_succ t).trans hall.next, hframe.trans hall.frame (le_succ t), hall.below,
    hall.value⟩

theorem lowerRead_gpr_ensures {k : ℕ} {i : Fin 16} (h : insn.op k = .register (.gpr i size)) :
    Emit.Ensures (exec sem blockEnd) (lowerRead insn k) t s (Yields t s (s.guest.gpr i)) Q := by
  unfold lowerRead
  rw [h]
  exact .bind (.pure (readGpr_ensures i))

theorem opSize_bytes (size : Size) : (opSize size.bytes : LiftM X Size) = pure size := by
  cases size <;> rfl

theorem btAccess_ensures {esize : Size} {i : Fin 16} {bit : Val}
    (h : insn.mem.Faithful mode addrSize) (hop : insn.op 1 = .register (.gpr i size))
    (hbit : Val.Below t bit) (hQ : ∀ e, insn.codeSize = .code16 →
      PastLimit insn (BitVec.ofNat 64 (insn.mem.offset s.guest addrSize)) → Q e) :
    Emit.Ensures (exec sem blockEnd) (btAccess insn bit esize) t s
      (fun p => Yields t s (BitVec.ofNat 64 (insn.mem.offset s.guest addrSize) +
        BitVec.ofNat 64 (addedBase s.guest insn) +
          rawByteOffset (s.guest.readVal bit) size) p.1) Q := by
  refine (effectiveAddress_ensures h hQ).seq ?_
  intro addr t₁ s₁ haddr
  rw [hop]
  refine .bind ?_
  change Emit.Ensures _ (opSize size.bytes) _ _ _ _
  rw [opSize_bytes]
  refine .pure ((btStringAddr_ensures haddr.below size).seq ?_)
  intro ea t₂ s₂ hea
  rw [haddr.value, haddr.frame.readVal hbit] at hea
  exact .pure (haddr.then hea)

variable {access : Access}

def Access.raw (g : Guest V) : Access → U64
  | .operand => 0
  | .bitString i size => rawByteOffset (g.gpr i) size

theorem Access.toInt_raw (g : Guest V) (access : Access) :
    (access.raw g).toInt = access.byteOffset g := by
  cases access with
  | operand => rfl
  | bitString i size => exact toInt_rawByteOffset g i size

theorem accessAddr_ensures (h : insn.mem.Faithful mode addrSize) (haccess : access.Of insn mode)
    (hQ : ∀ e, insn.codeSize = .code16 →
      PastLimit insn (BitVec.ofNat 64 (insn.mem.offset s.guest addrSize)) → Q e) :
    Emit.Ensures (exec sem blockEnd) (accessAddr insn access) t s
      (Yields t s (BitVec.ofNat 64 (insn.mem.offset s.guest addrSize) +
        BitVec.ofNat 64 (addedBase s.guest insn) + access.raw s.guest)) Q := by
  cases access with
  | operand =>
    refine (effectiveAddress_ensures h hQ).imp ?_ fun _ => id
    intro a t' s' ha
    exact ⟨ha.next, ha.frame, ha.below, ha.value.trans (BitVec.add_zero _).symm⟩
  | bitString i size =>
    refine (lowerRead_gpr_ensures haccess.1).seq ?_
    intro bit t₁ s₁ hbit
    have hmem : insn.mem.offset s₁.guest addrSize = insn.mem.offset s.guest addrSize := by
      rw [hbit.frame.rest]
      rfl
    have hbase : addedBase s₁.guest insn = addedBase s.guest insn := by
      rw [hbit.frame.rest]
      rfl
    rw [← hmem] at hQ
    refine (btAccess_ensures h haccess.1 hbit.below hQ).seq ?_
    intro p t₂ s₂ hp
    rw [hmem, hbase, hbit.value] at hp
    exact .pure (hbit.then hp)

theorem readReg_total (reg : Reg) : (readReg reg : LiftM X Val).Total :=
  .bind .fresh fun _ => .bind .push fun _ => .pure

theorem aluNone_total {kind : AluKind} {b : Val} : (aluNone kind a b size : LiftM X Val).Total :=
  .bind .fresh fun _ => .bind .push fun _ => .pure

theorem addrBase_total (h : insn.mem.base = .none ∨ ∃ i size, insn.mem.base = .gpr i size) :
    (addrBase insn : LiftM X _).Total := by
  unfold addrBase
  split
  · exact .pure
  · rename_i hne
    obtain ⟨i, size, hi⟩ := h.resolve_left hne
    rw [hi]
    exact .bind .pure fun _ => .bind (readReg_total _) fun _ => .pure

theorem addrIndex_total (acc : Option Val)
    (h : insn.mem.index = .none ∨ ∃ i size, insn.mem.index = .gpr i size) :
    (addrIndex insn acc : LiftM X _).Total := by
  have hscale (idx : Val) : (scaleIndex insn idx : LiftM X Val).Total := by
    unfold scaleIndex
    split
    · exact .pure
    · exact aluNone_total
  unfold addrIndex
  split
  · exact .pure
  · rename_i hne
    obtain ⟨i, size, hi⟩ := h.resolve_left hne
    rw [hi]
    refine .bind .pure fun _ => .bind (readReg_total _) fun _ => .bind (hscale _) fun _ => ?_
    cases acc with
    | none => exact .pure
    | some a => exact .bind aluNone_total fun _ => .pure

theorem addrDisp_total (acc : Option Val) : (addrDisp insn acc : LiftM X Val).Total := by
  cases acc with
  | none => exact .pure
  | some a =>
    simp only [addrDisp]
    split
    · exact .pure
    · exact aluNone_total

theorem truncateAddr_total (a : Val) : (truncateAddr insn a : LiftM X Val).Total := by
  unfold truncateAddr
  split
  · exact .pure
  · exact .pure
  · exact aluNone_total

theorem limitCheck_total (a : Val) : (limitCheck insn a : LiftM X Unit).Total := by
  unfold limitCheck
  split
  · exact .push
  · exact .push
  · exact .push
  · exact .pure

theorem withSegment_total (a : Val) : (withSegment insn a : LiftM X Val).Total := by
  have hreg (reg : Reg) :
      (do let base ← readReg reg; addAddr a base : LiftM X Val).Total :=
    .bind (readReg_total reg) fun _ => aluNone_total
  unfold withSegment
  split
  · split
    · exact .pure
    · refine .bind (limitCheck_total a) fun _ => .bind ?_ fun _ => aluNone_total
      exact .bind (readReg_total _) fun _ => aluNone_total
  · split
    · exact hreg _
    · exact hreg _
    · exact .pure

theorem effectiveAddress_total
    (h : insn.mem.Faithful mode addrSize) : (effectiveAddress insn : LiftM X Val).Total := by
  have hindex := h.index.imp id fun ⟨i, hi⟩ => (⟨i, addrSize, hi⟩ : ∃ i size, _ = _)
  refine .bind ?_ withSegment_total
  unfold effectiveAddressNoSegment
  split
  · exact .pure
  · split
    · exact .pure
    · rename_i hrip heip
      have hbase : insn.mem.base = .none ∨ ∃ i size, insn.mem.base = .gpr i size := by
        rcases h.base with hb | ⟨i, hb⟩ | ⟨hb, -⟩ | ⟨hb, -⟩
        · exact Or.inl hb
        · exact Or.inr ⟨i, addrSize, hb⟩
        · exact absurd hb hrip
        · exact absurd hb heip
      refine .bind (addrBase_total hbase) fun _ => ?_
      refine .bind (addrIndex_total _ hindex) fun _ => ?_
      exact .bind (addrDisp_total _) truncateAddr_total

theorem accessAddr_total (h : insn.mem.Faithful mode addrSize) (haccess : access.Of insn mode) :
    (accessAddr insn access : LiftM X Val).Total := by
  cases access with
  | operand => exact effectiveAddress_total h
  | bitString i size =>
    obtain ⟨hop, -⟩ := haccess
    have hread : (lowerRead insn 1 : LiftM X Val).Total := by
      unfold lowerRead
      rw [hop]
      exact .bind .pure fun _ => readReg_total _
    refine .bind hread fun bit => .bind ?_ fun _ => .pure
    refine .bind (effectiveAddress_total h) fun addr => ?_
    rw [hop]
    refine .bind ?_ fun _ => .bind ?_ fun _ => .pure
    · change (opSize size.bytes).Total
      rw [opSize_bytes]
      exact .pure
    · exact .bind .fresh fun _ => .bind .push fun _ => .bind aluNone_total fun _ => aluNone_total

/-- The code reduces base, index and displacement to the address size and nothing after that, so a
byte offset must not leave the address space, and in a 32-bit one neither must the segment base. In
real mode what the offset has above its low 16 bits has to make up for a selector left out. -/
def Fits (g : Guest V) (fs gs : U16) (mode : CpuMode) (addrSize : Size)
    (m : MemoryOperand) (access : Access) : Prop :=
  let offset := m.offset g addrSize + access.byteOffset g
  match mode with
  | .long64 => addrSize = .b8 ∨ 0 ≤ offset ∧ offset < 2 ^ addrSize.bits
  | .compat32 => (addrSize = .b4 ∨ 0 ≤ offset ∧ offset < 2 ^ addrSize.bits) ∧
      (offset + flatBase g m.segPrefix) % 2 ^ 64 < 2 ^ 32
  | .real16 => offset / 2 ^ 16 * 2 ^ 16 =
      16 * ((selector g fs gs m.segment).toNat - (addedSelector g m.segment).toNat)

instance (g : Guest V) (fs gs : U16) (mode : CpuMode) (addrSize : Size)
    (m : MemoryOperand) (access : Access) : Decidable (Fits g fs gs mode addrSize m access) :=
  match mode with
  | .long64 => inferInstanceAs (Decidable (_ ∨ _ ∧ _))
  | .compat32 => inferInstanceAs (Decidable ((_ ∨ _ ∧ _) ∧ _ < _))
  | .real16 => inferInstanceAs (Decidable (_ = _))

theorem Access.byteOffset_bounds
    (h : access.Of insn mode) : -2 ^ 60 ≤ access.byteOffset g ∧ access.byteOffset g < 2 ^ 60 ∧
      (mode ≠ .long64 → -2 ^ 28 ≤ access.byteOffset g ∧ access.byteOffset g < 2 ^ 28) := by
  cases access with
  | operand =>
    change -2 ^ 60 ≤ 0 ∧ (0 : ℤ) < 2 ^ 60 ∧ (_ → -2 ^ 28 ≤ (0 : ℤ) ∧ (0 : ℤ) < 2 ^ 28)
    exact ⟨by decide, by decide, fun _ => ⟨by decide, by decide⟩⟩
  | bitString i size =>
    obtain ⟨-, -, hwide⟩ := h
    have hlo := le_toInt ((g.gpr i).setWidth size.bits)
    have hhi := toInt_lt (x := (g.gpr i).setWidth size.bits)
    simp only [Access.byteOffset]
    cases size with
    | b8 =>
      simp only [Size.bits, bytes] at hlo hhi ⊢
      refine ⟨by omega, by omega, fun hm => absurd (hwide rfl) hm⟩
    | _ =>
      simp only [Size.bits, bytes] at hlo hhi ⊢
      exact ⟨by omega, by omega, fun _ => ⟨by omega, by omega⟩⟩

theorem toNat_address (o b : ℕ) (d : U64) :
    ((BitVec.ofNat 64 o + BitVec.ofNat 64 b + d).toNat : ℤ) = (o + b + d.toInt) % 2 ^ 64 := by
  rw [toInt_eq_toNat_cond]
  simp only [toNat_add, toNat_ofNat]
  split <;> omega

theorem addedBase_of_mode (h : insn.codeSize = codeSizeOf mode) :
    addedBase g insn = if mode = .real16 then 16 * (addedSelector g insn.mem.segment).toNat
      else flatBase g insn.mem.segPrefix := by
  unfold addedBase
  rw [h]
  cases mode <;> rfl

theorem sum_eq_linearAddress_iff {fs gs : U16} (hcode : insn.codeSize = codeSizeOf mode)
    (hmem : insn.mem.Faithful mode addrSize) (haccess : access.Of insn mode) :
    ((insn.mem.offset g addrSize : ℤ) + addedBase g insn + access.byteOffset g) % 2 ^ 64 =
        linearAddress g fs gs mode addrSize insn.mem access ↔
      Fits g fs gs mode addrSize insn.mem access := by
  have hlt : insn.mem.offset g addrSize < 2 ^ addrSize.bits := mod_lt _ (Nat.two_pow_pos _)
  obtain ⟨hlo, hhi, hnarrow⟩ := Access.byteOffset_bounds (g := g) haccess
  have hwidth := hmem.width
  rw [addedBase_of_mode hcode]
  unfold linearAddress Fits
  generalize insn.mem.offset g addrSize = o at hlt ⊢
  generalize access.byteOffset g = d at hlo hhi hnarrow ⊢
  generalize flatBase g insn.mem.segPrefix = base
  -- the parts are numbers now; each mode and width is a matter of where the sum wraps
  cases mode with
  | long64 =>
    rcases hwidth with ⟨-, rfl | rfl⟩ | ⟨h, -⟩
    · simp only [Size.bits, bytes] at hlt ⊢
      simp only [reduceCtorEq, if_false, false_or]
      omega
    · simp only [Size.bits, bytes] at hlt ⊢
      simp only [reduceCtorEq, if_false, true_or, iff_true]
      omega
    · exact absurd rfl h
  | compat32 =>
    obtain ⟨hlo', hhi'⟩ := hnarrow (by decide)
    rcases hwidth with ⟨h, -⟩ | ⟨-, rfl | rfl⟩
    · cases h
    · simp only [Size.bits, bytes] at hlt ⊢
      simp only [reduceCtorEq, if_false, false_or]
      omega
    · simp only [Size.bits, bytes] at hlt ⊢
      simp only [reduceCtorEq, if_false, true_or, true_and]
      omega
  | real16 =>
    simp only [if_true]
    rcases hwidth with ⟨h, -⟩ | ⟨-, rfl | rfl⟩
    · cases h
    · simp only [Size.bits, bytes] at hlt ⊢
      omega
    · simp only [Size.bits, bytes] at hlt ⊢
      omega

/-- The address is the architectural one exactly where the parts that are added after the reduction
fit. Only a real-mode access past its segment limit is not made. -/
theorem access_address_iff (sem : OtherOps X V) (blockEnd : U64) (mode : CpuMode)
    (addrSize : Size) (access : Access) (hcode : insn.codeSize = codeSizeOf mode)
    (hmem : insn.mem.Faithful mode addrSize) (haccess : access.Of insn mode)
    (fs gs : U16) (t : Temp) (s : WalkState V) : ∃ r, accessAddr insn access t = .ok r ∧
      (walk (exec sem blockEnd) r.ops s).Meets (fun s' => ((s'.guest.readVal r.val).toNat : ℤ) =
            linearAddress s.guest fs gs mode addrSize insn.mem access ↔
          Fits s.guest fs gs mode addrSize insn.mem access) (fun _ => mode = .real16 ∧
          2 ^ 16 < insn.mem.offset s.guest addrSize % 2 ^ 16 + insn.mem.size) := by
  obtain ⟨r, hr⟩ := accessAddr_total hmem haccess t
  refine ⟨r, hr, ?_⟩
  have hlt : insn.mem.offset s.guest addrSize < 2 ^ 64 := by
    have h : insn.mem.offset s.guest addrSize < 2 ^ addrSize.bits :=
      mod_lt _ (Nat.two_pow_pos _)
    exact h.trans_le (Nat.le_of_dvd (Nat.two_pow_pos _) (two_pow_bits_dvd addrSize))
  have hlimit : ∀ _ : Stop (WalkState V), insn.codeSize = .code16 →
      PastLimit insn (BitVec.ofNat 64 (insn.mem.offset s.guest addrSize)) →
      mode = .real16 ∧ 2 ^ 16 < insn.mem.offset s.guest addrSize % 2 ^ 16 + insn.mem.size := by
    intro _ h16 hpast
    unfold PastLimit at hpast
    rw [toNat_and_mask _ 16 _ (by decide), toNat_ofNat, mod_eq_of_lt hlt] at hpast
    rw [hcode] at h16
    refine ⟨?_, hpast⟩
    cases mode
    · cases h16
    · cases h16
    · rfl
  have hensures : Emit.Ensures (exec sem blockEnd) (accessAddr insn access) t s _ _ :=
    accessAddr_ensures hmem haccess hlimit
  refine (hensures r hr).imp ?_ fun _ => id
  intro s' h
  rw [h.value, toNat_address, Access.toInt_raw]
  exact sum_eq_linearAddress_iff hcode hmem haccess

def addressOf (insn : Insn) (access : Access) (s : WalkState Unit) : Option ℕ :=
  match (accessAddr insn access 0 : Except Unsupported (Emitted (IrOp Empty) Val)) with
  | .error _ => none
  | .ok r =>
    match walk (exec (fun op => op.elim) 0) r.ops s with
    | .fell s' => some (s'.guest.readVal r.val).toNat
    | .left _ _ => none

/-- `mov eax, gs:[disp]` in 32-bit code. -/
def loadFromGs (disp : U64) : Insn :=
  { ip := 0x1000, len := 6, codeSize := .code32, mnemonic := .mov
    operands := [.register (.gpr rax .b4), .memory]
    mem := { disp, segPrefix := some .gs, segment := .gs, size := 4 } }

/-- The base of GS at `0x1000`, as for thread-local storage. -/
def gsAtPage : WalkState Unit :=
  let s := WalkState.zero () (.fresh 0x10000 0 (by decide))
  { s with guest := { s.guest with gsBase := 0x1000 } }

theorem loadFromGs_faithful (disp : U64) (h : disp.toNat < 2 ^ 32) :
    (loadFromGs disp).mem.Faithful .compat32 .b4 :=
  { width := Or.inr ⟨nofun, Or.inr rfl⟩
    base := Or.inl rfl
    index := Or.inl rfl
    scale := List.mem_cons_self
    absolute := fun _ _ => h }

theorem loadFromGs_address : Fits gsAtPage.guest 0 0 .compat32 .b4 (loadFromGs 8).mem .operand ∧
      ∃ r, accessAddr (loadFromGs 8) .operand 0 = .ok r ∧
        (walk (exec (fun op : Empty => op.elim) 0) r.ops gsAtPage).Meets
          (fun s' => ((s'.guest.readVal r.val).toNat : ℤ) =
              linearAddress gsAtPage.guest 0 0 .compat32 .b4 (loadFromGs 8).mem .operand ↔
            Fits gsAtPage.guest 0 0 .compat32 .b4 (loadFromGs 8).mem .operand)
          (fun _ => CpuMode.compat32 = .real16 ∧
            2 ^ 16 < (loadFromGs 8).mem.offset gsAtPage.guest .b4 % 2 ^ 16 + 4) :=
  ⟨by decide, access_address_iff _ 0 .compat32 .b4 .operand rfl
    (loadFromGs_faithful 8 (by decide)) trivial 0 0 0 gsAtPage⟩

/-- A negative offset from the thread pointer: the sum passes 4 GiB and is not brought
back. -/
theorem negative_tls_offset_escapes :
    addressOf (loadFromGs 0xfffffffc) .operand gsAtPage = some 0x100000ffc ∧
      linearAddress gsAtPage.guest 0 0 .compat32 .b4 (loadFromGs 0xfffffffc).mem .operand =
        0xffc := by
  decide

end X86Jit.Lift
