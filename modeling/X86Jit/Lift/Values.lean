import X86Jit.Interp.Exec
import X86Jit.Lift.Integer

/-! What the code for an operand leaves behind: a value in a temp of its own, and nothing
else changed. -/
namespace X86Jit.Lift
open X86Jit.Lib

variable {V : Type}

structure TempsFrom (t : Temp) (s s' : WalkState V) : Prop where
  rest : s' = { s with guest := { s.guest with temps := s'.guest.temps } }
  old : ∀ u < t, s'.guest.temps u = s.guest.temps u

theorem TempsFrom.refl (t : Temp) (s : WalkState V) : TempsFrom t s s :=
  ⟨rfl, fun _ _ => rfl⟩

theorem TempsFrom.trans {t t' : Temp} {s s' s'' : WalkState V} (h : TempsFrom t s s')
    (h' : TempsFrom t' s' s'') (ht : t ≤ t') : TempsFrom t s s'' := by
  constructor
  · rw [h'.rest, h.rest]
  · intro u hu
    rw [h'.old u (hu.trans_le ht), h.old u hu]

theorem TempsFrom.setTemp {t u : Temp} {s s' : WalkState V} (h : TempsFrom t s s') (hu : t ≤ u)
    (v : U64) : TempsFrom t s { s' with guest := s'.guest.setTemp u v } := by
  have hset : TempsFrom u s' { s' with guest := s'.guest.setTemp u v } := by
    refine ⟨rfl, ?_⟩
    intro u' hu'
    exact Function.update_of_ne hu'.ne v s'.guest.temps
  exact h.trans hset hu

theorem TempsFrom.flags {t : Temp} {s s' : WalkState V} (h : TempsFrom t s s') :
    s'.flags = s.flags := by
  rw [h.rest]

def Val.Below (t : Temp) : Val → Prop
  | .temp u => u < t
  | .imm _ => True

theorem Val.Below.mono {t t' : Temp} {v : Val} (h : Val.Below t v) (ht : t ≤ t') :
    Val.Below t' v := by
  cases v with
  | temp u => exact Nat.lt_of_lt_of_le h ht
  | imm i => trivial

theorem TempsFrom.readVal {t : Temp} {s s' : WalkState V} (h : TempsFrom t s s')
    {v : Val} (hv : Val.Below t v) : s'.guest.readVal v = s.guest.readVal v := by
  cases v with
  | temp u => exact h.old u hv
  | imm i => rfl

structure Yields {V : Type} (t : Temp) (s : WalkState V) (w : U64) (a : Val) (t' : Temp)
    (s' : WalkState V) : Prop where
  next : t ≤ t'
  frame : TempsFrom t s s'
  below : Val.Below t' a
  value : s'.guest.readVal a = w

variable (a b c : U64) (f : Flags)

theorem and_mask_b8 (x : U64) : x &&& mask .b8 = x := BitVec.and_allOnes

theorem execAlu_add_b8 : execAlu .add .b8 .none a b c f = ([a + b], f) := by
  have hres : (aluAdd a b 0 .b8).res = a + b := by
    simp only [aluAdd, and_mask_b8]
    apply BitVec.eq_of_toNat_eq
    simp only [BitVec.toNat_setWidth, BitVec.toNat_add, BitVec.ofNat_eq_ofNat, BitVec.toNat_ofNat]
    omega
  simp only [execAlu, execAdd, hres]
  rw [apply_of_isNone rfl]

theorem execAlu_and_b8 : execAlu .and .b8 .none a b c f = ([a &&& b], f) := by
  simp only [execAlu, execAnd, aluLogic, and_mask_b8]
  rw [apply_of_isNone rfl]

theorem execAlu_shl_b8 : execAlu .shl .b8 .none a b c f = ([a <<< (c &&& 63).toNat], f) := by
  simp only [execAlu, execShl, and_mask_b8]
  rfl

theorem execAlu_sar_b8 :
    execAlu .sar .b8 .none a b c f = ([a.sshiftRight (c &&& 63).toNat], f) := by
  simp only [execAlu, execSar, and_mask_b8]
  rfl

variable {X : Type} {sem : OtherOps X V} {blockEnd : U64} {t : Temp} {s : WalkState V}
  {Q : Stop (WalkState V) → Prop}

theorem readReg_ensures (reg : Reg) : Emit.Ensures (exec sem blockEnd) (readReg reg) t s
      (Yields t s (s.guest.readReg reg)) Q := by
  refine .bind (.fresh (.bind ?_))
  refine .push_ok rfl ?_
  refine .pure ⟨Nat.le_succ t, ?_, Nat.lt_succ_self t, ?_⟩
  · exact (TempsFrom.refl t s).setTemp le_rfl _
  · exact Function.update_self t _ s.guest.temps

theorem aluNone_ensures {kind : AluKind} {a b : Val} {size : Size} {w : U64}
    (h : execAlu kind size .none (s.guest.readVal a) (s.guest.readVal b) (s.guest.readVal b)
      s.flags = ([w], s.flags)) :
    Emit.Ensures (exec sem blockEnd) (aluNone kind a b size) t s (Yields t s w) Q := by
  refine .bind (.fresh (.bind ?_))
  have hexec : exec sem blockEnd (alu kind t a b size .none) s =
      .ok { s with guest := s.guest.setTemp t w } := by
    simp only [exec, alu, AluOp.exec, h]
    rfl
  refine .push_ok hexec ?_
  refine .pure ⟨Nat.le_succ t, ?_, Nat.lt_succ_self t, ?_⟩
  · exact (TempsFrom.refl t s).setTemp le_rfl _
  · exact Function.update_self t _ s.guest.temps

theorem addAddr_ensures {a b : Val} : Emit.Ensures (exec sem blockEnd) (addAddr a b) t s
      (Yields t s (s.guest.readVal a + s.guest.readVal b)) Q :=
  aluNone_ensures (execAlu_add_b8 _ _ _ _)

theorem Yields.then {t' t'' : Temp} {s' s'' : WalkState V} {w w' : U64} {a a' : Val}
    (h : Yields t s w a t' s') (h' : Yields t' s' w' a' t'' s'') : Yields t s w' a' t'' s'' :=
  ⟨h.next.trans h'.next, h.frame.trans h'.frame h.next, h'.below, h'.value⟩

def accValue (g : Guest V) : Option Val → U64
  | none => 0
  | some a => g.readVal a

structure YieldsSum (t : Temp) (s : WalkState V) (w : U64) (acc : Option Val) (t' : Temp)
    (s' : WalkState V) : Prop where
  next : t ≤ t'
  frame : TempsFrom t s s'
  below : ∀ a, acc = some a → Val.Below t' a
  value : accValue s'.guest acc = w

end X86Jit.Lift
