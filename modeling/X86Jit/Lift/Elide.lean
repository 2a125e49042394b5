import X86Jit.Interp.StringRun
import X86Jit.Lib.DeadStores

/-! The pass that narrows the flag masks of a block, walking backwards with the set of flags some
known reader still wants. -/
namespace X86Jit.Lift
open X86Jit.Lib

variable {X : Type}

def flagBit (x : Flag) : U8 := 1#8 <<< x.index

def condReads : Cond → U8
  | .eq | .ne => flagBit .zf
  | .below | .aboveEq => flagBit .cf
  | .belowEq | .above => flagBit .cf ||| flagBit .zf
  | .less | .greaterEq => flagBit .sf ||| flagBit .of
  | .lessEq | .greater => flagBit .sf ||| flagBit .of ||| flagBit .zf
  | .sign | .noSign => flagBit .sf
  | .overflow | .noOverflow => flagBit .of
  | .parity | .noParity => flagBit .pf

/-- The flags the pass takes an op to read: conditions and carry-ins, nothing else. -/
def opReads : IrOp X → U8
  | .branch cond _ _ => condReads cond
  | .getCond _ cond => condReads cond
  | .alu op =>
    match op.kind with
    | .adc | .sbb | .rcl | .rcr => flagBit .cf
    | _ => 0
  | _ => 0

/-- A shift or rotate by a count that is not known, or known to have no effect. -/
def shiftFlagsMaySkip (op : AluOp) : Bool :=
  let cmask : U64 := if op.size = .b8 then 0x3f else 0x1f
  let skips (throughCarry : Bool) : Bool :=
    match op.count with
    | .imm n =>
      let masked := (n &&& cmask).toNat
      (if throughCarry then masked % (op.size.bytes * 8 + 1) else masked) == 0
    | .temp _ => true
  match op.kind with
  | .shl | .shr | .sar | .rol | .ror | .doubleShift _ => skips false
  | .rcl | .rcr => skips true
  | _ => false

def elideStep (op : IrOp X) (acc : List (IrOp X) × U8) : List (IrOp X) × U8 :=
  match op with
  | .alu o =>
    let m := o.setFlags.bits &&& acc.2
    let kills := if shiftFlagsMaySkip o then 0 else m
    (.alu { o with setFlags := ⟨m⟩ } :: acc.1, (acc.2 &&& ~~~kills) ||| opReads op)
  | _ => (op :: acc.1, acc.2 ||| opReads op)

/-- The narrowed ops and the flags live before them. Every flag is live at the end of the block. -/
def elideFrom (ops : List (IrOp X)) : List (IrOp X) × U8 :=
  ops.foldr elideStep ([], 0b111111)

def elideDeadFlags (disabled : Bool) (ops : List (IrOp X)) : List (IrOp X) :=
  if disabled then ops else (elideFrom ops).1

def surelyMasked : IrOp X → Flag → Bool
  | .alu op, x => op.setFlags.has x && !shiftFlagsMaySkip op
  | _, _ => false

/-- The flags an op looks at, on a path where the block goes on, that the pass does not
know of. -/
def hiddenReads : IrOp X → Flag → Bool
  | .lahf, x => x != .of
  | .pushfReal, _ => true
  | .setCf none, x => x == .cf
  | .bcd .daa, x => x == .cf || x == .af
  | .bcd .das, x => x == .cf || x == .af
  | .bcd .aaa, x => x == .af
  | .bcd .aas, x => x == .af
  | .repString op elem repKind addrBits _, x =>
    x == .zf && StrInsn.readsZf ⟨op, elem, repKind, addrBits, 0, 0⟩
  | .repStringReal op elem repKind _ _, x =>
    x == .zf && StrInsn.readsZf ⟨op, elem, repKind, .a16, 0, 0⟩
  | _, _ => false

def flagUse : StoreUse Flag (IrOp X) where
  reads op x := FlagMask.has ⟨opReads op⟩ x
  sure := surelyMasked

inductive Narrowed (D : Flag → Bool) : IrOp X → IrOp X → Prop
  | alu (o : AluOp) (m : FlagMask) (h : ∀ x, m.has x = (o.setFlags.has x && !D x)) :
      Narrowed D (.alu o) (.alu { o with setFlags := m })
  | other (op : IrOp X) (h : ∀ o, op ≠ .alu o) : Narrowed D op op

theorem has_and (a b : U8) (x : Flag) :
    FlagMask.has ⟨a &&& b⟩ x = (FlagMask.has ⟨a⟩ x && FlagMask.has ⟨b⟩ x) :=
  BitVec.getLsbD_and

theorem has_or (a b : U8) (x : Flag) :
    FlagMask.has ⟨a ||| b⟩ x = (FlagMask.has ⟨a⟩ x || FlagMask.has ⟨b⟩ x) :=
  BitVec.getLsbD_or

theorem has_not (a : U8) (x : Flag) : FlagMask.has ⟨~~~a⟩ x = !FlagMask.has ⟨a⟩ x := by
  have hx : x.index < 8 := by cases x <;> decide
  simp [FlagMask.has, hx]

theorem elideStep_of_ne {op : IrOp X} (h : ∀ o, op ≠ .alu o) (acc : List (IrOp X) × U8) :
    elideStep op acc = (op :: acc.1, acc.2 ||| opReads op) := by
  cases op with
  | alu o => exact absurd rfl (h o)
  | _ => rfl

theorem surelyMasked_of_ne {op : IrOp X} (h : ∀ o, op ≠ .alu o) (x : Flag) :
    surelyMasked op x = false := by
  cases op with
  | alu o => exact absurd rfl (h o)
  | _ => rfl

theorem live_alu (o : AluOp) (acc : List (IrOp X) × U8) (x : Flag) :
    FlagMask.has ⟨(elideStep (.alu o) acc).2⟩ x = (FlagMask.has ⟨opReads (.alu o : IrOp X)⟩ x ||
        (FlagMask.has ⟨acc.2⟩ x && !surelyMasked (.alu o : IrOp X) x)) := by
  have hmask : FlagMask.has ⟨o.setFlags.bits⟩ x = o.setFlags.has x := rfl
  have hnone : FlagMask.has ⟨0⟩ x = false := FlagMask.has_of_isNone rfl x
  rw [elideStep, has_or, has_and, has_not, surelyMasked, Bool.or_comm]
  cases shiftFlagsMaySkip o with
  | true => rw [if_pos rfl, hnone, Bool.not_true, Bool.and_false]
  | false =>
    rw [if_neg Bool.false_ne_true, has_and]
    cases o.setFlags.has x <;> simp

/-- What the walk computes: the dropped writes are the dead ones, and the live set is the
rest. -/
theorem elideFrom_spec (ops : List (IrOp X)) : flagUse.Eliminated Narrowed ops (elideFrom ops).1 ∧
      ∀ x, FlagMask.has ⟨(elideFrom ops).2⟩ x = !flagUse.dead ops x := by
  induction ops with
  | nil => exact ⟨.nil, FlagMask.has_all⟩
  | cons op rest ih =>
    obtain ⟨helim, hlive⟩ := ih
    have hcons : elideFrom (op :: rest) = elideStep op (elideFrom rest) := rfl
    have hdead (x : Flag) : flagUse.dead (op :: rest) x =
        (!FlagMask.has ⟨opReads op⟩ x && (surelyMasked op x || flagUse.dead rest x)) := rfl
    rw [hcons]
    by_cases halu : ∃ o, op = .alu o
    · obtain ⟨o, rfl⟩ := halu
      constructor
      · refine .cons (.alu o _ ?_) helim
        intro x
        rw [has_and, hlive]
      · intro x
        rw [live_alu, hlive, hdead, Bool.not_and, Bool.not_not, Bool.not_or, Bool.and_comm]
    · have hne (o : AluOp) : op ≠ .alu o := fun h => halu ⟨o, h⟩
      rw [elideStep_of_ne hne]
      constructor
      · exact .cons (.other op hne) helim
      · intro x
        rw [has_or, hlive, hdead, surelyMasked_of_ne hne, Bool.false_or, Bool.not_and, Bool.not_not,
          Bool.or_comm]

end X86Jit.Lift
