import X86Jit.Interp.Delivery
import X86Jit.Interp.Other
import X86Jit.Lift.Address
import X86Jit.Lift.Block
import X86Jit.Lift.Order

/-! What an instruction leaves behind when a memory access of it is not mapped. Up to the access
that faults only temps are written; the updates of memory in place set the flags before. -/
namespace X86Jit
open X86Jit.Lib

def StepResult.isUnmapped : StepResult → Bool
  | .exit (.unmappedMemory _ _) => true
  | _ => false

structure Undone {V : Type} (s s' : WalkState V) : Prop where
  rip : s'.guest.rip = s.guest.curAddr
  gpr : s'.guest.gpr = s.guest.gpr
  mem : s'.guest.mem = s.guest.mem
  flags : s'.flags = s.flags

structure ReadOnly {V : Type} (s s' : WalkState V) : Prop where
  rest : s' = { s with guest := { s.guest with
    temps := s'.guest.temps, pendingMmio := s'.guest.pendingMmio } }

theorem Undone.of_readOnly {V : Type} {s s' s'' : WalkState V} (h : ReadOnly s s')
    (h' : Undone s' s'') : Undone s s'' := by
  obtain ⟨hrip, hgpr, hmem, hflags⟩ := h'
  rw [h.rest] at hrip hgpr hmem hflags
  exact ⟨hrip, hgpr, hmem, hflags⟩

variable {V : Type} (s : WalkState V)

theorem undone_trapOut (trap : MemTrap) (addr : U64) (size : Size) (access : AccessKind)
    (value : U64) : Undone s ⟨(s.guest.trapOut trap addr size access value).state, s.flags⟩ :=
  ⟨rfl, rfl, rfl, rfl⟩

theorem undone_withFlags {o : Outcome (Guest V)} {f : Flags}
    (h : ∀ e, o = .error e → e.result.isUnmapped = true → Undone s ⟨e.state, f⟩)
    {e : Stop (WalkState V)} (he : withFlags f o = .error e) (hu : e.result.isUnmapped = true) :
    Undone s e.state := by
  cases o with
  | ok g => cases he
  | error e' =>
    cases he
    exact h e' rfl hu

variable {e : Stop (Guest V)} {size : Size} {addr : U64}

theorem undone_loadOr (h : s.guest.loadOr addr size = .error e) : Undone s ⟨e.state, s.flags⟩ := by
  unfold Guest.loadOr at h
  cases hread : s.guest.mem.read addr size with
  | ok v =>
    rw [hread] at h
    cases h
  | error trap =>
    rw [hread] at h
    cases h
    exact undone_trapOut s _ _ _ _ _

theorem undone_storeOr {val : U64}
    (h : s.guest.storeOr addr val size = .error e) : Undone s ⟨e.state, s.flags⟩ := by
  unfold Guest.storeOr at h
  split at h
  · cases h
    exact undone_trapOut s _ _ _ _ _
  · cases h

theorem undone_execLoad {dst : Temp} {addr : Val}
    (h : execLoad s.guest dst addr size = .error e) : Undone s ⟨e.state, s.flags⟩ := by
  unfold execLoad at h
  split at h
  · cases h
  · cases hload : s.guest.loadOr (s.guest.readVal addr) size with
    | ok v =>
      rw [hload] at h
      cases h
    | error e' =>
      rw [hload] at h
      cases h
      exact undone_loadOr s hload

theorem undone_execStore {addr src : Val}
    (h : execStore s.guest addr src size = .error e) : Undone s ⟨e.state, s.flags⟩ := by
  unfold execStore at h
  split at h
  · cases h
  · split at h
    · cases h
    · cases h
      exact undone_trapOut s _ _ _ _ _

theorem undone_commitAtomic {old : Temp} {src : U64} {o : Except MemTrap (U64 × Memory)}
    (h : commitAtomic s.guest old addr src size o = .error e) : Undone s ⟨e.state, s.flags⟩ := by
  cases o with
  | ok p => cases h
  | error trap =>
    cases h
    exact undone_trapOut s _ _ _ _ _

theorem undone_execCall {target : Val} {returnAddr : U64} {slot : Size} {wrap : Bool}
    (h : execCall s.guest target returnAddr slot wrap = .error e)
    (hu : e.result.isUnmapped = true) : Undone s ⟨e.state, s.flags⟩ := by
  unfold execCall at h
  dsimp only at h
  split at h
  · rename_i e' hstore
    cases h
    exact undone_storeOr s hstore
  · cases h
    cases hu

theorem undone_execRet {slot : Size} {popExtra : U16} {wrap : Bool}
    (h : execRet s.guest slot popExtra wrap = .error e) (hu : e.result.isUnmapped = true) :
    Undone s ⟨e.state, s.flags⟩ := by
  unfold execRet at h
  dsimp only at h
  split at h
  · rename_i e' hload
    cases h
    exact undone_loadOr s hload
  · cases h
    cases hu

theorem undone_execFxState (s : WalkState Ext) {addr : Val} {restore : Bool} {e : Stop (Guest Ext)}
    (h : execFxState s.guest addr restore = .error e) : Undone s ⟨e.state, s.flags⟩ := by
  unfold execFxState at h
  dsimp only at h
  split at h
  · split at h
    · cases h
    · cases h
      exact ⟨rfl, rfl, rfl, rfl⟩
  · split at h
    · cases h
    · cases h
      exact ⟨rfl, rfl, rfl, rfl⟩

end X86Jit

namespace X86Jit.Lift
open X86Jit.Lib

variable {Y : Type} {sem : OtherOps Y Ext} {blockEnd : U64} {op : IrOp (OtherOp Y)}
  {s : WalkState Ext}

theorem execAlu_none_flags (kind : AluKind) (size : Size) (a b count : U64) (f : Flags) :
    (execAlu kind size .none a b count f).2 = f := by
  obtain ⟨vals, r, h⟩ := execAlu_spec kind size a b count f.cf
  rw [h .none f fun _ => rfl, apply_of_isNone rfl, ite_self]

theorem readOnly_temps {temps : Temp → U64} :
    ReadOnly s { s with guest := { s.guest with temps } } := ⟨rfl⟩

theorem exec_read_ok (h : isRead op = true) {s' : WalkState Ext}
    (hok : exec (otherOps sem) blockEnd op s = .ok s') : ReadOnly s s' := by
  cases op with
  | plain op =>
    cases op with
    | readReg dst reg | sext dst a width | bswap dst a size | crc32 dst crc src bytes =>
      cases hok
      exact ⟨rfl⟩
    | load dst addr size =>
      change withFlags s.flags (execLoad s.guest dst addr size) = .ok s' at hok
      unfold execLoad at hok
      split at hok
      · cases hok
        exact ⟨rfl⟩
      · cases hload : s.guest.loadOr (s.guest.readVal addr) size with
        | ok v =>
          rw [hload] at hok
          cases hok
          exact ⟨rfl⟩
        | error e =>
          rw [hload] at hok
          cases hok
    | _ => cases h
  | alu o =>
    have hnone : o.setFlags = .none := eq_of_beq h
    cases hok
    unfold AluOp.exec
    dsimp only
    rw [hnone, execAlu_none_flags, setTemps_eq]
    exact readOnly_temps
  | getCond dst cond =>
    cases hok
    exact ⟨rfl⟩
  | _ => cases h

variable {e : Stop (WalkState Ext)}

theorem exec_read_error (h : isRead op = true)
    (he : exec (otherOps sem) blockEnd op s = .error e) (hu : e.result.isUnmapped = true) :
    Undone s e.state := by
  cases op with
  | plain op =>
    cases op with
    | readReg dst reg | sext dst a width | bswap dst a size | crc32 dst crc src bytes => cases he
    | load dst addr size => exact undone_withFlags s (fun e' h' _ => undone_execLoad s h') he hu
    | _ => cases h
  | alu o => cases he
  | getCond dst cond => cases he
  | _ => cases h

theorem exec_steady_error (h : isSteady op = true)
    (he : exec (otherOps sem) blockEnd op s = .error e) : e.result.isUnmapped = false := by
  cases op with
  | plain op =>
    cases op with
    | insnStart | readReg | writeReg | sext | bswap | crc32 => cases he
    | div quot rem hi lo divisor size signed =>
      change withFlags s.flags (execDiv s.guest quot rem hi lo divisor size signed) = .error e at he
      unfold execDiv at he
      split at he
      · cases he
      · cases he
        rfl
    | jump | farJump | hlt | trap =>
      cases he
      rfl
    | portIo port value size dirOut =>
      cases he
      unfold execPortIo
      split <;> rfl
    | _ => cases h
  | set op =>
    cases op with
    | other op =>
      cases op with
      | cpuid | xgetbv => cases he
      | _ => cases h
    | bt | popcnt | bmi | sahf => cases he
    | bitScan dst src old size op => cases op <;> cases he
  | bcd kind =>
    cases kind with
    | aam base =>
      change withFlags (s.flags.write (execBcd (.aam base) _ _ s.guest).2)
        (execBcd (.aam base) _ _ s.guest).1 = .error e at he
      unfold execBcd at he
      dsimp only at he
      split at he
      · cases he
        rfl
      · cases he
    | _ => cases he
  | branch | syscall =>
    cases he
    rfl
  | loopCx kind taken fallthrough =>
    cases he
    cases kind <;> rfl
  | alu | getCond | lahf | setCf | setDf | setIf => cases he
  | _ => cases h

theorem exec_whole_error (h : isWhole op = true)
    (he : exec (otherOps sem) blockEnd op s = .error e) (hu : e.result.isUnmapped = true) :
    Undone s e.state := by
  have hsteady (hs : isSteady op = true) : Undone s e.state := by
    rw [exec_steady_error hs he] at hu
    cases hu
  cases op with
  | plain op =>
    cases op with
    | store addr src size => exact undone_withFlags s (fun e' h' _ => undone_execStore s h') he hu
    | atomicRmw old addr src size rop =>
      exact undone_withFlags s (fun e' h' _ => undone_commitAtomic s h') he hu
    | atomicCas old addr expected src size =>
      exact undone_withFlags s (fun e' h' _ => undone_commitAtomic s h') he hu
    | call target returnAddr slot wrap =>
      exact undone_withFlags s (fun e' h' hu' => undone_execCall s h' hu') he hu
    | ret slot popExtra wrap =>
      exact undone_withFlags s (fun e' h' hu' => undone_execRet s h' hu') he hu
    | _ => exact hsteady h
  | set op =>
    cases op with
    | other op =>
      cases op with
      | fxState addr restore =>
        have hwrite : s.flags.write (fun _ => none) = s.flags := rfl
        change withFlags (s.flags.write fun _ => none) (execFxState s.guest addr restore) =
          .error e at he
        exact undone_withFlags s (fun e' h' _ => undone_execFxState s h') he hu
      | _ => exact hsteady h
    | _ => exact hsteady h
  | _ => exact hsteady h

variable {l : List (IrOp (OtherOp Y))}

theorem walk_steady (h : l.all isSteady = true) :
    (walk (exec (otherOps sem) blockEnd) l s).Meets (fun _ => True)
      fun e => e.result.isUnmapped = false := by
  induction l generalizing s with
  | nil => trivial
  | cons op l ih =>
    rw [List.all_cons, Bool.and_eq_true] at h
    cases ho : exec (otherOps sem) blockEnd op s with
    | error e =>
      rw [walk_cons_error ho]
      exact exec_steady_error h.1 ho
    | ok s' =>
      rw [walk_cons_ok ho, Walked.meets_later]
      exact ih h.2

theorem walk_ordered (h : ordered false isWhole l = true) :
    (walk (exec (otherOps sem) blockEnd) l s).Meets (fun _ => True)
      fun e => e.result.isUnmapped = true → Undone s e.state := by
  induction l generalizing s with
  | nil => trivial
  | cons op l ih =>
    unfold ordered at h
    by_cases hearly : isEarly false op = true
    · -- a read: whatever faults later does so from the same registers
      rw [if_pos hearly] at h
      have hread : isRead op = true := by simpa [isEarly] using hearly
      cases ho : exec (otherOps sem) blockEnd op s with
      | error e =>
        rw [walk_cons_error ho]
        exact exec_read_error hread ho
      | ok s' =>
        rw [walk_cons_ok ho, Walked.meets_later]
        refine (ih h).imp (fun _ => id) ?_
        intro e he hu
        exact (he hu).of_readOnly (exec_read_ok hread ho)
    · -- the late op: nothing after it faults
      rw [if_neg hearly, Bool.and_eq_true] at h
      cases ho : exec (otherOps sem) blockEnd op s with
      | error e =>
        rw [walk_cons_error ho]
        exact exec_whole_error h.1 ho
      | ok s' =>
        rw [walk_cons_ok ho, Walked.meets_later]
        refine (walk_steady h.2).imp (fun _ => id) ?_
        intro e he hu
        rw [he] at hu
        cases hu

variable {real : Bool} {late : IrOp (OtherOp Y) → Bool} {l' : List (IrOp (OtherOp Y))}

theorem elideFrom_cons {X : Type} (op : IrOp X) (l : List (IrOp X)) :
    elideFrom (op :: l) = elideStep op (elideFrom l) := rfl

theorem steady_elideFrom (h : l.all isSteady = true) : (elideFrom l).1.all isSteady = true := by
  induction l with
  | nil => rfl
  | cons op l ih =>
    rw [List.all_cons, Bool.and_eq_true] at h
    cases op with
    | alu o => exact ih h.2
    | _ =>
      change (_ && _) = true
      rw [h.1]
      exact ih h.2

theorem elideStep_of_early (h : isEarly real op = true)
    (acc : List (IrOp (OtherOp Y)) × U8) : (elideStep op acc).1 = op :: acc.1 := by
  cases op with
  | alu o =>
    have hnone : o.setFlags = .none := by simpa [isEarly, isRead, isCheck] using h
    have hbits : o.setFlags.bits &&& acc.2 = o.setFlags.bits := by
      rw [hnone]
      exact BitVec.zero_and
    change IrOp.alu { o with setFlags := ⟨o.setFlags.bits &&& acc.2⟩ } :: acc.1 = _
    rw [hbits]
  | _ => rfl

theorem elideFrom_append_of_early (h : l.all (isEarly real) = true) :
    (elideFrom (l ++ l')).1 = l ++ (elideFrom l').1 := by
  induction l with
  | nil => rfl
  | cons op l ih =>
    rw [List.all_cons, Bool.and_eq_true] at h
    rw [List.cons_append, elideFrom_cons, elideStep_of_early h.1, ih h.2]
    rfl

theorem ordered_elideFrom (hlate : ∀ op, isSteady op = true → late op = true)
    (h : ordered real late l = true) : ordered real late (elideFrom l).1 = true := by
  induction l with
  | nil => rfl
  | cons op l ih =>
    rw [elideFrom_cons]
    unfold ordered at h
    by_cases hearly : isEarly real op = true
    · rw [if_pos hearly] at h
      rw [elideStep_of_early hearly, ordered, if_pos hearly]
      exact ih h
    · rw [if_neg hearly, Bool.and_eq_true] at h
      have hrest := steady_elideFrom h.2
      by_cases halu : ∃ o, op = .alu o
      · obtain ⟨o, rfl⟩ := halu
        -- a narrowed mask may be empty, and then the op counts as early
        apply ordered_of_steady hlate
        exact hrest
      · have hne (o : AluOp) : op ≠ .alu o := fun h => halu ⟨o, h⟩
        rw [elideStep_of_ne hne, ordered, if_neg hearly, h.1, hrest]
        rfl

theorem ordered_elideDeadFlags (hlate : ∀ op, isSteady op = true → late op = true)
    (disabled : Bool) (h : ordered real late l = true) :
    ordered real late (elideDeadFlags disabled l) = true := by
  unfold elideDeadFlags
  split
  · exact h
  · exact ordered_elideFrom hlate h

def Kept {α : Type} (m : LiftM (OtherOp Y) α) : Prop := m.Gives fun _ l => (elideFrom l).1 = l

theorem Emits.thenKept {α β : Type} {m : LiftM (OtherOp Y) α} {f : α → LiftM (OtherOp Y) β}
    (h : Early Y false m) (hf : ∀ a, Kept (f a)) : Kept (m >>= f) := by
  refine Emit.Gives.bind h ?_
  intro a l hl
  refine (hf a).imp ?_
  intro b l' hl'
  rw [elideFrom_append_of_early hl, hl']

theorem Kept.straight {m : LiftM (OtherOp Y) Unit} (h : Kept m) : Kept (straight m) := by
  refine Emit.Gives.bind h ?_
  intro a l hl
  apply Emit.Gives.pure
  rw [List.append_nil]
  exact hl

theorem kept_flagged_store (hop : ∀ o, op = .alu o → o.setFlags.bits &&&
    0b111111 = o.setFlags.bits) (addr src : Val) (size : Size) :
    Kept (do Emit.push op; pushPlain (.store addr src size)) := by
  intro t r hr
  obtain ⟨r₁, r₂, h₁, h₂, rfl⟩ := Emit.bind_ok.mp hr
  cases h₁
  cases h₂
  change (elideStep op (elideFrom [.plain (.store addr src size)])).1 = _
  cases op with
  | alu o =>
    have hlive : (elideFrom [(.plain (.store addr src size) : IrOp (OtherOp Y))]).2 = 0b111111 :=
      BitVec.or_zero
    unfold elideStep
    dsimp only
    rw [hlive, hop o rfl]
    rfl
  | _ => rfl

end X86Jit.Lift
