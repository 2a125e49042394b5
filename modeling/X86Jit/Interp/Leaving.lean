import X86Jit.Interp.Exec

/-! How an op leaves its instruction. It goes on in it, or it returns: with a memory trap, with an
exception, or because it is done. -/
namespace X86Jit

def StepResult.refused : StepResult → Bool
  | .exit (.unmappedMemory _ _) | .exit (.mmioRead _ _) | .exit (.mmioWrite _ _ _)
  | .exit (.exception _ _) => true
  | _ => false

variable {X V : Type} (sem : OtherOps X V)

/-- The exception an op leaves the block with: its address and its vector. -/
def IrOp.fault (s : WalkState V) : IrOp X → Option (U64 × U8)
  | .plain (.div _ _ hi lo divisor size signed) =>
    match divide (s.guest.readVal hi) (s.guest.readVal lo) (s.guest.readVal divisor) size signed with
    | some _ => none
    | none => some (s.guest.curAddr, 0)
  | .plain (.trap vector advance) => some (s.guest.curAddr + advance.setWidth 64, vector)
  | .bcd (.aam base) => if base = 0 then some (s.guest.curAddr, 0) else none
  | .set (.other op) =>
    match (sem op s.guest).1 with
    | .error ⟨_, .exit (.exception addr vector)⟩ => some (addr, vector)
    | _ => none
  | _ => none

/-- The interrupt or exception an op hands to the guest itself: its vector and the IP it
saves. -/
def IrOp.gate (s : WalkState V) : IrOp X → Option (U8 × U64)
  | .intGate vector savedIp => some (vector, savedIp)
  | .intoGate nextIp => if s.flags.of then some (4, nextIp) else none
  | .boundGate index lower upper faultIp _ =>
    let idx := (s.guest.readVal index).setWidth 16
    if idx.slt ((s.guest.readVal lower).setWidth 16) ∨
        ((s.guest.readVal upper).setWidth 16).slt idx
    then some (5, faultIp) else none
  | .segLimitCheck offset size vector faultIp =>
    if 0x10000 < (s.guest.readVal offset &&& 0xffff).toNat + size.bytes
    then some (vector, faultIp) else none
  | _ => none

def Guest.stackTop (g : Guest V) : U16 :=
  (g.mem.loadLe (g.ssAddr ((g.gpr rsp).setWidth 16)).toNat 2).setWidth 16

/-- Where an op that is done with its instruction goes: to what its operands, its condition or the
stack says, and otherwise past the block. -/
def IrOp.target (blockEnd : U64) (s : WalkState V) : IrOp X → U64
  | .plain (.jump target) | .plain (.call target _ _ _) => s.guest.readVal target
  | .plain (.ret slot _ _) => s.guest.mem.loadLe (s.guest.gpr rsp).toNat slot.bytes
  | .plain (.farJump _ ip) | .plain (.farCall _ ip _) => s.guest.readVal ip &&& 0xffff
  | .plain (.farRet _) | .iretReal => s.guest.stackTop.setWidth 64
  | .plain (.trap _ advance) => s.guest.curAddr + advance.setWidth 64
  | .branch cond taken fallthrough => if evalCond cond s.flags then taken else fallthrough
  | .loopCx kind taken fallthrough =>
    let cx := (s.guest.gpr rcx).setWidth 16
    let goes := match kind with
      | .jcxz => cx == 0
      | .loop => cx - 1 != 0
      | .loope => cx - 1 != 0 && s.flags.zf
      | .loopne => cx - 1 != 0 && !s.flags.zf
    if goes then taken else fallthrough
  | .intoGate nextIp | .boundGate _ _ _ _ nextIp => nextIp
  | _ => blockEnd

/-- An op with a gate goes to the guest's handler. -/
def IrOp.next (blockEnd : U64) (s : WalkState V) (op : IrOp X) : U64 :=
  match op.gate s with
  | some (vector, savedIp) => (deliverInterrupt s vector savedIp).state.guest.rip
  | none => op.target blockEnd s

variable {α β : Type} {Q : Guest V → Stop (Guest V) → Prop} {g g' : Guest V} {f : α → Guest V}

/-- Where the walk is: the current instruction, how many are behind it, and whether there is
one. -/
def Guest.marks (g : Guest V) : U64 × ℕ × Bool := (g.curAddr, g.retired, g.started)

/-- A property of how an instruction is left that memory traps have. -/
class Leaving (Q : Guest V → Stop (Guest V) → Prop) : Prop where
  congr {g g' : Guest V} {e : Stop (Guest V)} : g'.marks = g.marks → Q g' e → Q g e
  trap (g : Guest V) (t : MemTrap) (addr : U64) (size : Size) (access : AccessKind) (value : U64) :
    Q g (g.trapOut t addr size access value)

/-- A computation that stays in the instruction or leaves it so. -/
def Within (Q : Guest V → Stop (Guest V) → Prop) (g : Guest V) (f : α → Guest V) :
    Except (Stop (Guest V)) α → Prop
  | .ok a => (f a).marks = g.marks
  | .error e => Q g e

variable {m : Except (Stop (Guest V)) α}

theorem Within.ok {a : α} (h : Within Q g f m) (hm : m = .ok a) : (f a).marks = g.marks := by
  rw [hm] at h
  exact h

theorem Within.error {e : Stop (Guest V)} (h : Within Q g f m) (hm : m = .error e) : Q g e := by
  rw [hm] at h
  exact h

variable [Leaving Q]

theorem Within.of_marks (h : g'.marks = g.marks) (hm : Within Q g' f m) : Within Q g f m := by
  cases m with
  | ok a => exact Eq.trans hm h
  | error e => exact Leaving.congr h hm

theorem Within.bind {k : α → Except (Stop (Guest V)) β}
    {f' : β → Guest V} (h : Within Q g f m) (hk : ∀ a, Within Q (f a) f' (k a)) :
    Within Q g f' (m >>= k) := by
  cases m with
  | ok a => exact (hk a).of_marks h
  | error e => exact h

theorem within_trapOut (t : MemTrap) (addr : U64) (size : Size) (access : AccessKind)
    (value : U64) : Within Q g f (.error (g.trapOut t addr size access value)) :=
  Leaving.trap g t addr size access value

theorem within_loadOr (addr : U64) (size : Size) :
    Within Q g (fun _ => g) (g.loadOr addr size) := by
  unfold Guest.loadOr
  cases g.mem.read addr size with
  | ok v => rfl
  | error t => exact within_trapOut t addr size .read 0

theorem within_storeOr (addr val : U64) (size : Size) :
    Within Q g id (g.storeOr addr val size) := by
  unfold Guest.storeOr
  cases g.mem.write addr.toNat val size.bytes with
  | ok m => rfl
  | error t => exact within_trapOut t addr size .write val

theorem loadOr_eq {addr v : U64} {size : Size} (h : g.loadOr addr size = .ok v) :
    v = g.mem.loadLe addr.toNat size.bytes := by
  unfold Guest.loadOr Memory.read at h
  cases hr : g.mem.regionFor addr.toNat size.bytes with
  | none =>
    rw [hr] at h
    cases h
  | some r =>
    rw [hr] at h
    cases hkind : r.kind with
    | trap =>
      simp only [hkind] at h
      cases h
    | ram | rom =>
      simp only [hkind] at h
      cases h
      rfl

theorem pop16_eq {p : U16 × Guest V} (h : g.pop16 = .ok p) : p.1 = g.stackTop := by
  obtain ⟨v, hv, hp⟩ := X86Jit.Lib.bind_eq_ok.1 h
  cases hp
  exact congrArg (BitVec.setWidth 16) (loadOr_eq hv)

theorem within_push16 (w : U16) : Within Q g id (g.push16 w) := by
  exact (within_storeOr _ _ _).bind fun _ => rfl

theorem within_pop16 : Within Q g Prod.snd g.pop16 := by
  exact (within_loadOr _ _).bind fun _ => rfl

theorem within_foldlM {step : Guest V → β → Except (Stop (Guest V)) (Guest V)}
    (h : ∀ g b, Within Q g id (step g b)) (l : List β) (g : Guest V) :
    Within Q g id (l.foldlM step g) := by
  induction l generalizing g with
  | nil => rfl
  | cons b l ih =>
    exact (h g b).bind ih

theorem within_copyDisplays (n : ℕ) (g : Guest V) : Within Q g id (copyDisplays n g) := by
  induction n generalizing g with
  | zero => rfl
  | succ n ih =>
    have hone : Within Q g id (copyDisplay g) := by
      refine Within.of_marks ?_ (Within.bind (within_loadOr _ _) fun _ => within_push16 _)
      rfl
    exact hone.bind ih

theorem within_enterReal (alloc : U16) (level : U8) :
    Within Q g id (execEnterReal g alloc level) := by
  refine (within_push16 _).bind fun g' => ?_
  split
  · rfl
  · refine (within_copyDisplays _ _).bind fun _ => ?_
    exact (within_push16 _).bind fun _ => rfl

theorem within_commitAtomic (old : Temp) (addr src : U64) (size : Size)
    (r : Except MemTrap (U64 × Memory)) : Within Q g id (commitAtomic g old addr src size r) := by
  cases r with
  | ok p => rfl
  | error t => exact within_trapOut t addr size .write src

theorem plain_within {sem : OtherOps X V} {op : PlainOp} {f : Flags} (blockEnd : U64)
    (hgo : ∀ e : Stop (Guest V), e.state.marks = g.marks → e.result.refused = false →
      e.state.rip = (IrOp.plain op : IrOp X).next blockEnd ⟨g, f⟩ → Q g e)
    (hstart : ∀ addr, op ≠ .insnStart addr) (htrap : ∀ vector advance, op ≠ .trap vector advance)
    (hfault : ∀ p, (IrOp.plain op).fault sem ⟨g, f⟩ = some p →
      Q g (g.stopAt g.curAddr (.exit (.exception p.1 p.2)))) :
    Within Q g id (op.exec g blockEnd) := by
  cases op with
  | insnStart addr => exact absurd rfl (hstart addr)
  | trap vector advance => exact absurd rfl (htrap vector advance)
  | writeReg reg src size =>
    change (g.writeReg reg _ size).marks = g.marks
    unfold Guest.writeReg
    split
    · rfl
    · split <;> rfl
  | div quot rem hi lo divisor size signed =>
    change Within Q g id (execDiv g quot rem hi lo divisor size signed)
    unfold execDiv
    split
    · rfl
    · rename_i hd
      exact hfault (g.curAddr, 0) (by simp only [IrOp.fault, hd])
  | load dst addr size =>
    change Within Q g id (execLoad g dst addr size)
    unfold execLoad
    split
    · rfl
    · exact (within_loadOr _ _).bind fun _ => rfl
  | store addr src size =>
    change Within Q g id (execStore g addr src size)
    unfold execStore
    split
    · rfl
    · split
      · rfl
      · exact within_trapOut _ _ _ _ _
  | atomicRmw => exact within_commitAtomic _ _ _ _ _
  | atomicCas => exact within_commitAtomic _ _ _ _ _
  | pushaReal => exact within_foldlM (fun _ _ => within_push16 _) _ _
  | popaReal =>
    refine within_foldlM (fun g slot => ?_) _ _
    refine within_pop16.bind fun r => ?_
    cases slot <;> rfl
  | enterReal alloc level => exact within_enterReal _ _
  | call target returnAddr slot wrap =>
    change Within Q g id (execCall g target returnAddr slot wrap)
    unfold execCall
    dsimp only
    split
    · rename_i e herr
      exact (within_storeOr _ _ _).error herr
    · rename_i g' hok
      have hmarks : g'.marks = g.marks := (within_storeOr (Q := Q) _ _ _).ok hok
      exact hgo _ hmarks rfl rfl
  | ret slot popExtra wrap =>
    change Within Q g id (execRet g slot popExtra wrap)
    unfold execRet
    dsimp only
    split
    · rename_i e herr
      exact (within_loadOr _ _).error herr
    · rename_i ret hok
      exact hgo _ rfl rfl (loadOr_eq hok)
  | farCall cs ip retIp =>
    have hpush : Within Q g id (g.push16 g.cs >>= fun g' => g'.push16 retIp) :=
      (within_push16 _).bind fun _ => within_push16 _
    change Within Q g id (execFarCall g cs ip retIp)
    unfold execFarCall
    split
    · rename_i e herr
      exact hpush.error herr
    · rename_i g' hok
      have hmarks : g'.marks = g.marks := hpush.ok hok
      exact hgo _ hmarks rfl rfl
  | farRet popExtra =>
    change Within Q g id (execFarRet g popExtra)
    unfold execFarRet
    have hpop : Within Q g (fun r : U16 × U16 × Guest V => r.2.2)
        (g.pop16 >>= fun ip => ip.2.pop16 >>= fun cs =>
          pure (ip.1, cs.1, cs.2.setLow16 rsp ((cs.2.gpr rsp).setWidth 16 + popExtra))) := by
      refine within_pop16.bind fun _ => ?_
      exact within_pop16.bind fun _ => rfl
    split
    · rename_i e herr
      exact hpop.error herr
    · rename_i ip cs g' hok
      have hmarks : g'.marks = g.marks := hpop.ok hok
      obtain ⟨p, hp, hok⟩ := X86Jit.Lib.bind_eq_ok.1 hok
      obtain ⟨q, -, hok⟩ := X86Jit.Lib.bind_eq_ok.1 hok
      cases hok
      exact hgo _ hmarks rfl (congrArg (BitVec.setWidth 64) (pop16_eq hp))
  | portIo port value size dirOut =>
    change Within Q g id (.error (execPortIo g blockEnd port value size dirOut))
    cases dirOut <;> exact hgo _ rfl rfl rfl
  | jump | farJump | hlt => exact hgo _ rfl rfl rfl
  | _ => rfl

variable {sem : OtherOps X V} {blockEnd : U64} {s : WalkState V}

def Stays (Q : Guest V → Stop (Guest V) → Prop) (s : WalkState V) : Outcome (WalkState V) → Prop
  | .ok t => t.guest.marks = s.guest.marks
  | .error e => Q s.guest ⟨e.state.guest, e.result⟩

omit [Leaving Q] in
theorem Within.withFlags {o : Outcome (Guest V)} (h : Within Q s.guest id o) (f : Flags) :
    Stays Q s (withFlags f o) := by
  cases o <;> exact h

section
variable {op : IrOp X} (hgo : ∀ e : Stop (Guest V), e.state.marks = s.guest.marks →
  e.result.refused = false → e.state.rip = op.next blockEnd s → Q s.guest e)
include hgo

theorem stays_deliver {vector : U8} {savedIp : U64}
    (hgate : op.gate s = some (vector, savedIp)) :
    Stays Q s (.error (deliverInterrupt s vector savedIp)) := by
  have hnext : (deliverInterrupt s vector savedIp).state.guest.rip = op.next blockEnd s := by
    rw [IrOp.next, hgate]
  revert hnext
  have hframe : Within Q s.guest id (do
      let g ← s.guest.push16 s.flags.toFlags16
      let g ← g.push16 g.cs
      g.push16 (savedIp.setWidth 16)) := by
    refine (within_push16 _).bind fun _ => ?_
    exact (within_push16 _).bind fun _ => within_push16 _
  have hentry (g : Guest V) : Within Q g (fun _ => g) (do
      let newIp ← g.loadOr (vector.setWidth 64 * 4) .b2
      let newCs ← g.loadOr (vector.setWidth 64 * 4 + 2) .b2
      return (newIp, newCs)) := by
    refine (within_loadOr _ _).bind fun _ => ?_
    exact (within_loadOr _ _).bind fun _ => rfl
  unfold deliverInterrupt
  dsimp only
  split
  · rename_i e herr
    exact fun _ => hframe.error herr
  · rename_i g hok
    have hmarks : g.marks = s.guest.marks := hframe.ok hok
    split
    · rename_i e herr
      exact fun _ => ((hentry g).of_marks hmarks).error herr
    · exact fun hnext => hgo ⟨_, _⟩ hmarks rfl hnext

end

theorem stays_iretReal (hgo : ∀ e : Stop (Guest V), e.state.marks = s.guest.marks →
    e.result.refused = false → e.state.rip = s.guest.stackTop.setWidth 64 → Q s.guest e) :
    Stays Q s (.error (execIretReal s)) := by
  have hframe : Within Q s.guest Prod.snd (s.guest.pop16 >>= fun ip => ip.2.pop16 >>= fun cs =>
      cs.2.pop16 >>= fun image => pure ((ip.1, cs.1, image.1), image.2)) := by
    refine within_pop16.bind fun _ => ?_
    refine within_pop16.bind fun _ => ?_
    exact within_pop16.bind fun _ => rfl
  unfold execIretReal
  dsimp only
  split
  · rename_i e herr
    exact hframe.error herr
  · rename_i ip cs image g hok
    have hmarks : g.marks = s.guest.marks := hframe.ok hok
    obtain ⟨p, hp, hok⟩ := X86Jit.Lib.bind_eq_ok.1 hok
    obtain ⟨q, -, hok⟩ := X86Jit.Lib.bind_eq_ok.1 hok
    obtain ⟨r, -, hok⟩ := X86Jit.Lib.bind_eq_ok.1 hok
    cases hok
    exact hgo ⟨_, _⟩ hmarks rfl (congrArg (BitVec.setWidth 64) (pop16_eq hp))

theorem stays_runString (i : StrInsn) : Stays Q s (runString s i) := by
  apply Within.withFlags
  split
  · rfl
  · refine Within.of_marks ?_ (within_trapOut _ _ _ _ _)
    rfl

theorem exec_stays {op : IrOp X}
    (hgo : ∀ e : Stop (Guest V), e.state.marks = s.guest.marks → e.result.refused = false →
      e.state.rip = op.next blockEnd s → Q s.guest e)
    (hstart : ∀ addr, op ≠ .plain (.insnStart addr))
    (htrap : ∀ vector advance, op ≠ .plain (.trap vector advance))
    (hother : ∀ x, op ≠ .set (.other x)) (hfault : ∀ p, op.fault sem s = some p →
      Q s.guest (s.guest.stopAt s.guest.curAddr (.exit (.exception p.1 p.2)))) :
    Stays Q s (exec sem blockEnd op s) := by
  cases op with
  | plain op =>
    refine (plain_within (f := s.flags) blockEnd hgo ?_ ?_ hfault).withFlags _
    · rintro addr rfl
      exact hstart addr rfl
    · rintro vector advance rfl
      exact htrap vector advance rfl
  | set op =>
    refine Within.withFlags (o := (op.exec s.guest sem).1) ?_ _
    cases op with
    | other op => exact absurd rfl (hother op)
    | bitScan dst src old size op => cases op <;> rfl
    | _ => rfl
  | bcd kind =>
    refine Within.withFlags (o := (execBcd kind s.flags.cf s.flags.af s.guest).1) ?_ _
    cases kind with
    | aam base =>
      simp only [execBcd]
      split
      · rename_i hbase
        exact hfault (s.guest.curAddr, 0) (by simp only [IrOp.fault, hbase, if_true])
      · rfl
    | _ => rfl
  | pushfReal => exact (within_push16 _).withFlags _
  | popfReal =>
    have h : Within Q s.guest Prod.snd s.guest.pop16 := within_pop16
    change Stays Q s (execPopfReal s)
    unfold execPopfReal
    cases hp : s.guest.pop16 with
    | ok r =>
      rw [hp] at h
      exact h
    | error e =>
      rw [hp] at h
      exact h
  | repString | repStringReal => exact stays_runString _
  | segLimitCheck offset size vector faultIp =>
    simp only [exec]
    split
    · rename_i hout
      exact stays_deliver hgo (if_pos hout)
    · rfl
  | branch => exact hgo ⟨_, _⟩ rfl rfl rfl
  | loopCx kind taken fallthrough =>
    cases kind <;> refine hgo ⟨_, _⟩ rfl rfl ?_ <;> simp [IrOp.next, IrOp.gate, IrOp.target, execLoopCx, goTo]
  | syscall isAmd64 => cases isAmd64 <;> exact hgo ⟨_, _⟩ rfl rfl rfl
  | intGate => exact stays_deliver hgo rfl
  | intoGate nextIp =>
    simp only [exec]
    split
    · rename_i hof
      exact stays_deliver hgo (if_pos hof)
    · rename_i hof
      exact hgo ⟨_, _⟩ rfl rfl (by simp only [IrOp.next, IrOp.gate, hof]; rfl)
  | boundGate index lower upper faultIp nextIp =>
    simp only [exec, execBoundGate]
    split
    · rename_i hout
      exact stays_deliver hgo (if_pos hout)
    · rename_i hin
      exact hgo ⟨_, _⟩ rfl rfl (by simp only [IrOp.next, IrOp.gate, if_neg hin]; rfl)
  | iretReal => exact stays_iretReal hgo
  | alu op =>
    change (setTemps s.guest _).marks = s.guest.marks
    rw [setTemps_eq]
    rfl
  | _ => rfl

end X86Jit
