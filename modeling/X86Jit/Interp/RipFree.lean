import X86Jit.Interp.X87

/-! No op but a register access by name looks at RIP. So the same code can be entered again with
RIP on its instruction, whatever RIP was before. -/
namespace X86Jit
open X86Jit.Lib X86Jit.Lift

variable {V X : Type}

def Guest.atRip (g : Guest V) (rip : U64) : Guest V := { g with rip }

def WalkState.atRip (s : WalkState V) (rip : U64) : WalkState V :=
  { s with guest := s.guest.atRip rip }

def RipFree (f : Guest V → Except (Stop (Guest V)) (Guest V)) : Prop :=
  ∀ g rip, f (g.atRip rip) = (f g).map fun g' => g'.atRip rip

def namesRip : IrOp X → Bool
  | .plain (.readReg _ reg) => reg == .rip
  | .plain (.writeReg reg _ _) => reg == .rip
  | _ => false

namespace RipFree
variable {f k : Guest V → Except (Stop (Guest V)) (Guest V)}

theorem bind (hf : RipFree f) (hk : RipFree k) : RipFree fun g => f g >>= k := by
  intro g rip
  change f (g.atRip rip) >>= k = (f g >>= k).map _
  rw [hf g rip]
  cases f g with
  | error e => rfl
  | ok g' => exact hk g' rip

theorem foldlM {α : Type} {step : Guest V → α → Except (Stop (Guest V)) (Guest V)}
    (h : ∀ a, RipFree fun g => step g a) (l : List α) : RipFree fun g => l.foldlM step g := by
  induction l with
  | nil =>
    intro g rip
    rfl
  | cons a l ih => exact (h a).bind ih

end RipFree

section Accesses
variable (g : Guest V) (rip : U64)

theorem loadOr_atRip (addr : U64) (size : Size) :
    (g.atRip rip).loadOr addr size = g.loadOr addr size := rfl

theorem gpr_atRip : (g.atRip rip).gpr = g.gpr := rfl

theorem ssAddr_atRip (sp : U16) : (g.atRip rip).ssAddr sp = g.ssAddr sp := rfl

theorem storeOr_ripFree (addr val : U64) (size : Size) :
    RipFree fun g : Guest V => g.storeOr addr val size := by
  intro g rip
  have hmem : (g.atRip rip).mem = g.mem := rfl
  simp only [Guest.storeOr, hmem]
  cases g.mem.write addr.toNat val size.bytes <;> rfl

theorem push16_ripFree (word : U16) : RipFree fun g : Guest V => g.push16 word := by
  intro g rip
  let sp := (g.gpr rsp).setWidth 16 - 2
  have hcommit : RipFree fun g' : Guest V => .ok (g'.setLow16 rsp sp) := fun _ _ => rfl
  exact (storeOr_ripFree (g.ssAddr sp) (word.setWidth 64) .b2).bind hcommit g rip

theorem pop16_atRip : (g.atRip rip).pop16 = g.pop16.map fun p => (p.1, p.2.atRip rip) := by
  simp only [Guest.pop16, loadOr_atRip, gpr_atRip, ssAddr_atRip]
  cases g.loadOr (g.ssAddr ((g.gpr rsp).setWidth 16)) .b2 <;> rfl

end Accesses

theorem setTemps_atRip (g : Guest V) (rip : U64) (l : List (Temp × U64)) :
    setTemps (g.atRip rip) l = (setTemps g l).atRip rip := by
  rw [setTemps_eq, setTemps_eq]
  rfl

theorem execPopaReal_ripFree : RipFree (execPopaReal (V := V)) := by
  apply RipFree.foldlM
  intro slot g rip
  simp only [pop16_atRip]
  cases g.pop16 with
  | error e => rfl
  | ok p => cases slot <;> rfl

theorem copyDisplay_ripFree : RipFree (copyDisplay (V := V)) := by
  intro g rip
  let bp := (g.gpr rbp).setWidth 16 - 2
  have hload : RipFree fun g' : Guest V =>
      (g.setLow16 rbp bp).loadOr (g.ssAddr bp) .b2 >>= fun w => g'.push16 (w.setWidth 16) := by
    cases (g.setLow16 rbp bp).loadOr (g.ssAddr bp) .b2 with
    | error e => exact fun _ _ => rfl
    | ok w => exact push16_ripFree (w.setWidth 16)
  exact hload (g.setLow16 rbp bp) rip

theorem copyDisplays_ripFree (n : ℕ) : RipFree (copyDisplays (V := V) n) := by
  induction n with
  | zero =>
    intro g rip
    rfl
  | succ n ih => exact copyDisplay_ripFree.bind ih

theorem execEnterReal_ripFree (alloc : U16) (level : U8) :
    RipFree fun g : Guest V => execEnterReal g alloc level := by
  intro g rip
  have hpush := push16_ripFree (V := V) ((g.gpr rbp).setWidth 16) g rip
  simp only [execEnterReal, gpr_atRip, hpush]
  cases g.push16 ((g.gpr rbp).setWidth 16) with
  | error e => rfl
  | ok g₁ =>
    let framePtr := (g₁.gpr rsp).setWidth 16
    have hdone : RipFree fun g' : Guest V =>
        .ok ((g'.setLow16 rbp framePtr).setLow16 rsp
          (((g'.setLow16 rbp framePtr).gpr rsp).setWidth 16 - alloc)) := fun _ _ => rfl
    by_cases hdepth : (level &&& 0x1f).toNat = 0
    · simp only [if_pos hdepth]
      exact hdone g₁ rip
    · simp only [if_neg hdepth]
      have hframe : RipFree fun g' : Guest V => g'.push16 framePtr := push16_ripFree framePtr
      exact (copyDisplays_ripFree _).bind (hframe.bind hdone) g₁ rip

theorem execCall_ripFree (target : Val) (returnAddr : U64) (slot : Size) (wrap : Bool) :
    RipFree fun g : Guest V => execCall g target returnAddr slot wrap := by
  intro g rip
  have hstore := storeOr_ripFree (V := V) (wrapSp wrap (g.gpr rsp - BitVec.ofNat 64 slot.bytes))
    returnAddr slot g rip
  simp only [execCall, gpr_atRip, hstore]
  cases g.storeOr (wrapSp wrap (g.gpr rsp - BitVec.ofNat 64 slot.bytes)) returnAddr slot <;> rfl

theorem execRet_ripFree (slot : Size) (popExtra : U16) (wrap : Bool) :
    RipFree fun g : Guest V => execRet g slot popExtra wrap := by
  intro g rip
  simp only [execRet, loadOr_atRip, gpr_atRip]
  cases g.loadOr (g.gpr rsp) slot <;> rfl

theorem execFarCall_ripFree (cs ip : Val) (retIp : U16) :
    RipFree fun g : Guest V => execFarCall g cs ip retIp := by
  intro g rip
  have hpushes : RipFree fun g' : Guest V => g'.push16 g.cs >>= fun g₁ => g₁.push16 retIp :=
    (push16_ripFree g.cs).bind (push16_ripFree retIp)
  have hcs : (g.atRip rip).cs = g.cs := rfl
  simp only [execFarCall, hcs, hpushes g rip]
  cases g.push16 g.cs >>= fun g₁ => g₁.push16 retIp <;> rfl

theorem execFarRet_ripFree (popExtra : U16) :
    RipFree fun g : Guest V => execFarRet g popExtra := by
  intro g rip
  simp only [execFarRet, pop16_atRip]
  cases g.pop16 with
  | error e => rfl
  | ok p =>
    have hpop := pop16_atRip p.2 rip
    simp only [Except.map, bind, Except.bind, hpop]
    cases p.2.pop16 <;> rfl

theorem execLoad_ripFree (dst : Temp) (addr : Val) (size : Size) :
    RipFree fun g : Guest V => execLoad g dst addr size := by
  intro g rip
  have hpending : (g.atRip rip).pendingMmio = g.pendingMmio := rfl
  have hval : (g.atRip rip).readVal addr = g.readVal addr := rfl
  simp only [execLoad, hpending, hval, loadOr_atRip]
  cases g.pendingMmio with
  | some v => rfl
  | none => cases g.loadOr (g.readVal addr) size <;> rfl

theorem execStore_ripFree (addr src : Val) (size : Size) :
    RipFree fun g : Guest V => execStore g addr src size := by
  intro g rip
  have hmem : (g.atRip rip).mem = g.mem := rfl
  have hval (a : Val) : (g.atRip rip).readVal a = g.readVal a := rfl
  have hack : (g.atRip rip).pendingMmioWrite = g.pendingMmioWrite := rfl
  simp only [execStore, hmem, hval, hack]
  cases g.mem.write (g.readVal addr).toNat (g.readVal src) size.bytes with
  | ok mem => rfl
  | error t =>
    dsimp only
    split <;> rfl

theorem commitAtomic_ripFree (old : Temp) (addr src : U64) (size : Size)
    (o : Except MemTrap (U64 × Memory)) :
    RipFree fun g : Guest V => commitAtomic g old addr src size o := by
  intro g rip
  cases o <;> rfl

theorem execDiv_ripFree (quot rem : Temp) (hi lo divisor : Val) (size : Size) (signed : Bool) :
    RipFree fun g : Guest V => execDiv g quot rem hi lo divisor size signed := by
  intro g rip
  have hval (a : Val) : (g.atRip rip).readVal a = g.readVal a := rfl
  simp only [execDiv, hval]
  cases divide (g.readVal hi) (g.readVal lo) (g.readVal divisor) size signed <;> rfl

theorem PlainOp.exec_ripFree (blockEnd : U64) {op : PlainOp}
    (h : namesRip (.plain op : IrOp X) = false) :
    RipFree fun g : Guest V => op.exec g blockEnd := by
  cases op with
  | readReg dst reg =>
    intro g rip
    cases reg with
    | rip => cases h
    | _ => rfl
  | writeReg reg src size =>
    intro g rip
    cases reg with
    | rip => cases h
    | _ => rfl
  | load dst addr size => exact execLoad_ripFree dst addr size
  | store addr src size => exact execStore_ripFree addr src size
  | div quot rem hi lo divisor size signed => exact execDiv_ripFree _ _ _ _ _ _ _
  | atomicRmw old addr src size op =>
    intro g rip
    exact commitAtomic_ripFree _ _ _ _ (g.mem.atomicRmw (g.readVal addr) (g.readVal src) size op)
      g rip
  | atomicCas old addr expected src size =>
    intro g rip
    exact commitAtomic_ripFree _ _ _ _
      (g.mem.atomicCas (g.readVal addr) (g.readVal expected) (g.readVal src) size) g rip
  | pushaReal =>
    intro g rip
    exact RipFree.foldlM push16_ripFree _ g rip
  | popaReal => exact execPopaReal_ripFree
  | enterReal alloc level => exact execEnterReal_ripFree alloc level
  | call target returnAddr slot wrap => exact execCall_ripFree _ _ _ _
  | ret slot popExtra wrap => exact execRet_ripFree _ _ _
  | farCall cs ip retIp => exact execFarCall_ripFree _ _ _
  | farRet popExtra => exact execFarRet_ripFree _
  | portIo port value size dirOut =>
    intro g rip
    cases dirOut <;> rfl
  | _ => exact fun _ _ => rfl

variable (s : WalkState V) (rip : U64)

theorem deliverInterrupt_atRip (vector : U8) (savedIp : U64) :
    deliverInterrupt (s.atRip rip) vector savedIp = deliverInterrupt s vector savedIp := by
  have hframe : RipFree fun g : Guest V => g.push16 s.flags.toFlags16 >>= fun g =>
      g.push16 g.cs >>= fun g => g.push16 (savedIp.setWidth 16) := by
    apply (push16_ripFree _).bind
    intro g rip
    exact ((push16_ripFree g.cs).bind (push16_ripFree _)) g rip
  have hguest : (s.atRip rip).guest = s.guest.atRip rip := rfl
  have hflags : (s.atRip rip).flags = s.flags := rfl
  simp only [deliverInterrupt, hguest, hflags, hframe s.guest rip]
  generalize (s.guest.push16 s.flags.toFlags16 >>= fun g =>
    g.push16 g.cs >>= fun g => g.push16 (savedIp.setWidth 16)) = o
  cases o with
  | error e => rfl
  | ok g =>
    cases (g.loadOr (vector.setWidth 64 * 4) .b2 >>= fun newIp =>
      g.loadOr (vector.setWidth 64 * 4 + 2) .b2 >>= fun newCs => pure (newIp, newCs)) <;> rfl

theorem execIretReal_atRip : execIretReal (s.atRip rip) = execIretReal s := by
  have hguest : (s.atRip rip).guest = s.guest.atRip rip := rfl
  simp only [execIretReal, hguest, pop16_atRip]
  cases s.guest.pop16 with
  | error e => rfl
  | ok p =>
    simp only [Except.map, bind, Except.bind, pop16_atRip]
    cases p.2.pop16 with
    | error e => rfl
    | ok p' =>
      simp only [pop16_atRip]
      cases p'.2.pop16 <;> rfl

theorem execPopfReal_atRip :
    execPopfReal (s.atRip rip) = (execPopfReal s).map fun s' => s'.atRip rip := by
  have hguest : (s.atRip rip).guest = s.guest.atRip rip := rfl
  simp only [execPopfReal, hguest, pop16_atRip]
  cases s.guest.pop16 <;> rfl

theorem runString_atRip (i : StrInsn) :
    runString (s.atRip rip) i = (runString s i).map fun s' => s'.atRip rip := by
  have hregs : (s.atRip rip).guest = s.guest.atRip rip := rfl
  have hflags : (s.atRip rip).flags = s.flags := rfl
  have hmem : (s.guest.atRip rip).mem = s.guest.mem := rfl
  simp only [runString, hregs, hflags, hmem, gpr_atRip]
  cases (i.run ⟨s.guest.gpr rax, s.guest.gpr rcx, s.guest.gpr rsi, s.guest.gpr rdi, s.flags⟩
    s.guest.mem).2 <;> rfl

theorem withFlags_map {f : Flags} (o : Outcome (Guest V)) :
    withFlags f (o.map fun g => g.atRip rip) = (withFlags f o).map fun s => s.atRip rip := by
  cases o <;> rfl

def OtherOps.RipFree (sem : OtherOps X V) : Prop :=
  ∀ op g rip, sem op (g.atRip rip) = ((sem op g).1.map fun g' => g'.atRip rip, (sem op g).2)

variable {sem : OtherOps X V}

theorem execBcd_atRip (kind : BcdKind) (cf af : Bool) (g : Guest V) (rip : U64) :
    execBcd kind cf af (g.atRip rip) =
      ((execBcd kind cf af g).1.map fun g' => g'.atRip rip, (execBcd kind cf af g).2) := by
  cases kind with
  | aam base =>
    simp only [execBcd]
    split <;> rfl
  | _ => rfl

theorem SetOp.exec_atRip (hsem : sem.RipFree) (op : SetOp X) (g : Guest V) (rip : U64) :
    op.exec (g.atRip rip) sem =
      ((op.exec g sem).1.map fun g' => g'.atRip rip, (op.exec g sem).2) := by
  cases op with
  | other op => exact hsem op g rip
  | bitScan dst src old size op => cases op <;> rfl
  | _ => rfl

theorem exec_atRip (hsem : sem.RipFree) (blockEnd : U64) {op : IrOp X} (h : namesRip op = false)
    (s : WalkState V) (rip : U64) : exec sem blockEnd op (s.atRip rip) =
      (exec sem blockEnd op s).map fun s' => s'.atRip rip := by
  have hguest : (s.atRip rip).guest = s.guest.atRip rip := rfl
  have hflags : (s.atRip rip).flags = s.flags := rfl
  cases op with
  | plain op =>
    simp only [exec, hguest, hflags, PlainOp.exec_ripFree blockEnd h s.guest rip, withFlags_map]
  | set op => simp only [exec, hguest, hflags, SetOp.exec_atRip hsem, withFlags_map]
  | alu op =>
    have hval (a : Val) : (s.guest.atRip rip).readVal a = s.guest.readVal a := rfl
    simp only [exec, AluOp.exec, hguest, hval, setTemps_atRip]
    rfl
  | pushfReal =>
    simp only [exec, hguest, hflags, push16_ripFree _ s.guest rip, withFlags_map]
  | popfReal => exact execPopfReal_atRip s rip
  | bcd kind => simp only [exec, hguest, hflags, execBcd_atRip, withFlags_map]
  | repString | repStringReal => exact runString_atRip s rip _
  | segLimitCheck offset size vector faultIp =>
    have hval : (s.guest.atRip rip).readVal offset = s.guest.readVal offset := rfl
    simp only [exec, hguest, hval, deliverInterrupt_atRip]
    split <;> rfl
  | loopCx kind taken fallthrough => cases kind <;> rfl
  | syscall isAmd64 => cases isAmd64 <;> rfl
  | intGate vector savedIp => exact congrArg Except.error (deliverInterrupt_atRip s rip _ _)
  | intoGate nextIp =>
    simp only [exec, deliverInterrupt_atRip]
    rfl
  | boundGate index lower upper faultIp nextIp =>
    simp only [exec, execBoundGate, deliverInterrupt_atRip]
    rfl
  | iretReal => exact congrArg Except.error (execIretReal_atRip s rip)
  | _ => rfl

variable {K Y : Type}

theorem X87.exec_ripFree (u : X87 K) : u.exec.RipFree := by
  intro op g rip
  have hext : (g.atRip rip).ext = g.ext := rfl
  have hmem : (g.atRip rip).mem = g.mem := rfl
  have hval : (g.atRip rip).readVal op.addr = g.readVal op.addr := rfl
  simp only [X87.exec, hext, hmem, hval]
  split
  · rfl
  · cases u.loads op.kind with
    | some n =>
      dsimp only
      cases g.mem.readRamGuest (g.readVal op.addr) n <;> rfl
    | none =>
      cases u.stores op.kind op.sti g.ext with
      | none => rfl
      | some bs =>
        dsimp only
        cases g.mem.writeRamGuest (g.readVal op.addr) bs <;> rfl

theorem execFxState_ripFree (addr : Val) (restore : Bool) :
    RipFree fun g : Guest Ext => execFxState g addr restore := by
  intro g rip
  have hext : (g.atRip rip).ext = g.ext := rfl
  have hmem : (g.atRip rip).mem = g.mem := rfl
  have hval : (g.atRip rip).readVal addr = g.readVal addr := rfl
  simp only [execFxState, hext, hmem, hval]
  split
  · cases g.mem.readRamGuest (g.readVal addr) 512 <;> rfl
  · cases g.mem.writeRamGuest (g.readVal addr) (fxImage g.ext) <;> rfl

theorem otherOps_ripFree {foreign : OtherOps Y Ext} (h : foreign.RipFree) :
    (otherOps foreign).RipFree := by
  intro op g rip
  cases op with
  | cpuid | xgetbv => rfl
  | fxState addr restore =>
    exact Prod.ext (execFxState_ripFree addr restore g rip) rfl
  | foreign op => exact h op g rip

def endWalk (blockEnd : U64) : Walked (WalkState V) (Stop (WalkState V)) → Stop (WalkState V)
  | .fell t => goTo t blockEnd
  | .left _ e => e

theorem endWalk_later (blockEnd : U64) (w : Walked (WalkState V) (Stop (WalkState V))) :
    endWalk blockEnd w.later = endWalk blockEnd w := by
  cases w <;> rfl

theorem endWalk_atRip (hsem : sem.RipFree) (blockEnd : U64) {l : List (IrOp X)}
    (h : ∀ op ∈ l, namesRip op = false) (s : WalkState V) (rip : U64) :
    endWalk blockEnd (walk (exec sem blockEnd) l (s.atRip rip)) =
      endWalk blockEnd (walk (exec sem blockEnd) l s) := by
  induction l generalizing s with
  | nil => rfl
  | cons op l ih =>
    have hop := exec_atRip hsem blockEnd (h op List.mem_cons_self) s rip
    cases ho : exec sem blockEnd op s with
    | error e =>
      rw [ho] at hop
      rw [walk_cons_error ho, walk_cons_error hop]
    | ok s' =>
      rw [ho] at hop
      rw [walk_cons_ok ho, walk_cons_ok hop, endWalk_later, endWalk_later]
      exact ih (fun op' h' => h op' (List.mem_cons_of_mem _ h')) s'

end X86Jit
