import X86Jit.Interp.Exec
import X86Jit.Lift.Elide

/-! What the flag pass preserves. Everything but the flags is the same, and the flags differ only
where a dropped write left a stale value. -/
namespace X86Jit.Lift
open X86Jit.Lib

variable {X V : Type} {D : Flag → Bool}

structure SameOff (D : Flag → Bool) (s s' : WalkState V) : Prop where
  guest : s'.guest = s.guest
  flags : s.flags.AgreeOff D s'.flags

structure SameStop (e e' : Stop (WalkState V)) : Prop where
  result : e'.result = e.result
  state : SameOff (fun _ => false) e.state e'.state

inductive Agree (D : Flag → Bool) : Outcome (WalkState V) → Outcome (WalkState V) → Prop
  | ok {t t' : WalkState V} (h : SameOff D t t') : Agree D (.ok t) (.ok t')
  | error {e e' : Stop (WalkState V)} (h : SameStop e e') : Agree D (.error e) (.error e')

theorem Agree.mono {D' : Flag → Bool} {o o' : Outcome (WalkState V)} (h : Agree D o o')
    (hD : ∀ x, D' x = false → D x = false) : Agree D' o o' := by
  cases h with
  | ok h => exact .ok ⟨h.guest, h.flags.mono hD⟩
  | error h => exact .error h

def compared (i : StrInsn) (count : U64) : Bool :=
  i.op.compares && (i.rep == .none || (count &&& i.addrBits.amask).toNat != 0)

def wroteFlags (sem : OtherOps X V) : IrOp X → WalkState V → Flag → Bool
  | .alu o, s, x => o.setFlags.has x && o.kind.writes o.size (s.guest.readVal o.count)
  | .set op, s, x => ((op.exec s.guest sem).2 x).isSome
  | .popfReal, _, _ => true
  | .setCf _, _, x => x == .cf
  | .bcd kind, s, x => ((execBcd kind s.flags.cf s.flags.af s.guest).2 x).isSome
  | .repString op elem repKind addrBits segBase, s, _ =>
    compared ⟨op, elem, repKind, addrBits, s.guest.readVal segBase, 0⟩ (s.guest.gpr rcx)
  | .repStringReal op elem repKind dsBase esBase, s, _ =>
    compared ⟨op, elem, repKind, .a16, s.guest.readVal dsBase, s.guest.readVal esBase⟩
      (s.guest.gpr rcx)
  | _, _, _ => false

def maskedFlag : IrOp X → Flag → Bool
  | .alu o, x => o.setFlags.has x
  | _, _ => false

theorem writes_of_not_skip {o : AluOp} (g : Guest V) (h : shiftFlagsMaySkip o = false) :
    o.kind.writes o.size (g.readVal o.count) = true := by
  have hcmask : (if o.size = .b8 then 0x3f else 0x1f : U64) = shiftMask o.size := by
    cases o.size <;> rfl
  unfold shiftFlagsMaySkip at h
  unfold AluKind.writes rcCount
  cases hcount : o.count with
  | temp t => cases hk : o.kind <;> simp_all
  | imm n => cases hk : o.kind <;> simp_all [Guest.readVal, Size.bits]

def flagRun (sem : OtherOps X V) : StoreRun (flagUse (X := X)) (WalkState V) where
  droppable := maskedFlag
  wrote := wroteFlags sem
  wrote_of_sure := by
    intro op s x h
    cases op with
    | alu o =>
      obtain ⟨hmask, hskip⟩ := Bool.and_eq_true_iff.mp h
      exact Bool.and_eq_true_iff.mpr ⟨hmask, writes_of_not_skip s.guest (by simpa using hskip)⟩
    | _ => cases h

theorem compared_iff {i : StrInsn} {c : StrCpu} : compared i c.rcx = true ↔
    i.op.compares = true ∧ ¬(i.rep ≠ .none ∧ i.remaining c = 0) := by
  rw [compared, StrInsn.remaining]
  by_cases hrep : i.rep = .none <;> simp [hrep]

variable {g : Guest V} {f f' : Flags}

theorem write_agree (h : f.AgreeOff D f') (out : Outcome (Guest V) × FlagWrites)
    (hshown : ∀ e, out.1 = .error e → ∀ x, D x = false) :
    Agree (fun x => D x && !(out.2 x).isSome) (withFlags (f.write out.2) out.1)
      (withFlags (f'.write out.2) out.1) := by
  have hw := h.write out.2
  cases hout : out.1 with
  | ok g =>
    refine .ok ⟨rfl, hw.mono ?_⟩
    intro x hx
    rwa [Option.not_isSome] at hx
  | error e =>
    refine .error ⟨rfl, rfl, hw.mono ?_⟩
    intro x _
    simp [hshown e hout x]

theorem withFlags_agree (h : f.AgreeOff D f') (out : Outcome (Guest V))
    (hshown : ∀ e, out = .error e → ∀ x, D x = false) :
    Agree D (withFlags f out) (withFlags f' out) := by
  cases out with
  | ok g => exact .ok ⟨rfl, h⟩
  | error e => exact .error ⟨rfl, rfl, h.mono fun x _ => hshown e rfl x⟩

theorem evalCond_agree {cond : Cond} (h : f.AgreeOff D f')
    (hD : ∀ x, FlagMask.has ⟨condReads cond⟩ x = true → D x = false) :
    evalCond cond f' = evalCond cond f := by
  have hget (x : Flag) (hx : FlagMask.has ⟨condReads cond⟩ x = true) : f'.get x = f.get x :=
    h.get x (hD x hx)
  have hcf := hget .cf
  have hpf := hget .pf
  have hzf := hget .zf
  have hsf := hget .sf
  have hof := hget .of
  simp only [Flags.get] at hcf hpf hzf hsf hof
  cases cond with
  | eq | ne => simp only [evalCond, hzf (by decide)]
  | below | aboveEq => simp only [evalCond, hcf (by decide)]
  | belowEq | above => simp only [evalCond, hcf (by decide), hzf (by decide)]
  | less | greaterEq => simp only [evalCond, hsf (by decide), hof (by decide)]
  | lessEq | greater => simp only [evalCond, hsf (by decide), hof (by decide), hzf (by decide)]
  | sign | noSign => simp only [evalCond, hsf (by decide)]
  | overflow | noOverflow => simp only [evalCond, hof (by decide)]
  | parity | noParity => simp only [evalCond, hpf (by decide)]

theorem execBcd_agree {kind : BcdKind} (h : f.AgreeOff D f')
    (hD : ∀ x, hiddenReads (.bcd kind : IrOp X) x = true → D x = false) :
    execBcd kind f'.cf f'.af g = execBcd kind f.cf f.af g := by
  have hcf (hd : D .cf = false) : f'.cf = f.cf := h.get .cf hd
  have haf (hd : D .af = false) : f'.af = f.af := h.get .af hd
  cases kind with
  | daa | das => rw [hcf (hD .cf rfl), haf (hD .af rfl)]
  | aaa | aas =>
    rw [haf (hD .af rfl)]
    rfl
  | aam base | aad base => rfl

theorem deliverInterrupt_agree (h : f.AgreeOff (fun _ => false) f') (vector : U8)
    (savedIp : U64) :
    SameStop (deliverInterrupt ⟨g, f⟩ vector savedIp) (deliverInterrupt ⟨g, f'⟩ vector savedIp) := by
  have hclear : ({ f with ifl := false } : Flags).AgreeOff (fun _ => false)
      { f' with ifl := false } := by
    refine ⟨?_, h.df, rfl⟩
    intro x hx
    have hget := h.get x hx
    cases x <;> exact hget
  simp only [deliverInterrupt, Flags.toFlags16_of_agree h]
  split
  · exact ⟨rfl, rfl, h⟩
  · split
    · exact ⟨rfl, rfl, hclear⟩
    · exact ⟨rfl, rfl, hclear⟩

theorem execIretReal_agree (h : f.AgreeOff (fun _ => false) f') :
    SameStop (execIretReal ⟨g, f⟩) (execIretReal ⟨g, f'⟩) := by
  simp only [execIretReal]
  split
  · exact ⟨rfl, rfl, h⟩
  · exact ⟨rfl, rfl, Flags.setFlags16_agree _ _ _⟩

theorem goTo_agree (h : f.AgreeOff (fun _ => false) f') (rip : U64) :
    SameStop (goTo ⟨g, f⟩ rip) (goTo ⟨g, f'⟩ rip) :=
  ⟨rfl, rfl, h⟩

theorem execLoopCx_agree (h : f.AgreeOff (fun _ => false) f') (kind : LoopKind)
    (taken fallthrough : U64) : SameStop (execLoopCx ⟨g, f⟩ kind taken fallthrough)
      (execLoopCx ⟨g, f'⟩ kind taken fallthrough) := by
  have hzf : f'.zf = f.zf := h.get .zf rfl
  cases kind with
  | loop | jcxz => exact goTo_agree h _
  | loope | loopne =>
    simp only [execLoopCx, hzf]
    exact goTo_agree h _

theorem execSyscall_agree (h : f.AgreeOff (fun _ => false) f') (blockEnd : U64) (isAmd64 : Bool) :
    SameStop (execSyscall ⟨g, f⟩ blockEnd isAmd64) (execSyscall ⟨g, f'⟩ blockEnd isAmd64) := by
  simp only [execSyscall, Flags.toRflags_of_agree h]
  exact ⟨rfl, rfl, h⟩

theorem execBoundGate_agree (h : f.AgreeOff (fun _ => false) f') (index lower upper : Val)
    (faultIp nextIp : U64) : SameStop (execBoundGate ⟨g, f⟩ index lower upper faultIp nextIp)
      (execBoundGate ⟨g, f'⟩ index lower upper faultIp nextIp) := by
  simp only [execBoundGate]
  split
  · exact deliverInterrupt_agree h 5 faultIp
  · exact goTo_agree h nextIp

theorem runString_agree {i : StrInsn} (h : f.AgreeOff D f') (hz : i.readsZf = true → D .zf = false)
    (hshown : ∀ e, runString ⟨g, f⟩ i = .error e → ∀ x, D x = false) :
    Agree (fun x => D x && !compared i (g.gpr rcx)) (runString ⟨g, f⟩ i) (runString ⟨g, f'⟩ i) := by
  let c : StrCpu := ⟨g.gpr rax, g.gpr rcx, g.gpr rsi, g.gpr rdi, f⟩
  obtain ⟨f₁, hrun, hagree⟩ := StrInsn.run_agree (i := i) (c := c) (s := g.mem) h hz
  have hrun' : i.run ⟨g.gpr rax, g.gpr rcx, g.gpr rsi, g.gpr rdi, f'⟩ g.mem = _ := hrun
  simp only [runString, hrun'] at hshown ⊢
  cases hend : (i.run c g.mem).2 with
  | some fault =>
    simp only [c] at hend hagree
    simp only [hend] at hshown ⊢
    refine .error ⟨rfl, rfl, hagree.mono ?_⟩
    intro x _
    exact hshown _ rfl x
  | none =>
    have hfresh (hc : compared i (g.gpr rcx) = true) :
        (i.run c g.mem).1.1.flags.AgreeOff (fun _ => false) f₁ := by
      obtain ⟨hop, hgo⟩ := (compared_iff (c := c)).mp hc
      have hall := StrInsn.run_agree_compared hop hgo h hend
      rwa [hrun] at hall
    refine .ok ⟨rfl, ?_⟩
    cases hc : compared i (g.gpr rcx) with
    | true => exact (hfresh hc).mono fun _ _ => rfl
    | false => exact hagree.mono fun x hx => by simpa using hx

variable (sem : OtherOps X V) (blockEnd : U64) {s s' : WalkState V}

/-- From states that differ in the flags `D`, only an op that goes on may start. -/
theorem exec_agree {op : IrOp X} (hne : ∀ o, op ≠ .alu o) (h : SameOff D s s')
    (hlisted : ∀ x, FlagMask.has ⟨opReads op⟩ x = true → D x = false)
    (hhidden : ∀ x, hiddenReads op x = true → D x = false)
    (hshown : ∀ e, exec sem blockEnd op s = .error e → ∀ x, D x = false) :
    Agree (fun x => D x && !wroteFlags sem op s x) (exec sem blockEnd op s)
      (exec sem blockEnd op s') := by
  obtain ⟨g, f⟩ := s
  obtain ⟨g', f'⟩ := s'
  obtain rfl : g' = g := h.guest
  have hf : f.AgreeOff D f' := h.flags
  -- an op that replaces no flag leaves the stale ones as they are
  have hkeep : ∀ x, (D x && !false) = false → D x = false := fun x hx => by simpa using hx
  -- an op that always returns has nothing stale before it
  have hnone (e : Stop (WalkState V)) (he : exec sem blockEnd op ⟨g', f⟩ = .error e) :
      f.AgreeOff (fun _ => false) f' := hf.mono fun x _ => hshown e he x
  cases op with
  | alu o => exact absurd rfl (hne o)
  | plain op =>
    apply (withFlags_agree hf (op.exec g' blockEnd) ?_).mono hkeep
    intro e he
    apply hshown
    simp only [exec, he]
    rfl
  | set op =>
    apply write_agree hf (op.exec g' sem)
    intro e he
    apply hshown
    simp only [exec, he]
    rfl
  | getCond dst cond =>
    refine .ok ⟨?_, hf.mono hkeep⟩
    simp only [evalCond_agree hf hlisted]
  | lahf =>
    refine .ok ⟨?_, hf.mono hkeep⟩
    have hlow := Flags.lowFlags_of_agree hf fun x hx => hhidden x (by simpa [hiddenReads] using hx)
    simp only [execLahf, hlow]
  | pushfReal =>
    have hall : f.AgreeOff (fun _ => false) f' := hf.mono fun x _ => hhidden x rfl
    simp only [exec, Flags.toFlags16_of_agree hall]
    apply (withFlags_agree hall _ fun _ _ _ => rfl).mono
    intro x _
    rfl
  | popfReal =>
    cases hpop : g'.pop16 with
    | ok out =>
      simp only [exec, execPopfReal, hpop]
      refine .ok ⟨rfl, (Flags.setFlags16_agree f f' out.1).mono fun _ _ => rfl⟩
    | error e =>
      have he : exec sem blockEnd .popfReal ⟨g', f⟩ = .error ⟨⟨e.state, f⟩, e.result⟩ := by
        simp only [exec, execPopfReal, hpop]
        rfl
      simp only [exec, execPopfReal, hpop]
      exact .error ⟨rfl, rfl, hnone _ he⟩
  | setCf value =>
    cases value with
    | some v => exact .ok ⟨rfl, (hf.set .cf v).mono fun x hx => hx⟩
    | none =>
      have hcf : f'.cf = f.cf := hf.get .cf (hhidden .cf rfl)
      refine .ok ⟨rfl, ?_⟩
      simp only [hcf]
      exact (hf.set .cf (!f.cf)).mono fun x hx => hx
  | setDf value =>
    refine .ok ⟨rfl, ?_, rfl, hf.ifl⟩
    intro x hx
    have hget := hf.get x (hkeep x hx)
    cases x <;> exact hget
  | setIf value =>
    refine .ok ⟨rfl, ?_, hf.df, rfl⟩
    intro x hx
    have hget := hf.get x (hkeep x hx)
    cases x <;> exact hget
  | bcd kind =>
    have hsame := execBcd_agree (g := g') hf hhidden
    simp only [exec, hsame] at hshown ⊢
    apply write_agree hf
    intro e he
    apply hshown
    rw [he]
    rfl
  | repString op elem repKind addrBits segBase =>
    apply runString_agree hf _ hshown
    intro hz
    exact hhidden .zf hz
  | repStringReal op elem repKind dsBase esBase =>
    apply runString_agree hf _ hshown
    intro hz
    exact hhidden .zf hz
  | segLimitCheck offset size vector faultIp =>
    by_cases hlim : 0x10000 < (g'.readVal offset &&& 0xffff).toNat + size.bytes
    · simp only [exec, if_pos hlim] at hnone ⊢
      exact .error (deliverInterrupt_agree (hnone _ rfl) vector faultIp)
    · simp only [exec, if_neg hlim]
      exact .ok ⟨rfl, hf.mono hkeep⟩
  | branch cond taken fallthrough =>
    simp only [exec, evalCond_agree hf hlisted]
    exact .error (goTo_agree (hnone _ rfl) _)
  | loopCx kind taken fallthrough => exact .error (execLoopCx_agree (hnone _ rfl) _ _ _)
  | syscall isAmd64 => exact .error (execSyscall_agree (hnone _ rfl) _ _)
  | intGate vector savedIp => exact .error (deliverInterrupt_agree (hnone _ rfl) _ _)
  | intoGate nextIp =>
    have hof : f'.of = f.of := (hnone _ rfl).get .of rfl
    simp only [exec, hof]
    cases hb : f.of with
    | true => exact .error (deliverInterrupt_agree (hnone _ rfl) 4 nextIp)
    | false => exact .error (goTo_agree (hnone _ rfl) nextIp)
  | boundGate index lower upper faultIp nextIp =>
    exact .error (execBoundGate_agree (hnone _ rfl) _ _ _ _ _)
  | iretReal => exact .error (execIretReal_agree (hnone _ rfl))

theorem alu_agree {o : AluOp} {m : FlagMask} {rest : List (IrOp X)}
    (hun : flagUse.Unread D (.alu o :: rest))
    (hm : ∀ x, m.has x = (o.setFlags.has x && !flagUse.dead rest x)) (h : SameOff D s s') :
    SameOff ((flagRun sem).staleAfter (.alu o) s rest D) (o.exec s)
      ({ o with setFlags := m }.exec s') := by
  obtain ⟨g, f⟩ := s
  obtain ⟨g', f'⟩ := s'
  obtain rfl : g' = g := h.guest
  have hf : f.AgreeOff D f' := h.flags
  obtain ⟨vals, r, hspec⟩ := execAlu_spec o.kind o.size (g'.readVal o.a) (g'.readVal o.b)
    (g'.readVal o.count) f.cf
  have hcarry : o.kind.readsCarry = true → f'.cf = f.cf := by
    intro hc
    apply hf.get .cf
    apply hun.not_read
    change FlagMask.has ⟨opReads (.alu o)⟩ .cf = true
    unfold opReads
    cases hk : o.kind <;> simp_all [AluKind.readsCarry] <;> decide
  have hstale (x : Flag) : (flagRun sem).staleAfter (.alu o) ⟨g', f⟩ rest D x =
      if (o.setFlags.has x && o.kind.writes o.size (g'.readVal o.count)) = true then
        o.setFlags.has x && flagUse.dead rest x
      else D x := rfl
  simp only [AluOp.exec, hspec _ f (fun _ => rfl), hspec _ f' hcarry]
  refine ⟨rfl, ?_⟩
  cases hw : o.kind.writes o.size (g'.readVal o.count) with
  | true =>
    simp only [if_true]
    refine ⟨?_, ?_, ?_⟩
    · intro x hx
      rw [hstale, hw] at hx
      rw [get_apply, get_apply, hm]
      -- a flag in the mask that is not stale afterwards is still in the narrowed mask
      cases ho : o.setFlags.has x with
      | true =>
        have hlive : flagUse.dead rest x = false := by simpa [ho] using hx
        simp [hlive]
      | false =>
        apply hf.get
        simpa [ho] using hx
    · rw [(df_apply f _ r).1, (df_apply f' _ r).1, hf.df]
    · rw [(df_apply f _ r).2, (df_apply f' _ r).2, hf.ifl]
  | false =>
    apply hf.mono
    intro x hx
    rwa [hstale, hw, Bool.and_false] at hx

theorem maskedFlag_of_ne {op : IrOp X} (h : ∀ o, op ≠ .alu o) (x : Flag) :
    maskedFlag op x = false := by
  cases op with
  | alu o => exact absurd rfl (h o)
  | _ => rfl

theorem elide_simulates :
    (flagRun sem).Simulates (exec sem blockEnd) Narrowed hiddenReads SameOff SameStop where
  next := by
    intro D op op' rest s s' t hun hhidden hnarrow hsame hok
    cases hnarrow with
    | alu o m hm =>
      cases hok
      exact ⟨_, rfl, alu_agree sem hun hm hsame⟩
    | other _ hne =>
      have hagree := exec_agree sem blockEnd hne hsame (fun x hx => hun.not_read hx) hhidden
        (fun e he => by rw [hok] at he; cases he)
      rw [hok] at hagree
      cases hout : exec sem blockEnd op s' with
      | error e =>
        rw [hout] at hagree
        cases hagree
      | ok t' =>
        rw [hout] at hagree
        cases hagree with
        | ok h =>
          refine ⟨t', rfl, h.guest, h.flags.mono ?_⟩
          intro x hx
          have hmask : (flagRun sem).droppable op x = false := maskedFlag_of_ne hne x
          rw [StoreRun.staleAfter] at hx
          change (D x && !(flagRun sem).wrote op s x) = false
          cases hw : (flagRun sem).wrote op s x <;> simp_all
  leave := by
    intro D op op' s s' e hnarrow hsame herr
    cases hnarrow with
    | alu o m hm => cases herr
    | other _ hne =>
      have hagree := exec_agree sem blockEnd hne hsame (fun _ _ => rfl) (fun _ _ => rfl)
        (fun _ _ _ => rfl)
      rw [herr] at hagree
      cases hout : exec sem blockEnd op s' with
      | ok t =>
        rw [hout] at hagree
        cases hagree
      | error e' =>
        rw [hout] at hagree
        cases hagree with
        | error h => exact ⟨e', rfl, h⟩
  leave_unsure := by
    intro op s e herr x
    apply surelyMasked_of_ne
    rintro o rfl
    cases herr

variable (disabled : Bool) (ir : OpBlock X) (s : WalkState V)

/-- The same step result, retired instructions, registers, memory and flags. -/
structure SameInterpreted (r r' : Interpreted V) : Prop where
  result : r'.result = r.result
  info : r'.info = r.info
  state : SameOff (fun _ => false) r.state r'.state

def elided : OpBlock X := { ir with ops := elideDeadFlags disabled ir.ops }

/-- The flags whose last write before op `k` the pass drops, in a walk over the block as
lifted. -/
def staleAt (k : ℕ) (x : Flag) : Bool :=
  (flagRun sem).staleBefore (exec sem ir.blockEnd) (fun _ => false) ir.ops (enterBlock ir s) k x

/-- None of the first `k` ops reads a stale flag without being listed as its reader. -/
def HiddenReadsLive (k : ℕ) : Prop :=
  (flagRun sem).HiddenLive (exec sem ir.blockEnd) hiddenReads (fun _ => false) ir.ops
    (enterBlock ir s) k

def walked : Walked (WalkState V) (Stop (WalkState V)) :=
  walk (exec sem ir.blockEnd) ir.ops (enterBlock ir s)

def Completes : Prop := ∀ k ∈ (walked sem ir s).leftAt, k + 1 = ir.ops.length

instance : Decidable (Completes sem ir s) :=
  inferInstanceAs (Decidable (∀ k ∈ (walked sem ir s).leftAt, k + 1 = ir.ops.length))

instance (k : ℕ) : Decidable (HiddenReadsLive sem ir s k) :=
  inferInstanceAs (Decidable (∀ j, j < k → ∀ op ∈ ir.ops[j]?, ∀ x, hiddenReads op x = true →
    staleAt sem ir s j x = false))

variable {sem disabled ir s}

theorem sameInterpreted_of_stop {ir' : OpBlock X}
    (h : SameStop (walkOps sem ir (enterBlock ir s)) (walkOps sem ir' (enterBlock ir' s))) :
    SameInterpreted (interpretBlock sem ir s) (interpretBlock sem ir' s) := by
  refine ⟨h.result, ?_, h.state⟩
  simp only [interpretBlock, h.state.guest]

theorem sameOff_refl (D : Flag → Bool) (s : WalkState V) : SameOff D s s := ⟨rfl, .refl D s.flags⟩

theorem preserved_of_fell {t : WalkState V} (hw : walked sem ir s = .fell t)
    (hlive : HiddenReadsLive sem ir s ir.ops.length) :
    SameInterpreted (interpretBlock sem ir s) (interpretBlock sem (elided false ir) s) := by
  obtain ⟨t', hw', hsame⟩ := (elide_simulates sem ir.blockEnd).fell (elideFrom_spec ir.ops).1
    (StoreUse.unread_none ir.ops) hlive (sameOff_refl _ (enterBlock ir s)) hw
  apply sameInterpreted_of_stop
  have hwalk : walkOps sem ir (enterBlock ir s) = goTo t ir.blockEnd := by
    have hw : walk (exec sem ir.blockEnd) ir.ops (enterBlock ir s) = .fell t := hw
    rw [walkOps, hw]
  have hwalk' : walkOps sem (elided false ir) (enterBlock (elided false ir) s) =
      goTo t' ir.blockEnd := by
    have hw' : walk (exec sem (elided false ir).blockEnd) (elided false ir).ops
        (enterBlock (elided false ir) s) = .fell t' := hw'
    rw [walkOps, hw']
    rfl
  rw [hwalk, hwalk']
  refine ⟨rfl, ?_, hsame.flags⟩
  simp only [goTo, hsame.guest]

theorem preserved_of_left {k : ℕ} {e : Stop (WalkState V)} (hw : walked sem ir s = .left k e)
    (hlive : HiddenReadsLive sem ir s k) (hshown : ∀ x, staleAt sem ir s k x = false) :
    SameInterpreted (interpretBlock sem ir s) (interpretBlock sem (elided false ir) s) := by
  obtain ⟨e', hw', hsame⟩ := (elide_simulates sem ir.blockEnd).left (elideFrom_spec ir.ops).1
    (StoreUse.unread_none ir.ops) hlive hshown (sameOff_refl _ (enterBlock ir s)) hw
  apply sameInterpreted_of_stop
  have hwalk : walkOps sem ir (enterBlock ir s) = e := by
    have hw : walk (exec sem ir.blockEnd) ir.ops (enterBlock ir s) = .left k e := hw
    rw [walkOps, hw]
  have hwalk' : walkOps sem (elided false ir) (enterBlock (elided false ir) s) = e' := by
    have hw' : walk (exec sem (elided false ir).blockEnd) (elided false ir).ops
        (enterBlock (elided false ir) s) = .left k e' := hw'
    rw [walkOps, hw']
  rwa [hwalk, hwalk']

theorem sameInterpreted_refl (r : Interpreted V) : SameInterpreted r r :=
  ⟨rfl, rfl, sameOff_refl _ _⟩

/-- A block that runs to its last op or past it does the same after the pass, if no hidden
reader sees a stale flag. -/
theorem completed_block_preserved (sem : OtherOps X V) (disabled : Bool) (ir : OpBlock X)
    (s : WalkState V) (hlive : disabled = false → HiddenReadsLive sem ir s ir.ops.length)
    (hend : Completes sem ir s) :
    SameInterpreted (interpretBlock sem ir s) (interpretBlock sem (elided disabled ir) s) := by
  cases disabled with
  | true => exact sameInterpreted_refl _
  | false =>
    cases hw : walked sem ir s with
    | fell t => exact preserved_of_fell hw (hlive rfl)
    | left k e =>
      have hlast : k + 1 = ir.ops.length := hend k (by rw [hw]; rfl)
      apply preserved_of_left hw
      · intro j hj
        exact hlive rfl j (by omega)
      · exact (elide_simulates sem ir.blockEnd).shown_at_last (StoreUse.unread_none ir.ops) hw hlast

def noOther : OtherOps Empty Unit := fun op => op.elim

/-- All flags clear, `eax = 0xffffffff`, `ebx = 1`, nothing mapped. -/
def start : WalkState Unit :=
  { guest :=
      { gpr := fun i => if i = rax then 0xffffffff else if i = rbx then 1 else 0
        rip := 0x1000, fsBase := 0, gsBase := 0, cs := 0, ds := 0, es := 0, ss := 0, ext := ()
        pendingMmio := none, pendingMmioWrite := false, pendingPortIn := none
        mem := .fresh 0x1000 0 (by decide)
        temps := fun _ => 0, curAddr := 0, retired := 0, started := false, stiShadow := false }
    flags :=
      { cf := false, pfSrc := pfSrcZero, afSrc := afSrcZero, zf := false, sf := false, of := false
        df := false, ifl := false } }

def binop (kind : AluKind) (a b : Reg) (t : Temp) : List (IrOp Empty) :=
  [.plain (.readReg t a), .plain (.readReg (t + 1) b),
    .alu ⟨kind, [t + 2], .temp t, .temp (t + 1), .imm 0, .b4, .all⟩]

/-- `add eax, ebx; lahf; hlt`. -/
def addLahf : OpBlock Empty :=
  { guestStart := 0x1000
    guestLen := 4
    ops := .plain (.insnStart 0x1000) :: binop .add .rax .rbx 0 ++
      [.plain (.writeReg .rax (.temp 2) .b4), .plain (.insnStart 0x1002), .lahf,
        .plain (.insnStart 0x1003), .plain .hlt] }

/-- `add eax, ebx; lahf; add ecx, edx; hlt`. -/
def addLahfAdd : OpBlock Empty :=
  { guestStart := 0x1000
    guestLen := 6
    ops := .plain (.insnStart 0x1000) :: binop .add .rax .rbx 0 ++
      [.plain (.writeReg .rax (.temp 2) .b4), .plain (.insnStart 0x1002), .lahf,
        .plain (.insnStart 0x1003)] ++ binop .add .rcx .rdx 3 ++
      [.plain (.writeReg .rcx (.temp 5) .b4), .plain (.insnStart 0x1005), .plain .hlt] }

theorem addLahf_preserved :
    HiddenReadsLive noOther addLahf start addLahf.ops.length ∧ Completes noOther addLahf start ∧
      SameInterpreted (interpretBlock noOther addLahf start)
        (interpretBlock noOther (elided false addLahf) start) := by
  have hlive : HiddenReadsLive noOther addLahf start addLahf.ops.length := by decide
  have hend : Completes noOther addLahf start := by decide
  exact ⟨hlive, hend, completed_block_preserved noOther false addLahf start (fun _ => hlive) hend⟩

/-- The second addition makes all six flags of the first one dead, and `lahf` reads five of
them in between. -/
theorem lahf_reads_dropped_flags : Completes noOther addLahfAdd start ∧
      (interpretBlock noOther addLahfAdd start).state.guest.gpr rax = 0x5700 ∧
      (interpretBlock noOther (elided false addLahfAdd) start).state.guest.gpr rax = 0x200 := by
  decide

/-- A block that leaves at op `k` does so with the same flags and the same memory after the
pass, if no hidden reader before `k` sees a stale flag and no flag is stale at `k`. -/
theorem early_exit_preserved (sem : OtherOps X V) (disabled : Bool) (ir : OpBlock X)
    (s : WalkState V) (k : ℕ) (hexit : (walked sem ir s).leftAt = some k)
    (hlive : disabled = false → HiddenReadsLive sem ir s k ∧ ∀ x, staleAt sem ir s k x = false) :
    SameInterpreted (interpretBlock sem ir s) (interpretBlock sem (elided disabled ir) s) := by
  cases disabled with
  | true => exact sameInterpreted_refl _
  | false =>
    cases hw : walked sem ir s with
    | fell t =>
      rw [hw] at hexit
      cases hexit
    | left j e =>
      rw [hw] at hexit
      cases hexit
      exact preserved_of_left hw (hlive rfl).1 (hlive rfl).2

def loadRcx (t : Temp) : List (IrOp Empty) :=
  [.plain (.readReg t .rdx), .plain (.load (t + 1) (.temp t) .b4),
    .plain (.writeReg .rcx (.temp (t + 1)) .b4)]

/-- `cmp eax, ebx; mov ecx, [rdx]; hlt`. -/
def cmpLoad : OpBlock Empty :=
  { guestStart := 0x1000
    guestLen := 5
    ops := .plain (.insnStart 0x1000) :: binop .sub .rax .rbx 0 ++
      .plain (.insnStart 0x1002) :: loadRcx 3 ++
      [.plain (.insnStart 0x1004), .plain .hlt] }

theorem cmpLoad_preserved :
    (walked noOther cmpLoad start).leftAt = some 6 ∧ HiddenReadsLive noOther cmpLoad start 6 ∧
      (∀ x, staleAt noOther cmpLoad start 6 x = false) ∧
      SameInterpreted (interpretBlock noOther cmpLoad start)
        (interpretBlock noOther (elided false cmpLoad) start) := by
  have hexit : (walked noOther cmpLoad start).leftAt = some 6 := by decide
  have hlive : HiddenReadsLive noOther cmpLoad start 6 := by decide
  have hshown : ∀ x, staleAt noOther cmpLoad start 6 x = false := by decide
  exact ⟨hexit, hlive, hshown,
    early_exit_preserved noOther false cmpLoad start 6 hexit fun _ => ⟨hlive, hshown⟩⟩

/-- `cmp eax, ebx; mov ecx, [rdx]; add esi, edi; hlt`. -/
def cmpLoadAdd : OpBlock Empty :=
  { guestStart := 0x1000
    guestLen := 7
    ops := .plain (.insnStart 0x1000) :: binop .sub .rax .rbx 0 ++
      .plain (.insnStart 0x1002) :: loadRcx 3 ++
      .plain (.insnStart 0x1004) :: binop .add .rsi .rdi 5 ++
      [.plain (.writeReg .rsi (.temp 7) .b4), .plain (.insnStart 0x1006), .plain .hlt] }

/-- The addition makes the flags of the comparison dead, and the fault of the load between them
shows them. -/
theorem fault_shows_dropped_flags :
    (interpretBlock noOther cmpLoadAdd start).result = .exit (.unmappedMemory 0 .read) ∧
      (interpretBlock noOther (elided false cmpLoadAdd) start).result =
        .exit (.unmappedMemory 0 .read) ∧
      (interpretBlock noOther cmpLoadAdd start).state.flags.sf = true ∧
      (interpretBlock noOther (elided false cmpLoadAdd) start).state.flags.sf = false := by
  decide

end X86Jit.Lift
