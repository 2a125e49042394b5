import X86Jit.Interp.Leaving

/-! Interrupts and exceptions of real mode: which ops raise one, and what it takes for the
frame and the table entry to get through. -/
namespace X86Jit
open X86Jit.Lib BitVec Function Memory

variable {addr : U64} {m m' : Memory}

namespace Memory

def backed (m : Memory) (addr : U64) (size : Size) : Bool :=
  match m.regionFor addr.toNat size.bytes with
  | some r => r.kind != .trap
  | none => false

theorem backed_congr (h : m'.regions = m.regions) (addr : U64) (size : Size) :
    m'.backed addr size = m.backed addr size := by
  rw [backed, backed, regionFor, regionFor, h]

theorem read_ok_iff {size : Size} :
    (∃ v, m.read addr size = .ok v) ↔ m.backed addr size = true := by
  unfold read backed
  cases m.regionFor addr.toNat size.bytes with
  | none => simp
  | some r => cases hkind : r.kind <;> simp [hkind]

theorem write_ok_iff {v : U64} {size : Size} :
    (∃ m', m.write addr.toNat v size.bytes = .ok m') ↔ m.backed addr size = true := by
  unfold write backed
  cases m.regionFor addr.toNat size.bytes with
  | none => simp
  | some r => cases hkind : r.kind <;> simp [hkind]

theorem regions_write {addr n : ℕ} {v : U64} (h : m.write addr v n = .ok m') :
    m'.regions = m.regions := by
  unfold write at h
  split at h
  · cases h
  · split at h
    · cases h
    · cases h
      rfl
    · cases h
      exact (noteWrite_sameTags _ _ _).regions

end Memory

def Exit.isException : Exit → Bool
  | .exception _ _ => true
  | _ => false

def StepResult.isException : StepResult → Bool
  | .exit e => e.isException
  | .continue => false

namespace Guest
variable {V : Type} (g : Guest V)

def frameAddr (n : U16) : U64 := g.ssAddr ((g.gpr rsp).setWidth 16 - n)

theorem getLsbD_high {i : ℕ} (hi : i < 16) : (~~~(0xffff : U64)).getLsbD i = false := by
  have hall : ∀ j : Fin 16, (~~~(0xffff : U64)).getLsbD j.val = false := by decide
  exact hall ⟨i, hi⟩

theorem low16_merge (x : U64) (w : U16) :
    ((x &&& ~~~0xffff) ||| w.setWidth 64).setWidth 16 = w := by
  apply eq_of_getLsbD_eq
  intro i hi
  simp [hi]

theorem merge_merge (x : U64) (w w' : U16) :
    (((x &&& ~~~0xffff) ||| w.setWidth 64) &&& ~~~0xffff) ||| w'.setWidth 64 =
      (x &&& ~~~0xffff) ||| w'.setWidth 64 := by
  have hhigh : w.setWidth 64 &&& ~~~(0xffff : U64) = 0 := by
    apply eq_of_getLsbD_eq
    intro i _
    rw [getLsbD_and, getLsbD_setWidth]
    by_cases hi : i < 16
    · rw [getLsbD_high hi]
      simp
    · rw [getLsbD_of_ge w i (not_lt.mp hi)]
      simp
  rw [BitVec.and_or_distrib_right, hhigh, BitVec.and_assoc]
  exact congrArg (· ||| _) BitVec.or_zero

theorem push16_eq (w : U16) :
    g.push16 w =
      match g.mem.write (g.frameAddr 2).toNat (w.setWidth 64) Size.b2.bytes with
      | .error t => .error (g.trapOut t (g.frameAddr 2) .b2 .write (w.setWidth 64))
      | .ok m => .ok ({ g with mem := m }.setLow16 rsp ((g.gpr rsp).setWidth 16 - 2)) := by
  unfold push16 storeOr frameAddr
  dsimp only
  cases g.mem.write (g.ssAddr ((g.gpr rsp).setWidth 16 - 2)).toNat (w.setWidth 64) Size.b2.bytes
    <;> rfl

theorem frameAddr_push (m : Memory) (k n : U16) :
    ({ g with mem := m }.setLow16 rsp ((g.gpr rsp).setWidth 16 - k)).frameAddr n =
      g.frameAddr (k + n) := by
  unfold frameAddr ssAddr setLow16 setGpr
  dsimp only
  rw [update_self, low16_merge, BitVec.sub_sub]

def LeavesQuietly (e : Stop (Guest V)) : Prop := ∃ x, e.result = .exit x ∧ x.isException = false

theorem trapOut_quiet (t : MemTrap) (addr : U64) (size : Size) (access : AccessKind) (value : U64) :
    LeavesQuietly (g.trapOut t addr size access value) := by
  cases t <;> cases access <;> exact ⟨_, rfl, rfl⟩

theorem push16_cases (w : U16) :
    (∃ m, g.mem.write (g.frameAddr 2).toNat (w.setWidth 64) Size.b2.bytes = .ok m ∧
      g.push16 w = .ok ({ g with mem := m }.setLow16 rsp ((g.gpr rsp).setWidth 16 - 2))) ∨
    (g.mem.backed (g.frameAddr 2) .b2 = false ∧ ∃ e, g.push16 w = .error e ∧ LeavesQuietly e) := by
  rw [push16_eq]
  cases hw : g.mem.write (g.frameAddr 2).toNat (w.setWidth 64) Size.b2.bytes with
  | ok m => exact Or.inl ⟨m, rfl, rfl⟩
  | error t =>
    refine Or.inr ⟨?_, _, rfl, g.trapOut_quiet _ _ _ _ _⟩
    rw [← Bool.not_eq_true]
    intro hbacked
    obtain ⟨m, hm⟩ := write_ok_iff.mpr hbacked
    cases hw.symm.trans hm

def pushFrame (a b c : U16) : Except (Stop (Guest V)) (Guest V) := do
  let g ← g.push16 a
  let g ← g.push16 b
  g.push16 c

def FrameStored (a b c : U16) (m' : Memory) : Prop :=
  ∃ m₁ m₂, g.mem.write (g.frameAddr 2).toNat (a.setWidth 64) Size.b2.bytes = .ok m₁ ∧
    m₁.write (g.frameAddr 4).toNat (b.setWidth 64) Size.b2.bytes = .ok m₂ ∧
    m₂.write (g.frameAddr 6).toNat (c.setWidth 64) Size.b2.bytes = .ok m'

def frameBacked : Bool :=
  g.mem.backed (g.frameAddr 2) .b2 && g.mem.backed (g.frameAddr 4) .b2 &&
    g.mem.backed (g.frameAddr 6) .b2

theorem frameBacked_of_stored {a b c : U16} (h : g.FrameStored a b c m') :
    g.frameBacked = true ∧ m'.regions = g.mem.regions := by
  obtain ⟨m₁, m₂, h₁, h₂, h₃⟩ := h
  have hr₁ := regions_write h₁
  have hr₂ := (regions_write h₂).trans hr₁
  have hb₁ := write_ok_iff.mp ⟨m₁, h₁⟩
  have hb₂ := write_ok_iff.mp ⟨m₂, h₂⟩
  have hb₃ := write_ok_iff.mp ⟨m', h₃⟩
  rw [backed_congr hr₁] at hb₂
  rw [backed_congr hr₂] at hb₃
  refine ⟨?_, (regions_write h₃).trans hr₂⟩
  rw [frameBacked, hb₁, hb₂, hb₃]
  rfl

theorem setLow16_push (m m' : Memory) (w w' : U16) :
    { ({ g with mem := m }.setLow16 rsp w) with mem := m' }.setLow16 rsp w' =
      { g with mem := m' }.setLow16 rsp w' := by
  unfold setLow16 setGpr
  simp only [update_self, update_idem, merge_merge]

theorem pushFrame_cases (a b c : U16) :
    (∃ m, g.FrameStored a b c m ∧
      g.pushFrame a b c = .ok ({ g with mem := m }.setLow16 rsp ((g.gpr rsp).setWidth 16 - 6))) ∨
    (g.frameBacked = false ∧ ∃ e, g.pushFrame a b c = .error e ∧ LeavesQuietly e) := by
  unfold pushFrame
  have hsp (m : Memory) (k : U16) :
      (({ g with mem := m }.setLow16 rsp ((g.gpr rsp).setWidth 16 - k)).gpr rsp).setWidth 16 =
        (g.gpr rsp).setWidth 16 - k := by
    unfold setLow16 setGpr
    dsimp only
    rw [update_self, low16_merge]
  -- the pushes one by one: each is at the next word down, in memory with the same regions
  rcases g.push16_cases a with ⟨m₁, h₁, ha⟩ | ⟨hbad, e, ha, hq⟩
  · rw [ha]
    have hr₁ := regions_write h₁
    have h4 := g.frameAddr_push m₁ 2 2
    rcases push16_cases ({ g with mem := m₁ }.setLow16 rsp ((g.gpr rsp).setWidth 16 - 2)) b with
      ⟨m₂, h₂, hb⟩ | ⟨hbad, e, hb, hq⟩
    · rw [h4] at h₂
      have hr₂ := (regions_write h₂).trans hr₁
      rw [hsp, BitVec.sub_sub, setLow16_push] at hb
      have h6 := g.frameAddr_push m₂ 4 2
      rcases push16_cases ({ g with mem := m₂ }.setLow16 rsp ((g.gpr rsp).setWidth 16 - 4)) c with
        ⟨m₃, h₃, hc⟩ | ⟨hbad, e, hc, hq⟩
      · rw [h6] at h₃
        rw [hsp, BitVec.sub_sub, setLow16_push] at hc
        refine Or.inl ⟨m₃, ⟨m₁, m₂, h₁, h₂, h₃⟩, ?_⟩
        change (Guest.push16 _ b >>= _) = _
        rw [hb]
        exact hc
      · rw [h6] at hbad
        have hbad' : g.mem.backed (g.frameAddr 6) .b2 = false := by
          rw [← backed_congr hr₂]
          exact hbad
        refine Or.inr ⟨?_, e, ?_, hq⟩
        · rw [frameBacked, hbad', Bool.and_false]
        · change (Guest.push16 _ b >>= _) = _
          rw [hb]
          exact hc
    · rw [h4] at hbad
      have hbad' : g.mem.backed (g.frameAddr 4) .b2 = false := by
        rw [← backed_congr hr₁]
        exact hbad
      refine Or.inr ⟨?_, e, ?_, hq⟩
      · rw [frameBacked, hbad', Bool.and_false, Bool.false_and]
      · change (Guest.push16 _ b >>= _) = _
        rw [hb]
        rfl
  · refine Or.inr ⟨?_, e, ?_, hq⟩
    · rw [frameBacked, hbad, Bool.false_and, Bool.false_and]
    · rw [ha]
      rfl

end Guest

variable {V : Type}

def ivtAddr (vector : U8) : U64 := vector.setWidth 64 * 4

structure Delivered (s : WalkState V) (vector : U8) (savedIp : U64) (s' : WalkState V) :
    Prop where
  frame : s.guest.FrameStored s.flags.toFlags16 s.guest.cs (savedIp.setWidth 16) s'.guest.mem
  sp : s'.guest.gpr = (s.guest.setLow16 rsp ((s.guest.gpr rsp).setWidth 16 - 6)).gpr
  flags : s'.flags = { s.flags with ifl := false }
  ip : s'.guest.mem.read (ivtAddr vector) .b2 = .ok s'.guest.rip
  cs : ∃ w, s'.guest.mem.read (ivtAddr vector + 2) .b2 = .ok w ∧ s'.guest.cs = w.setWidth 16

variable (s : WalkState V) (vector : U8)

def deliverable : Bool :=
  s.guest.frameBacked && s.guest.mem.backed (ivtAddr vector) .b2 &&
    s.guest.mem.backed (ivtAddr vector + 2) .b2

theorem loadOr_cases (g : Guest V) (addr : U64) (size : Size) :
    (∃ v, g.mem.read addr size = .ok v ∧ g.loadOr addr size = .ok v) ∨
      (g.mem.backed addr size = false ∧
        ∃ e, g.loadOr addr size = .error e ∧ Guest.LeavesQuietly e) := by
  unfold Guest.loadOr
  cases hr : g.mem.read addr size with
  | ok v => exact Or.inl ⟨v, rfl, rfl⟩
  | error t =>
    refine Or.inr ⟨?_, _, rfl, g.trapOut_quiet _ _ _ _ _⟩
    rw [← Bool.not_eq_true]
    intro hbacked
    obtain ⟨v, hv⟩ := read_ok_iff.mpr hbacked
    cases hr.symm.trans hv

def readEntry (g : Guest V) (vector : U8) : Except (Stop (Guest V)) (U64 × U64) := do
  let newIp ← g.loadOr (ivtAddr vector) .b2
  let newCs ← g.loadOr (ivtAddr vector + 2) .b2
  return (newIp, newCs)

theorem readEntry_cases (g : Guest V) (vector : U8) :
    (∃ v w, g.mem.read (ivtAddr vector) .b2 = .ok v ∧ g.mem.read (ivtAddr vector + 2) .b2 = .ok w ∧
      readEntry g vector = .ok (v, w)) ∨
    ((g.mem.backed (ivtAddr vector) .b2 && g.mem.backed (ivtAddr vector + 2) .b2) = false ∧
      ∃ e, readEntry g vector = .error e ∧ Guest.LeavesQuietly e) := by
  unfold readEntry
  rcases loadOr_cases g (ivtAddr vector) .b2 with ⟨v, hv, hip⟩ | ⟨hbad, e, herr, hquiet⟩
  · rw [hip]
    rcases loadOr_cases g (ivtAddr vector + 2) .b2 with ⟨w, hw, hcs⟩ | ⟨hbad, e, herr, hquiet⟩
    · refine Or.inl ⟨v, w, hv, hw, ?_⟩
      rw [hcs]
      rfl
    · refine Or.inr ⟨by rw [hbad, Bool.and_false], e, ?_, hquiet⟩
      rw [herr]
      rfl
  · refine Or.inr ⟨by rw [hbad, Bool.false_and], e, ?_, hquiet⟩
    rw [herr]
    rfl

variable (savedIp : U64)

theorem deliverInterrupt_eq :
    deliverInterrupt s vector savedIp =
      match s.guest.pushFrame s.flags.toFlags16 s.guest.cs (savedIp.setWidth 16) with
      | .error e => ⟨⟨e.state, s.flags⟩, e.result⟩
      | .ok g =>
        match readEntry g vector with
        | .error e => ⟨⟨e.state, { s.flags with ifl := false }⟩, e.result⟩
        | .ok (newIp, newCs) =>
          ⟨⟨{ g with cs := newCs.setWidth 16, rip := newIp }, { s.flags with ifl := false }⟩,
            .continue⟩ := by
  have hframe : (do
      let g ← s.guest.push16 s.flags.toFlags16
      let g ← g.push16 g.cs
      g.push16 (savedIp.setWidth 16)) =
        s.guest.pushFrame s.flags.toFlags16 s.guest.cs (savedIp.setWidth 16) := by
    unfold Guest.pushFrame
    rw [Guest.push16_eq]
    cases s.guest.mem.write _ _ _ <;> rfl
  unfold deliverInterrupt
  rw [hframe]
  rfl

theorem deliverInterrupt_cases :
    (deliverable s vector = true ∧ (deliverInterrupt s vector savedIp).result = .continue ∧
      Delivered s vector savedIp (deliverInterrupt s vector savedIp).state) ∨
    (deliverable s vector = false ∧
      ∃ x, (deliverInterrupt s vector savedIp).result = .exit x ∧ x.isException = false) := by
  rw [deliverInterrupt_eq]
  rcases s.guest.pushFrame_cases s.flags.toFlags16 s.guest.cs (savedIp.setWidth 16) with
    ⟨m, hstored, hok⟩ | ⟨hbad, e, herr, x, hx, hquiet⟩
  · rw [hok]
    dsimp only
    obtain ⟨hbacked, hregions⟩ := s.guest.frameBacked_of_stored hstored
    have hentry : ∀ addr,
        ({ s.guest with mem := m }.setLow16 rsp ((s.guest.gpr rsp).setWidth 16 - 6)).mem.backed
          addr .b2 = s.guest.mem.backed addr .b2 := by
      intro addr
      exact backed_congr hregions addr .b2
    rcases readEntry_cases
        ({ s.guest with mem := m }.setLow16 rsp ((s.guest.gpr rsp).setWidth 16 - 6)) vector with
      ⟨v, w, hv, hw, hok⟩ | ⟨hbad, e, herr, x, hx, hquiet⟩
    · left
      have hb₁ := read_ok_iff.mp ⟨v, hv⟩
      have hb₂ := read_ok_iff.mp ⟨w, hw⟩
      rw [hentry] at hb₁ hb₂
      rw [hok]
      refine ⟨?_, rfl, hstored, rfl, rfl, hv, w, hw, rfl⟩
      rw [deliverable, hbacked, hb₁, hb₂]
      rfl
    · right
      rw [hentry, hentry] at hbad
      rw [herr]
      refine ⟨?_, x, hx, hquiet⟩
      rw [deliverable, Bool.and_assoc, hbad, Bool.and_false]
  · right
    rw [herr]
    refine ⟨?_, x, hx, hquiet⟩
    rw [deliverable, hbad]
    rfl

theorem Delivered.deliverable {s s' : WalkState V} {vector : U8} {savedIp : U64}
    (h : Delivered s vector savedIp s') : deliverable s vector = true := by
  obtain ⟨hbacked, hregions⟩ := s.guest.frameBacked_of_stored h.frame
  obtain ⟨w, hw, -⟩ := h.cs
  have hb₁ := read_ok_iff.mp ⟨_, h.ip⟩
  have hb₂ := read_ok_iff.mp ⟨w, hw⟩
  rw [backed_congr hregions] at hb₁ hb₂
  rw [X86Jit.deliverable, hbacked, hb₁, hb₂]
  rfl

theorem delivered_iff : Delivered s vector savedIp (deliverInterrupt s vector savedIp).state ↔
      deliverable s vector = true := by
  constructor
  · exact Delivered.deliverable
  · intro h
    rcases deliverInterrupt_cases s vector savedIp with ⟨-, -, hd⟩ | ⟨hno, -⟩
    · exact hd
    · rw [h] at hno
      cases hno

theorem deliverInterrupt_not_exception :
    (deliverInterrupt s vector savedIp).result.isException = false := by
  rcases deliverInterrupt_cases s vector savedIp with ⟨-, hr, -⟩ | ⟨-, x, hr, hx⟩
  · rw [hr]
    rfl
  · rw [hr]
    exact hx

variable {X : Type}

variable (sem : OtherOps X V) (blockEnd : U64) {sem blockEnd} {s : WalkState V} {op : IrOp X}

theorem exec_of_gate {vector : U8} {savedIp : U64} (h : op.gate s = some (vector, savedIp)) :
    exec sem blockEnd op s = .error (deliverInterrupt s vector savedIp) := by
  cases op with
  | intGate => cases h; rfl
  | intoGate nextIp =>
    change (if s.flags.of then some (4, nextIp) else none) = _ at h
    split at h
    · rename_i hof
      cases h
      simp only [exec, hof, if_true]
    · cases h
  | boundGate index lower upper faultIp nextIp =>
    simp only [IrOp.gate] at h
    split at h
    · rename_i hout
      cases h
      simp only [exec, execBoundGate, hout, if_true]
    · cases h
  | segLimitCheck offset size vector' faultIp =>
    simp only [IrOp.gate] at h
    split at h
    · rename_i hout
      cases h
      simp only [exec, hout, if_true]
    · cases h
  | _ => cases h

instance : Leaving fun (_ : Guest V) e => e.result.isException = false where
  congr _ h := h
  trap _ t _ _ access _ := by cases t <;> cases access <;> rfl

theorem exec_calm {e : Stop (WalkState V)}
    (h : op.fault sem s = none) (he : exec sem blockEnd op s = .error e) :
    e.result.isException = false := by
  by_cases hother : ∃ x, op = .set (.other x)
  · obtain ⟨x, rfl⟩ := hother
    simp only [IrOp.fault] at h
    simp only [exec, SetOp.exec] at he
    cases hsem : (sem x s.guest).1 with
    | ok g =>
      rw [hsem] at he
      cases he
    | error e' =>
      rw [hsem] at he h
      cases he
      obtain ⟨t, result⟩ := e'
      rcases result with - | (_ | _ | _ | _ | _ | _ | _) <;> first | rfl | cases h
  · have hstays : Stays (fun _ e => e.result.isException = false) s (exec sem blockEnd op s) := by
      refine exec_stays (fun e _ hgo _ => ?_) ?_ ?_ (fun x hx => hother ⟨x, hx⟩) ?_
      · obtain ⟨state, result⟩ := e
        rcases result with - | (_ | _ | _ | _ | _ | _ | _) <;> first | rfl | cases hgo
      · rintro addr rfl
        cases he
      · rintro vector advance rfl
        cases h
      · intro p hp
        rw [h] at hp
        cases hp
    rw [he] at hstays
    exact hstays

theorem exec_of_fault {vector : U8} (h : op.fault sem s = some (addr, vector)) :
    ∃ e, exec sem blockEnd op s = .error e ∧ e.result = .exit (.exception addr vector) := by
  cases op with
  | plain op =>
    cases op with
    | div quot rem hi lo divisor size signed =>
      simp only [IrOp.fault] at h
      split at h
      · cases h
      · rename_i hd
        cases h
        refine ⟨⟨⟨{ s.guest with rip := s.guest.curAddr }, s.flags⟩,
          .exit (.exception s.guest.curAddr 0)⟩, ?_, rfl⟩
        simp only [exec, PlainOp.exec, execDiv, hd]
        rfl
    | trap vector' advance =>
      cases h
      exact ⟨_, rfl, rfl⟩
    | _ => cases h
  | set op =>
    cases op with
    | other op =>
      simp only [IrOp.fault] at h
      split at h
      · rename_i t addr' vector' hres
        cases h
        refine ⟨⟨⟨t, s.flags.write (sem op s.guest).2⟩, .exit (.exception addr vector)⟩, ?_, rfl⟩
        simp only [exec, SetOp.exec, hres, withFlags]
      · cases h
    | _ => cases h
  | bcd kind =>
    cases kind with
    | aam base =>
      simp only [IrOp.fault] at h
      split at h
      · rename_i hbase
        cases h
        refine ⟨⟨⟨{ s.guest with rip := s.guest.curAddr }, s.flags⟩,
          .exit (.exception s.guest.curAddr 0)⟩, ?_, rfl⟩
        simp only [exec, execBcd, hbase, if_true]
        rfl
      · cases h
    | _ => cases h
  | _ => cases h

theorem walkOps_exception_iff {ir : OpBlock X} {vector : U8} :
    (walkOps sem ir s).result = .exit (.exception addr vector) ↔
      ∃ op t, Reaches (exec sem ir.blockEnd) ir.ops s op t ∧
        op.fault sem t = some (addr, vector) := by
  unfold walkOps
  constructor
  · intro h
    cases hw : walk (exec sem ir.blockEnd) ir.ops s with
    | fell t =>
      rw [hw] at h
      cases h
    | left k e =>
      simp only [hw] at h
      obtain ⟨op, t, hreach, herr⟩ := walk_eq_left_iff.mp ⟨k, hw⟩
      refine ⟨op, t, hreach, ?_⟩
      cases hfault : op.fault sem t with
      | none =>
        have hcalm := exec_calm hfault herr
        rw [h] at hcalm
        cases hcalm
      | some p =>
        obtain ⟨e', herr', hres⟩ : ∃ e', exec sem ir.blockEnd op t = .error e' ∧
            e'.result = .exit (.exception p.1 p.2) := exec_of_fault hfault
        cases herr.symm.trans herr'
        cases h.symm.trans hres
        rfl
  · rintro ⟨op, t, hreach, hfault⟩
    obtain ⟨e, herr, hres⟩ : ∃ e, exec sem ir.blockEnd op t = .error e ∧
        e.result = .exit (.exception addr vector) := exec_of_fault hfault
    obtain ⟨k, hw⟩ := walk_eq_left_iff.mpr ⟨op, t, hreach, herr⟩
    rw [hw]
    exact hres

theorem walkOps_of_gate {ir : OpBlock X} {t : WalkState V} {vector : U8}
    {savedIp : U64} (hreach : Reaches (exec sem ir.blockEnd) ir.ops s op t)
    (hgate : op.gate t = some (vector, savedIp)) :
    walkOps sem ir s = deliverInterrupt t vector savedIp := by
  unfold walkOps
  obtain ⟨k, hw⟩ := walk_eq_left_iff.mpr ⟨op, t, hreach, exec_of_gate hgate⟩
  rw [hw]

end X86Jit
