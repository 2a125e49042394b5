import X86Jit.Interp.Delivery

/-! The instructions of real mode that move words over the stack. Every word commits SP on its
own, so a trap leaves the registers as they were exactly if it is the first word that traps. -/
namespace X86Jit
open Guest

def StepResult.isTrap : StepResult → Bool
  | .exit (.unmappedMemory _ _) | .exit (.mmioRead _ _) | .exit (.mmioWrite _ _ _) => true
  | _ => false

variable {k : ℕ} {σ α β : Type}

def Ends (m : Except (Stop σ) α) (P : α → Prop) (Q : σ → Prop) : Prop :=
  match m with
  | .ok a => P a
  | .error e => Q e.state

variable {m : Except (Stop σ) α} {P : α → Prop} {Q : σ → Prop}

theorem Ends.bind {f : α → Except (Stop σ) β} {P : β → Prop}
    (h : Ends m (fun a => Ends (f a) P Q) Q) : Ends (m >>= f) P Q := by
  cases m <;> exact h

theorem Ends.imp {P' : α → Prop} {Q' : σ → Prop} (h : Ends m P Q) (hP : ∀ a, P a → P' a)
    (hQ : ∀ s, Q s → Q' s) : Ends m P' Q' := by
  cases m with
  | ok a => exact hP a h
  | error e => exact hQ e.state h

theorem Ends.state {e : Stop σ} (h : Ends m P Q) (he : m = .error e) : Q e.state := by
  rw [he] at h
  exact h

theorem ends_foldlM {f : α → β → Except (Stop σ) α} {I : ℕ → α → Prop} {J : ℕ → σ → Prop}
    (hmono : ∀ k s, J k s → J (k + 1) s) (l : List β)
    (hf : ∀ b ∈ l, ∀ k a, I k a → Ends (f a b) (I (k + 1)) (J (k + 1))) {a : α}
    (ha : I k a) : Ends (l.foldlM f a) (I (k + l.length)) (J (k + l.length)) := by
  have hlater (n k : ℕ) (s : σ) (h : J k s) : J (k + n) s := by
    induction n with
    | zero => exact h
    | succ n ih => exact hmono _ s ih
  induction l generalizing k a with
  | nil => exact ha
  | cons b l ih =>
    have hlen : k + (b :: l).length = k + 1 + l.length := by
      rw [List.length_cons, Nat.add_right_comm, Nat.add_assoc]
    rw [hlen]
    refine Ends.bind ((hf b List.mem_cons_self k a ha).imp ?_ ?_)
    · intro a' ha'
      exact ih (fun b' hb' => hf b' (List.mem_cons_of_mem b hb')) ha'
    · exact hlater l.length (k + 1)

namespace Guest
variable {V : Type} {d : U16} {g g' g'' : Guest V}

def sp (g : Guest V) : U16 := (g.gpr rsp).setWidth 16

def topAddr (g : Guest V) : U64 := g.ssAddr g.sp

def Shifted (d : U16) (k : ℕ) (g g' : Guest V) : Prop :=
  ∃ j, 1 ≤ j ∧ j ≤ k ∧ g'.sp = g.sp + BitVec.ofNat 16 j * d

theorem Shifted.first (h : g'.sp = g.sp + d) : Shifted d 1 g g' := by
  refine ⟨1, le_rfl, le_rfl, ?_⟩
  rw [h, BitVec.one_mul]

theorem Shifted.step (h : Shifted d k g g') (hstep : g''.sp = g'.sp + d) :
    Shifted d (k + 1) g g'' := by
  obtain ⟨j, hone, hk, hsp⟩ := h
  refine ⟨j + 1, hone.trans (Nat.le_succ j), Nat.succ_le_succ hk, ?_⟩
  rw [hstep, hsp, BitVec.ofNat_add, BitVec.add_mul, BitVec.one_mul, BitVec.add_assoc]

theorem Shifted.mono (h : Shifted d k g g') : Shifted d (k + 1) g g' := by
  obtain ⟨j, hone, hk, hsp⟩ := h
  exact ⟨j, hone, hk.trans (Nat.le_succ k), hsp⟩

theorem Shifted.congr (h : Shifted d k g g') (hsp : g''.gpr rsp = g'.gpr rsp) :
    Shifted d k g g'' := by
  have hsame : g''.sp = g'.sp := by rw [sp, sp, hsp]
  unfold Shifted
  rw [hsame]
  exact h

theorem Shifted.ne (h : Shifted d k g g') (hd : d = 2 ∨ d = -2) (hk : k < 2 ^ 15) :
    g'.gpr rsp ≠ g.gpr rsp := by
  intro heq
  obtain ⟨j, hone, hjk, hsp⟩ := h
  have hzero : BitVec.ofNat 16 j * d = 0 := by
    have hsame : g'.sp = g.sp := by rw [sp, sp, heq]
    rw [hsame] at hsp
    exact BitVec.add_right_eq_self.mp hsp.symm
  have htwice : BitVec.ofNat 16 j * 2 = 0 := by
    rcases hd with rfl | rfl
    · exact hzero
    · rw [BitVec.mul_neg] at hzero
      exact BitVec.neg_eq_zero_iff.mp hzero
  have hnat := congrArg BitVec.toNat htwice
  change j % 2 ^ 16 * 2 % 2 ^ 16 = 0 at hnat
  omega

theorem sp_setLow16 (g : Guest V) (w : U16) : (g.setLow16 rsp w).sp = w := by
  unfold sp setLow16 setGpr
  dsimp only
  rw [Function.update_self, low16_merge]

theorem gpr_setLow16_of_ne (g : Guest V) {i : Fin 16} (w : U16) (h : rsp ≠ i) :
    (g.setLow16 i w).gpr rsp = g.gpr rsp :=
  Function.update_of_ne h _ _

theorem push16_spec (g : Guest V) (w : U16) :
    (g.mem.backed (g.frameAddr 2) .b2 = true ∧
      ∃ g', g.push16 w = .ok g' ∧ g'.sp = g.sp + -2) ∨
    (g.mem.backed (g.frameAddr 2) .b2 = false ∧
      ∃ r, g.push16 w = .error ⟨{ g with rip := g.curAddr }, r⟩) := by
  rw [push16_eq]
  cases hw : g.mem.write (g.frameAddr 2).toNat (w.setWidth 64) Size.b2.bytes with
  | ok m =>
    refine .inl ⟨Memory.write_ok_iff.mp ⟨m, hw⟩, _, rfl, ?_⟩
    rw [sp_setLow16, BitVec.sub_eq_add_neg]
    rfl
  | error t =>
    refine .inr ⟨?_, _, rfl⟩
    rw [← Bool.not_eq_true]
    intro hbacked
    obtain ⟨m, hm⟩ := Memory.write_ok_iff.mpr hbacked
    cases hw.symm.trans hm

theorem pop16_spec (g : Guest V) :
    (g.mem.backed g.topAddr .b2 = true ∧ ∃ v g', g.pop16 = .ok (v, g') ∧ g'.sp = g.sp + 2) ∨
    (g.mem.backed g.topAddr .b2 = false ∧
      ∃ r, g.pop16 = .error ⟨{ g with rip := g.curAddr }, r⟩) := by
  have hpop : g.pop16 = (g.loadOr g.topAddr .b2).map
      fun v => (v.setWidth 16, g.setLow16 rsp (g.sp + 2)) := by
    unfold pop16 topAddr
    change (g.loadOr (g.ssAddr g.sp) .b2 >>= _) = _
    cases g.loadOr (g.ssAddr g.sp) .b2 <;> rfl
  rw [hpop]
  unfold loadOr
  cases hr : g.mem.read g.topAddr .b2 with
  | ok v => exact .inl ⟨Memory.read_ok_iff.mp ⟨v, hr⟩, _, _, rfl, g.sp_setLow16 _⟩
  | error t =>
    refine .inr ⟨?_, _, rfl⟩
    rw [← Bool.not_eq_true]
    intro hbacked
    obtain ⟨v, hv⟩ := Memory.read_ok_iff.mpr hbacked
    cases hr.symm.trans hv

theorem push16_ends (h : Shifted (-2) k g g') (w : U16) :
    Ends (g'.push16 w) (Shifted (-2) (k + 1) g) (Shifted (-2) (k + 1) g) := by
  rcases g'.push16_spec w with ⟨-, g'', hok, hsp⟩ | ⟨-, r, herr⟩
  · rw [hok]
    exact h.step hsp
  · rw [herr]
    exact h.mono.congr rfl

theorem pop16_ends (h : Shifted 2 k g g') :
    Ends g'.pop16 (fun p => Shifted 2 (k + 1) g p.2) (Shifted 2 (k + 1) g) := by
  rcases g'.pop16_spec with ⟨-, v, g'', hok, hsp⟩ | ⟨-, r, herr⟩
  · rw [hok]
    exact h.step hsp
  · rw [herr]
    exact h.mono.congr rfl

/-- The first word decides: a trap on it only sets RIP, and a later one leaves SP moved. -/
structure FirstDecides (first : U64) (g g' : Guest V) : Prop where
  early : g.mem.backed first .b2 = false → g' = { g with rip := g.curAddr }
  late : g.mem.backed first .b2 = true → g'.gpr rsp ≠ g.gpr rsp

theorem push_first {f : Guest V → Except (Stop (Guest V)) α} {w : U16} (hk : k < 2 ^ 15)
    (hf : ∀ g', Shifted (-2) 1 g g' → Ends (f g') (fun _ => True) (Shifted (-2) k g))
    {e : Stop (Guest V)} (he : (g.push16 w >>= f) = .error e) :
    FirstDecides (g.frameAddr 2) g e.state := by
  rcases g.push16_spec w with ⟨hbacked, g', hok, hsp⟩ | ⟨hbacked, r, herr⟩
  · rw [hok] at he
    have hshift : Shifted (-2) k g e.state := (hf g' (.first hsp)).state he
    refine ⟨?_, fun _ => hshift.ne (.inr rfl) hk⟩
    intro hno
    cases hbacked.symm.trans hno
  · rw [herr] at he
    cases he
    refine ⟨fun _ => rfl, ?_⟩
    intro hyes
    cases hyes.symm.trans hbacked

theorem pop_first {f : U16 × Guest V → Except (Stop (Guest V)) α} (hk : k < 2 ^ 15)
    (hf : ∀ v g', Shifted 2 1 g g' → Ends (f (v, g')) (fun _ => True) (Shifted 2 k g))
    {e : Stop (Guest V)} (he : (g.pop16 >>= f) = .error e) : FirstDecides g.topAddr g e.state := by
  rcases g.pop16_spec with ⟨hbacked, v, g', hok, hsp⟩ | ⟨hbacked, r, herr⟩
  · rw [hok] at he
    have hshift : Shifted 2 k g e.state := (hf v g' (.first hsp)).state he
    refine ⟨?_, fun _ => hshift.ne (.inl rfl) hk⟩
    intro hno
    cases hbacked.symm.trans hno
  · rw [herr] at he
    cases he
    refine ⟨fun _ => rfl, ?_⟩
    intro hyes
    cases hyes.symm.trans hbacked

end Guest

variable {d : U16}

section Words
variable {V : Type} {g : Guest V} {e : Stop (Guest V)}
open Guest

theorem pusha_first (he : execPushaReal g = .error e) : FirstDecides (g.frameAddr 2) g e.state := by
  unfold execPushaReal at he
  refine push_first (k := 8) (by decide) ?_ he
  intro g' hg'
  have hrest := ends_foldlM (I := fun k => Shifted (-2) k g) (J := fun k => Shifted (-2) k g)
    (fun _ _ => Shifted.mono)
    ([rcx, rdx, rbx, rsp, rbp, rsi, rdi].map fun i => (g.gpr i).setWidth 16)
    (fun w _ _ _ h => push16_ends h w) hg'
  exact hrest.imp (fun _ _ => trivial) fun _ => id

def fillSlot (slot : Option (Fin 16)) (p : U16 × Guest V) :
    Except (Stop (Guest V)) (Guest V) :=
  match slot with
  | some i => .ok (p.2.setLow16 i p.1)
  | none => .ok p.2

theorem execPopaReal_eq : execPopaReal g =
    [some rdi, some rsi, some rbp, none, some rbx, some rdx, some rcx, some rax].foldlM
      (fun g slot => g.pop16 >>= fillSlot slot) g := by
  rfl

theorem fillSlot_ends {slot : Option (Fin 16)} {p : U16 × Guest V}
    (hslot : slot ≠ some rsp) (h : Shifted d k g p.2) :
    Ends (fillSlot slot p) (Shifted d k g) (Shifted d k g) := by
  cases slot with
  | none => exact h
  | some i =>
    have hi : rsp ≠ i := by
      rintro rfl
      exact hslot rfl
    exact h.congr (gpr_setLow16_of_ne p.2 p.1 hi)

theorem popa_first (he : execPopaReal g = .error e) : FirstDecides g.topAddr g e.state := by
  rw [execPopaReal_eq, List.foldlM_cons, bind_assoc] at he
  refine pop_first (k := 8) (by decide) ?_ he
  intro v g' hg'
  refine Ends.bind ((fillSlot_ends (by decide) hg').imp ?_ fun _ => ?_)
  · intro g'' hg''
    have hrest := ends_foldlM (I := fun k => Shifted 2 k g) (J := fun k => Shifted 2 k g)
      (f := fun (g : Guest V) slot => g.pop16 >>= fillSlot slot) (fun _ _ => Shifted.mono)
      [some rsi, some rbp, none, some rbx, some rdx, some rcx, some rax] ?_ hg''
    · exact hrest.imp (fun _ _ => trivial) fun _ => id
    · intro slot hslot k g₁ h₁
      have hne : slot ≠ some rsp := by
        rintro rfl
        revert hslot
        decide
      refine Ends.bind ((pop16_ends h₁).imp ?_ fun _ => id)
      intro p hp
      exact fillSlot_ends hne hp
  · rintro ⟨j, hone, hj, hsp⟩
    exact ⟨j, hone, hj.trans (by decide), hsp⟩

theorem loadOr_ends {g' : Guest V} (h : Shifted d k g g') (addr : U64)
    (size : Size) : Ends (g'.loadOr addr size) (fun _ => True) (Shifted d k g) := by
  unfold loadOr
  cases g'.mem.read addr size with
  | ok v => trivial
  | error t => exact h.congr rfl

theorem copyDisplay_ends {g' : Guest V} (h : Shifted (-2) k g g') :
    Ends (copyDisplay g') (Shifted (-2) (k + 1) g) (Shifted (-2) (k + 1) g) := by
  have hbp (w : U16) : Shifted (-2) k g (g'.setLow16 rbp w) :=
    h.congr (gpr_setLow16_of_ne g' w (by decide))
  refine Ends.bind ((loadOr_ends (hbp _) _ _).imp ?_ fun _ => Shifted.mono)
  intro w _
  exact push16_ends (hbp _) _

theorem copyDisplays_ends (n : ℕ) {g' : Guest V} (h : Shifted (-2) k g g') :
    Ends (copyDisplays n g') (Shifted (-2) (k + n) g) (Shifted (-2) (k + n) g) := by
  induction n generalizing k g' with
  | zero => exact h
  | succ n ih =>
    have hlen : k + (n + 1) = k + 1 + n := by omega
    rw [hlen]
    refine Ends.bind ((copyDisplay_ends h).imp (fun _ => ih) ?_)
    rintro s ⟨j, hone, hj, hsp⟩
    exact ⟨j, hone, hj.trans (Nat.le_add_right _ _), hsp⟩

def openFrame (framePtr alloc : U16) (g : Guest V) : Guest V :=
  let g := g.setLow16 rbp framePtr
  g.setLow16 rsp ((g.gpr rsp).setWidth 16 - alloc)

def enterRest (alloc : U16) (depth : ℕ) (g : Guest V) : Except (Stop (Guest V)) (Guest V) :=
  if depth = 0 then .ok (openFrame g.sp alloc g)
  else do
    let g' ← copyDisplays (depth - 1) g
    let g' ← g'.push16 g.sp
    return openFrame g.sp alloc g'

theorem execEnterReal_eq (alloc : U16) (level : U8) :
    execEnterReal g alloc level = g.push16 ((g.gpr rbp).setWidth 16) >>=
      enterRest alloc (level &&& 0x1f).toNat := by
  rfl

theorem enter_first {alloc : U16} {level : U8}
    (he : execEnterReal g alloc level = .error e) : FirstDecides (g.frameAddr 2) g e.state := by
  rw [execEnterReal_eq] at he
  refine push_first (k := 1 + ((level &&& 0x1f).toNat - 1) + 1) (by omega) ?_ he
  intro g' hg'
  unfold enterRest
  by_cases hzero : (level &&& 0x1f).toNat = 0
  · rw [if_pos hzero]
    trivial
  · rw [if_neg hzero]
    refine Ends.bind ((copyDisplays_ends _ hg').imp ?_ fun _ => Shifted.mono)
    intro g'' hg''
    exact Ends.bind ((push16_ends hg'' _).imp (fun _ _ => trivial) fun _ => id)

theorem farCall_first {cs ip : Val} {retIp : U16} (he : execFarCall g cs ip retIp = .error e)
    (ht : e.result.isTrap = true) : FirstDecides (g.frameAddr 2) g e.state := by
  unfold execFarCall at he
  split at he
  · rename_i e' hpush
    cases he
    refine push_first (k := 2) (by decide) ?_ hpush
    intro g' hg'
    exact (push16_ends hg' _).imp (fun _ _ => trivial) fun _ => id
  · cases he
    cases ht

theorem farRet_first {popExtra : U16} (he : execFarRet g popExtra = .error e)
    (ht : e.result.isTrap = true) : FirstDecides g.topAddr g e.state := by
  unfold execFarRet at he
  split at he
  · rename_i e' hpop
    cases he
    refine pop_first (k := 2) (by decide) ?_ hpop
    intro v g' hg'
    exact Ends.bind ((pop16_ends hg').imp (fun _ _ => trivial) fun _ => id)
  · cases he
    cases ht

end Words

variable {V : Type} {s : WalkState V}

structure WalkState.FirstDecides (first : U64) (s s' : WalkState V) : Prop where
  early : s.guest.mem.backed first .b2 = false →
    s' = { s with guest := { s.guest with rip := s.guest.curAddr } }
  late : s.guest.mem.backed first .b2 = true → s'.guest.gpr rsp ≠ s.guest.gpr rsp

theorem WalkState.FirstDecides.of_guest {first : U64} {g : Guest V}
    (h : s.guest.FirstDecides first g) : s.FirstDecides first ⟨g, s.flags⟩ := by
  refine ⟨?_, h.late⟩
  intro hno
  rw [h.early hno]

theorem readEntry_ends {g g' : Guest V} (h : g.Shifted d k g')
    (vector : U8) : Ends (readEntry g' vector) (fun _ => True) (g.Shifted d k) := by
  refine Ends.bind ((loadOr_ends h _ _).imp ?_ fun _ => id)
  intro _ _
  exact Ends.bind ((loadOr_ends h _ _).imp (fun _ _ => trivial) fun _ => id)

theorem pushFrame_ok {g g' : Guest V} {a b c : U16} (h : g.pushFrame a b c = .ok g') :
    g.mem.backed (g.frameAddr 2) .b2 = true ∧ g.Shifted (-2) 3 g' := by
  obtain ⟨m, hstored, hok⟩ | ⟨-, e, herr, -⟩ := g.pushFrame_cases a b c
  · have hall := (g.frameBacked_of_stored hstored).1
    rw [frameBacked, Bool.and_assoc, Bool.and_eq_true] at hall
    cases h.symm.trans hok
    refine ⟨hall.1, 3, by decide, le_rfl, ?_⟩
    rw [sp_setLow16, BitVec.sub_eq_add_neg]
    rfl
  · cases h.symm.trans herr

theorem deliver_first {vector : U8} {savedIp : U64}
    (ht : (deliverInterrupt s vector savedIp).result.isTrap = true) :
    s.FirstDecides (s.guest.frameAddr 2) (deliverInterrupt s vector savedIp).state := by
  rw [deliverInterrupt_eq] at ht ⊢
  cases hframe : s.guest.pushFrame s.flags.toFlags16 s.guest.cs (savedIp.setWidth 16) with
  | error e =>
    apply WalkState.FirstDecides.of_guest
    refine push_first (k := 3) (by decide) ?_ hframe
    intro g' hg'
    refine Ends.bind ((push16_ends hg' _).imp ?_ fun _ => Guest.Shifted.mono)
    intro g'' hg''
    exact (push16_ends hg'' _).imp (fun _ _ => trivial) fun _ => id
  | ok g' =>
    -- the frame is stored; only the table entry can trap
    rw [hframe] at ht
    obtain ⟨hbacked, hshift⟩ := pushFrame_ok hframe
    have hlate : ¬s.guest.mem.backed (s.guest.frameAddr 2) .b2 = false := by
      rw [hbacked]
      decide
    refine ⟨fun hno => absurd hno hlate, fun _ => ?_⟩
    dsimp only at ht ⊢
    cases hread : readEntry g' vector with
    | error e => exact ((readEntry_ends hshift vector).state hread).ne (.inr rfl) (by decide)
    | ok p =>
      rw [hread] at ht
      cases ht

theorem iret_first (ht : (execIretReal s).result.isTrap = true) :
    s.FirstDecides s.guest.topAddr (execIretReal s).state := by
  unfold execIretReal at ht ⊢
  dsimp only at ht ⊢
  split at ht
  · rename_i e hframe
    apply WalkState.FirstDecides.of_guest
    refine pop_first (k := 3) (by decide) ?_ hframe
    intro v g' hg'
    refine Ends.bind ((pop16_ends hg').imp ?_ fun _ => Guest.Shifted.mono)
    intro p hp
    exact Ends.bind ((pop16_ends hp).imp (fun _ _ => trivial) fun _ => id)
  · cases ht

def firstWord {X : Type} (g : Guest V) : IrOp X → Option U64
  | .plain .pushaReal | .plain (.enterReal _ _) | .plain (.farCall _ _ _) => some (g.frameAddr 2)
  | .pushfReal | .intGate _ _ | .intoGate _ => some (g.frameAddr 2)
  | .plain .popaReal | .plain (.farRet _) | .popfReal | .iretReal => some g.topAddr
  | _ => none

theorem exec_trap_first {X : Type} {sem : OtherOps X V} {blockEnd : U64} {op : IrOp X}
    {first : U64} (hop : firstWord s.guest op = some first) {e : Stop (WalkState V)}
    (he : exec sem blockEnd op s = .error e) (ht : e.result.isTrap = true) :
    s.FirstDecides first e.state := by
  -- an op that leaves the flags alone is judged by what it does to the guest
  have hguest {o : Outcome (Guest V)} (hwith : withFlags s.flags o = .error e)
      (h : ∀ e', o = .error e' → e'.result.isTrap = true → s.guest.FirstDecides first e'.state) :
      s.FirstDecides first e.state := by
    cases o with
    | ok g => cases hwith
    | error e' =>
      cases hwith
      exact .of_guest (h e' rfl ht)
  cases op with
  | plain op =>
    cases op with
    | pushaReal =>
      cases hop
      exact hguest he fun e' h _ => pusha_first h
    | popaReal =>
      cases hop
      exact hguest he fun e' h _ => popa_first h
    | enterReal alloc level =>
      cases hop
      exact hguest he fun e' h _ => enter_first h
    | farCall cs ip retIp =>
      cases hop
      exact hguest he fun e' h ht' => farCall_first h ht'
    | farRet popExtra =>
      cases hop
      exact hguest he fun e' h ht' => farRet_first h ht'
    | _ => cases hop
  | pushfReal =>
    cases hop
    -- a single word: there is nothing after the first
    refine hguest he fun e' h _ => ?_
    rw [← bind_pure (s.guest.push16 _)] at h
    refine push_first (k := 1) (by decide) ?_ h
    intro _ _
    trivial
  | popfReal =>
    cases hop
    change execPopfReal s = .error e at he
    unfold execPopfReal at he
    split at he
    · cases he
    · rename_i e' hpop
      refine hguest he fun e'' h _ => ?_
      cases h
      rw [← bind_pure s.guest.pop16] at hpop
      refine pop_first (k := 1) (by decide) ?_ hpop
      intro _ _ _
      trivial
  | iretReal =>
    cases hop
    cases he
    exact iret_first ht
  | intGate vector savedIp =>
    cases hop
    cases he
    exact deliver_first ht
  | intoGate nextIp =>
    cases hop
    cases he
    split at ht
    · rename_i hof
      rw [if_pos hof]
      exact deliver_first ht
    · cases ht
  | _ => cases hop

end X86Jit
