import X86Jit.Core.Regions
import X86Jit.Interp.Arithmetic
import X86Jit.Interp.Exec

/-! What the string instructions are for: one element at a time, until the counter of the address
size is zero or the repeat condition fails. -/
namespace X86Jit.StringSpec
open X86Jit.Lib BitVec StrInsn Memory Size

def compared {w : ℕ} (x y : BitVec w) : Flag → Bool
  | .cf => x.ult y
  | .pf => evenParity ((x - y).setWidth 8)
  | .af => decide (x.toNat % 16 < y.toNat % 16)
  | .zf => decide (x = y)
  | .sf => (x - y).msb
  | .of => decide (x.toInt - y.toInt < -2 ^ (w - 1) ∨ 2 ^ (w - 1) ≤ x.toInt - y.toInt)

def setAll (f : Flags) (value : Flag → Bool) : Flags :=
  [Flag.cf, .pf, .af, .zf, .sf, .of].foldl (fun f x => f.set x (value x)) f

variable (a b : U64) (size : Size)

theorem toNat_truncate (v : U64) : (v.setWidth size.bits).toNat = (v &&& mask size).toNat := by
  rw [toNat_setWidth, toNat_and_mask]

theorem flag_exactSub (x : Flag) : (exactSub size a b 0).flag size x =
      compared (a.setWidth size.bits) (b.setWidth size.bits) x := by
  have hres : (exactSub size a b 0).res size =
      (a.setWidth size.bits - b.setWidth size.bits).toNat := by
    rw [Exact.res, exactSub, unsigned, unsigned, toNat_sub]
    cases size <;> simp only [Size.bits, Size.bytes] at * <;> omega
  cases x with
  | cf =>
    rw [Exact.flag, compared, ult_eq_decide, decide_eq_decide, exactSub, unsigned,
      unsigned]
    cases size <;> simp only [Size.bits, Size.bytes] at * <;> omega
  | pf =>
    have hbyte : BitVec.ofInt 8 ((exactSub size a b 0).res size) =
        (a.setWidth size.bits - b.setWidth size.bits).setWidth 8 := by
      rw [hres, ofInt_natCast]
      apply eq_of_toNat_eq
      rw [toNat_setWidth, toNat_ofNat]
    rw [Exact.flag, compared, hbyte, evenParity, beq_eq_decide, decide_eq_decide, Nat.even_iff]
  | af =>
    rw [Exact.flag, compared, decide_eq_decide, exactSub, unsigned, unsigned]
    dsimp only
    omega
  | zf =>
    rw [Exact.flag, compared, decide_eq_decide, hres, ← toNat_inj, toNat_sub]
    cases size <;> simp only [Size.bits, Size.bytes] at * <;> omega
  | sf =>
    rw [Exact.flag, compared, msb_eq_decide, decide_eq_decide, hres]
    exact_mod_cast Iff.rfl
  | of =>
    rw [Exact.flag, compared, decide_eq_decide, exactSub, signed, signed]
    dsimp only
    omega

theorem aluSub_get (x : Flag) :
    (aluSub a b 0 size).get x = compared (a.setWidth size.bits) (b.setWidth size.bits) x := by
  rw [← flag_exactSub]
  exact (aluSub_gives size a b (c := 0) (Nat.zero_le 1)).flag x

theorem apply_all (f : Flags) (r : AluResult) : apply f .all r = setAll f r.get := by
  have hall (f : Flags) (x : Flag) : applyOne .all r f x = f.set x (r.get x) := by
    rw [applyOne, if_pos (FlagMask.has_all x)]
  unfold apply setAll
  rw [if_neg (by decide)]
  simp only [List.foldl_cons, List.foldl_nil, hall]

/-- A write of 32 bits clears the upper half, other writes keep what is above. -/
def withLow (w : ℕ) (reg : U64) (n : ℕ) : U64 :=
  if w = 32 then BitVec.ofNat 64 n else BitVec.ofNat 64 (reg.toNat / 2 ^ w * 2 ^ w + n)

theorem merge_low {m : U64} {w : ℕ} (hm : ∀ x : U64, (x &&& m).toNat = x.toNat % 2 ^ w)
    (reg : U64) {lo : U64} (hlo : lo.toNat < 2 ^ w) :
    (reg &&& ~~~m) ||| lo = BitVec.ofNat 64 (reg.toNat / 2 ^ w * 2 ^ w + lo.toNat) := by
  have hin : lo &&& m = lo := by
    apply eq_of_toNat_eq
    rw [hm, Nat.mod_eq_of_lt hlo]
  have hapart (x : U64) : (reg &&& ~~~m) &&& (x &&& m) = 0#64 := by
    apply eq_of_getLsbD_eq
    intro j hj
    simp only [getLsbD_and, getLsbD_not]
    cases m.getLsbD j <;> simp
  have hupper : (reg &&& ~~~m).toNat = reg.toNat / 2 ^ w * 2 ^ w := by
    have hwhole : (reg &&& ~~~m) + (reg &&& m) = reg := by
      rw [add_eq_or_of_and_eq_zero _ _ (hapart reg)]
      apply eq_of_getLsbD_eq
      intro j hj
      simp only [getLsbD_and, getLsbD_or, getLsbD_not, hj]
      cases m.getLsbD j <;> simp
    have hsum := congrArg BitVec.toNat hwhole
    have hdiv := Nat.div_add_mod reg.toNat (2 ^ w)
    rw [toNat_add, hm] at hsum
    rw [mul_comm] at hdiv
    omega
  rw [← hin, ← add_eq_or_of_and_eq_zero _ _ (hapart lo)]
  apply eq_of_toNat_eq
  rw [toNat_add, hupper, toNat_ofNat]

theorem writeBack_eq (b : AddrBits) (reg : U64) {lo : U64} (hlo : lo.toNat < 2 ^ b.bits) :
    b.writeBack reg lo = withLow b.bits reg lo.toNat := by
  cases b with
  | a32 => exact (ofNat_toNat 64 lo).symm
  | a16 => exact merge_low AddrBits.a16.toNat_and_amask reg hlo
  | a64 => exact merge_low AddrBits.a64.toNat_and_amask reg hlo

theorem writeGpr_eq (reg val : U64) (size : Size) :
    writeGpr reg val size = withLow size.bits reg (val.toNat % 2 ^ size.bits) := by
  have hmerge : (reg &&& ~~~mask size) ||| (val &&& mask size) =
      BitVec.ofNat 64 (reg.toNat / 2 ^ size.bits * 2 ^ size.bits + val.toNat % 2 ^ size.bits) := by
    rw [merge_low (fun x => toNat_and_mask x size) reg (toNat_and_mask_lt val size),
      toNat_and_mask]
  cases size with
  | b1 | b2 => exact hmerge
  | b4 =>
    apply eq_of_toNat_eq
    change (val &&& mask .b4).toNat = (BitVec.ofNat 64 _).toNat
    have hlt : val.toNat % 2 ^ b4.bits < 2 ^ 64 := (Nat.mod_le _ _).trans_lt val.isLt
    rw [toNat_and_mask, toNat_ofNat, Nat.mod_eq_of_lt hlt]
  | b8 =>
    have hall : (reg &&& ~~~mask .b8) ||| (val &&& mask .b8) = val := by
      have hmask : mask .b8 = allOnes 64 := rfl
      rw [hmask, not_allOnes, BitVec.and_zero, and_allOnes, BitVec.zero_or]
    exact hall.symm.trans hmerge

variable {M : Type} [StrMem M]

def linear (b : AddrBits) (base reg : U64) : U64 := base + BitVec.ofNat 64 (reg.toNat % 2 ^ b.bits)

variable (i : StrInsn)

def moved (df : Bool) (reg : U64) : U64 :=
  withLow i.addrBits.bits reg ((reg.toNat % 2 ^ i.addrBits.bits +
    if df then 2 ^ i.addrBits.bits - i.elem.bytes else i.elem.bytes) % 2 ^ i.addrBits.bits)

def counted (reg : U64) : U64 :=
  withLow i.addrBits.bits reg
    ((reg.toNat % 2 ^ i.addrBits.bits + (2 ^ i.addrBits.bits - 1)) % 2 ^ i.addrBits.bits)

def single (c : StrCpu) (s : M) : Except StrFault (StrCpu × M) :=
  let w := i.elem.bits
  let src := linear i.addrBits i.srcBase c.rsi
  let dst := linear i.addrBits i.dstBase c.rdi
  let rsi := moved i c.flags.df c.rsi
  let rdi := moved i c.flags.df c.rdi
  match i.op with
  | .movs => do
    let v ← i.load s src
    let s' ← i.store s dst v
    return ({ c with rsi, rdi }, s')
  | .stos => do
    let s' ← i.store s dst (BitVec.ofNat 64 (c.rax.toNat % 2 ^ w))
    return ({ c with rdi }, s')
  | .lods => do
    let v ← i.load s src
    return ({ c with rax := withLow w c.rax (v.toNat % 2 ^ w), rsi }, s)
  | .scas => do
    let v ← i.load s dst
    return ({ c with flags := setAll c.flags (compared (c.rax.setWidth w) (v.setWidth w)), rdi }, s)
  | .cmps => do
    let u ← i.load s src
    let v ← i.load s dst
    return ({ c with flags := setAll c.flags (compared (u.setWidth w) (v.setWidth w)), rsi, rdi }, s)

def counter (c : StrCpu) : ℕ := c.rcx.toNat % 2 ^ i.addrBits.bits

def mayRepeat : RepKind → Flags → Bool
  | .none, _ => false
  | .rep, _ => true
  | .repe, f => f.zf
  | .repne, f => !f.zf

def tally (c : StrCpu) : StrCpu :=
  if i.rep = .none then c else { c with rcx := counted i c.rcx }

/-- The instruction, one element after the other: how it ends, and with what. -/
inductive Repeats (i : StrInsn) : StrCpu → M → (StrCpu × M) × Option StrFault → Prop
  | nothing {c s} (hrep : i.rep ≠ .none) (hzero : counter i c = 0) :
      Repeats i c s ((c, s), none)
  | trap {c s f} (hgo : i.rep = .none ∨ counter i c ≠ 0) (hstep : single i c s = .error f) :
      Repeats i c s ((c, s), some f)
  | last {c s c' s'} (hgo : i.rep = .none ∨ counter i c ≠ 0)
      (hstep : single i c s = .ok (c', s')) (hend : mayRepeat i.rep c'.flags = false) :
      Repeats i c s ((tally i c', s'), none)
  | again {c s c' s' out} (hgo : i.rep = .none ∨ counter i c ≠ 0)
      (hstep : single i c s = .ok (c', s')) (hmore : mayRepeat i.rep c'.flags = true)
      (hrest : Repeats i (tally i c') s' out) : Repeats i c s out

variable {i : StrInsn} {c : StrCpu} {s : M}

theorem advance_eq (df : Bool) (reg : U64) : i.advance df reg = moved i df reg := by
  have hlt : (((reg &&& i.addrBits.amask) + i.stride df) &&& i.addrBits.amask).toNat <
      2 ^ i.addrBits.bits := by
    rw [AddrBits.toNat_and_amask]
    exact Nat.mod_lt _ (Nat.two_pow_pos _)
  rw [StrInsn.advance, writeBack_eq _ _ hlt, toNat_step]
  rfl

theorem dec_eq (reg : U64) : i.dec reg = counted i reg := by
  have hlt : (((reg &&& i.addrBits.amask) - 1) &&& i.addrBits.amask).toNat <
      2 ^ i.addrBits.bits := by
    rw [AddrBits.toNat_and_amask]
    exact Nat.mod_lt _ (Nat.two_pow_pos _)
  have hstep : (((reg &&& i.addrBits.amask) - 1) &&& i.addrBits.amask).toNat =
      (reg.toNat % 2 ^ i.addrBits.bits + (2 ^ i.addrBits.bits - 1)) % 2 ^ i.addrBits.bits := by
    rw [AddrBits.toNat_and_amask, toNat_sub, AddrBits.toNat_and_amask]
    change (2 ^ 64 - 1 + _) % 2 ^ 64 % _ = _
    cases i.addrBits <;> simp only [AddrBits.bits] <;> omega
  rw [StrInsn.dec, writeBack_eq _ _ hlt, hstep]
  rfl

theorem lin_eq (base reg : U64) :
    base + (reg &&& i.addrBits.amask) = linear i.addrBits base reg := by
  have hmask : reg &&& i.addrBits.amask = BitVec.ofNat 64 (reg.toNat % 2 ^ i.addrBits.bits) := by
    apply eq_of_toNat_eq
    have hlt : reg.toNat % 2 ^ i.addrBits.bits < 2 ^ 64 := (Nat.mod_le _ _).trans_lt reg.isLt
    rw [AddrBits.toNat_and_amask, toNat_ofNat, Nat.mod_eq_of_lt hlt]
  rw [linear, hmask]

theorem element_eq_single : i.element c s = single i c s := by
  have hlow : c.rax &&& mask i.elem = BitVec.ofNat 64 (c.rax.toNat % 2 ^ i.elem.bits) := by
    apply eq_of_toNat_eq
    have hlt : c.rax.toNat % 2 ^ i.elem.bits < 2 ^ 64 := (Nat.mod_le _ _).trans_lt c.rax.isLt
    rw [toNat_and_mask, toNat_ofNat, Nat.mod_eq_of_lt hlt]
  have hflags (a b : U64) : apply c.flags .all (aluSub a b 0 i.elem) =
      setAll c.flags (compared (a.setWidth i.elem.bits) (b.setWidth i.elem.bits)) := by
    rw [apply_all]
    exact congrArg _ (funext (aluSub_get a b i.elem))
  have hrax : (c.rax &&& mask i.elem).setWidth i.elem.bits = c.rax.setWidth i.elem.bits := by
    apply eq_of_toNat_eq
    rw [toNat_truncate, toNat_truncate, toNat_and_mask, toNat_and_mask, Nat.mod_mod]
  unfold StrInsn.element single
  cases i.op with
  | stos => simp only [advance_eq, dstLin, lin_eq, hlow]
  | lods => simp only [advance_eq, srcLin, lin_eq, writeGpr_eq]
  | scas => simp only [advance_eq, dstLin, lin_eq, hflags, hrax]
  | _ => simp only [advance_eq, srcLin, dstLin, lin_eq, hflags]

theorem remaining_eq : i.remaining c = counter i c := AddrBits.toNat_and_amask _ _

theorem count_eq : i.count c = tally i c := by
  unfold StrInsn.count tally
  cases hrep : i.rep with
  | none => rw [if_pos rfl]
  | _ =>
    rw [if_neg (by simp), ← dec_eq]

theorem stops_eq (f : Flags) : i.stops f = !mayRepeat i.rep f := by
  unfold StrInsn.stops
  cases i.rep with
  | repne => exact (Bool.not_not _).symm
  | _ => rfl

theorem run_goes {c' : StrCpu} {s' : M} (hgo : i.rep = .none ∨ counter i c ≠ 0)
    (hstep : single i c s = .ok (c', s')) (hmore : mayRepeat i.rep c'.flags = true) :
    i.run c s = i.run (tally i c') s' ∧ counter i (tally i c') < counter i c := by
  have hrep : i.rep ≠ .none := by
    intro hrep
    rw [hrep] at hmore
    cases hmore
  have hleft : counter i c ≠ 0 := hgo.resolve_left hrep
  have hsame : i.remaining c' = i.remaining c := by
    rw [remaining, remaining, element_rcx (element_eq_single.trans hstep)]
  have hcount := remaining_count hrep (by rwa [hsame, remaining_eq])
  rw [count_eq] at hcount
  have hnot : ¬(i.rep ≠ .none ∧ i.remaining c = 0) := fun h => hleft (remaining_eq ▸ h.2)
  constructor
  · rw [StrInsn.run, StrInsn.loop, if_neg hnot, element_eq_single, hstep]
    dsimp only
    rw [stops_eq, hmore, count_eq, StrInsn.run]
    apply loop_fuel <;> omega
  · rw [← remaining_eq, ← remaining_eq]
    omega

theorem run_nothing (hrep : i.rep ≠ .none) (hzero : counter i c = 0) :
    i.run c s = ((c, s), none) := by
  rw [StrInsn.run, StrInsn.loop, if_pos ⟨hrep, remaining_eq.trans hzero⟩]

theorem run_trap {f : StrFault} (hgo : i.rep = .none ∨ counter i c ≠ 0)
    (hstep : single i c s = .error f) : i.run c s = ((c, s), some f) := by
  have hnot : ¬(i.rep ≠ .none ∧ i.remaining c = 0) := by
    rw [remaining_eq]
    tauto
  rw [StrInsn.run, StrInsn.loop, if_neg hnot, element_eq_single, hstep]

theorem run_last {c' : StrCpu} {s' : M} (hgo : i.rep = .none ∨ counter i c ≠ 0)
    (hstep : single i c s = .ok (c', s')) (hend : mayRepeat i.rep c'.flags = false) :
    i.run c s = ((tally i c', s'), none) := by
  have hnot : ¬(i.rep ≠ .none ∧ i.remaining c = 0) := by
    rw [remaining_eq]
    tauto
  rw [StrInsn.run, StrInsn.loop, if_neg hnot, element_eq_single, hstep]
  dsimp only
  rw [stops_eq, hend, Bool.not_false, if_pos rfl, count_eq]

theorem Repeats.eq_run {out : (StrCpu × M) × Option StrFault} (h : Repeats i c s out) :
    out = i.run c s := by
  induction h with
  | nothing hrep hzero => exact (run_nothing hrep hzero).symm
  | trap hgo hstep => exact (run_trap hgo hstep).symm
  | last hgo hstep hend => exact (run_last hgo hstep hend).symm
  | again hgo hstep hmore _ ih => exact ih.trans (run_goes hgo hstep hmore).1.symm

/-- The loop ends, as the instruction does. The induction is on the counter. -/
theorem repeats_run (i : StrInsn) (c : StrCpu) (s : M) : Repeats i c s (i.run c s) := by
  induction hn : counter i c using Nat.strong_induction_on generalizing c s with
  | _ n ih =>
    by_cases hzero : i.rep ≠ .none ∧ counter i c = 0
    · rw [run_nothing hzero.1 hzero.2]
      exact .nothing hzero.1 hzero.2
    have hgo : i.rep = .none ∨ counter i c ≠ 0 := by tauto
    cases hstep : single i c s with
    | error f =>
      rw [run_trap hgo hstep]
      exact .trap hgo hstep
    | ok next =>
      obtain ⟨c', s'⟩ := next
      cases hmore : mayRepeat i.rep c'.flags with
      | false =>
        rw [run_last hgo hstep hmore]
        exact .last hgo hstep hmore
      | true =>
        obtain ⟨hrun, hlt⟩ := run_goes hgo hstep hmore
        rw [hrun]
        exact .again hgo hstep hmore (ih _ (hn ▸ hlt) _ _ rfl)

theorem repeats_iff {out : (StrCpu × M) × Option StrFault} : Repeats i c s out ↔ out = i.run c s :=
  ⟨Repeats.eq_run, fun h => h ▸ repeats_run i c s⟩

variable {m m' : Memory} {rs : List Region}

structure Grown (m m' : Memory) (rs : List Region) : Prop where
  regions : m'.regions = m.regions ++ rs
  span : m'.span = m.span
  guestBase : m'.guestBase = m.guestBase
  bytes : m'.bytes = m.bytes
  codePage : m'.codePage = m.codePage
  codeRange : m'.codeRange = m.codeRange
  dirty : m'.dirty = m.dirty
  watched : m'.watched = m.watched
  watchDirty : m'.watchDirty = m.watchDirty

theorem Grown.eq {m'' : Memory} (h : Grown m m' rs) (h' : Grown m m'' rs) : m' = m'' := by
  obtain ⟨span', spanLe', guestBase', regions', regionsLe', bytes', codePage', codeRange', dirty',
    watched', watchDirty'⟩ := m'
  obtain ⟨h₁, h₂, h₃, h₄, h₅, h₆, h₇, h₈, h₉⟩ := h
  obtain ⟨g₁, g₂, g₃, g₄, g₅, g₆, g₇, g₈, g₉⟩ := h'
  cases m''
  subst h₁ h₂ h₃ h₄ h₅ h₆ h₇ h₈ h₉ g₁ g₂ g₃ g₄ g₅ g₆ g₇ g₈ g₉
  rfl

theorem Grown.regionFor (h : Grown m m' rs) {addr len : ℕ} {r : Region}
    (hr : m.regionFor addr len = some r) : m'.regionFor addr len = some r := by
  unfold Memory.regionFor at *
  rw [h.regions, List.find?_append, hr]
  rfl

theorem Grown.notePage (h : Grown m m' rs) (page : ℕ) :
    Grown (m.notePage page) (m'.notePage page) rs := by
  have hcode : Grown (m.noteCode page) (m'.noteCode page) rs := by
    unfold noteCode
    by_cases hpage : page ∈ m.codePage
    · have hpage' : page ∈ m'.codePage := h.codePage ▸ hpage
      rw [if_pos hpage, if_pos hpage']
      exact { h with dirty := congrArg (· ++ [page]) h.dirty }
    · have hpage' : page ∉ m'.codePage := h.codePage ▸ hpage
      rw [if_neg hpage, if_neg hpage']
      exact h
  unfold Memory.notePage
  generalize m.noteCode page = m₁ at hcode
  generalize m'.noteCode page = m₁' at hcode
  unfold noteWatch watchCount
  by_cases hpage : m₁.watched.card ≠ 0 ∧ page ∈ m₁.watched
  · have hpage' : m₁'.watched.card ≠ 0 ∧ page ∈ m₁'.watched := hcode.watched ▸ hpage
    rw [if_pos hpage, if_pos hpage']
    exact { hcode with watchDirty := congrArg (insert page) hcode.watchDirty }
  · have hpage' : ¬(m₁'.watched.card ≠ 0 ∧ page ∈ m₁'.watched) := hcode.watched ▸ hpage
    rw [if_neg hpage, if_neg hpage']
    exact hcode

theorem Grown.noteWrite (h : Grown m m' rs) (addr len : ℕ) :
    Grown (m.noteWrite addr len) (m'.noteWrite addr len) rs := by
  unfold Memory.noteWrite
  induction codePageRange addr len generalizing m m' with
  | nil => exact h
  | cons page pages ih => exact ih (h.notePage page)

theorem Grown.setBytes (h : Grown m m' rs) (addr : ℕ) (bs : List U8) :
    Grown (m.setBytes addr bs) (m'.setBytes addr bs) rs := by
  refine { h with bytes := ?_ }
  unfold Memory.setBytes
  rw [h.bytes]

theorem Grown.read (h : Grown m m' rs) {addr v : U64} {size : Size}
    (hread : m.read addr size = .ok v) : m'.read addr size = .ok v := by
  unfold Memory.read at *
  cases hr : m.regionFor addr.toNat size.bytes with
  | none =>
    rw [hr] at hread
    cases hread
  | some r =>
    have hload : m'.loadLe addr.toNat size.bytes = m.loadLe addr.toNat size.bytes := by
      unfold loadLe
      rw [h.bytes]
    rw [hr] at hread
    rw [h.regionFor hr, hload]
    exact hread

theorem Grown.write (h : Grown m m' rs) {addr size : ℕ} {val : U64} {m₁ : Memory}
    (hwrite : m.write addr val size = .ok m₁) :
    ∃ m₁', m'.write addr val size = .ok m₁' ∧ Grown m₁ m₁' rs := by
  unfold Memory.write at *
  cases hr : m.regionFor addr size with
  | none =>
    rw [hr] at hwrite
    cases hwrite
  | some r =>
    rw [hr] at hwrite
    rw [h.regionFor hr]
    dsimp only at hwrite ⊢
    cases hkind : r.kind with
    | trap =>
      rw [hkind] at hwrite
      cases hwrite
    | rom =>
      rw [hkind] at hwrite
      cases hwrite
      exact ⟨m', rfl, h⟩
    | ram =>
      rw [hkind] at hwrite
      cases hwrite
      exact ⟨_, rfl, (h.setBytes addr (leBytes val size)).noteWrite addr size⟩

def mapAll (m : Memory) (rs : List Region) : Except MapError Memory :=
  rs.foldlM (fun m r => m.map r.start r.size r.kind) m

theorem grown_refl (m : Memory) : Grown m m [] :=
  ⟨(List.append_nil _).symm, rfl, rfl, rfl, rfl, rfl, rfl, rfl, rfl⟩

theorem map_grown {r : Region} (h : m.map r.start r.size r.kind = .ok m') : Grown m m' [r] := by
  unfold map at h
  split at h
  · cases h
  split at h
  · cases h
  split at h
  · cases h
  cases h
  exact ⟨rfl, rfl, rfl, rfl, rfl, rfl, rfl, rfl, rfl⟩

theorem Grown.trans {m'' : Memory} {rs' : List Region} (h : Grown m m' rs) (h' : Grown m' m'' rs') :
    Grown m m'' (rs ++ rs') where
  regions := by rw [h'.regions, h.regions, List.append_assoc]
  span := h'.span.trans h.span
  guestBase := h'.guestBase.trans h.guestBase
  bytes := h'.bytes.trans h.bytes
  codePage := h'.codePage.trans h.codePage
  codeRange := h'.codeRange.trans h.codeRange
  dirty := h'.dirty.trans h.dirty
  watched := h'.watched.trans h.watched
  watchDirty := h'.watchDirty.trans h.watchDirty

theorem mapAll_grown (h : mapAll m rs = .ok m') : Grown m m' rs := by
  induction rs generalizing m with
  | nil =>
    cases h
    exact grown_refl _
  | cons r rs ih =>
    rw [mapAll, List.foldlM_cons, bind_eq_ok] at h
    obtain ⟨m₁, hmap, hrest⟩ := h
    exact (map_grown hmap).trans (ih hrest)

structure SameMap (m n : Memory) : Prop where
  regions : n.regions = m.regions
  span : n.span = m.span
  guestBase : n.guestBase = m.guestBase

theorem SameMap.mapAll {n : Memory} (h : SameMap m n) (hmap : mapAll m rs = .ok m') :
    ∃ n', StringSpec.mapAll n rs = .ok n' := by
  induction rs generalizing m n with
  | nil => exact ⟨n, rfl⟩
  | cons r rs ih =>
    rw [StringSpec.mapAll, List.foldlM_cons, bind_eq_ok] at hmap
    obtain ⟨m₁, hone, hrest⟩ := hmap
    have hgrown := map_grown hone
    obtain ⟨n₁, hn₁⟩ : ∃ n₁, n.map r.start r.size r.kind = .ok n₁ := by
      unfold map at hone ⊢
      split at hone
      · cases hone
      split at hone
      · cases hone
      split at hone
      · cases hone
      rename_i hbase hspan hfree
      rw [if_neg (h.guestBase ▸ hbase), dif_neg (h.span ▸ hspan), if_neg (h.regions ▸ hfree)]
      exact ⟨_, rfl⟩
    have hgrown' := map_grown hn₁
    have hsame : SameMap m₁ n₁ := by
      refine ⟨?_, ?_, ?_⟩
      · rw [hgrown.regions, hgrown'.regions, h.regions]
      · rw [hgrown.span, hgrown'.span, h.span]
      · rw [hgrown.guestBase, hgrown'.guestBase, h.guestBase]
    obtain ⟨n', hn'⟩ := ih hsame hrest
    refine ⟨n', ?_⟩
    rw [StringSpec.mapAll, List.foldlM_cons, bind_eq_ok]
    exact ⟨n₁, hn₁, hn'⟩

theorem SameMap.refl (m : Memory) : SameMap m m := ⟨rfl, rfl, rfl⟩

theorem SameMap.trans {n k : Memory} (h : SameMap m n) (h' : SameMap n k) : SameMap m k :=
  ⟨h'.regions.trans h.regions, h'.span.trans h.span, h'.guestBase.trans h.guestBase⟩

theorem sameMap_write {addr size : ℕ} {val : U64} (h : m.write addr val size = .ok m') :
    SameMap m m' := by
  unfold Memory.write at h
  split at h
  · cases h
  split at h
  · cases h
  · cases h
    exact SameMap.refl m
  · cases h
    have htags := noteWrite_sameTags (m.setBytes addr (leBytes val size)) addr size
    exact ⟨htags.regions, htags.span, noteWrite_guestBase _ _ _⟩

variable {c' : StrCpu} {m₁ : Memory}

theorem single_grown (h : Grown m m' rs) (hstep : single i c m = .ok (c', m₁)) :
    (∃ m₁', single i c m' = .ok (c', m₁') ∧ Grown m₁ m₁' rs) ∧ SameMap m m₁ := by
  have hload {addr v : U64} (hv : i.load m addr = .ok v) : i.load m' addr = .ok v := by
    rw [i.load_eq_ok] at hv ⊢
    exact h.read hv
  have hstore {addr v : U64} {m₂ : Memory} (hs : i.store m addr v = .ok m₂) :
      (∃ m₂', i.store m' addr v = .ok m₂' ∧ Grown m₂ m₂' rs) ∧ SameMap m m₂ := by
    simp only [i.store_eq_ok] at hs ⊢
    exact ⟨h.write hs, sameMap_write hs⟩
  unfold single at *
  cases hop : i.op with
  | movs =>
    simp only [hop, bind_eq_ok] at hstep ⊢
    obtain ⟨v, hv, m₂, hm₂, hret⟩ := hstep
    cases hret
    obtain ⟨⟨m₂', hm₂', hgrown⟩, hsame⟩ := hstore hm₂
    exact ⟨⟨m₂', ⟨v, hload hv, m₂', hm₂', rfl⟩, hgrown⟩, hsame⟩
  | stos =>
    simp only [hop, bind_eq_ok] at hstep ⊢
    obtain ⟨m₂, hm₂, hret⟩ := hstep
    cases hret
    obtain ⟨⟨m₂', hm₂', hgrown⟩, hsame⟩ := hstore hm₂
    exact ⟨⟨m₂', ⟨m₂', hm₂', rfl⟩, hgrown⟩, hsame⟩
  | lods | scas =>
    simp only [hop, bind_eq_ok] at hstep ⊢
    obtain ⟨v, hv, hret⟩ := hstep
    cases hret
    exact ⟨⟨m', ⟨v, hload hv, rfl⟩, h⟩, SameMap.refl m⟩
  | cmps =>
    simp only [hop, bind_eq_ok] at hstep ⊢
    obtain ⟨u, hu, v, hv, hret⟩ := hstep
    cases hret
    exact ⟨⟨m', ⟨u, hload hu, v, hload hv, rfl⟩, h⟩, SameMap.refl m⟩

/-- A run that traps has done the first elements of the run over the grown memory. The induction is
on the elements before the trap. -/
theorem Repeats.resumes {out : (StrCpu × Memory) × Option StrFault} (h : Repeats i c m out)
    (htrap : out.2.isSome = true) (hgrown : Grown m m' rs) :
    SameMap m out.1.2 ∧ ∃ n', Grown out.1.2 n' rs ∧ i.run out.1.1 n' = i.run c m' := by
  induction h generalizing m' with
  | nothing | last => cases htrap
  | trap => exact ⟨SameMap.refl _, m', hgrown, rfl⟩
  | again hgo hstep hmore _ ih =>
    obtain ⟨⟨s', hstep', hgrown'⟩, hsame⟩ := single_grown hgrown hstep
    obtain ⟨hrest, n', hn', hrun⟩ := ih htrap hgrown'
    refine ⟨hsame.trans hrest, n', hn', ?_⟩
    rw [hrun, (run_goes hgo hstep' hmore).1]

theorem string_run_resumes (i : StrInsn) (c : StrCpu) (m : Memory) (rs : List Region) (m' : Memory)
    (htrap : (i.run c m).2.isSome = true) (hmap : mapAll m rs = .ok m') :
    ∃ n', mapAll (i.run c m).1.2 rs = .ok n' ∧ i.run (i.run c m).1.1 n' = i.run c m' := by
  obtain ⟨hsame, n', hgrown, hrun⟩ := (repeats_run i c m).resumes htrap (mapAll_grown hmap)
  obtain ⟨k, hk⟩ := hsame.mapAll hmap
  rw [(mapAll_grown hk).eq hgrown] at hk
  exact ⟨n', hk, hrun⟩

/-- The string loop ends as the instruction does, element by element; and when it traps, what it
leaves is what the loop over a memory with more mapped still has to do. -/
theorem string_run_spec (i : StrInsn) (c : StrCpu) (m : Memory) :
    (∀ out, Repeats i c m out ↔ out = i.run c m) ∧
      ∀ rs m', (i.run c m).2.isSome = true → mapAll m rs = .ok m' →
        ∃ n', mapAll (i.run c m).1.2 rs = .ok n' ∧ i.run (i.run c m).1.1 n' = i.run c m' :=
  ⟨fun _ => repeats_iff, string_run_resumes i c m⟩

def lowerHalf : Memory :=
  { fresh 128 0 (by decide) with
    regions := [⟨0, 64, .ram⟩]
    regions_le := by decide }

def bothHalves : Memory :=
  { fresh 128 0 (by decide) with
    regions := [⟨0, 64, .ram⟩, ⟨64, 64, .ram⟩]
    regions_le := by decide }

def repStosb : StrInsn := ⟨.stos, .b1, .rep, .a64, 0, 0⟩

def twoBytes : StrCpu := ⟨7, 2, 0, 63, ⟨false, 0, 0, false, false, false, false, false⟩⟩

/-- The second byte traps, and with the upper half mapped the loop goes on with it. -/
theorem rep_stosb_resumes : (repStosb.run twoBytes lowerHalf).2.isSome = true ∧
    mapAll lowerHalf [⟨64, 64, .ram⟩] = .ok bothHalves ∧
    ∃ n', mapAll (repStosb.run twoBytes lowerHalf).1.2 [⟨64, 64, .ram⟩] = .ok n' ∧
      repStosb.run (repStosb.run twoBytes lowerHalf).1.1 n' = repStosb.run twoBytes bothHalves := by
  have htrap : (repStosb.run twoBytes lowerHalf).2.isSome = true := by decide +kernel
  exact ⟨htrap, rfl, (string_run_spec repStosb twoBytes lowerHalf).2 _ _ htrap rfl⟩

end X86Jit.StringSpec
