import X86Jit.Interp.State
import X86Jit.Lib.Runs

/-! The string instructions. Interpreter and compiled code share one loop, over the view of
guest memory each of them has. -/
namespace X86Jit
open X86Jit.Lib BitVec Nat

class StrMem (M : Type) where
  sload : M → U64 → Size → Except MemTrap U64
  sstore : M → U64 → U64 → Size → Except MemTrap M

/-- The interpreter goes through `Memory`: regions are checked and stores are noted. -/
instance : StrMem Memory where
  sload m addr elem := m.read addr elem
  sstore m addr val elem := m.write addr.toNat val elem.bytes

structure StrFault where
  addr : U64
  write : Bool
  trap : MemTrap
  value : U64
  elem : Size
  deriving DecidableEq, Repr

structure StrCpu where
  rax : U64
  rcx : U64
  rsi : U64
  rdi : U64
  flags : Flags
  deriving DecidableEq, Repr

structure StrInsn where
  op : StrOp
  elem : Size
  rep : RepKind
  addrBits : AddrBits
  srcBase : U64
  dstBase : U64
  deriving DecidableEq, Repr

def AddrBits.amask : AddrBits → U64
  | .a16 => 0xffff
  | .a32 => 0xffffffff
  | .a64 => allOnes 64

def AddrBits.writeBack (b : AddrBits) (reg lo : U64) : U64 :=
  match b with
  | .a32 => lo
  | _ => (reg &&& ~~~b.amask) ||| lo

def StrOp.compares : StrOp → Bool
  | .scas | .cmps => true
  | _ => false

def AddrBits.bits : AddrBits → ℕ
  | .a16 => 16
  | .a32 => 32
  | .a64 => 64

namespace AddrBits
variable (b : AddrBits)

theorem toNat_and_amask (x : U64) : (x &&& b.amask).toNat = x.toNat % 2 ^ b.bits := by
  cases b with
  | a16 => exact (toNat_and x 0xffff).trans (and_two_pow_sub_one_eq_mod x.toNat 16)
  | a32 => exact (toNat_and x 0xffffffff).trans (and_two_pow_sub_one_eq_mod x.toNat 32)
  | a64 =>
    rw [amask, and_allOnes]
    exact (mod_eq_of_lt x.isLt).symm

theorem and_amask_of_lt {x : U64} (h : x.toNat < 2 ^ b.bits) : x &&& b.amask = x := by
  apply eq_of_toNat_eq
  rw [toNat_and_amask, mod_eq_of_lt h]

theorem writeBack_of_lt {reg lo : U64} (h : reg.toNat < 2 ^ b.bits) : b.writeBack reg lo = lo := by
  have hclear : reg &&& ~~~b.amask = 0 := by
    rw [← b.and_amask_of_lt h, BitVec.and_assoc, BitVec.and_not_self]
    exact BitVec.and_zero
  cases b with
  | a32 => rfl
  | a16 =>
    change (reg &&& ~~~AddrBits.a16.amask) ||| lo = lo
    rw [hclear]
    exact BitVec.zero_or
  | a64 =>
    change (reg &&& ~~~AddrBits.a64.amask) ||| lo = lo
    rw [hclear]
    exact BitVec.zero_or

theorem writeBack_and_amask (reg x : U64) :
    b.writeBack reg (x &&& b.amask) &&& b.amask = x &&& b.amask := by
  have hmerge : ((reg &&& ~~~b.amask) ||| (x &&& b.amask)) &&& b.amask = x &&& b.amask := by
    apply eq_of_getLsbD_eq
    intro j hj
    simp only [getLsbD_and, getLsbD_or, getLsbD_not]
    cases b.amask.getLsbD j <;> simp
  cases b with
  | a32 => rw [writeBack, BitVec.and_assoc, BitVec.and_self]
  | a16 => exact hmerge
  | a64 => exact hmerge

end AddrBits

namespace StrInsn
variable (i : StrInsn)

def stride (df : Bool) : U64 :=
  if df then 0 - BitVec.ofNat 64 i.elem.bytes else BitVec.ofNat 64 i.elem.bytes

def advance (df : Bool) (reg : U64) : U64 :=
  i.addrBits.writeBack reg (((reg &&& i.addrBits.amask) + i.stride df) &&& i.addrBits.amask)

def dec (reg : U64) : U64 :=
  i.addrBits.writeBack reg (((reg &&& i.addrBits.amask) - 1) &&& i.addrBits.amask)

def srcLin (reg : U64) : U64 := i.srcBase + (reg &&& i.addrBits.amask)
def dstLin (reg : U64) : U64 := i.dstBase + (reg &&& i.addrBits.amask)

variable {M : Type} [StrMem M]

def load (s : M) (addr : U64) : Except StrFault U64 :=
  (StrMem.sload s addr i.elem).mapError fun trap => ⟨addr, false, trap, 0, i.elem⟩

def store (s : M) (addr val : U64) : Except StrFault M :=
  (StrMem.sstore s addr val i.elem).mapError fun trap => ⟨addr, true, trap, val, i.elem⟩

theorem load_eq_ok {s : M} {addr val : U64} :
    i.load s addr = .ok val ↔ StrMem.sload s addr i.elem = .ok val := by
  rw [load]
  cases StrMem.sload s addr i.elem <;> simp [Except.mapError]

theorem store_eq_ok {s s' : M} {addr val : U64} :
    i.store s addr val = .ok s' ↔ StrMem.sstore s addr val i.elem = .ok s' := by
  rw [store]
  cases StrMem.sstore s addr val i.elem <;> simp [Except.mapError]

/-- One element. A fault leaves registers and memory as they were before it. -/
def element (c : StrCpu) (s : M) : Except StrFault (StrCpu × M) :=
  let step := i.advance c.flags.df
  match i.op with
  | .movs => do
    let v ← i.load s (i.srcLin c.rsi)
    let s' ← i.store s (i.dstLin c.rdi) v
    return ({ c with rsi := step c.rsi, rdi := step c.rdi }, s')
  | .stos => do
    let s' ← i.store s (i.dstLin c.rdi) (c.rax &&& mask i.elem)
    return ({ c with rdi := step c.rdi }, s')
  | .lods => do
    let v ← i.load s (i.srcLin c.rsi)
    return ({ c with rax := writeGpr c.rax v i.elem, rsi := step c.rsi }, s)
  | .scas => do
    let b ← i.load s (i.dstLin c.rdi)
    let r := aluSub (c.rax &&& mask i.elem) b 0 i.elem
    return ({ c with flags := apply c.flags .all r, rdi := step c.rdi }, s)
  | .cmps => do
    let a ← i.load s (i.srcLin c.rsi)
    let b ← i.load s (i.dstLin c.rdi)
    let r := aluSub a b 0 i.elem
    return ({ c with flags := apply c.flags .all r, rsi := step c.rsi, rdi := step c.rdi }, s)

def stops (f : Flags) : Bool :=
  match i.rep with
  | .none => true
  | .rep => false
  | .repe => !f.zf
  | .repne => f.zf

def count (c : StrCpu) : StrCpu :=
  match i.rep with
  | .none => c
  | _ => { c with rcx := i.dec c.rcx }

def remaining (c : StrCpu) : ℕ := (c.rcx &&& i.addrBits.amask).toNat

def loop (i : StrInsn) : ℕ → StrCpu → M → (StrCpu × M) × Option StrFault
  | 0, c, s => ((c, s), none)
  | fuel + 1, c, s =>
    if i.rep ≠ .none ∧ i.remaining c = 0 then ((c, s), none)
    else
      match i.element c s with
      | .error f => ((c, s), some f)
      | .ok (c', s') =>
        if i.stops c'.flags then ((i.count c', s'), none) else i.loop fuel (i.count c') s'

def run (c : StrCpu) (s : M) : (StrCpu × M) × Option StrFault := i.loop (i.remaining c + 1) c s

variable {i}

theorem toNat_ofNat_elem (elem : Size) : (BitVec.ofNat 64 elem.bytes).toNat = elem.bytes := by
  cases elem <;> rfl

theorem bytes_pos (elem : Size) : 0 < elem.bytes := by
  cases elem <;> decide

theorem bytes_dvd (i : StrInsn) : i.elem.bytes ∣ 2 ^ i.addrBits.bits := by
  cases i.elem <;> cases i.addrBits <;> decide

theorem bits_dvd (b : AddrBits) : 2 ^ b.bits ∣ 2 ^ 64 := by
  cases b <;> decide

theorem toNat_step (df : Bool) (reg : U64) :
    (((reg &&& i.addrBits.amask) + i.stride df) &&& i.addrBits.amask).toNat =
      (reg.toNat % 2 ^ i.addrBits.bits +
        if df then 2 ^ i.addrBits.bits - i.elem.bytes else i.elem.bytes) %
          2 ^ i.addrBits.bits := by
  have hle : i.elem.bytes ≤ 2 ^ i.addrBits.bits :=
    Nat.le_of_dvd (Nat.two_pow_pos _) i.bytes_dvd
  have hpos := bytes_pos i.elem
  rw [AddrBits.toNat_and_amask, toNat_add, AddrBits.toNat_and_amask,
    mod_mod_of_dvd _ (bits_dvd i.addrBits)]
  cases df with
  | false =>
    change (_ + (BitVec.ofNat 64 i.elem.bytes).toNat) % _ = _
    rw [toNat_ofNat_elem]
    rfl
  | true =>
    have hneg : (0 - BitVec.ofNat 64 i.elem.bytes).toNat = 2 ^ 64 - i.elem.bytes := by
      rw [toNat_sub, toNat_ofNat_elem]
      change (2 ^ 64 - i.elem.bytes + 0) % 2 ^ 64 = _
      exact mod_eq_of_lt (by omega)
    obtain ⟨q, hq⟩ := bits_dvd i.addrBits
    have hq0 : 0 < q := Nat.pos_of_ne_zero fun h0 => by rw [h0] at hq; cases hq
    -- a whole number of circles lies between the two ways to step down
    have hsplit : 2 ^ 64 - i.elem.bytes =
        2 ^ i.addrBits.bits - i.elem.bytes + 2 ^ i.addrBits.bits * (q - 1) := by
      have hone : 2 ^ i.addrBits.bits * (q - 1) + 2 ^ i.addrBits.bits = 2 ^ 64 := by
        rw [hq, ← Nat.mul_succ, Nat.succ_eq_add_one, Nat.sub_add_cancel hq0]
      omega
    change (_ + (0 - BitVec.ofNat 64 i.elem.bytes).toNat) % _ = _
    rw [hneg, hsplit, ← add_assoc, add_mul_mod_self_left]
    rfl

@[simp] theorem count_rsi (c : StrCpu) : (i.count c).rsi = c.rsi := by
  unfold count
  split <;> rfl

@[simp] theorem count_rdi (c : StrCpu) : (i.count c).rdi = c.rdi := by
  unfold count
  split <;> rfl

@[simp] theorem count_flags (c : StrCpu) : (i.count c).flags = c.flags := by
  unfold count
  split <;> rfl

variable {c : StrCpu}

theorem remaining_dec (h : i.remaining c ≠ 0) :
    i.remaining { c with rcx := i.dec c.rcx } + 1 = i.remaining c := by
  unfold remaining dec at *
  rw [AddrBits.writeBack_and_amask, AddrBits.toNat_and_amask]
  have hlt : (c.rcx &&& i.addrBits.amask).toNat < 2 ^ i.addrBits.bits := by
    rw [AddrBits.toNat_and_amask]
    exact Nat.mod_lt _ (Nat.two_pow_pos _)
  have hsub : ((c.rcx &&& i.addrBits.amask) - 1).toNat = (c.rcx &&& i.addrBits.amask).toNat - 1 := by
    apply toNat_sub_of_le
    exact one_le_iff_ne_zero.mpr h
  rw [mod_eq_of_lt (by omega)]
  omega

theorem element_rcx {c' : StrCpu} {s s' : M}
    (h : i.element c s = .ok (c', s')) : c'.rcx = c.rcx := by
  cases hk : i.op <;> simp only [element, hk, bind_eq_ok] at h
  case movs =>
    obtain ⟨_, -, _, -, hret⟩ := h
    cases hret
    rfl
  case cmps =>
    obtain ⟨_, -, _, -, hret⟩ := h
    cases hret
    rfl
  all_goals
    obtain ⟨_, -, hret⟩ := h
    cases hret
    rfl

theorem remaining_count (hrep : i.rep ≠ .none)
    (h : i.remaining c ≠ 0) : i.remaining (i.count c) + 1 = i.remaining c := by
  have hcount : i.count c = { c with rcx := i.dec c.rcx } := by
    unfold count
    split
    · contradiction
    · rfl
  rw [hcount]
  exact remaining_dec h

theorem loop_fuel {fuel fuel' : ℕ} {s : M} (h : i.remaining c < fuel) (h' : i.remaining c < fuel') :
    i.loop fuel c s = i.loop fuel' c s := by
  induction fuel generalizing fuel' c s with
  | zero => omega
  | succ fuel ih =>
    obtain ⟨fuel', rfl⟩ : ∃ k, fuel' = k + 1 := ⟨fuel' - 1, by omega⟩
    rw [loop, loop]
    split
    · rfl
    cases he : i.element c s with
    | error a => rfl
    | ok out =>
      obtain ⟨c', s'⟩ := out
      dsimp only
      split
      · rfl
      -- only a repeated instruction gets here, and it has counted this element
      rename_i hnext
      have hrep : i.rep ≠ .none := by
        intro hrep
        rw [stops, hrep] at hnext
        contradiction
      have hsame : i.remaining c' = i.remaining c := by
        rw [remaining, remaining, element_rcx he]
      have hcount := remaining_count hrep (c := c') (by rw [hsame]; tauto)
      apply ih <;> omega

/-- A repeat that looks at ZF although the instruction does not set it. -/
def readsZf (i : StrInsn) : Bool := !i.op.compares && (i.rep == .repe || i.rep == .repne)

variable {D : Flag → Bool} {c : StrCpu} {f : Flags} {s : M}

theorem element_agree (h : c.flags.AgreeOff D f) :
    match i.element c s with
    | .error e => i.element { c with flags := f } s = .error e
    | .ok (c', s') => ∃ f', i.element { c with flags := f } s = .ok ({ c' with flags := f' }, s') ∧
        c'.flags.AgreeOff (fun x => D x && !i.op.compares) f' := by
  have hkeep (hop : i.op.compares = false) :
      c.flags.AgreeOff (fun x => D x && !i.op.compares) f := by
    apply h.mono
    intro x hx
    simpa [hop] using hx
  have hall (hop : i.op.compares = true) (r : AluResult) :
      (apply c.flags .all r).AgreeOff (fun x => D x && !i.op.compares) (apply f .all r) := by
    apply (h.apply .all r).mono
    intro x _
    simp [FlagMask.has_all]
  -- `movs`, `stos` and `lods` read the direction flag only, which the two agree on
  cases hk : i.op with
  | movs =>
    simp only [element, hk, h.df]
    cases i.load s (i.srcLin c.rsi) with
    | error e => rfl
    | ok v =>
      simp only [bind, Except.bind]
      cases i.store s (i.dstLin c.rdi) v with
      | error e => rfl
      | ok s' => exact ⟨f, rfl, hk ▸ hkeep (by rw [hk]; rfl)⟩
  | stos =>
    simp only [element, hk, h.df]
    cases i.store s (i.dstLin c.rdi) (c.rax &&& mask i.elem) with
    | error e => rfl
    | ok s' => exact ⟨f, rfl, hk ▸ hkeep (by rw [hk]; rfl)⟩
  | lods =>
    simp only [element, hk, h.df]
    cases i.load s (i.srcLin c.rsi) with
    | error e => rfl
    | ok v => exact ⟨f, rfl, hk ▸ hkeep (by rw [hk]; rfl)⟩
  | scas =>
    simp only [element, hk, h.df]
    cases i.load s (i.dstLin c.rdi) with
    | error e => rfl
    | ok b => exact ⟨_, rfl, hk ▸ hall (by rw [hk]; rfl) _⟩
  | cmps =>
    simp only [element, hk, h.df]
    cases i.load s (i.srcLin c.rsi) with
    | error e => rfl
    | ok a =>
      cases i.load s (i.dstLin c.rdi) with
      | error e => rfl
      | ok b => exact ⟨_, rfl, hk ▸ hall (by rw [hk]; rfl) _⟩

theorem stops_agree {f₁ f₂ : Flags} (h : f₁.AgreeOff (fun x => D x && !i.op.compares) f₂)
    (hz : i.readsZf = true → D .zf = false) : i.stops f₂ = i.stops f₁ := by
  have hzf (hrep : (i.rep == .repe || i.rep == .repne) = true) : f₂.zf = f₁.zf := by
    apply h.get .zf
    cases hc : i.op.compares with
    | true => simp
    | false => simp [hz (by rw [readsZf, hc, hrep]; rfl)]
  unfold stops
  cases hrep : i.rep with
  | none => rfl
  | rep => rfl
  | repe => rw [hzf (by rw [hrep]; rfl)]
  | repne => rw [hzf (by rw [hrep]; rfl)]

theorem count_with_flags (c : StrCpu) (f : Flags) :
    i.count { c with flags := f } = { i.count c with flags := f } := by
  unfold count
  split <;> rfl

theorem loop_agree (fuel : ℕ) (h : c.flags.AgreeOff D f)
    (hz : i.readsZf = true → D .zf = false) :
    ∃ f', i.loop fuel { c with flags := f } s =
        (({ (i.loop fuel c s).1.1 with flags := f' }, (i.loop fuel c s).1.2), (i.loop fuel c s).2) ∧
      (i.loop fuel c s).1.1.flags.AgreeOff D f' := by
  induction fuel generalizing c f s with
  | zero => exact ⟨f, rfl, h⟩
  | succ fuel ih =>
    simp only [loop]
    have hrem : i.remaining { c with flags := f } = i.remaining c := rfl
    rw [hrem]
    by_cases hdone : i.rep ≠ .none ∧ i.remaining c = 0
    · simp only [if_pos hdone]
      exact ⟨f, rfl, h⟩
    simp only [if_neg hdone]
    have helem := element_agree (i := i) (s := s) h
    cases he : i.element c s with
    | error e =>
      simp only [he] at helem ⊢
      rw [helem]
      exact ⟨f, rfl, h⟩
    | ok out =>
      obtain ⟨c', s'⟩ := out
      simp only [he] at helem ⊢
      obtain ⟨f', hf', hagree⟩ := helem
      have hD : c'.flags.AgreeOff D f' := by
        apply hagree.mono
        intro x hx
        simp [hx]
      simp only [hf', count_with_flags, stops_agree hagree hz]
      split
      · exact ⟨f', rfl, by rwa [count_flags]⟩
      · apply ih
        rwa [count_flags]

theorem run_agree (h : c.flags.AgreeOff D f) (hz : i.readsZf = true → D .zf = false) :
    ∃ f', i.run { c with flags := f } s =
        (({ (i.run c s).1.1 with flags := f' }, (i.run c s).1.2), (i.run c s).2) ∧
      (i.run c s).1.1.flags.AgreeOff D f' :=
  loop_agree _ h hz

theorem run_agree_compared (hop : i.op.compares = true)
    (hgo : ¬(i.rep ≠ .none ∧ i.remaining c = 0)) (h : c.flags.AgreeOff D f)
    (hend : (i.run c s).2 = none) :
    (i.run c s).1.1.flags.AgreeOff (fun _ => false) (i.run { c with flags := f } s).1.1.flags := by
  have hrem : i.remaining { c with flags := f } = i.remaining c := rfl
  have helem := element_agree (i := i) (s := s) h
  simp only [run, hrem, loop, if_neg hgo] at hend ⊢
  cases he : i.element c s with
  | error e =>
    simp only [he] at hend
    cases hend
  | ok out =>
    obtain ⟨c', s'⟩ := out
    simp only [he] at helem ⊢
    obtain ⟨f', hf', hagree⟩ := helem
    have hall : c'.flags.AgreeOff (fun _ => false) f' := by
      apply hagree.mono
      intro x _
      simp [hop]
    have hz : i.readsZf = true → D .zf = false := by
      intro hr
      simp [readsZf, hop] at hr
    simp only [hf', stops_agree hagree hz, count_with_flags]
    split
    · rwa [count_flags]
    · obtain ⟨f₁, hloop, hlast⟩ := loop_agree (i := i) (c := i.count c') (f := f') (s := s')
        (i.remaining c) (by rwa [count_flags]) (fun _ => rfl)
      rw [hloop]
      exact hlast

end StrInsn

end X86Jit
