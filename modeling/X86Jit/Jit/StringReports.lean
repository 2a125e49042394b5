import X86Jit.Jit.StringRun
import X86Jit.Lift.Control

/-! The range that the string helper reports, against the bytes the run stored. The helper bounds
them by the destination register before and after, which fails where the register has gone below
zero. -/
namespace X86Jit
open X86Jit.Lib Function List Nat
open Jit

def Jit.JitMem.Wrote (s : JitMem) (b : ℕ) : Prop := ∃ r ∈ s.puts, r.1.toNat ≤ b ∧ b < r.1.toNat + r.2

def Jit.JitMem.Noted (s : JitMem) (page : ℕ) : Prop := ∃ r ∈ s.notes, page ∈ codePageRange r.1.toNat r.2

def Jit.AllReported (m : Memory) (s : JitMem) : Prop :=
  ∀ b, s.Wrote b → m.Tracked (b / codePageSize) → s.Noted (b / codePageSize)

def Jit.JitMem.NotedByte (s : JitMem) (b : ℕ) : Prop :=
  ∃ r ∈ s.notes, r.1.toNat ≤ b ∧ b < r.1.toNat + r.2

namespace StrInsn
variable (i : StrInsn)

def rsiAfter (c : StrCpu) (k : ℕ) : U64 := (i.advance c.flags.df)^[k] c.rsi

def Reaches (m : Memory) (c : StrCpu) (k : ℕ) : Prop :=
  (i.op = .movs → m.Backs (i.srcLin (i.rsiAfter c k)) i.elem.bytes) ∧
    m.Backs (i.dstLin (i.rdiAfter c k)) i.elem.bytes

instance (m : Memory) (c : StrCpu) (k : ℕ) : Decidable (i.Reaches m c k) :=
  inferInstanceAs (Decidable (_ ∧ _))

/-- A storing instruction sets no flag, so a repeat condition is decided by the flags before it. -/
def planned (c : StrCpu) : ℕ :=
  if i.rep = .none then 1 else if i.stops c.flags then min 1 (i.remaining c) else i.remaining c

def completed (c : StrCpu) (m : Memory) : ℕ :=
  ((range (i.planned c)).takeWhile fun k => decide (i.Reaches m c k)).length

variable {i} {m : Memory} {c c' : StrCpu}

theorem reaches_congr {m' : Memory} (h : ∀ addr len, m'.Backs addr len ↔ m.Backs addr len)
    (k : ℕ) : i.Reaches m' c k ↔ i.Reaches m c k := by
  unfold Reaches
  rw [h, h]

theorem completed_congr {m' : Memory} (h : ∀ addr len, m'.Backs addr len ↔ m.Backs addr len) :
    i.completed c m' = i.completed c m := by
  unfold completed
  simp only [reaches_congr h]

/-- The registers that matter to a storing instruction after one of its elements. -/
structure Next (i : StrInsn) (c c' : StrCpu) : Prop where
  rsi : i.op = .movs → c'.rsi = i.advance c.flags.df c.rsi
  rdi : c'.rdi = i.advance c.flags.df c.rdi
  flags : c'.flags = c.flags

theorem Next.reaches (h : i.Next c c') (k : ℕ) : i.Reaches m c (k + 1) ↔ i.Reaches m c' k := by
  unfold Reaches rsiAfter rdiAfter
  rw [iterate_succ_apply, h.rdi, h.flags]
  apply and_congr_left
  intro _
  apply imp_congr_right
  intro hop
  rw [h.rsi hop]

theorem completed_of_planned_zero (h : i.planned c = 0) : i.completed c m = 0 := by
  rw [completed, h]
  rfl

theorem completed_of_not_reaches (h : ¬i.Reaches m c 0) : i.completed c m = 0 := by
  unfold completed
  cases i.planned c with
  | zero => rfl
  | succ n => rw [range_succ_eq_map, takeWhile_cons_of_neg (by simpa using h)]; rfl

theorem Next.completed (h : i.Next c c') (hreach : i.Reaches m c 0)
    (hplan : i.planned c = i.planned c' + 1) : i.completed c m = i.completed c' m + 1 := by
  unfold StrInsn.completed
  rw [hplan, range_succ_eq_map, takeWhile_cons_of_pos (by simpa using hreach),
    length_cons, takeWhile_map, length_map]
  simp only [comp_def, h.reaches]

theorem load_raw (s : JitMem) (addr : U64) :
    (∃ v, i.load s addr = .ok v ∧ s.mem.Backs addr i.elem.bytes) ∨
      ∃ f, i.load s addr = .error f ∧ ¬s.mem.Backs addr i.elem.bytes := by
  by_cases hback : s.mem.Backs addr i.elem.bytes
  · refine .inl ⟨s.load addr i.elem, ?_, hback⟩
    change (ite _ _ _ : Except MemTrap U64).mapError _ = _
    rw [if_pos hback]
    rfl
  · refine .inr ⟨⟨addr, false, .unmapped, 0, i.elem⟩, ?_, hback⟩
    change (ite _ _ _ : Except MemTrap U64).mapError _ = _
    rw [if_neg hback]
    rfl

theorem store_raw (s : JitMem) (addr val : U64) :
    (∃ s', i.store s addr val = .ok s' ∧ s.mem.Backs addr i.elem.bytes ∧
        JitMem.Raw s s' [(addr, i.elem.bytes)]) ∨
      ∃ f, i.store s addr val = .error f ∧ ¬s.mem.Backs addr i.elem.bytes := by
  by_cases hback : s.mem.Backs addr i.elem.bytes
  · have hstore : s.sstore addr val i.elem = .ok (s.put addr (Memory.leBytes val i.elem.bytes)) :=
      if_pos hback
    exact .inl ⟨_, (i.store_eq_ok).mpr hstore, hback, JitMem.sstore_raw hstore⟩
  · refine .inr ⟨⟨addr, true, .unmapped, val, i.elem⟩, ?_, hback⟩
    change (ite _ _ _ : Except MemTrap JitMem).mapError _ = _
    rw [if_neg hback]
    rfl

theorem element_reaches (hop : i.op = .movs ∨ i.op = .stos) (c : StrCpu) (s : JitMem) :
    (∃ f, i.element c s = .error f ∧ ¬i.Reaches s.mem c 0) ∨
      ∃ c' s', i.element c s = .ok (c', s') ∧ i.Reaches s.mem c 0 ∧ i.Next c c' ∧
        JitMem.Raw s s' [(i.dstLin c.rdi, i.elem.bytes)] := by
  let step := i.advance c.flags.df
  rcases hop with hop | hop
  · simp only [element, hop]
    rcases i.load_raw s (i.srcLin c.rsi) with ⟨v, hload, hsrc⟩ | ⟨f, hload, hsrc⟩
    · rcases i.store_raw s (i.dstLin c.rdi) v with ⟨s', hstore, hdst, hraw⟩ | ⟨f, hstore, hdst⟩
      · refine .inr ⟨{ c with rsi := step c.rsi, rdi := step c.rdi }, s', ?_,
          ⟨fun _ => hsrc, hdst⟩, ⟨fun _ => rfl, rfl, rfl⟩, hraw⟩
        simp only [hload, hstore, bind, Except.bind]
        rfl
      · refine .inl ⟨f, ?_, fun h => hdst h.2⟩
        simp only [hload, hstore, bind, Except.bind]
    · refine .inl ⟨f, ?_, fun h => hsrc (h.1 hop)⟩
      rw [hload]
      rfl
  · have hno (h : i.op = .movs) : False := by
      rw [hop] at h
      cases h
    simp only [element, hop]
    rcases i.store_raw s (i.dstLin c.rdi) (c.rax &&& mask i.elem) with
      ⟨s', hstore, hdst, hraw⟩ | ⟨f, hstore, hdst⟩
    · refine .inr ⟨{ c with rdi := step c.rdi }, s', ?_, ⟨fun h => (hno h).elim, hdst⟩,
        ⟨fun h => (hno h).elim, rfl, rfl⟩, hraw⟩
      rw [hstore]
      rfl
    · refine .inl ⟨f, ?_, fun h => hdst h.2⟩
      rw [hstore]
      rfl

theorem planned_of_ended (h : i.rep ≠ .none ∧ i.remaining c = 0) : i.planned c = 0 := by
  rw [planned, if_neg h.1, h.2]
  simp

theorem planned_of_stops (hgo : ¬(i.rep ≠ .none ∧ i.remaining c = 0))
    (hstops : i.stops c.flags = true) : i.planned c = 1 := by
  unfold planned
  by_cases hrep : i.rep = .none
  · rw [if_pos hrep]
  · have hleft : i.remaining c ≠ 0 := fun h0 => hgo ⟨hrep, h0⟩
    rw [if_neg hrep, if_pos hstops]
    omega

theorem planned_of_goes (hgo : ¬(i.rep ≠ .none ∧ i.remaining c = 0))
    (hstops : i.stops c.flags = false) (hflags : c'.flags = c.flags) (hrcx : c'.rcx = c.rcx) :
    i.rep ≠ .none ∧ i.planned c = i.planned (i.count c') + 1 ∧
      i.remaining c = i.remaining (i.count c') + 1 := by
  have hrep : i.rep ≠ .none := by
    intro hrep
    rw [stops, hrep] at hstops
    cases hstops
  have hsame : i.remaining c' = i.remaining c := by rw [remaining, remaining, hrcx]
  have hleft : i.remaining c' ≠ 0 := fun h0 => hgo ⟨hrep, hsame ▸ h0⟩
  have hcount := remaining_count hrep hleft
  have hplan {d : StrCpu} (hd : i.stops d.flags = false) : i.planned d = i.remaining d := by
    rw [planned, if_neg hrep, hd]
    rfl
  rw [hplan hstops, hplan (by rw [count_flags, hflags, hstops])]
  exact ⟨hrep, by omega, by omega⟩

/-- The loop stores the elements before the first one that is not backed, and stands behind them. -/
theorem loop_completed (hop : i.op = .movs ∨ i.op = .stos) (fuel : ℕ) (c : StrCpu) (s : JitMem)
    (hfuel : i.rep ≠ .none → i.remaining c < fuel) (hpos : 0 < fuel) :
    JitMem.Raw s (i.loop fuel c s).1.2 (i.elements c (i.completed c s.mem)) ∧
      (i.loop fuel c s).1.1.rdi = i.rdiAfter c (i.completed c s.mem) := by
  induction fuel generalizing c s with
  | zero => exact absurd hpos (lt_irrefl 0)
  | succ fuel ih =>
    rw [loop]
    by_cases hend : i.rep ≠ .none ∧ i.remaining c = 0
    · rw [if_pos hend, completed_of_planned_zero (planned_of_ended hend)]
      exact ⟨JitMem.Raw.refl s, rfl⟩
    rw [if_neg hend]
    rcases element_reaches hop c s with ⟨f, helem, hreach⟩ | ⟨c', s', helem, hreach, hnext, hraw⟩
    · rw [helem, completed_of_not_reaches hreach]
      exact ⟨JitMem.Raw.refl s, rfl⟩
    rw [helem]
    dsimp only
    have hrcx := element_rcx helem
    cases hstops : i.stops c'.flags with
    | true =>
      -- without a repeat prefix the one element is the whole plan
      rw [hnext.flags] at hstops
      have hone : i.completed c s.mem = 1 := by
        rw [completed, planned_of_stops hend hstops]
        change (takeWhile _ [0]).length = 1
        rw [takeWhile_cons_of_pos (by simpa using hreach)]
        rfl
      rw [hone]
      exact ⟨hraw, (count_rdi c').trans hnext.rdi⟩
    | false =>
      rw [hnext.flags] at hstops
      obtain ⟨hrep, hplan, hleft⟩ := planned_of_goes hend hstops hnext.flags hrcx
      have hnext' : i.Next c (i.count c') := by
        refine ⟨?_, ?_, ?_⟩
        · intro hmovs
          rw [count_rsi, hnext.rsi hmovs]
        · rw [count_rdi, hnext.rdi]
        · rw [count_flags, hnext.flags]
      have hlt := hfuel hrep
      obtain ⟨hrest, hrdi⟩ := ih (i.count c') s' (fun _ => by omega) (by omega)
      rw [if_neg Bool.false_ne_true, hnext'.completed hreach hplan,
        elements_succ _ _ hnext'.rdi hnext'.flags, ← completed_congr hraw.backs_iff]
      refine ⟨hraw.trans hrest, hrdi.trans ?_⟩
      rw [rdiAfter, rdiAfter, iterate_succ_apply, hnext'.rdi, hnext'.flags]

theorem run_completed (hop : i.op = .movs ∨ i.op = .stos) (c : StrCpu) (s : JitMem) :
    JitMem.Raw s (i.run c s).1.2 (i.elements c (i.completed c s.mem)) ∧
      (i.run c s).1.1.rdi = i.rdiAfter c (i.completed c s.mem) :=
  loop_completed hop _ c s (fun _ => lt_succ_self _) (succ_pos _)

theorem helper_puts (c : StrCpu) (s : JitMem) : (i.helper c s).1.2.puts = (i.run c s).1.2.puts := by
  unfold helper
  dsimp only
  split <;> rfl

theorem helper_notes (hop : i.op = .movs ∨ i.op = .stos) (c : StrCpu) (m : Memory) :
    (i.helper c (JitMem.enter m)).1.2.notes =
      if i.rdiAfter c (i.completed c m) = c.rdi then []
      else [i.report c.rdi (i.rdiAfter c (i.completed c m))] := by
  obtain ⟨hraw, hrdi⟩ := run_completed hop c (JitMem.enter m)
  change _ = i.rdiAfter c (i.completed c m) at hrdi
  unfold helper
  dsimp only
  rw [hrdi]
  by_cases hmoved : i.rdiAfter c (i.completed c m) = c.rdi
  · rw [if_neg fun h => h.2 hmoved, if_pos hmoved, hraw.notes]
    rfl
  · rw [if_pos ⟨hop, hmoved⟩, if_neg hmoved]
    change (i.run c (JitMem.enter m)).1.2.notes ++ _ = _
    rw [hraw.notes]
    rfl

/-- Where the register stands after `k` elements, as an integer. -/
def place (i : StrInsn) (c : StrCpu) (k : ℕ) : ℤ :=
  if c.flags.df then c.rdi.toNat - (k * i.elem.bytes : ℕ) else c.rdi.toNat + (k * i.elem.bytes : ℕ)

/-- The register has gone below zero. -/
def Passed (i : StrInsn) (c : StrCpu) (n : ℕ) : Prop :=
  c.flags.df = true ∧ c.rdi.toNat < n * i.elem.bytes

theorem dstLin_eq (hbits : i.addrBits = .a64) (hdst : i.dstBase = 0) (reg : U64) :
    i.dstLin reg = reg := by
  rw [dstLin, hdst, zero_add, AddrBits.and_amask_of_lt _ (by rw [hbits]; exact reg.isLt)]

theorem bytes_le (i : StrInsn) : i.elem.bytes ≤ 8 := by
  cases i.elem <;> decide

theorem place_succ (k : ℕ) : i.place c (k + 1) =
    i.place c k + if c.flags.df then -(i.elem.bytes : ℤ) else i.elem.bytes := by
  unfold place
  rw [succ_mul]
  split <;> omega

theorem toNat_rdiAfter (hbits : i.addrBits = .a64) (k : ℕ) :
    ((i.rdiAfter c k).toNat : ℤ) = i.place c k % 2 ^ 64 := by
  induction k with
  | zero =>
    have hlt := c.rdi.isLt
    have hplace : i.place c 0 = c.rdi.toNat := by simp [place]
    rw [hplace]
    change (c.rdi.toNat : ℤ) = _
    omega
  | succ k ih =>
    have hstep : i.rdiAfter c (k + 1) = i.advance c.flags.df (i.rdiAfter c k) :=
      iterate_succ_apply' _ _ _
    have hsmall := i.bytes_le
    rw [hstep, advance, AddrBits.writeBack_of_lt _ (by rw [hbits]; exact BitVec.isLt _), toNat_step,
      hbits, place_succ]
    cases c.flags.df <;>
      simp only [AddrBits.bits, Bool.false_eq_true, if_false, if_true] <;> omega

/-- Elements that are all backed lie in a row. -/
theorem place_of_backs {n : ℕ} (hbits : i.addrBits = .a64)
    (hback : ∀ k < n, m.Backs (i.rdiAfter c k) i.elem.bytes) {k : ℕ} (hk : k < n) :
    (i.rdiAfter c k).toNat = i.place c k ∧ i.place c k + i.elem.bytes < 2 ^ 64 - 8 := by
  have hspan : (i.rdiAfter c k).toNat + i.elem.bytes < 2 ^ 64 - 8 := by
    have hle := (hback k hk).2.trans m.span_le
    unfold maxTrackedSpan codePageSize at hle
    omega
  have hmod := i.toNat_rdiAfter (c := c) hbits k
  have hsmall := i.bytes_le
  induction k with
  | zero =>
    have hplace : i.place c 0 = c.rdi.toNat := by simp [place]
    have hfirst : (i.rdiAfter c 0).toNat = c.rdi.toNat := rfl
    omega
  | succ k ih =>
    obtain ⟨hprev, hroom⟩ := ih (by omega) (by
      have hle := (hback k (by omega)).2.trans m.span_le
      unfold maxTrackedSpan codePageSize at hle
      omega) (i.toNat_rdiAfter hbits k)
    have hsucc := i.place_succ (c := c) k
    split at hsucc <;> omega

theorem mem_report (rdi rdi' : U64) {b : ℕ} (hb : b + 1 < 2 ^ 64) :
    ((i.report rdi rdi').1.toNat ≤ b ∧ b < (i.report rdi rdi').1.toNat + (i.report rdi rdi').2) ↔
      min rdi.toNat rdi'.toNat ≤ b ∧ b < max rdi.toNat rdi'.toNat + i.elem.bytes := by
  have hlo : (i.report rdi rdi').1.toNat = min rdi.toNat rdi'.toNat := mod_eq_of_lt (by omega)
  have hlen : (i.report rdi rdi').2 = min (max rdi.toNat rdi'.toNat + i.elem.bytes) (2 ^ 64 - 1) -
      min rdi.toNat rdi'.toNat := rfl
  omega

variable (hop : i.op = .movs ∨ i.op = .stos) (hbits : i.addrBits = .a64) (hdst : i.dstBase = 0)
include hop hbits hdst

theorem completed_backs {k : ℕ} (hk : k < i.completed c m) :
    m.Backs (i.rdiAfter c k) i.elem.bytes := by
  obtain ⟨hraw, -⟩ := run_completed hop c (JitMem.enter m)
  have hback := hraw.backed _ (mem_map.mpr ⟨k, mem_range.mpr hk, rfl⟩)
  rwa [dstLin_eq hbits hdst] at hback

theorem completed_place {k : ℕ} (hk : k < i.completed c m) :
    (i.rdiAfter c k).toNat = i.place c k ∧ i.place c k + i.elem.bytes < 2 ^ 64 - 8 :=
  place_of_backs hbits (fun _ h => completed_backs hop hbits hdst h) hk

/-- The bytes stored are those between the first element and the last. -/
theorem helper_wrote_iff {b : ℕ} : (i.helper c (JitMem.enter m)).1.2.Wrote b ↔
    if c.flags.df then
      c.rdi.toNat + i.elem.bytes ≤ b + i.completed c m * i.elem.bytes ∧
        b < c.rdi.toNat + i.elem.bytes
    else c.rdi.toNat ≤ b ∧ b < c.rdi.toNat + i.completed c m * i.elem.bytes := by
  obtain ⟨hraw, -⟩ := run_completed hop c (JitMem.enter m)
  have hwrote : (i.helper c (JitMem.enter m)).1.2.Wrote b ↔ ∃ k < i.completed c m,
      i.place c k ≤ b ∧ b < i.place c k + i.elem.bytes := by
    have hputs : (i.helper c (JitMem.enter m)).1.2.puts = i.elements c (i.completed c m) := by
      rw [helper_puts, hraw.puts]
      rfl
    unfold JitMem.Wrote
    rw [hputs]
    simp only [elements, mem_map, mem_range, exists_exists_and_eq_and]
    refine exists_congr fun k => and_congr_right fun hk => ?_
    obtain ⟨hplace, -⟩ := completed_place hop hbits hdst hk
    rw [dstLin_eq hbits hdst]
    omega
  have hpos := bytes_pos i.elem
  have hmul {k : ℕ} (hk : k < i.completed c m) :
      k * i.elem.bytes + i.elem.bytes ≤ i.completed c m * i.elem.bytes := by
    rw [← succ_mul]
    exact mul_le_mul_right _ hk
  -- the element that holds a byte is found by a division
  have hfind {x : ℕ} (hx : x < i.completed c m * i.elem.bytes) :
      x / i.elem.bytes < i.completed c m ∧ x / i.elem.bytes * i.elem.bytes ≤ x ∧
        x < x / i.elem.bytes * i.elem.bytes + i.elem.bytes :=
    ⟨Nat.div_lt_of_lt_mul (by rwa [Nat.mul_comm]), Nat.div_mul_le_self _ _,
      lt_div_mul_add hpos⟩
  rw [hwrote]
  unfold place
  cases c.flags.df with
  | true =>
    simp only [if_true]
    constructor
    · rintro ⟨k, hk, hb⟩
      have hnext := hmul hk
      omega
    · intro hb
      obtain ⟨hk, hle, hlt⟩ := hfind (x := c.rdi.toNat + i.elem.bytes - 1 - b) (by omega)
      refine ⟨_, hk, ?_⟩
      omega
  | false =>
    simp only [Bool.false_eq_true, if_false]
    constructor
    · rintro ⟨k, hk, hb⟩
      have hnext := hmul hk
      omega
    · intro hb
      obtain ⟨hk, hle, hlt⟩ := hfind (x := b - c.rdi.toNat) (by omega)
      refine ⟨_, hk, ?_⟩
      omega

/-- One range is reported. If the register has passed zero it starts where the register was, and
otherwise it holds what was stored. -/
theorem helper_report (hn : 0 < i.completed c m) :
    ∃ r, (i.helper c (JitMem.enter m)).1.2.notes = [r] ∧
      (i.Passed c (i.completed c m) → r.1 = c.rdi) ∧
      ∀ b, (i.helper c (JitMem.enter m)).1.2.Wrote b →
        (i.Passed c (i.completed c m) → c.rdi.toNat ≤ b) →
          b < 2 ^ 64 ∧ r.1.toNat ≤ b ∧ b < r.1.toNat + r.2 := by
  have hsmall := i.bytes_le
  have hpos := bytes_pos i.elem
  have hall : i.elem.bytes ≤ i.completed c m * i.elem.bytes := Nat.le_mul_of_pos_left _ hn
  have hzero : i.place c 0 = c.rdi.toNat := by simp [place]
  have hfirst := (completed_place (c := c) (m := m) hop hbits hdst hn).2
  obtain ⟨hnonneg, hlast⟩ :=
    completed_place (c := c) (m := m) hop hbits hdst (sub_lt hn one_pos)
  have hend := i.toNat_rdiAfter (c := c) hbits (i.completed c m)
  have hsucc := i.place_succ (c := c) (i.completed c m - 1)
  rw [Nat.sub_add_cancel hn] at hsucc
  have hnotes := helper_notes hop c m
  have hreport {b : ℕ} (hb : b + 1 < 2 ^ 64) :=
    mem_report (i := i) c.rdi (i.rdiAfter c (i.completed c m)) hb
  have hwrote {b : ℕ} := (helper_wrote_iff (c := c) (m := m) (b := b) hop hbits hdst).mp
  have hplace : i.place c (i.completed c m) =
      if c.flags.df then (c.rdi.toNat : ℤ) - (i.completed c m * i.elem.bytes : ℕ)
      else c.rdi.toNat + (i.completed c m * i.elem.bytes : ℕ) := rfl
  by_cases hp : i.Passed c (i.completed c m)
  · obtain ⟨hdf, hlt⟩ := hp
    simp only [hdf, if_true] at hwrote hsucc hplace
    have hgt : c.rdi.toNat < (i.rdiAfter c (i.completed c m)).toNat := by omega
    rw [if_neg fun heq => hgt.ne' (congrArg BitVec.toNat heq)] at hnotes
    refine ⟨_, hnotes, fun _ => ?_, fun b hb hge => ?_⟩
    · rw [report, min_eq_left hgt.le]
      exact BitVec.ofNat_toNat ..
    · have hin := hwrote hb
      have hfrom := hge ⟨hdf, hlt⟩
      exact ⟨by omega, (hreport (by omega)).mpr (by omega)⟩
  · have hbetween : i.rdiAfter c (i.completed c m) ≠ c.rdi ∧
        ∀ b, (i.helper c (JitMem.enter m)).1.2.Wrote b → b + 1 < 2 ^ 64 ∧
          min c.rdi.toNat (i.rdiAfter c (i.completed c m)).toNat ≤ b ∧
            b < max c.rdi.toNat (i.rdiAfter c (i.completed c m)).toNat + i.elem.bytes := by
      unfold Passed at hp
      cases hdf : c.flags.df <;>
        simp only [hdf, Bool.false_eq_true, if_false, if_true, true_and] at hp hsucc hplace hwrote <;>
        refine ⟨fun heq => ?_, fun b hb => ?_⟩
      · rw [heq] at hend
        omega
      · have hin := hwrote hb
        omega
      · rw [heq] at hend
        omega
      · have hin := hwrote hb
        omega
    rw [if_neg hbetween.1] at hnotes
    refine ⟨_, hnotes, fun h => absurd h hp, fun b hb _ => ?_⟩
    obtain ⟨hmax, hin⟩ := hbetween.2 b hb
    exact ⟨by omega, (hreport hmax).mpr hin⟩

theorem wrote_pos {b : ℕ} (hb : (i.helper c (JitMem.enter m)).1.2.Wrote b) :
    0 < i.completed c m := by
  rw [helper_wrote_iff hop hbits hdst] at hb
  refine Nat.pos_of_ne_zero fun h0 => ?_
  rw [h0, Nat.zero_mul] at hb
  split at hb <;> omega

/-- Every byte stored is in the range, except where the register has passed zero after more than one
element. -/
theorem helper_noted_iff : (∀ b, (i.helper c (JitMem.enter m)).1.2.Wrote b →
      (i.helper c (JitMem.enter m)).1.2.NotedByte b) ↔
    (i.Passed c (i.completed c m) → i.completed c m ≤ 1) := by
  have hwrote {b : ℕ} := helper_wrote_iff (c := c) (m := m) (b := b) hop hbits hdst
  constructor
  · intro hall hp
    by_contra hmany
    obtain ⟨r, hr, hstart, -⟩ := helper_report hop hbits hdst (m := m) (c := c) (by omega)
    have hsecond := (completed_place (c := c) (m := m) hop hbits hdst (k := 1) (by omega)).1
    have htwo : i.elem.bytes + i.elem.bytes ≤ i.completed c m * i.elem.bytes := by
      rw [← two_mul]
      exact mul_le_mul_right _ (by omega)
    have hpos := bytes_pos i.elem
    rw [place, hp.1, if_pos rfl, one_mul] at hsecond
    -- the byte just below the first element belongs to the second
    obtain ⟨q, hq, hle, -⟩ := hall (c.rdi.toNat - 1) (by
      rw [hwrote, hp.1, if_pos rfl]
      omega)
    rw [hr, mem_singleton] at hq
    rw [hq, hstart hp] at hle
    omega
  · intro hone b hb
    obtain ⟨r, hr, -, hin⟩ := helper_report hop hbits hdst (wrote_pos hop hbits hdst hb)
    refine ⟨r, by rw [hr]; exact mem_singleton_self r, (hin b hb fun hp => ?_).2⟩
    have hle := hone hp
    have hmul : i.completed c m * i.elem.bytes ≤ 1 * i.elem.bytes := mul_le_mul_right _ hle
    rw [hwrote, hp.1, if_pos rfl] at hb
    omega

/-- No tracked page that was stored to lies below the page the register started on, if the register
has passed zero. -/
def Covered (i : StrInsn) (c : StrCpu) (m : Memory) : Prop :=
  i.Passed c (i.completed c m) → ∀ page < c.rdi.toNat / codePageSize, ¬m.Tracked page

theorem helper_reported_iff :
    AllReported m (i.helper c (JitMem.enter m)).1.2 ↔ i.Covered c m := by
  have hwrote {b : ℕ} := helper_wrote_iff (c := c) (m := m) (b := b) hop hbits hdst
  constructor
  · intro hall hp page hpage ht
    have hn : 0 < i.completed c m := by
      refine Nat.pos_of_ne_zero fun h0 => ?_
      have hlt := hp.2
      rw [h0, Nat.zero_mul] at hlt
      omega
    obtain ⟨r, hr, hstart, -⟩ := helper_report hop hbits hdst (m := m) (c := c) hn
    have hsmall : i.elem.bytes ≤ 8 := by cases i.elem <;> decide
    have hlt := hp.2
    -- the last byte of the page was stored to
    have hlast : (page * codePageSize + (codePageSize - 1)) / codePageSize = page := by
      unfold codePageSize
      omega
    obtain ⟨q, hq, hin⟩ := hall (page * codePageSize + (codePageSize - 1)) (by
      rw [hwrote, hp.1, if_pos rfl]
      unfold codePageSize at hpage ⊢
      omega) (by rwa [hlast])
    rw [hr, mem_singleton] at hq
    rw [hlast, hq, hstart hp, codePageRange, mem_pagesBetween] at hin
    omega
  · intro hcov b hb ht
    obtain ⟨r, hr, hstart, hin⟩ := helper_report hop hbits hdst (wrote_pos hop hbits hdst hb)
    refine ⟨r, by rw [hr]; exact mem_singleton_self r, ?_⟩
    rw [codePageRange, mem_pagesBetween]
    by_cases hbelow : i.Passed c (i.completed c m) ∧ b < c.rdi.toNat
    · have hpage : c.rdi.toNat / codePageSize ≤ b / codePageSize :=
        Nat.le_of_not_lt fun hlt => hcov hbelow.1 _ hlt ht
      have hlt := c.rdi.isLt
      rw [hstart hbelow.1]
      exact ⟨hpage, Nat.div_le_div_right (by omega)⟩
    · obtain ⟨hmax, hlo, hhi⟩ := hin b hb fun hp => Nat.le_of_not_lt fun hlt => hbelow ⟨hp, hlt⟩
      exact ⟨Nat.div_le_div_right hlo, Nat.div_le_div_right (by omega)⟩

omit hop hbits hdst

/-- A move or a store as `lift_string` emits it outside real mode. -/
def storing (moves : Bool) (elem : Size) (repKind : RepKind) (segBase : U64) : StrInsn :=
  ⟨if moves then .movs else .stos, elem, repKind, Lift.stringAddrBits, segBase, 0⟩

/-- The range passed to `note_write` holds every byte that was stored exactly if the pointer did not
pass zero on its way down, or did so after a single element. How many elements there are follows
from the count and from the first address that is not backed. -/
theorem string_range_iff (moves : Bool) (elem : Size) (repKind : RepKind) (segBase : U64)
    (c : StrCpu) (m : Memory) :
    (∀ b, ((storing moves elem repKind segBase).helper c (JitMem.enter m)).1.2.Wrote b →
        ((storing moves elem repKind segBase).helper c (JitMem.enter m)).1.2.NotedByte b) ↔
      ((storing moves elem repKind segBase).Passed c
          ((storing moves elem repKind segBase).completed c m) →
        (storing moves elem repKind segBase).completed c m ≤ 1) := by
  have hop : (storing moves elem repKind segBase).op = .movs ∨
      (storing moves elem repKind segBase).op = .stos := by
    cases moves
    · exact .inr rfl
    · exact .inl rfl
  exact helper_noted_iff hop rfl rfl

/-- `std; rep stosq` with RDI = 8 and RCX = 2. -/
def downToZero : StrCpu :=
  { rax := 0, rcx := 2, rsi := 0, rdi := 8
    flags := ⟨false, 0, 0, false, false, false, true, false⟩ }

/-- The second element is stored at zero, and the helper reports the bytes from 8 on. -/
theorem low_element_misreported : ((storing false .b8 .rep 0).helper downToZero
        (JitMem.enter (Memory.fresh 0x1000 0 (by decide)))).1.2.Wrote 0 ∧
      ((storing false .b8 .rep 0).helper downToZero
        (JitMem.enter (Memory.fresh 0x1000 0 (by decide)))).1.2.notes = [(8, 2 ^ 64 - 9)] ∧
      ¬((storing false .b8 .rep 0).helper downToZero
        (JitMem.enter (Memory.fresh 0x1000 0 (by decide)))).1.2.NotedByte 0 := by
  have hputs : ((storing false .b8 .rep 0).helper downToZero
      (JitMem.enter (Memory.fresh 0x1000 0 (by decide)))).1.2.puts = [(8, 8), (0, 8)] := by
    rw [helper_puts]
    decide +kernel
  have hnotes : ((storing false .b8 .rep 0).helper downToZero
      (JitMem.enter (Memory.fresh 0x1000 0 (by decide)))).1.2.notes = [(8, 2 ^ 64 - 9)] := by
    rw [helper_notes (.inr rfl)]
    decide +kernel
  refine ⟨⟨(0, 8), by rw [hputs]; decide, by decide, by decide⟩, hnotes, ?_⟩
  rintro ⟨r, hr, hlo, -⟩
  rw [hnotes, mem_singleton] at hr
  rw [hr] at hlo
  exact absurd hlo (by decide)

end StrInsn

end X86Jit
