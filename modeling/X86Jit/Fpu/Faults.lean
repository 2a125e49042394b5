import X86Jit.Fpu.Exec

/-! What an x87 op leaves behind when its memory operand faults. -/
namespace X86Jit
open FpuM

namespace Fpu
variable (u : Fpu)

def topEmpty : Bool := u.isEmpty (u.slot 0)

/-- A masked underflow of the stack is recorded: IE and SF set, C1 clear. -/
def underflowed : Fpu := { u with sw := (u.sw &&& ~~~c1) ||| 0x41 }

def reportsUnderflow : Bool := !u.sw.getLsbD 9 && u.sw.getLsbD 0 && u.sw.getLsbD 6

theorem underflow_bits : ∀ i < 16, i ≠ 0 → i ≠ 6 → i ≠ 9 →
    c1.getLsbD i = false ∧ (0x41 : U16).getLsbD i = false := by decide

theorem getLsbD_underflowed (i : ℕ) : u.underflowed.sw.getLsbD i =
    (u.sw.getLsbD i && (decide (i < 16) && !c1.getLsbD i) || (0x41 : U16).getLsbD i) := by
  unfold underflowed
  rw [BitVec.getLsbD_or, BitVec.getLsbD_and, BitVec.getLsbD_not]

theorem reportsUnderflow_underflowed : u.underflowed.reportsUnderflow = true := by
  unfold reportsUnderflow
  rw [getLsbD_underflowed, getLsbD_underflowed, getLsbD_underflowed]
  simp [c1]

theorem underflowed_eq_self_iff : u.underflowed = u ↔ u.reportsUnderflow = true := by
  constructor
  · intro h
    rw [← h]
    exact u.reportsUnderflow_underflowed
  · intro h
    obtain ⟨h9, h0, h6⟩ : u.sw.getLsbD 9 = false ∧ u.sw.getLsbD 0 = true ∧
        u.sw.getLsbD 6 = true := by
      unfold reportsUnderflow at h
      rw [Bool.and_eq_true, Bool.and_eq_true, Bool.not_eq_true'] at h
      exact ⟨h.1.1, h.1.2, h.2⟩
    have hsw : u.underflowed.sw = u.sw := by
      apply BitVec.eq_of_getLsbD_eq
      intro i hi
      rw [getLsbD_underflowed]
      by_cases hi0 : i = 0
      · rw [hi0, h0]
        rfl
      by_cases hi6 : i = 6
      · rw [hi6, h6]
        rfl
      by_cases hi9 : i = 9
      · rw [hi9, h9]
        rfl
      obtain ⟨hc, hw⟩ := underflow_bits i hi hi0 hi6 hi9
      rw [hc, hw]
      simp [hi]
    exact congrArg (fun w => { u with sw := w }) hsw

theorem underflowed_underflowed : u.underflowed.underflowed = u.underflowed := by
  rw [underflowed_eq_self_iff]
  exact u.reportsUnderflow_underflowed

end Fpu

namespace FpuM
variable {u v : Fpu}

theorem underflow_eq (w : Fpu) : underflow w =
    if w.underflowed.sw &&& ~~~w.cw &&& 0x3f ≠ 0 then
      .error () { w.underflowed with sw := w.underflowed.sw ||| 0x8080 }
    else .ok () w.underflowed := by
  have hraise : ({ w with sw := w.sw &&& ~~~Fpu.c1 } : Fpu).raise (Exc.ie ||| Exc.sf) =
      if w.underflowed.sw &&& ~~~w.cw &&& 0x3f ≠ 0 then
        ({ w.underflowed with sw := w.underflowed.sw ||| 0x8080 }, true)
      else (w.underflowed, false) := rfl
  change raising _ { w with sw := w.sw &&& ~~~Fpu.c1 } = _
  unfold raising
  rw [hraise]
  split <;> rfl

theorem underflow_ok {r : Unit} (h : underflow u = .ok r v) :
    v = u.underflowed ∧ underflow v = .ok () v := by
  rw [underflow_eq] at h
  by_cases hmask : u.underflowed.sw &&& ~~~u.cw &&& 0x3f ≠ 0
  · rw [if_pos hmask] at h
    cases h
  · rw [if_neg hmask] at h
    cases h
    have hmask' : ¬(u.underflowed.underflowed.sw &&& ~~~u.underflowed.cw &&& 0x3f ≠ 0) := by
      rw [u.underflowed_underflowed]
      exact hmask
    refine ⟨rfl, ?_⟩
    rw [underflow_eq, if_neg hmask', u.underflowed_underflowed]

/-- Looking at `ST(0)` before anything else: an empty one is recorded, and a second look sees
the same. -/
def Looks {α : Type} (p : FpuM α) : Prop :=
  ∀ {u a v}, p u = .ok a v → v = (if u.topEmpty then u.underflowed else u) ∧ p v = .ok a v

theorem looks_of_choice {α : Type} {p : FpuM α} {d : α} {f : Fpu → α}
    (hempty : ∀ {u}, u.topEmpty = true → p u = (do underflow; return d : FpuM α) u)
    (hfull : ∀ {u}, u.topEmpty = false → p u = .ok (f u) u) : Looks p := by
  intro u a v h
  cases htop : u.topEmpty with
  | false =>
    rw [hfull htop] at h
    cases h
    exact ⟨rfl, hfull htop⟩
  | true =>
    rw [hempty htop] at h
    cases hun : underflow u with
    | error e w =>
      rw [bind_of_error hun] at h
      cases h
    | ok r w =>
      rw [bind_of_ok hun] at h
      cases h
      obtain ⟨rfl, hagain⟩ := underflow_ok hun
      refine ⟨rfl, ?_⟩
      rw [hempty (u := u.underflowed) htop, bind_of_ok hagain]
      rfl

theorem operand_looks : Looks (operand 0) := by
  apply looks_of_choice (d := F80.indefinite) (f := fun u => F80.fromBytes (u.fpr (u.slot 0)))
  · intro u htop
    change (if u.topEmpty = true then _ else _ : FpuM F80) u = _
    rw [if_pos htop]
  · intro u htop
    change (if u.topEmpty = true then _ else _ : FpuM F80) u = _
    rw [if_neg (by rw [htop]; exact Bool.false_ne_true)]
    rfl

theorem Looks.map {α β : Type} {p : FpuM α} (hp : Looks p) (f : Fpu → α → β) :
    Looks (do let a ← p; return f (← get) a) := by
  intro u b v h
  cases hpu : p u with
  | error e w =>
    rw [bind_of_error hpu] at h
    cases h
  | ok a w =>
    rw [bind_of_ok hpu] at h
    cases h
    obtain ⟨hw, hagain⟩ := hp hpu
    refine ⟨hw, ?_⟩
    rw [bind_of_ok hagain]
    rfl

end FpuM

def FpuKind.storesTop : FpuKind → Bool
  | .fstpF64 | .fstF64 | .fstpF32 | .fstF32 | .fstpF80 | .fistpI16 | .fistpI32 | .fistpI64
  | .fisttpI16 | .fisttpI32 | .fisttpI64 => true
  | _ => false

def FpuKind.touched (kind : FpuKind) (u : Fpu) : Fpu :=
  if kind.storesTop && u.topEmpty then u.underflowed else u

variable {H : Host} {kind : FpuKind} {sti : U8}

theorem fstConverted_looks (pops : Bool) (bytes : Fpu → F80 → List U8) :
    ∃ p after, Arm.fstConverted pops bytes = .store p after ∧ Looks p :=
  ⟨_, _, rfl, operand_looks.map bytes⟩

theorem fstpF80_looks : ∃ p after, Arm.fstpF80 = .store p after ∧ Looks p := by
  refine ⟨_, _, rfl, ?_⟩
  apply looks_of_choice (d := wideBytes F80.indefinite.toBytes 10)
    (f := fun u => wideBytes (u.fpr (u.slot 0)) 10)
  · intro u htop
    change (if u.topEmpty = true then _ else _ : FpuM (List U8)) u = _
    rw [if_pos htop]
  · intro u htop
    change (if u.topEmpty = true then _ else _ : FpuM (List U8)) u = _
    rw [if_neg (by rw [htop]; exact Bool.false_ne_true)]
    rfl

theorem armOf_looks (H : Host) (sti : U8) (h : kind.storesTop = true) :
    ∃ p after, armOf H kind sti = .store p after ∧ Looks p := by
  cases kind with
  | fstpF80 => exact fstpF80_looks
  | fstpF64 | fstF64 | fstpF32 | fstF32 | fistpI16 | fistpI32 | fistpI64
  | fisttpI16 | fisttpI32 | fisttpI64 => exact fstConverted_looks _ _
  | _ => cases h

theorem armOf_word {p : FpuM (List U8)} {after : FpuM Unit}
    (harm : armOf H kind sti = .store p after) (h : kind.storesTop = false) :
    ∃ g : Fpu → List U8, p = (do return g (← get) : FpuM (List U8)) := by
  cases kind with
  | fnstcw | fnstswMem | fnstenv =>
    cases harm
    exact ⟨_, rfl⟩
  | fstpF64 | fstF64 | fstpF32 | fstF32 | fstpF80 | fistpI16 | fistpI32 | fistpI64
  | fisttpI16 | fisttpI32 | fisttpI64 => cases h
  | _ => cases harm

theorem storesTop_of_load {n : ℕ} {p : List U8 → FpuM Unit}
    (harm : armOf H kind sti = .load n p) : kind.storesTop = false := by
  cases hs : kind.storesTop with
  | false => rfl
  | true =>
    obtain ⟨q, after, hstore, -⟩ := armOf_looks H sti hs
    rw [hstore] at harm
    cases harm

theorem store_ready {p : FpuM (List U8)} {after : FpuM Unit} {u v : Fpu}
    {bs : List U8} (harm : armOf H kind sti = .store p after) (hp : p u = .ok bs v) :
    v = kind.touched u ∧ p v = .ok bs v := by
  unfold FpuKind.touched
  cases hs : kind.storesTop with
  | false =>
    obtain ⟨g, rfl⟩ := armOf_word harm hs
    cases hp
    exact ⟨rfl, rfl⟩
  | true =>
    obtain ⟨q, after', hstore, hlooks⟩ := armOf_looks H sti hs
    rw [hstore] at harm
    cases harm
    exact hlooks hp

variable {M : Type} [FpMem M] {addr : U64} {s s' : X87State M} {f : U64 × Bool}

/-- Whatever the fault, the unit is as `touched` says, nothing else has changed, and a retry
on any memory is a first execution. -/
theorem execX87_fault (h : execX87 H kind addr sti s = (some f, s')) :
    s' = s.setFpu (kind.touched s.cpu.fpu) ∧
      ∀ m : M, execX87 H kind addr sti { s' with mem := m } =
        execX87 H kind addr sti { s with mem := m } := by
  unfold execX87 at h ⊢
  cases harm : armOf H kind sti with
  | quiet p =>
    rw [harm] at h
    cases h
  | ax =>
    rw [harm] at h
    cases h
  | compare p =>
    rw [harm] at h
    unfold Arm.run at h
    dsimp only at h
    split at h <;> cases h
  | load n p =>
    rw [harm] at h
    unfold Arm.run at h
    dsimp only at h
    split at h
    · cases h
      have hs : kind.touched s.cpu.fpu = s.cpu.fpu := by
        unfold FpuKind.touched
        rw [storesTop_of_load harm]
        rfl
      rw [hs]
      exact ⟨rfl, fun _ => rfl⟩
    · cases h
  | store p after =>
    rw [harm] at h
    unfold Arm.run at h
    dsimp only at h
    split at h
    · cases h
    · -- the bytes were ready, so all that is left behind is that the top was looked at
      rename_i bs v hp
      obtain ⟨hv, hagain⟩ := store_ready harm hp
      split at h
      · cases h
      · rename_i hrefused
        have hmem := FpMem.store_refused (Bool.not_eq_true _ ▸ hrefused)
        cases h
        rw [hmem, ← hv]
        refine ⟨rfl, fun m => ?_⟩
        unfold Arm.run
        dsimp only
        rw [hp, hagain]

/-- A fault leaves everything as it was, unless the op stores an empty `ST(0)` and the status word
does not yet report that. A retry is a first execution in any case. -/
theorem fault_unchanged_iff (h : execX87 H kind addr sti s = (some f, s')) :
    (s' = s ↔ (kind.storesTop = true → s.cpu.fpu.topEmpty = true →
      s.cpu.fpu.reportsUnderflow = true)) ∧
    ∀ m : M, execX87 H kind addr sti { s' with mem := m } =
      execX87 H kind addr sti { s with mem := m } := by
  obtain ⟨hs', hretry⟩ := execX87_fault h
  refine ⟨?_, hretry⟩
  have hfpu : s' = s ↔ kind.touched s.cpu.fpu = s.cpu.fpu := by
    rw [hs']
    constructor
    · intro heq
      exact congrArg (fun t : X87State M => t.cpu.fpu) heq
    · intro heq
      rw [heq]
      rfl
  rw [hfpu]
  unfold FpuKind.touched
  cases kind.storesTop with
  | false => simp
  | true =>
    cases s.cpu.fpu.topEmpty with
    | false => simp
    | true => simpa using s.cpu.fpu.underflowed_eq_self_iff

def Fpu.reset : Fpu := ⟨fun _ => 0, 0, 0x037f, 0, 0xff, 0, .fast⟩

def blankHost : Host :=
  ⟨fun _ => 0, fun _ => 0, fun _ x => x, fun _ x => x, fun _ x => x, fun _ x => x, fun _ x _ => x,
    fun _ x _ => x, fun _ x _ => x⟩

def resetState : X87State Memory :=
  ⟨⟨.reset, 0, ⟨false, 0, 0, false, false, false, false, false⟩⟩,
    .fresh 0 0 (Nat.zero_le _)⟩

/-- `fstp` of the empty `ST(0)` to an unmapped address faults with the underflow recorded. -/
theorem fstp_empty_unmapped :
    ∃ s', execX87 blankHost .fstpF64 0 0 resetState = (some (0, true), s') ∧
      s'.cpu.fpu.sw = 0x41 ∧ s' ≠ resetState := by
  refine ⟨_, rfl, by decide, ?_⟩
  intro h
  have hsw := congrArg (fun s => s.cpu.fpu.sw) h
  exact absurd hsw (by decide)

/-- `ST(0)` is empty, and the status word says so already. -/
def underflowReported : X87State Memory :=
  { resetState with cpu := { resetState.cpu with fpu := { Fpu.reset with sw := 0x41 } } }

theorem fstp_reported_unmapped :
    let r := execX87 blankHost .fstpF64 0 0 underflowReported
    r.1 = some (0, true) ∧ r.2 = underflowReported ∧
      ∀ m : Memory, execX87 blankHost .fstpF64 0 0 { r.2 with mem := m } =
        execX87 blankHost .fstpF64 0 0 { underflowReported with mem := m } := by
  intro r
  have h : execX87 blankHost .fstpF64 0 0 underflowReported = (some (0, true), r.2) := rfl
  obtain ⟨hsame, hretry⟩ := fault_unchanged_iff h
  exact ⟨rfl, hsame.mpr fun _ _ => rfl, hretry⟩

end X86Jit
