import X86Jit.Fpu.Faults

/-! What the x87 ops store. Compiled code reports the stores of its helper by a table of widths
beside the arms; here is that the two agree. -/
namespace X86Jit
open FpuM

def FpuKind.memWriteBytes : FpuKind → Option ℕ
  | .fstpF32 | .fstF32 => some 4
  | .fstpF64 | .fstF64 => some 8
  | .fstpF80 => some 10
  | .fistpI16 | .fisttpI16 => some 2
  | .fistpI32 | .fisttpI32 => some 4
  | .fistpI64 | .fisttpI64 => some 8
  -- the control and the status word, and the environment in its 32-bit layout
  | .fnstcw | .fnstswMem => some 2
  | .fnstenv => some 28
  | _ => none

variable {M : Type} [FpMem M]

structure Recorded (M : Type) where
  mem : M
  stores : List (U64 × List U8)

instance : FpMem (Recorded M) where
  load m := FpMem.load m.mem
  store m addr bs :=
    let r := FpMem.store m.mem addr bs
    (if r.2 then ⟨r.1, m.stores ++ [(addr, bs)]⟩ else m, r.2)
  store_refused := by
    intro m addr bs h
    exact if_neg (Bool.not_eq_true _ ▸ h)

def X87State.forget (s : X87State (Recorded M)) : X87State M := ⟨s.cpu, s.mem.mem⟩

theorem store_recorded (m : Recorded M) (addr : U64) (bs : List U8) :
    FpMem.store m addr bs = (if (FpMem.store m.mem addr bs).2 then
      ⟨(FpMem.store m.mem addr bs).1, m.stores ++ [(addr, bs)]⟩ else m,
        (FpMem.store m.mem addr bs).2) := rfl

theorem execX87_forget (H : Host) (kind : FpuKind) (addr : U64) (sti : U8)
    (s : X87State (Recorded M)) :
    (execX87 H kind addr sti s).1 = (execX87 H kind addr sti s.forget).1 ∧
      (execX87 H kind addr sti s).2.forget = (execX87 H kind addr sti s.forget).2 := by
  unfold execX87
  cases armOf H kind sti with
  | quiet p | ax => exact ⟨rfl, rfl⟩
  | load n p =>
    have hload : FpMem.load s.mem addr n = FpMem.load s.forget.mem addr n := rfl
    unfold Arm.run
    dsimp only
    rw [hload]
    cases FpMem.load s.forget.mem addr n with
    | none | some b => exact ⟨rfl, rfl⟩
  | compare p =>
    have hfpu : s.forget.cpu.fpu = s.cpu.fpu := rfl
    unfold Arm.run
    dsimp only
    rw [hfpu]
    cases p s.cpu.fpu with
    | error e u | ok c u => exact ⟨rfl, rfl⟩
  | store p after =>
    have hfpu : s.forget.cpu.fpu = s.cpu.fpu := rfl
    have hmem : s.forget.mem = s.mem.mem := rfl
    unfold Arm.run
    dsimp only
    rw [hfpu, hmem]
    cases p s.cpu.fpu with
    | error e u => exact ⟨rfl, rfl⟩
    | ok bs u =>
      dsimp only
      rw [store_recorded]
      cases htaken : (FpMem.store s.mem.mem addr bs).2 with
      | true => exact ⟨rfl, rfl⟩
      | false =>
        have hsame := FpMem.store_refused htaken
        refine ⟨rfl, ?_⟩
        unfold X87State.forget
        simp [hsame]

variable {H : Host}

inductive Arm.Writes : Option ℕ → Arm → Prop
  | quiet (p) : Writes none (.quiet p)
  | load (n p) : Writes none (.load n p)
  | ax : Writes none .ax
  | compare (p) : Writes none (.compare p)
  | store {n p} (after) (h : ∀ {u bs v}, p u = .ok bs v → bs.length = n) :
      Writes (some n) (.store p after)

theorem length_wideBytes {w : ℕ} (v : BitVec w) (n : ℕ) : (wideBytes v n).length = n := by
  unfold wideBytes
  rw [List.length_map, List.length_range]

theorem bind_ok {α β : Type} {p : FpuM α} {f : α → FpuM β} {u v : Fpu} {b : β}
    (h : (p >>= f) u = .ok b v) : ∃ a w, p u = .ok a w ∧ f a w = .ok b v := by
  cases hp : p u with
  | error e w =>
    rw [FpuM.bind_of_error hp] at h
    cases h
  | ok a w =>
    rw [FpuM.bind_of_ok hp] at h
    exact ⟨a, w, rfl, h⟩

theorem fstConverted_writes {pops : Bool} {bytes : Fpu → F80 → List U8} {n : ℕ}
    (hlen : ∀ u v, (bytes u v).length = n) : (Arm.fstConverted pops bytes).Writes (some n) := by
  apply Arm.Writes.store
  intro u bs v h
  obtain ⟨a, w, -, hret⟩ := bind_ok h
  cases hret
  exact hlen _ _

theorem fstpF80_writes : Arm.fstpF80.Writes (some 10) := by
  apply Arm.Writes.store
  intro u bs v h
  obtain ⟨a, w, hget, hrest⟩ := bind_ok h
  cases hget
  by_cases hempty : u.isEmpty (u.slot 0) = true
  · rw [if_pos hempty] at hrest
    obtain ⟨a, w, -, hret⟩ := bind_ok hrest
    cases hret
    exact length_wideBytes _ 10
  · rw [if_neg hempty] at hrest
    cases hrest
    exact length_wideBytes _ 10

theorem word_writes {g : Fpu → List U8} {n : ℕ} (after : FpuM Unit)
    (hlen : ∀ u, (g u).length = n) :
    (Arm.store (do return g (← get) : FpuM (List U8)) after).Writes (some n) := by
  apply Arm.Writes.store
  intro u bs v h
  cases h
  exact hlen u

theorem length_env28 (u : Fpu) : u.env28.length = 28 := by
  unfold Fpu.env28
  simp [length_wideBytes]

theorem armOf_writes (H : Host) (kind : FpuKind) (sti : U8) :
    (armOf H kind sti).Writes kind.memWriteBytes := by
  cases kind with
  | fstpF64 | fstF64 | fstpF32 | fstF32 | fistpI16 | fistpI32 | fistpI64
  | fisttpI16 | fisttpI32 | fisttpI64 =>
    exact fstConverted_writes fun _ _ => length_wideBytes _ _
  | fstpF80 => exact fstpF80_writes
  | fnstcw | fnstswMem => exact word_writes _ fun _ => length_wideBytes _ _
  | fnstenv => exact word_writes _ length_env28
  | _ => constructor

/-- An arm that stores nothing leaves memory alone, the others make at most the one store. -/
theorem Arm.Writes.run {n : Option ℕ} {arm : Arm} (h : arm.Writes n) (addr : U64)
    (s : X87State (Recorded M)) : (arm.run addr s).2.mem = s.mem ∨
      (arm.run addr s).1 = none ∧ ∃ bs, some bs.length = n ∧
        (arm.run addr s).2.mem.stores = s.mem.stores ++ [(addr, bs)] := by
  cases h with
  | quiet p | ax => exact .inl rfl
  | load n p | compare p =>
    left
    unfold Arm.run
    dsimp only
    split <;> rfl
  | @store n p after h =>
    unfold Arm.run
    dsimp only
    cases hp : p s.cpu.fpu with
    | error e u => exact .inl rfl
    | ok bs u =>
      dsimp only
      rw [store_recorded]
      cases (FpMem.store s.mem.mem addr bs).2 with
      | true => exact .inr ⟨rfl, bs, congrArg some (h hp), rfl⟩
      | false => exact .inl rfl

/-- A kind without an entry in the table never writes memory. One with an entry leaves memory alone,
or completes with one store of that many bytes. -/
theorem execX87_stores (H : Host) (kind : FpuKind) (addr : U64) (sti : U8)
    (s : X87State (Recorded M)) :
    (kind.memWriteBytes = none → (execX87 H kind addr sti s).2.mem = s.mem) ∧
      ∀ n, kind.memWriteBytes = some n → (execX87 H kind addr sti s).2.mem = s.mem ∨
          (execX87 H kind addr sti s).1 = none ∧ ∃ bs, bs.length = n ∧
            (execX87 H kind addr sti s).2.mem.stores = s.mem.stores ++ [(addr, bs)] := by
  have hrun := (armOf_writes H kind sti).run addr s
  constructor
  · intro hnone
    rw [hnone] at hrun
    rcases hrun with hsame | ⟨-, bs, hlen, -⟩
    · exact hsame
    · cases hlen
  · intro n hn
    rw [hn] at hrun
    rcases hrun with hsame | ⟨hdone, bs, hlen, hstores⟩
    · exact .inl hsame
    · exact .inr ⟨hdone, bs, Option.some.inj hlen, hstores⟩

def recordedPage : X87State (Recorded RawFpMem) :=
  ⟨resetState.cpu, ⟨⟨fun _ => 0, 0x1000, 0⟩, []⟩⟩

theorem execX87_stores_at : (execX87 blankHost .fldz 0x10 0 recordedPage).2.mem = recordedPage.mem ∧
      (execX87 blankHost .fnstcw 0x10 0 recordedPage).2.mem.stores = [(0x10, [0x7f, 0x03])] ∧
      ((execX87 blankHost .fnstcw 0x10 0 recordedPage).2.mem = recordedPage.mem ∨
        (execX87 blankHost .fnstcw 0x10 0 recordedPage).1 = none ∧ ∃ bs, bs.length = 2 ∧
          (execX87 blankHost .fnstcw 0x10 0 recordedPage).2.mem.stores =
            recordedPage.mem.stores ++ [(0x10, bs)]) :=
  ⟨(execX87_stores blankHost .fldz 0x10 0 recordedPage).1 rfl, by decide,
    (execX87_stores blankHost .fnstcw 0x10 0 recordedPage).2 2 rfl⟩

end X86Jit
