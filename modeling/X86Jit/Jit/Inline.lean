import X86Jit.Core.Regions
import X86Jit.Jit.GuestStore
import X86Jit.Lib.Runs

/-! Inlined guest accesses in a compiled block. Each is checked before it is made, unless the
block has checked the same value with the same size before. -/
namespace X86Jit
open Function

/-- What an access never changes: which guest addresses exist and what is mapped there. -/
structure Memory.SameMap (m m' : Memory) : Prop where
  regions : m'.regions = m.regions
  span : m'.span = m.span
  guestBase : m'.guestBase = m.guestBase

theorem Memory.SameMap.trans {m₁ m₂ m₃ : Memory} (h : m₁.SameMap m₂) (h' : m₂.SameMap m₃) :
    m₁.SameMap m₃ :=
  ⟨h'.regions.trans h.regions, h'.span.trans h.span, h'.guestBase.trans h.guestBase⟩

theorem Memory.noteWrite_sameMap (m : Memory) (addr len : ℕ) : m.SameMap (m.noteWrite addr len) :=
  have htags := noteWrite_sameTags m addr len
  ⟨htags.regions, htags.span, noteWrite_guestBase m addr len⟩

namespace Jit

abbrev Value := ℕ

abbrev Word := BitVec 512

/-- Ops that compute a temp or change the CPU state do so in some way that does not matter here; an
op with an access is a load or a store between such ops. `store` gives the bytes it writes, or none
if an exchange fails. -/
inductive InlineOp (C : Type)
  | insnStart (guestAddr : U64)
  | compute (dst : Temp) (f : (Temp → Word) → C → Word)
  | commit (f : (Temp → Word) → C → C)
  | load (dst : Temp) (addr : Val) (size : ℕ)
  | store (addr : Val) (size : ℕ)
      (f : (Temp → Word) → List U8 → Option (List U8))

def InlineOp.access {C : Type} : InlineOp C → Option (Val × ℕ)
  | load _ addr size => some (addr, size)
  | store addr size _ => some (addr, size)
  | _ => none

/-- A source location is no instruction; a host pointer is kept as the offset into the buffer. -/
inductive Code (C : Type)
  | insn (guestAddr : U64)
  | define (dst : Value) (f : (Value → Word) → C → Word)
  | commit (f : (Value → Word) → C → C)
  | boundsCheck (addr : Value) (size : ℕ) (rip : U64)
  | windowCheck (addr : Value) (lo hi rip : U64)
  | load (dst host : Value) (size : ℕ)
  | store (host : Value) (size : ℕ)
      (f : (Value → Word) → List U8 → Option (List U8))
  | noteStore (addr : Value) (size : ℕ)

variable {C : Type}

structure Snapshot (C : Type) where
  guestAddr : U64
  cpu : C
  mem : JitMem

/-- For the specification, `touched` are the ranges of the buffer it has accessed, and `entry` is
the state at the start of the instruction it is in. -/
structure Frame (C : Type) where
  cpu : C
  rip : U64
  mem : JitMem
  env : Value → Word
  touched : List (U64 × ℕ)
  entry : Snapshot C

namespace Frame
variable (fr : Frame C)

def addr (v : Value) : U64 := (fr.env v).setWidth 64

def guestAddr (host : Value) : U64 := fr.addr host + BitVec.ofNat 64 fr.mem.mem.guestBase

def define (dst : Value) (w : Word) : Frame C := { fr with env := update fr.env dst w }

def bytesAt (a : U64) (size : ℕ) : List U8 :=
  (List.range size).map fun i => fr.mem.mem.bytes (a.toNat + i)

def touch (a : U64) (size : ℕ) : Frame C := { fr with touched := fr.touched ++ [(a, size)] }

end Frame

def wordOf (bs : List U8) : Word := bs.foldr (fun b w => (w <<< 8) ||| b.setWidth 512) 0

def Code.exec (fr : Frame C) : Code C → Except (Ret × Frame C) (Frame C)
  | insn guestAddr => .ok { fr with entry := ⟨guestAddr, fr.cpu, fr.mem⟩ }
  | define dst f => .ok (fr.define dst (f fr.env fr.cpu))
  | commit f => .ok { fr with cpu := f fr.env fr.cpu }
  | boundsCheck addr size rip =>
    if fr.mem.mem.Backs (fr.addr addr) size then .ok fr
    else .error (.unmapped (faultAddr fr.mem.mem (fr.addr addr) size), { fr with rip })
  | windowCheck addr lo hi rip =>
    if lo ≤ fr.addr addr ∧ fr.addr addr < hi then .error (.mmioDefer, { fr with rip }) else .ok fr
  | load dst host size =>
    let a := fr.guestAddr host
    .ok ((fr.touch a size).define dst (wordOf (fr.bytesAt a size)))
  | store host size f =>
    let a := fr.guestAddr host
    match f fr.env (fr.bytesAt a size) with
    | some bs => .ok { fr.touch a size with mem := fr.mem.put a bs }
    | none => .ok (fr.touch a size)
  | noteStore addr size => .ok { fr with mem := fr.mem.noteStore (fr.addr addr) size }

def Code.run (fr : Frame C) (code : List (Code C)) : Except (Ret × Frame C) (Frame C) :=
  code.foldlM Code.exec fr

/-- The window and the base are constants of the code; value 0 is a parameter of the function, and
stands for a temp that is not defined yet. -/
structure Translator where
  mmio : MmioWindow
  guestBase : U64
  next : Value
  temps : Temp → Value
  curAddr : U64
  checkedEa : List (Value × ℕ × Value)

namespace Translator
variable (tr : Translator)

def enter (mmio : MmioWindow) (guestBase : U64) (params : ℕ) (guestStart : U64) : Translator :=
  ⟨mmio, guestBase, params + 1, fun _ => 0, guestStart, []⟩

def bump : Translator := { tr with next := tr.next + 1 }

def val : Val → Value × List (Code C) × Translator
  | .temp t => (tr.temps t, [], tr)
  | .imm i => (tr.next, [.define tr.next fun _ _ => i.setWidth 512], tr.bump)

def set (dst : Temp) (v : Value) : Translator :=
  { tr with temps := update tr.temps dst v }

def inWindow (mmio : MmioWindow) (addr : Value) (rip : U64) : List (Code C) :=
  match mmio with
  | some (lo, hi) => [.windowCheck addr lo hi rip]
  | none => []

def checkedAddr (addr : Value) (size : ℕ) : Value × List (Code C) × Translator :=
  match tr.checkedEa.find? fun e => e.1 == addr && e.2.1 == size with
  | some e => (e.2.2, [], tr)
  | none =>
    (tr.next,
      .boundsCheck addr size tr.curAddr :: inWindow tr.mmio addr tr.curAddr ++
        [.define tr.next fun env _ => ((env addr).setWidth 64 - tr.guestBase).setWidth 512],
      { tr.bump with checkedEa := tr.checkedEa ++ [(addr, size, tr.next)] })

/-- The value of its address, its host pointer, and the code that comes before it. -/
structure Checked (C : Type) where
  addr : Value
  host : Value
  code : List (Code C)
  after : Translator

def access (addr : Val) (size : ℕ) : Checked C :=
  let v := tr.val (C := C) addr
  let c := v.2.2.checkedAddr (C := C) v.1 size
  ⟨v.1, c.1, v.2.1 ++ c.2.1, c.2.2⟩

def op : InlineOp C → List (Code C) × Translator
  | .insnStart guestAddr => ([.insn guestAddr], { tr with curAddr := guestAddr })
  | .compute dst f =>
    ([.define tr.next fun env c => f (fun t => env (tr.temps t)) c], tr.bump.set dst tr.next)
  | .commit f => ([.commit fun env c => f (fun t => env (tr.temps t)) c], tr)
  | .load dst addr size =>
    let c := tr.access addr size
    (c.code ++ [.load c.after.next c.host size], c.after.bump.set dst c.after.next)
  | .store addr size f =>
    let c := tr.access addr size
    (c.code ++ [.store c.host size fun env old => f (fun t => env (tr.temps t)) old,
      .noteStore c.addr size], c.after)

def ops : Translator → List (InlineOp C) → List (Code C) × Translator
  | tr, [] => ([], tr)
  | tr, o :: l => ((tr.op o).1 ++ ((tr.op o).2.ops l).1, ((tr.op o).2.ops l).2)

end Translator

section Checks
variable {m m' : Memory} {mmio : MmioWindow} {addr : U64} {size : ℕ}

theorem backs_congr (h : m.SameMap m') (addr : U64) (size : ℕ) :
    m'.Backs addr size ↔ m.Backs addr size := by
  unfold Memory.Backs
  rw [h.guestBase, h.span]

theorem checkedAddr_congr (h : m.SameMap m') :
    checkedAddr mmio m' addr size = checkedAddr mmio m addr size := by
  have hbacks := backs_congr h addr size
  unfold checkedAddr faultAddr
  rw [h.span, h.guestBase]
  simp only [hbacks]

end Checks

variable {m : Memory} {tr : Translator} {fr fr' : Frame C}

namespace Frame

structure Extends (n : ℕ) (fr fr' : Frame C) : Prop where
  frame : fr' = { fr with env := fr'.env }
  env : ∀ v < n, fr'.env v = fr.env v

theorem Extends.refl (n : ℕ) (fr : Frame C) : Extends n fr fr := ⟨rfl, fun _ _ => rfl⟩

theorem Extends.trans {n k : ℕ} {fr'' : Frame C} (h : Extends n fr fr') (h' : Extends k fr' fr'')
    (hle : n ≤ k) : Extends n fr fr'' := by
  constructor
  · rw [h'.frame, h.frame]
  · intro v hv
    rw [h'.env v (lt_of_lt_of_le hv hle), h.env v hv]

theorem extends_define (n : ℕ) (fr : Frame C) (w : Word) : Extends n fr (fr.define n w) := by
  constructor
  · rfl
  · intro v hv
    exact update_of_ne hv.ne _ _

theorem addr_define_self (n : ℕ) (fr : Frame C) (w : Word) :
    (fr.define n w).addr n = w.setWidth 64 := by
  change (update fr.env n w n).setWidth 64 = _
  rw [update_self]

theorem Extends.addr {n v : ℕ} (h : Extends n fr fr') (hv : v < n) : fr'.addr v = fr.addr v := by
  unfold Frame.addr
  rw [h.env v hv]

end Frame

/-- What the translator has in its table is checked, and a value that is not defined yet is not
used. -/
structure Agrees (m : Memory) (tr : Translator) (fr : Frame C) : Prop where
  map : m.SameMap fr.mem.mem
  base : tr.guestBase = BitVec.ofNat 64 m.guestBase
  pos : 0 < tr.next
  temps : ∀ t, tr.temps t < tr.next
  checked : ∀ e ∈ tr.checkedEa, e.1 < tr.next ∧ e.2.2 < tr.next ∧
    checkedAddr tr.mmio m (fr.addr e.1) e.2.1 = none ∧ fr.addr e.2.2 = fr.addr e.1 - tr.guestBase
  entry : fr.entry.guestAddr = tr.curAddr

def operand (tr : Translator) (fr : Frame C) : Val → U64
  | .temp t => fr.addr (tr.temps t)
  | .imm i => i

namespace Agrees

theorem define (h : Agrees m tr fr) (w : Word) : Agrees m tr.bump (fr.define tr.next w) := by
  have hext := Frame.extends_define tr.next fr w
  refine ⟨h.map, h.base, Nat.succ_pos _, ?_, ?_, h.entry⟩
  · intro t
    exact Nat.lt_succ_of_lt (h.temps t)
  · intro e he
    obtain ⟨ha, hh, hcheck, hhost⟩ := h.checked e he
    rw [hext.addr ha, hext.addr hh]
    exact ⟨Nat.lt_succ_of_lt ha, Nat.lt_succ_of_lt hh, hcheck, hhost⟩

theorem set (h : Agrees m tr fr) (dst : Temp) {v : Value} (hv : v < tr.next) :
    Agrees m (tr.set dst v) fr := by
  refine ⟨h.map, h.base, h.pos, ?_, h.checked, h.entry⟩
  intro t
  by_cases ht : t = dst
  · subst ht
    change update tr.temps t v t < tr.next
    rw [update_self]
    exact hv
  · change update tr.temps dst v t < tr.next
    rw [update_of_ne ht]
    exact h.temps t

theorem congr (h : Agrees m tr fr) (hmap : m.SameMap fr'.mem.mem) (henv : fr'.env = fr.env)
    (hentry : fr'.entry.guestAddr = fr.entry.guestAddr) : Agrees m tr fr' := by
  have haddr (v : Value) : fr'.addr v = fr.addr v := by
    unfold Frame.addr
    rw [henv]
  refine ⟨hmap, h.base, h.pos, h.temps, ?_, hentry.trans h.entry⟩
  intro e he
  rw [haddr, haddr]
  exact h.checked e he

end Agrees

structure Defined (m : Memory) (fr : Frame C) (tr tr' : Translator) (fr' : Frame C) : Prop where
  ext : Frame.Extends tr.next fr fr'
  agrees : Agrees m tr' fr'
  next_le : tr.next ≤ tr'.next
  const : tr'.mmio = tr.mmio ∧ tr'.curAddr = tr.curAddr

theorem val_spec (h : Agrees m tr fr) (o : Val) :
    ∃ fr', Code.run fr (tr.val o).2.1 = .ok fr' ∧ Defined m fr tr (tr.val (C := C) o).2.2 fr' ∧
      (tr.val (C := C) o).1 < (tr.val (C := C) o).2.2.next ∧
      fr'.addr (tr.val (C := C) o).1 = operand tr fr o := by
  cases o with
  | temp t =>
    exact ⟨fr, rfl, ⟨.refl _ _, h, le_rfl, rfl, rfl⟩, h.temps t, rfl⟩
  | imm i =>
    refine ⟨fr.define tr.next (i.setWidth 512), rfl,
      ⟨Frame.extends_define _ _ _, h.define _, Nat.le_succ _, rfl, rfl⟩, Nat.lt_succ_self _, ?_⟩
    change (fr.define tr.next (i.setWidth 512)).addr tr.next = i
    rw [Frame.addr_define_self, BitVec.setWidth_setWidth_of_le i (by decide), BitVec.setWidth_eq]

theorem run_append (code code' : List (Code C)) :
    Code.run fr (code ++ code') = Code.run fr code >>= fun fr => Code.run fr code' :=
  List.foldlM_append

theorem run_check (fr : Frame C) (a : Value) (size : ℕ) (rip : U64) (mmio : MmioWindow)
    (host : Value) (guestBase : U64) :
    Code.run fr (.boundsCheck a size rip :: Translator.inWindow mmio a rip ++
        [.define host fun env _ => ((env a).setWidth 64 - guestBase).setWidth 512]) =
      (checkedAddr mmio fr.mem.mem (fr.addr a) size).elim
        (.ok (fr.define host ((fr.addr a - guestBase).setWidth 512)))
        fun ret => .error (ret, { fr with rip }) := by
  unfold checkedAddr
  by_cases hb : fr.mem.mem.Backs (fr.addr a) size
  · have hbounds : Code.exec fr (.boundsCheck a size rip) = .ok fr := if_pos hb
    rw [if_pos hb]
    change (Code.exec fr (.boundsCheck a size rip) >>= fun fr => _) = _
    rw [hbounds]
    match mmio with
    | none => rfl
    | some (lo, hi) =>
      by_cases hin : lo ≤ fr.addr a ∧ fr.addr a < hi
      · have hwindow : Code.exec fr (.windowCheck a lo hi rip) = .error (.mmioDefer, { fr with rip }) :=
          if_pos hin
        dsimp only
        rw [if_pos hin]
        change (Code.exec fr (.windowCheck a lo hi rip) >>= fun fr => _) = _
        rw [hwindow]
        rfl
      · have hwindow : Code.exec fr (.windowCheck a lo hi rip) = .ok fr := if_neg hin
        dsimp only
        rw [if_neg hin]
        change (Code.exec fr (.windowCheck a lo hi rip) >>= fun fr => _) = _
        rw [hwindow]
        rfl
  · have hbounds : Code.exec fr (.boundsCheck a size rip) =
        .error (.unmapped (faultAddr fr.mem.mem (fr.addr a) size), { fr with rip }) := if_neg hb
    rw [if_neg hb]
    change (Code.exec fr (.boundsCheck a size rip) >>= fun fr => _) = _
    rw [hbounds]
    rfl

theorem check_spec (h : Agrees m tr fr) {a : Value} (ha : a < tr.next) (size : ℕ) :
    (∃ ret, checkedAddr tr.mmio m (fr.addr a) size = some ret ∧
      Code.run fr (tr.checkedAddr a size).2.1 = .error (ret, { fr with rip := tr.curAddr })) ∨
    (checkedAddr tr.mmio m (fr.addr a) size = none ∧
      ∃ fr', Code.run fr (tr.checkedAddr a size).2.1 = .ok fr' ∧
        Defined m fr tr (tr.checkedAddr (C := C) a size).2.2 fr' ∧
        fr'.guestAddr (tr.checkedAddr (C := C) a size).1 = fr.addr a) := by
  have hback : ∀ fr' : Frame C, m.SameMap fr'.mem.mem → ∀ host : Value,
      fr'.addr host = fr.addr a - tr.guestBase → fr'.guestAddr host = fr.addr a := by
    intro fr' hmap host hhost
    unfold Frame.guestAddr
    rw [hhost, hmap.guestBase, ← h.base, BitVec.sub_add_cancel]
  unfold Translator.checkedAddr
  cases hfind : tr.checkedEa.find? fun e => e.1 == a && e.2.1 == size with
  | some e =>
    -- the table has an entry for this value and size: it has been checked
    have hmatch := List.find?_some hfind
    rw [Bool.and_eq_true, beq_iff_eq, beq_iff_eq] at hmatch
    obtain ⟨-, -, hcheck, hhost⟩ := h.checked e (List.mem_of_find?_eq_some hfind)
    rw [hmatch.1, hmatch.2] at hcheck
    rw [hmatch.1] at hhost
    right
    exact ⟨hcheck, fr, rfl, ⟨.refl _ _, h, le_rfl, rfl, rfl⟩, hback fr h.map _ hhost⟩
  | none =>
    let w : Word := (fr.addr a - tr.guestBase).setWidth 512
    have hhost : (fr.define tr.next w).addr tr.next = fr.addr a - tr.guestBase := by
      rw [Frame.addr_define_self, BitVec.setWidth_setWidth_of_le _ (by decide), BitVec.setWidth_eq]
    have hext := Frame.extends_define tr.next fr w
    have hdone (hcheck : checkedAddr tr.mmio m (fr.addr a) size = none) :
        Defined m fr tr { tr.bump with checkedEa := tr.checkedEa ++ [(a, size, tr.next)] }
          (fr.define tr.next w) := by
      have hdef := h.define w
      refine ⟨hext, ⟨hdef.map, hdef.base, hdef.pos, hdef.temps, ?_, hdef.entry⟩, Nat.le_succ _, rfl,
        rfl⟩
      intro e he
      rcases List.mem_append.mp he with hold | hnew
      · exact hdef.checked e hold
      · rw [List.mem_singleton.mp hnew]
        refine ⟨Nat.lt_succ_of_lt ha, Nat.lt_succ_self _, ?_, ?_⟩
        · rw [hext.addr ha]
          exact hcheck
        · rw [hext.addr ha]
          exact hhost
    have hguest : (fr.define tr.next w).guestAddr tr.next = fr.addr a :=
      hback (fr.define tr.next w) h.map tr.next hhost
    have hrun := run_check fr a size tr.curAddr tr.mmio tr.next tr.guestBase
    rw [checkedAddr_congr h.map] at hrun
    cases hcheck : checkedAddr tr.mmio m (fr.addr a) size with
    | none =>
      right
      rw [hcheck] at hrun
      exact ⟨rfl, _, hrun, hdone hcheck, hguest⟩
    | some ret =>
      left
      rw [hcheck] at hrun
      exact ⟨ret, rfl, hrun⟩

theorem access_spec (h : Agrees m tr fr) (o : Val) (size : ℕ) :
    (∃ ret fr', checkedAddr tr.mmio m (operand tr fr o) size = some ret ∧
      Frame.Extends tr.next fr fr' ∧
      Code.run fr (tr.access o size).code = .error (ret, { fr' with rip := tr.curAddr })) ∨
    (checkedAddr tr.mmio m (operand tr fr o) size = none ∧
      ∃ fr', Code.run fr (tr.access o size).code = .ok fr' ∧
        Defined m fr tr (tr.access (C := C) o size).after fr' ∧
        fr'.guestAddr (tr.access (C := C) o size).host = operand tr fr o) := by
  obtain ⟨fr₁, hrun₁, hdef₁, hlt, haddr⟩ := val_spec h o
  have hcheck := check_spec hdef₁.agrees hlt size
  rw [hdef₁.const.1, hdef₁.const.2, haddr] at hcheck
  unfold Translator.access
  rw [run_append, hrun₁]
  rcases hcheck with ⟨ret, hsome, herr⟩ | ⟨hnone, fr₂, hok, hdef₂, hguest⟩
  · exact .inl ⟨ret, fr₁, hsome, hdef₁.ext, herr⟩
  · refine .inr ⟨hnone, fr₂, hok, ⟨hdef₁.ext.trans hdef₂.ext hdef₁.next_le, hdef₂.agrees,
      hdef₁.next_le.trans hdef₂.next_le, hdef₂.const.1.trans hdef₁.const.1,
      hdef₂.const.2.trans hdef₁.const.2⟩, hguest⟩

theorem noteStore_sameMap {s : JitMem} (a : U64) (size : ℕ) :
    s.mem.SameMap (s.noteStore a size).mem := by
  unfold JitMem.noteStore
  split
  · exact Memory.noteWrite_sameMap _ _ _
  · split
    · exact Memory.noteWrite_sameMap _ _ _
    · exact ⟨rfl, rfl, rfl⟩

theorem load_spec (h : Agrees m tr fr) (dst : Temp) (host : Value) (size : ℕ) :
    ∃ fr', Code.run fr [.load tr.next host size] = .ok fr' ∧
      Agrees m (tr.bump.set dst tr.next) fr' ∧
      fr'.touched = fr.touched ++ [(fr.guestAddr host, size)] := by
  refine ⟨_, rfl, ?_, rfl⟩
  have htouch : Agrees m tr (fr.touch (fr.guestAddr host) size) := h.congr h.map rfl rfl
  exact (htouch.define _).set dst (Nat.lt_succ_self _)

theorem store_spec (h : Agrees m tr fr) (host a : Value) (size : ℕ)
    (f : (Value → Word) → List U8 → Option (List U8)) :
    ∃ fr', Code.run fr [.store host size f, .noteStore a size] = .ok fr' ∧ Agrees m tr fr' ∧
      fr'.touched = fr.touched ++ [(fr.guestAddr host, size)] := by
  have hnote (fr' : Frame C) (hagree : Agrees m tr fr') :
      Agrees m tr { fr' with mem := fr'.mem.noteStore (fr'.addr a) size } :=
    hagree.congr (hagree.map.trans (noteStore_sameMap _ _)) rfl rfl
  cases hbytes : f fr.env (fr.bytesAt (fr.guestAddr host) size) with
  | none =>
    have hstore : Code.exec fr (.store host size f) = .ok (fr.touch (fr.guestAddr host) size) := by
      unfold Code.exec
      dsimp only
      rw [hbytes]
    have htouch : Agrees m tr (fr.touch (fr.guestAddr host) size) := h.congr h.map rfl rfl
    refine ⟨_, ?_, hnote _ htouch, rfl⟩
    change (Code.exec fr (.store host size f) >>= fun fr => _) = _
    rw [hstore]
    rfl
  | some bs =>
    have hstore : Code.exec fr (.store host size f) = .ok
        { fr.touch (fr.guestAddr host) size with mem := fr.mem.put (fr.guestAddr host) bs } := by
      unfold Code.exec
      dsimp only
      rw [hbytes]
    have hput : Agrees m tr
        { fr.touch (fr.guestAddr host) size with mem := fr.mem.put (fr.guestAddr host) bs } :=
      h.congr (h.map.trans ⟨rfl, rfl, rfl⟩) rfl rfl
    refine ⟨_, ?_, hnote _ hput, rfl⟩
    change (Code.exec fr (.store host size f) >>= fun fr => _) = _
    rw [hstore]
    rfl

/-- The block is left before the access with nothing changed, or it is made and the translator and
the run agree again. -/
theorem op_access_spec (h : Agrees m tr fr) {o : InlineOp C} {addr : Val} {size : ℕ}
    (ho : o.access = some (addr, size)) :
    (∃ ret fr', checkedAddr tr.mmio m (operand tr fr addr) size = some ret ∧
      Frame.Extends tr.next fr fr' ∧
      Code.run fr (tr.op o).1 = .error (ret, { fr' with rip := tr.curAddr })) ∨
    (checkedAddr tr.mmio m (operand tr fr addr) size = none ∧
      ∃ fr', Code.run fr (tr.op o).1 = .ok fr' ∧ Agrees m (tr.op o).2 fr' ∧
        fr'.touched = fr.touched ++ [(operand tr fr addr, size)]) := by
  -- both kinds of access start with the same check
  obtain ⟨rest, tr', hop, hrest⟩ : ∃ rest tr', tr.op o = ((tr.access addr size).code ++ rest, tr') ∧
      ∀ fr', Agrees m (tr.access (C := C) addr size).after fr' →
        ∃ fr'', Code.run fr' rest = .ok fr'' ∧ Agrees m tr' fr'' ∧ fr''.touched =
          fr'.touched ++ [(fr'.guestAddr (tr.access (C := C) addr size).host, size)] := by
    cases o with
    | load dst addr' size' =>
      cases ho
      exact ⟨_, _, rfl, fun fr' h' => load_spec h' dst _ _⟩
    | store addr' size' f =>
      cases ho
      exact ⟨_, _, rfl, fun fr' h' => store_spec h' _ _ _ _⟩
    | insnStart guestAddr => cases ho
    | compute dst f => cases ho
    | commit f => cases ho
  rw [hop, run_append]
  rcases access_spec h addr size with ⟨ret, fr', hsome, hext, herr⟩ | ⟨hnone, fr', hok, hdef, hguest⟩
  · left
    rw [herr]
    exact ⟨ret, fr', hsome, hext, rfl⟩
  · right
    obtain ⟨fr'', hrun, hagree, htouched⟩ := hrest fr' hdef.agrees
    rw [hok]
    refine ⟨hnone, fr'', hrun, hagree, ?_⟩
    rw [htouched, hguest, hdef.ext.frame]

theorem op_agrees (h : Agrees m tr fr) {o : InlineOp C} (hrun : Code.run fr (tr.op o).1 = .ok fr') :
    Agrees m (tr.op o).2 fr' := by
  cases ho : o.access with
  | some access =>
    rcases op_access_spec h ho with ⟨ret, fr'', -, -, herr⟩ | ⟨-, fr'', hok, hagree, -⟩
    · rw [herr] at hrun
      cases hrun
    · rw [hok] at hrun
      cases hrun
      exact hagree
  | none =>
    cases o with
    | insnStart guestAddr =>
      cases hrun
      exact ⟨h.map, h.base, h.pos, h.temps, h.checked, rfl⟩
    | compute dst f =>
      cases hrun
      exact (h.define _).set dst (Nat.lt_succ_self _)
    | commit f =>
      cases hrun
      exact h.congr h.map rfl rfl
    | load dst addr size => cases ho
    | store addr size f => cases ho

theorem ops_agrees (h : Agrees m tr fr) {l : List (InlineOp C)}
    (hrun : Code.run fr (tr.ops l).1 = .ok fr') : Agrees m (tr.ops l).2 fr' := by
  induction l generalizing tr fr with
  | nil =>
    cases hrun
    exact h
  | cons o l ih =>
    change Code.run fr ((tr.op o).1 ++ ((tr.op o).2.ops l).1) = _ at hrun
    rw [run_append] at hrun
    cases hop : Code.run fr (tr.op o).1 with
    | error e =>
      rw [hop] at hrun
      cases hrun
    | ok fr₁ =>
      rw [hop] at hrun
      exact ih (op_agrees h hop) hrun

theorem ops_mmio (tr : Translator) (l : List (InlineOp C)) : (tr.ops l).2.mmio = tr.mmio := by
  have hcheck (tr : Translator) (a : Value) (size : ℕ) :
      (tr.checkedAddr (C := C) a size).2.2.mmio = tr.mmio := by
    unfold Translator.checkedAddr
    split <;> rfl
  have hval (tr : Translator) (o : Val) : (tr.val (C := C) o).2.2.mmio = tr.mmio := by
    cases o <;> rfl
  have haccess (tr : Translator) (o : Val) (size : ℕ) :
      (tr.access (C := C) o size).after.mmio = tr.mmio :=
    (hcheck _ _ size).trans (hval tr o)
  induction l generalizing tr with
  | nil => rfl
  | cons o l ih =>
    refine (ih (tr.op o).2).trans ?_
    cases o with
    | insnStart guestAddr => rfl
    | compute dst f => rfl
    | commit f => rfl
    | load dst addr size => exact haccess tr addr size
    | store addr size f => exact haccess tr addr size

end Jit

end X86Jit
