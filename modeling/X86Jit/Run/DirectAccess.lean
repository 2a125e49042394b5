import X86Jit.Interp.Masked
import X86Jit.Run.Device

/-! Vector ops that go to memory by themselves. Most of them do not look for the embedder's answer,
so that one which reaches a device is tried again for ever. Two kinds do: the widest broadcast is a
scalar load, and the Galois-field ops on 16 bytes keep the answers in a table. -/
namespace X86Jit.Run
open X86Jit.Lib List Memory

abbrev Place := U64 × Size

abbrev Compute := List U64 → VecRegs → VecRegs

/-- The arithmetic is a parameter of the ops; which transfers they make, in which order, is not.
`gfni` is the legacy and VEX form on 16 bytes, `gf2p8` a wider or masked one. -/
inductive DirectOp
  | broadcast (elem : Size) (f : Compute)
  | broadcastWide (t : Temp) (elem : Size) (f : Compute)
  | broadcastLane (chunk : ℕ) (f : Compute)
  | fma (scalar : Bool) (elem : Size) (w : Width) (f : Compute)
  | permute (w : Width) (f : Compute)
  | gfni (f : Compute)
  | gf2p8 (w : Width) (f : Compute)
  | maskLoad (vm : VecMask) (r : Fin 32) (elem : Size) (w : Width) (zeroing : Bool)
  | maskStore (vm : VecMask) (r : Fin 32) (elem : Size) (w : Width)
  | narrowStore (r : Fin 32) (src dst : Size) (w : Width)

/-- The halves of 16-byte lanes, and the words of a chunk. -/
def words (base : U64) (n : ℕ) : List Place :=
  (range n).map fun i => (base + BitVec.ofNat 64 (8 * i), .b8)

def sload (m : Memory) : List Place → Except StrFault (List U64)
  | [] => .ok []
  | (addr, elem) :: l =>
    match m.read addr elem with
    | .ok v => (sload m l).map (v :: ·)
    | .error trap => .error { addr, write := false, trap, value := 0, elem }

def sstore : List (Place × U64) → Memory → Memory × Option StrFault
  | [], m => (m, none)
  | ((addr, elem), value) :: l, m =>
    match m.write addr.toNat value elem.bytes with
    | .ok m => sstore l m
    | .error trap => (m, some { addr, write := true, trap, value, elem })

variable (g : Guest Ext)

def loadRun (l : List Place) (f : Compute) : Outcome (Guest Ext) :=
  match sload g.mem l with
  | .ok vs => .ok { g with ext := { g.ext with vec := f vs g.ext.vec } }
  | .error t => .error (g.trapOut t.trap t.addr t.elem .read t.value)

def storeRun (l : List (Place × U64)) : Outcome (Guest Ext) :=
  match sstore l g.mem with
  | (m, none) => .ok { g with mem := m }
  | (m, some t) => .error ({ g with mem := m }.trapOut t.trap t.addr t.elem .write t.value)

def narrowed (r : Fin 32) (src dst : Size) (w : Width) (base : U64) : List (Place × U64) :=
  (range (w.elems src)).map fun i =>
    ((elemAddr base dst i, dst), getVelem (g.ext.vec.lanes r) i src)

/-- The matrix product leaves RIP where the block has it. -/
def keepRip : Outcome (Guest Ext) → Outcome (Guest Ext)
  | .ok g' => .ok g'
  | .error e => .error ⟨{ e.state with rip := g.rip }, e.result⟩

/-- What the embedder has answered for the instruction at `rip`. -/
def answered (x : Ext) (rip : U64) : List (U64 × U64) :=
  if x.mmioParts.rip = rip then x.mmioParts.entries else []

def mmioPart (x : Ext) (rip addr : U64) : Option U64 := (answered x rip).lookup addr

/-- A full table drops the answer. -/
def recordMmioPart (x : Ext) (rip addr value : U64) : Ext :=
  let l := answered x rip
  let full := (mmioPart x rip addr).isSome ∨ 8 ≤ l.length
  { x with mmioParts := ⟨rip, if full then l else l ++ [(addr, value)]⟩ }

def vpart (p : Place) : Except (Stop (Guest Ext)) (U64 × Guest Ext) :=
  match mmioPart g.ext g.curAddr p.1 with
  | some v => .ok (v, g)
  | none =>
    match g.mem.read p.1 p.2, g.pendingMmio with
    | .ok v, _ => .ok (v, g)
    | .error .mmio, some v =>
      let v := v &&& mask p.2
      .ok (v, { g with pendingMmio := none, ext := recordMmioPart g.ext g.curAddr p.1 v })
    | .error trap, _ => .error (g.trapOut trap p.1 p.2 .read 0)

/-- Every attempt starts with the first half again. -/
def vload : List Place → Guest Ext → Except (Stop (Guest Ext)) (List U64 × Guest Ext)
  | [], g => .ok ([], g)
  | p :: l, g => do
    let r ← vpart g p
    let s ← vload l r.2
    return (r.1 :: s.1, s.2)

def active (k base : U64) (elem : Size) (w : Width) : List Place :=
  ((range (w.elems elem)).filter (k.getLsbD ·)).map fun i => (elemAddr base elem i, elem)

namespace DirectOp

def exec (addr : Val) : DirectOp → Outcome (Guest Ext)
  | broadcast elem f => loadRun g [(g.readVal addr, elem)] f
  | broadcastWide t elem f => (execLoad g t addr elem).map fun g' =>
    { g' with ext := { g'.ext with vec := f [g'.temps t] g'.ext.vec } }
  | broadcastLane chunk f => loadRun g (words (g.readVal addr) (chunk / 8)) f
  | fma true elem _ f => loadRun g [(g.readVal addr, elem)] f
  | fma false _ w f | permute w f => loadRun g (words (g.readVal addr) (2 * w.lanes)) f
  | gfni f => (vload (words (g.readVal addr) 2) g).map fun r =>
    { r.2 with ext := { r.2.ext with vec := f r.1 r.2.ext.vec } }
  | gf2p8 w f => keepRip g (loadRun g (words (g.readVal addr) (2 * w.lanes)) f)
  | maskLoad vm r elem w zeroing => vm.load g r addr elem w zeroing
  | maskStore vm r elem w => vm.store g r addr elem w
  | narrowStore r src dst w => storeRun g (narrowed g r src dst w (g.readVal addr))

def places (addr : Val) : DirectOp → List Place
  | broadcast elem _ | broadcastWide _ elem _ | fma true elem _ _ => [(g.readVal addr, elem)]
  | broadcastLane chunk _ => words (g.readVal addr) (chunk / 8)
  | gfni _ => words (g.readVal addr) 2
  | fma false _ w _ | permute w _ | gf2p8 w _ => words (g.readVal addr) (2 * w.lanes)
  | maskLoad vm _ elem w _ | maskStore vm _ elem w =>
    active (vm.bits g.ext.vec elem w) (g.readVal addr) elem w
  | narrowStore r src dst w => (narrowed g r src dst w (g.readVal addr)).map Prod.fst

def asks : DirectOp → Bool
  | broadcastWide _ _ _ | gfni _ => true
  | _ => false

end DirectOp

/-- An op that completes exactly where it is not refused, and changes no register when it is. -/
structure Direct (l : List Place) (g : Guest Ext) (o : Outcome (Guest Ext)) : Prop where
  completes : (∀ p ∈ l, g.mem.backed p.1 p.2 = true) → ∃ g', o = .ok g'
  refused : (∃ p ∈ l, g.mem.backed p.1 p.2 = false) → ∃ m rip res,
    m.regions = g.mem.regions ∧ o = .error ⟨{ g with mem := m, rip }, res⟩

variable {g : Guest Ext} {m : Memory}

theorem sload_cases (l : List Place) :
    (∃ vs, sload m l = .ok vs) ∧ (∀ p ∈ l, m.backed p.1 p.2 = true) ∨
      (∃ t, sload m l = .error t) ∧ ∃ p ∈ l, m.backed p.1 p.2 = false := by
  induction l with
  | nil => exact .inl ⟨⟨[], rfl⟩, nofun⟩
  | cons p l ih =>
    simp only [sload, forall_mem_cons, exists_mem_cons_iff]
    cases hread : m.read p.1 p.2 with
    | ok v =>
      have hp := read_ok_iff.1 ⟨v, hread⟩
      rcases ih with ⟨⟨vs, hvs⟩, hall⟩ | ⟨⟨t, ht⟩, hbad⟩
      · exact .inl ⟨⟨v :: vs, by rw [hvs]; rfl⟩, hp, hall⟩
      · exact .inr ⟨⟨t, by rw [ht]; rfl⟩, .inr hbad⟩
    | error t =>
      refine .inr ⟨⟨_, rfl⟩, .inl ?_⟩
      rw [← Bool.not_eq_true, ← read_ok_iff, hread]
      rintro ⟨v, hv⟩
      cases hv

theorem sstore_cases (l : List (Place × U64)) :
    (∃ m', sstore l m = (m', none)) ∧ (∀ p ∈ l.map Prod.fst, m.backed p.1 p.2 = true) ∨
      (∃ m' t, m'.regions = m.regions ∧ sstore l m = (m', some t)) ∧
        ∃ p ∈ l.map Prod.fst, m.backed p.1 p.2 = false := by
  induction l generalizing m with
  | nil => exact .inl ⟨⟨m, rfl⟩, nofun⟩
  | cons p l ih =>
    simp only [sstore, map_cons, forall_mem_cons, exists_mem_cons_iff]
    cases hw : m.write p.1.1.toNat p.2 p.1.2.bytes with
    | ok m₁ =>
      have hp := write_ok_iff.1 ⟨m₁, hw⟩
      have hregions := regions_write hw
      have hrest := ih (m := m₁)
      simp only [backed_congr hregions] at hrest
      rcases hrest with ⟨hdone, hall⟩ | ⟨⟨m', t, hm', ht⟩, hbad⟩
      · exact .inl ⟨hdone, hp, hall⟩
      · exact .inr ⟨⟨m', t, hm'.trans hregions, ht⟩, .inr hbad⟩
    | error t =>
      refine .inr ⟨⟨m, _, rfl, rfl⟩, .inl ?_⟩
      rw [← Bool.not_eq_true, ← write_ok_iff (v := p.2), hw]
      rintro ⟨v, hv⟩
      cases hv

theorem not_backed {l : List Place} (h : ∀ p ∈ l, m.backed p.1 p.2 = true)
    (hbad : ∃ p ∈ l, m.backed p.1 p.2 = false) : False := by
  obtain ⟨p, hp, hfalse⟩ := hbad
  rw [h p hp] at hfalse
  cases hfalse

theorem loadRun_direct (l : List Place) (f : Compute) : Direct l g (loadRun g l f) := by
  unfold loadRun
  rcases sload_cases (m := g.mem) l with ⟨⟨vs, hvs⟩, hall⟩ | ⟨⟨t, ht⟩, hbad⟩
  · rw [hvs]
    exact ⟨fun _ => ⟨_, rfl⟩, fun hbad => (not_backed hall hbad).elim⟩
  · rw [ht]
    exact ⟨fun hall => (not_backed hall hbad).elim, fun _ => ⟨g.mem, _, _, rfl, rfl⟩⟩

theorem storeRun_direct (l : List (Place × U64)) : Direct (l.map Prod.fst) g (storeRun g l) := by
  unfold storeRun
  rcases sstore_cases (m := g.mem) l with ⟨⟨m, hm⟩, hall⟩ | ⟨⟨m, t, hregions, ht⟩, hbad⟩
  · rw [hm]
    exact ⟨fun _ => ⟨_, rfl⟩, fun hbad => (not_backed hall hbad).elim⟩
  · rw [ht]
    exact ⟨fun hall => (not_backed hall hbad).elim, fun _ => ⟨m, _, _, hregions, rfl⟩⟩

theorem keepRip_direct {l : List Place} {o : Outcome (Guest Ext)} (h : Direct l g o) :
    Direct l g (keepRip g o) := by
  constructor
  · intro hall
    obtain ⟨g', hg'⟩ := h.completes hall
    rw [hg']
    exact ⟨g', rfl⟩
  · intro hbad
    obtain ⟨m, rip, res, hregions, ho⟩ := h.refused hbad
    rw [ho]
    exact ⟨m, g.rip, res, hregions, rfl⟩

theorem mem_active {k base : U64} {elem : Size} {w : Width} {p : Place} : p ∈ active k base elem w ↔
      ∃ i < w.elems elem, k.getLsbD i = true ∧ (elemAddr base elem i, elem) = p := by
  simp only [active, mem_map, mem_filter, mem_range, and_assoc]

theorem maskLoad_direct (r : Fin 32) (base k : U64) (elem : Size) (w : Width) (zeroing : Bool) :
    Direct (active k base elem w) g (maskedLoadRun base k elem g r w zeroing) := by
  have hload := loadRight g r base k elem w zeroing
  constructor
  · intro hall
    obtain ⟨x, hx, -⟩ := hload.loaded (m := g.mem)
      fun i hi hk => hall _ (mem_active.2 ⟨i, hi, hk, rfl⟩)
    exact ⟨_, hx⟩
  · rintro ⟨p, hp, hbad⟩
    obtain ⟨i, hi, hk, rfl⟩ := mem_active.1 hp
    obtain ⟨res, hres⟩ := hload.refused (m := g.mem) ⟨i, hi, hk, hbad⟩
    exact ⟨g.mem, g.curAddr, res, rfl, hres⟩

theorem maskStore_direct (r : Fin 32) (base k : U64) (elem : Size) (w : Width) :
    Direct (active k base elem w) g (maskedStoreRun base k elem g r w) := by
  have hstore := storeRight g r base k elem w
  constructor
  · intro hall
    obtain ⟨m, hm, -⟩ := hstore.stored (m := g.mem)
      fun i hi hk => hall _ (mem_active.2 ⟨i, hi, hk, rfl⟩)
    exact ⟨_, hm⟩
  · rintro ⟨p, hp, hbad⟩
    obtain ⟨i, hi, hk, rfl⟩ := mem_active.1 hp
    -- the first refused element is the one that ends the store
    have hex : ∃ i, k.getLsbD i = true ∧ g.mem.backed (elemAddr base elem i) elem = false :=
      ⟨i, hk, hbad⟩
    obtain ⟨hk', hbad'⟩ := Nat.find_spec hex
    obtain ⟨m, res, hres, hbelow⟩ := hstore.refused (m := g.mem)
      ((Nat.find_min' hex ⟨hk, hbad⟩).trans_lt hi) hk' hbad' fun j hj hkj => by
        have hnot := Nat.find_min hex hj
        rw [not_and, Bool.not_eq_false] at hnot
        exact hnot hkj
    exact ⟨m, g.curAddr, res, hbelow.regions, hres⟩

theorem DirectOp.exec_direct {op : DirectOp} (h : op.asks = false) (addr : Val) :
    Direct (op.places g addr) g (op.exec g addr) := by
  cases op with
  | fma scalar elem w f => cases scalar <;> exact loadRun_direct _ _
  | broadcastWide t elem f | gfni f => cases h
  | gf2p8 w f => exact keepRip_direct (loadRun_direct _ _)
  | maskLoad vm r elem w zeroing => cases vm <;> exact maskLoad_direct ..
  | maskStore vm r elem w => cases vm <;> exact maskStore_direct ..
  | narrowStore r src dst w => exact storeRun_direct _
  | _ => exact loadRun_direct _ _

variable {δ : Type} (D : Device δ) (op : DirectOp) (addr : Val)

/-- Attempts at an op and answers of the embedder in turn, as far as `n` attempts go: the guest
if the op has completed, and what the device has seen. The code before the op computes the
address from registers that a refused access leaves alone. -/
def retry : ℕ → Guest Ext → Bus δ → Option (Guest Ext × Bus δ)
  | 0, _, _ => none
  | n + 1, g, b =>
    match op.exec g addr with
    | .ok g' => some (g', b)
    | .error e =>
      match e.result with
      | .exit (.mmioRead a size) =>
        let r := D.readAt b a size
        retry n { e.state with pendingMmio := some r.1 } r.2
      | .exit (.mmioWrite a size v) =>
        retry n { e.state with pendingMmioWrite := true } (D.writeAt b a size v)
      | _ => none

/-- The op completes under some number of answers, with one transfer on the bus for each element
at a device. -/
def Served (g : Guest Ext) (b : Bus δ) : Prop :=
  ∃ n g' b', retry D op addr n g b = some (g', b') ∧ b'.log.length = b.log.length +
    ((op.places g addr).filter fun p => g.mem.isDevice p.1 p.2.bytes).length

variable {op}

theorem retry_refused (hasks : op.asks = false) (n : ℕ) (b : Bus δ)
    (hbad : ∃ p ∈ op.places g addr, g.mem.backed p.1 p.2 = false) :
    retry D op addr n g b = none := by
  induction n generalizing g b with
  | zero => rfl
  | succ n ih =>
    obtain ⟨m, rip, res, hregions, hexec⟩ := (op.exec_direct hasks addr).refused hbad
    -- an answer is not among what the next attempt looks at
    have hnext (read : Option U64) (write : Bool) :
        ∃ p ∈ op.places { g with mem := m, rip, pendingMmio := read, pendingMmioWrite := write } addr,
          m.backed p.1 p.2 = false := by
      obtain ⟨p, hp, hfalse⟩ := hbad
      refine ⟨p, ?_, by rw [backed_congr hregions, hfalse]⟩
      cases op <;> exact hp
    rw [retry, hexec]
    dsimp only
    split
    · exact ih _ (hnext _ _)
    · exact ih _ (hnext _ _)
    · rfl

theorem read_cases (m : Memory) (a : U64) (size : Size) :
    (∃ v, m.read a size = .ok v) ∧ m.backed a size = true ∧ m.isDevice a size.bytes = false ∨
      m.read a size = .error .mmio ∧ m.isDevice a size.bytes = true ∨
        m.read a size = .error .unmapped ∧ m.backed a size = false ∧
          m.isDevice a size.bytes = false := by
  unfold Memory.read Memory.backed Memory.isDevice
  cases m.regionFor a.toNat size.bytes with
  | none => simp
  | some r => cases hkind : r.kind <;> simp [hkind]

theorem not_device_of_backed {a : U64} {size : Size} (h : m.backed a size = true) :
    m.isDevice a size.bytes = false := by
  obtain ⟨v, hv⟩ := read_ok_iff.2 h
  rcases read_cases m a size with ⟨-, -, hdev⟩ | ⟨hread, -⟩ | ⟨hread, -⟩
  · exact hdev
  · cases hread.symm.trans hv
  · cases hread.symm.trans hv

theorem served_iff_of_not_asks (hasks : op.asks = false) (g : Guest Ext) (b : Bus δ) :
    Served D op addr g b ↔ ∀ p ∈ op.places g addr, g.mem.backed p.1 p.2 = true := by
  constructor
  · rintro ⟨n, g', b', hdone, -⟩ p hp
    rw [← Bool.not_eq_false]
    intro hbad
    rw [retry_refused D addr hasks n b ⟨p, hp, hbad⟩] at hdone
    cases hdone
  · intro hall
    obtain ⟨g', hg'⟩ := (op.exec_direct hasks addr).completes hall
    refine ⟨1, g', b, by rw [retry, hg'], ?_⟩
    rw [List.filter_eq_nil_iff.2, length_nil, Nat.add_zero]
    intro p hp
    rw [not_device_of_backed (hall p hp)]
    exact Bool.false_ne_true

variable (t : Temp) (elem : Size) (f : Compute)

theorem exec_wide_answered {v : U64} (h : g.pendingMmio = some v) :
    ∃ g', (DirectOp.broadcastWide t elem f).exec g addr = .ok g' := by
  rw [DirectOp.exec, execLoad, h]
  exact ⟨_, rfl⟩

theorem exec_wide_ok {v : U64} (hnone : g.pendingMmio = none)
    (h : g.mem.read (g.readVal addr) elem = .ok v) :
    ∃ g', (DirectOp.broadcastWide t elem f).exec g addr = .ok g' := by
  rw [DirectOp.exec, execLoad, hnone]
  simp only [Guest.loadOr, h]
  exact ⟨_, rfl⟩

theorem exec_wide_error {trap : MemTrap} (hnone : g.pendingMmio = none)
    (h : g.mem.read (g.readVal addr) elem = .error trap) :
    (DirectOp.broadcastWide t elem f).exec g addr =
      .error (g.trapOut trap (g.readVal addr) elem .read 0) := by
  rw [DirectOp.exec, execLoad, hnone]
  simp only [Guest.loadOr, h]
  rfl

theorem served_wide_iff (hnone : g.pendingMmio = none) (b : Bus δ) :
    Served D (.broadcastWide t elem f) addr g b ↔ g.mem.backed (g.readVal addr) elem = true ∨
        g.mem.isDevice (g.readVal addr) elem.bytes = true := by
  unfold Served
  simp only [DirectOp.places, filter_cons]
  rcases read_cases g.mem (g.readVal addr) elem with ⟨⟨v, hread⟩, hbacked, hdev⟩ | ⟨hread, hdev⟩ |
    ⟨hread, hbacked, hdev⟩
  · obtain ⟨g', hg'⟩ := exec_wide_ok addr t elem f hnone hread
    refine iff_of_true ⟨1, g', b, by rw [retry, hg'], ?_⟩ (.inl hbacked)
    rw [hdev]
    rfl
  · -- the answer is there when the load is made again
    let r := D.readAt b (g.readVal addr) elem
    obtain ⟨g', hg'⟩ := exec_wide_answered addr t elem f
      (g := { g with rip := g.curAddr, pendingMmio := some r.1 }) rfl
    refine iff_of_true ⟨2, g', r.2, ?_, ?_⟩ (.inr hdev)
    · rw [retry, exec_wide_error addr t elem f hnone hread]
      change retry D _ addr 1 { g with rip := g.curAddr, pendingMmio := some r.1 } r.2 = _
      rw [retry, hg']
    · rw [hdev]
      exact length_append
  · rw [hbacked, hdev]
    refine iff_of_false ?_ (by decide)
    rintro ⟨n, g', b', hdone, -⟩
    cases n with
    | zero => cases hdone
    | succ n =>
      rw [retry, exec_wide_error addr t elem f hnone hread] at hdone
      cases hdone

section Answers
variable {g' : Guest Ext} {p : Place} {l l' : List Place} {vs : List U64} {v : U64}

/-- The transfers that the next attempt makes without an answer, and their values. -/
def Passes (g : Guest Ext) : List Place → List U64 → Prop :=
  Forall₂ fun p v => vpart g p = .ok (v, g)

theorem Passes.vload_append (h : Passes g l vs) :
    vload (l ++ l') g = (vload l' g).map fun r => (vs ++ r.1, r.2) := by
  induction h with
  | nil => cases hl : vload l' g <;> simp [Except.map, hl]
  | cons hp _ ih =>
    rw [cons_append, vload, hp]
    dsimp only [bind, Except.bind]
    rw [ih]
    cases vload l' g <;> rfl

theorem vpart_again (h : vpart g p = .ok (v, g)) (hnone : g.pendingMmio = none)
    (hmem : g'.mem = g.mem)
    (hpart : mmioPart g'.ext g'.curAddr p.1 = mmioPart g.ext g.curAddr p.1) :
    vpart g' p = .ok (v, g') := by
  unfold vpart at h ⊢
  rw [hpart, hmem]
  split at h
  · cases h
    rfl
  · rw [hnone] at h
    cases hread : g.mem.read p.1 p.2 with
    | ok w =>
      rw [hread] at h
      cases h
      rfl
    | error t =>
      rw [hread] at h
      cases t <;> cases h

theorem Passes.again (h : Passes g l vs) (hnone : g.pendingMmio = none) (hmem : g'.mem = g.mem)
    (hpart : ∀ p ∈ l, mmioPart g'.ext g'.curAddr p.1 = mmioPart g.ext g.curAddr p.1) :
    Passes g' l vs := by
  induction h with
  | nil => exact .nil
  | cons hp _ ih =>
    obtain ⟨hpart₀, hpart⟩ := forall_mem_cons.1 hpart
    exact .cons (vpart_again hp hnone hmem hpart₀) (ih hpart)

/-- The guest that has an answer in its table. -/
def settle (g : Guest Ext) (p : Place) (v : U64) : Guest Ext :=
  { g with rip := g.curAddr, ext := recordMmioPart g.ext g.curAddr p.1 v }

theorem answered_settle (h : mmioPart g.ext g.curAddr p.1 = none)
    (hroom : (answered g.ext g.curAddr).length < 8) :
    answered (settle g p v).ext g.curAddr = answered g.ext g.curAddr ++ [(p.1, v)] := by
  simpa [settle, recordMmioPart, answered, h] using hroom

theorem mmioPart_settle (h : mmioPart g.ext g.curAddr p.1 = none)
    (hroom : (answered g.ext g.curAddr).length < 8) (a : U64) :
    mmioPart (settle g p v).ext g.curAddr a =
      if a = p.1 then some v else mmioPart g.ext g.curAddr a := by
  rw [mmioPart, answered_settle h hroom, lookup_append]
  by_cases ha : a = p.1
  · subst ha
    rw [mmioPart] at h
    simp [h]
  · simp [mmioPart, lookup_cons, beq_false_of_ne ha, ha]

/-- One exit and its answer: the transfer at the device now passes. -/
theorem retry_settle (hplaces : words (g.readVal addr) 2 = l ++ p :: l')
    (hnone : g.pendingMmio = none) (hpass : Passes g l vs)
    (hp : mmioPart g.ext g.curAddr p.1 = none)
    (hroom : (answered g.ext g.curAddr).length < 8) (hne : ∀ q ∈ l, q.1 ≠ p.1)
    (hread : g.mem.read p.1 p.2 = .error .mmio) (b : Bus δ) :
    let r := D.readAt b p.1 p.2
    let g' := settle g p (r.1 &&& mask p.2)
    Passes g' (l ++ [p]) (vs ++ [r.1 &&& mask p.2]) ∧
      ∀ n, retry D (.gfni f) addr (n + 1) g b = retry D (.gfni f) addr n g' r.2 := by
  intro r g'
  let g₁ : Guest Ext := { g with rip := g.curAddr, pendingMmio := some r.1 }
  have hrecord := mmioPart_settle (v := r.1 &&& mask p.2) hp hroom
  have hpart : vpart g' p = .ok (r.1 &&& mask p.2, g') := by
    rw [vpart, show g'.curAddr = g.curAddr from rfl, hrecord, if_pos rfl]
  have hbefore : Passes g' l vs :=
    hpass.again hnone rfl fun q hq => (hrecord q.1).trans (if_neg (hne q hq))
  have hpass' : Passes g' (l ++ [p]) (vs ++ [r.1 &&& mask p.2]) :=
    rel_append hbefore (.cons hpart .nil)
  have hpass₁ : Passes g₁ l vs := hpass.again hnone rfl fun _ _ => rfl
  have hanswer : vpart g₁ p = .ok (r.1 &&& mask p.2, g') := by
    simp only [vpart, g₁, hp, hread]
    rw [← hnone]
    rfl
  have hexec (g₀ : Guest Ext) (h₀ : g₀.readVal addr = g.readVal addr) :
      (DirectOp.gfni f).exec g₀ addr = (vload (l ++ p :: l') g₀).map fun r =>
        { r.2 with ext := { r.2.ext with vec := f r.1 r.2.ext.vec } } := by
    rw [DirectOp.exec, h₀, hplaces]
  -- the attempt with the answer in hand and one with it in the table go on alike
  have hsame : (DirectOp.gfni f).exec g₁ addr = (DirectOp.gfni f).exec g' addr := by
    rw [hexec g₁ (by cases addr <;> rfl), hexec g' (by cases addr <;> rfl),
      hpass₁.vload_append, append_cons, hpass'.vload_append, vload, hanswer]
    dsimp only [bind, Except.bind]
    cases vload l' g' <;> simp [Except.map, pure, Except.pure]
  have hfirst : (DirectOp.gfni f).exec g addr = .error (g.trapOut .mmio p.1 p.2 .read 0) := by
    rw [hexec g rfl, hpass.vload_append, vload, vpart, hp, hread, hnone]
    rfl
  refine ⟨hpass', fun n => ?_⟩
  rw [retry, hfirst]
  change retry D _ addr n g₁ r.2 = _
  cases n with
  | zero => rfl
  | succ n => rw [retry, retry, hsame]

theorem words_nodup (base : U64) : ((words base 2).map Prod.fst).Nodup := by
  simp [words, range_succ]

/-- By induction on the transfers that are still to be made: all of them can be, or one is not
mapped and no attempt completes. -/
theorem retry_passes (hplaces : words (g.readVal addr) 2 = l ++ l')
    (hnone : g.pendingMmio = none) (hpass : Passes g l vs)
    (hfresh : ∀ p ∈ l', mmioPart g.ext g.curAddr p.1 = none)
    (hroom : (answered g.ext g.curAddr).length + l'.length ≤ 8) (b : Bus δ) :
    (∀ p ∈ l', g.mem.backed p.1 p.2 = true ∨ g.mem.isDevice p.1 p.2.bytes = true) ∧
      (∃ n g' b', retry D (.gfni f) addr n g b = some (g', b') ∧ b'.log.length = b.log.length +
        (l'.filter fun p => g.mem.isDevice p.1 p.2.bytes).length) ∨
    (∃ p ∈ l', g.mem.backed p.1 p.2 = false ∧ g.mem.isDevice p.1 p.2.bytes = false) ∧
      ∀ n, retry D (.gfni f) addr n g b = none := by
  induction l' generalizing g b l vs with
  | nil =>
    have hdone : retry D (.gfni f) addr 1 g b =
        some ({ g with ext := { g.ext with vec := f (vs ++ []) g.ext.vec } }, b) := by
      rw [retry, DirectOp.exec, hplaces, hpass.vload_append]
      rfl
    exact .inl ⟨nofun, 1, _, b, hdone, rfl⟩
  | cons p l' ih =>
    obtain ⟨hp, hfresh⟩ := forall_mem_cons.1 hfresh
    rw [length_cons] at hroom
    simp only [forall_mem_cons, exists_mem_cons_iff, filter_cons]
    rcases read_cases g.mem p.1 p.2 with ⟨⟨v, hread⟩, hbacked, hdev⟩ | ⟨hread, hdev⟩ |
      ⟨hread, hbacked, hdev⟩
    · have hpart : vpart g p = .ok (v, g) := by simp only [vpart, hp, hread]
      have hrest := ih (hplaces.trans (append_cons l p l')) hnone
        (rel_append hpass (.cons hpart .nil)) hfresh (by omega) b
      simpa [hbacked, hdev] using hrest
    · have hne : ∀ q ∈ l ++ l', q.1 ≠ p.1 := by
        intro q hq heq
        have hdup := words_nodup (g.readVal addr)
        rw [hplaces, (perm_middle.map Prod.fst).nodup_iff, map_cons, nodup_cons] at hdup
        exact hdup.1 (heq ▸ mem_map_of_mem hq)
      obtain ⟨hpass', hstep⟩ := retry_settle D addr f hplaces hnone hpass hp (by omega)
        (fun q hq => hne q (mem_append_left _ hq)) hread b
      set r := D.readAt b p.1 p.2 with hr
      have hlog : r.2.log.length = b.log.length + 1 := length_append
      have hrecord := mmioPart_settle (v := r.1 &&& mask p.2) hp (by omega)
      have hrest := ih (g := settle g p (r.1 &&& mask p.2))
        ((by cases addr <;> exact hplaces : words _ 2 = l ++ p :: l').trans (append_cons l p l'))
        hnone hpass' (fun q hq => (hrecord q.1).trans
          ((if_neg (hne q (mem_append_right _ hq))).trans (hfresh q hq)))
        (by
          change (answered (settle g p _).ext g.curAddr).length + _ ≤ 8
          rw [answered_settle hp (by omega), length_append, length_singleton]
          omega) r.2
      rcases hrest with ⟨hall, n, g', b', hdone, hcount⟩ | ⟨hbad, hnever⟩
      · refine .inl ⟨⟨.inr hdev, hall⟩, n + 1, g', b', (hstep n).trans hdone, ?_⟩
        rw [if_pos hdev, length_cons, hcount, hlog]
        exact Nat.add_right_comm _ _ _
      · refine .inr ⟨.inr hbad, fun n => ?_⟩
        cases n with
        | zero => rfl
        | succ n => exact (hstep n).trans (hnever n)
    · refine .inr ⟨.inl ⟨hbacked, hdev⟩, fun n => ?_⟩
      cases n with
      | zero => rfl
      | succ n =>
        rw [retry, DirectOp.exec, hplaces, hpass.vload_append, vload, vpart, hp, hread]
        rfl

end Answers

/-- An op whose code goes to memory by itself is served, from a state without answers, exactly if
everything it transfers is plain memory, or if it is one of those that take the embedder's answers
and what is not plain memory is a device. -/
theorem direct_served_iff (g : Guest Ext) (b : Bus δ) (hnone : g.pendingMmio = none)
    (hclean : answered g.ext g.curAddr = []) :
    Served D op addr g b ↔ ∀ p ∈ op.places g addr, g.mem.backed p.1 p.2 = true ∨
      op.asks = true ∧ g.mem.isDevice p.1 p.2.bytes = true := by
  cases hasks : op.asks with
  | false => simp [served_iff_of_not_asks D addr hasks]
  | true =>
    cases op with
    | broadcastWide t elem f => simp [served_wide_iff D addr t elem f hnone, DirectOp.places]
    | gfni f =>
      simp only [true_and]
      have hpass : Passes g [] [] := .nil
      rcases retry_passes D addr f rfl hnone hpass
        (fun p _ => by rw [mmioPart, hclean]; rfl) (by rw [hclean]; exact (by decide : 2 ≤ 8)) b
        with ⟨hall, hdone⟩ | ⟨⟨p, hp, hbad, hdev⟩, hnever⟩
      · exact iff_of_true hdone hall
      · refine iff_of_false ?_ fun hall => ?_
        · rintro ⟨n, g', b', hdone, -⟩
          rw [hnever n] at hdone
          cases hdone
        · have := hall p hp
          simp [hbad, hdev] at this
    | _ => cases hasks

/-- A device that gives zeros and counts what it is asked. -/
def counter : Device ℕ := ⟨fun d _ _ => (0, d + 1), fun d _ _ _ => d + 1⟩

/-- Both halves of the operand are registers of the device. -/
theorem gfni_served : panelGuest.pendingMmio = none ∧
    answered panelGuest.ext panelGuest.curAddr = [] ∧
    (∀ p ∈ (DirectOp.gfni fun _ v => v).places panelGuest (.imm 0x8000),
      panelGuest.mem.isDevice p.1 p.2.bytes = true) ∧
    Served counter (.gfni fun _ v => v) (.imm 0x8000) panelGuest ⟨0, []⟩ :=
  ⟨rfl, rfl, by decide,
    (direct_served_iff _ _ _ _ rfl rfl).2 fun p hp => .inr ⟨rfl, by revert p hp; decide⟩⟩

/-- A broadcast of up to 32 bytes asks for the same register after every answer. -/
theorem broadcast_never_completes :
    panelGuest.mem.isDevice 0x8000 4 = true ∧ ∀ (f : Compute) (n : ℕ) (b : Bus ℕ),
      retry counter (.broadcast .b4 f) (.imm 0x8000) n panelGuest b = none :=
  ⟨by decide, fun _ n b => retry_refused _ _ rfl n b ⟨_, mem_singleton_self _, by decide⟩⟩

end X86Jit.Run
