import Mathlib.Data.List.Pairwise
import X86Jit.Interp.State

/-! Histories of `map` and `unmap`: guest memory over its host buffer, with the index the
lookup remembers and the guard pages of the host mapping. -/
namespace X86Jit
open Memory

def Region.contains (r : Region) (addr size : ℕ) : Bool := r.start ≤ addr && addr + size ≤ r.stop

theorem Region.contains_iff {r : Region} {addr size : ℕ} :
    r.contains addr size = true ↔ r.start ≤ addr ∧ addr + size ≤ r.stop := by
  rw [Region.contains, Bool.and_eq_true, decide_eq_true_eq, decide_eq_true_eq]

def Region.Apart (r r' : Region) : Prop := r.stop ≤ r'.start ∨ r'.stop ≤ r.start

theorem Region.Apart.symm {r r' : Region} (h : r.Apart r') : r'.Apart r := Or.symm h

theorem Region.Apart.not_contains {r r' : Region} {addr size : ℕ} (h : r.Apart r')
    (hsize : size ≠ 0) (hr : r.contains addr size = true) : ¬r'.contains addr size = true := by
  intro hr'
  rw [contains_iff] at hr hr'
  rcases h with h | h
  · omega
  · omega

/-- The host buffer behind guest memory, within the bounds the constructors assert. `hook` says
whether the embedder installed a protection hook. -/
structure HostRam where
  span : ℕ
  guestBase : ℕ
  len : ℕ
  hook : Bool
  base_le : guestBase ≤ span
  extent_le : span - guestBase ≤ len
  tracked_le : guestBase + len ≤ maxTrackedSpan

theorem HostRam.span_le (ram : HostRam) : ram.span ≤ maxTrackedSpan := by
  have h := ram.extent_le
  have h' := ram.tracked_le
  omega

/-- `lastRegion` is the index `region_at` hit last; `opened` are the pages the host mapping lets
through. -/
structure Space where
  ram : HostRam
  mem : Memory
  span_eq : mem.span = ram.span
  base_eq : mem.guestBase = ram.guestBase
  lastRegion : ℕ
  opened : ℕ → Bool

def hostPage : ℕ := 4096

namespace Memory

def regionAt (m : Memory) (hint addr size : ℕ) : Except MemTrap Region × ℕ :=
  if 2 ^ 64 ≤ addr + size then (.error .unmapped, hint) else
  match (m.regions[hint]?).filter fun r => r.contains addr size with
  | some r => (.ok r, hint)
  | none =>
    match m.regions.findIdx? fun r => r.contains addr size with
    | some i => ((m.regions[i]?).elim (.error .unmapped) .ok, i)
    | none => (.error .unmapped, hint)

def search (m : Memory) (addr size : ℕ) : Except MemTrap Region :=
  (m.regions.find? fun r => r.contains addr size).elim (.error .unmapped) .ok

end Memory

namespace Space

def boot (ram : HostRam) : Space :=
  { ram, mem := fresh ram.span ram.guestBase ram.span_le, span_eq := rfl, base_eq := rfl,
    lastRegion := 0, opened := fun _ => false }

/-- The hook on `[off, off + len)` of the buffer: the host protects whole pages. -/
def protect (s : Space) (off len : ℕ) (accessible : Bool) : Space :=
  if s.ram.hook then
    { s with
      opened := fun p =>
        if off < (p + 1) * hostPage ∧ p * hostPage < off + len then accessible else s.opened p }
  else s

/-- A surviving region overlaps the page at offset `page`, which ends at `pend`. -/
def shared (s : Space) (page pend : ℕ) : Bool :=
  s.mem.regions.any fun r =>
    decide (r.start - s.ram.guestBase < pend) && decide (page < r.stop - s.ram.guestBase)

def closePage (s : Space) (page : ℕ) : Space :=
  let pend := min ((page + 1) * hostPage) s.ram.len
  if !s.shared (page * hostPage) pend ∧ page * hostPage < pend then
    s.protect (page * hostPage) (pend - page * hostPage) false
  else s

def reprotect (s : Space) (start size : ℕ) (accessible : Bool) : Space :=
  let cap := s.ram.len
  let ostart := start - s.ram.guestBase
  let oend := min (start + size - s.ram.guestBase) cap
  let lo := ostart / hostPage * hostPage
  let hi := (oend + (hostPage - 1)) / hostPage * hostPage
  if hi ≤ lo then s
  else if accessible then s.protect lo (min hi cap - lo) true
  else (List.range' (lo / hostPage) (hi / hostPage - lo / hostPage)).foldl closePage s

def withMem (s : Space) (m : Memory) (h : m.span = s.mem.span ∧ m.guestBase = s.mem.guestBase) :
    Space :=
  { s with mem := m, span_eq := h.1.trans s.span_eq, base_eq := h.2.trans s.base_eq }

end Space

namespace Memory

theorem map_inv {m m' : Memory} {addr size : ℕ} {kind : RegionKind}
    (h : m.map addr size kind = .ok m') : m.guestBase ≤ addr ∧ addr + size ≤ m.span ∧
      (∀ r ∈ m.regions, r.Apart ⟨addr, size, kind⟩) ∧
      m'.regions = m.regions ++ [⟨addr, size, kind⟩] ∧
      m'.span = m.span ∧ m'.guestBase = m.guestBase ∧ m'.bytes = m.bytes := by
  unfold map at h
  split at h
  case isTrue => cases h
  case isFalse hbase =>
  split at h
  case isTrue => cases h
  case isFalse hspan =>
  split at h
  case isTrue => cases h
  case isFalse hover =>
  cases h
  refine ⟨not_lt.mp hbase, not_lt.mp hspan, ?_, rfl, rfl, rfl, rfl⟩
  intro r hr
  rw [Bool.not_eq_true, List.any_eq_false] at hover
  have hnot := hover r hr
  simp only [Bool.and_eq_true, decide_eq_true_eq, not_and, not_lt] at hnot
  rcases Nat.lt_or_ge addr r.stop with hlt | hge
  · exact Or.inr (hnot hlt)
  · exact Or.inl hge

theorem unmap_inv {m m' : Memory} {addr size : ℕ} (h : m.unmap addr size = .ok m') :
    m'.regions = m.regions.eraseP (fun r => r.start == addr && r.size == size) ∧
      m'.span = m.span ∧ m'.guestBase = m.guestBase ∧ m'.bytes = m.bytes := by
  unfold unmap at h
  split at h
  case isTrue =>
    cases h
    exact ⟨rfl, rfl, rfl, rfl⟩
  case isFalse => cases h

theorem map_bounds {m m' : Memory} {addr size : ℕ} {kind : RegionKind}
    (h : m.map addr size kind = .ok m') : m'.span = m.span ∧ m'.guestBase = m.guestBase :=
  ⟨(map_inv h).2.2.2.2.1, (map_inv h).2.2.2.2.2.1⟩

theorem unmap_bounds {m m' : Memory} {addr size : ℕ} (h : m.unmap addr size = .ok m') :
    m'.span = m.span ∧ m'.guestBase = m.guestBase :=
  ⟨(unmap_inv h).2.1, (unmap_inv h).2.2.1⟩

theorem noteWrite_guestBase (m : Memory) (addr len : ℕ) :
    (m.noteWrite addr len).guestBase = m.guestBase := by
  have hpage (m : Memory) (page : ℕ) : (m.notePage page).guestBase = m.guestBase := by
    rw [notePage, noteWatch, noteCode]
    split <;> split <;> rfl
  unfold noteWrite
  generalize codePageRange addr len = pages
  induction pages generalizing m with
  | nil => rfl
  | cons page pages ih => exact (ih (m.notePage page)).trans (hpage m page)

end Memory

namespace Space

inductive Call
  | map (addr size : ℕ) (kind : RegionKind)
  | unmap (addr size : ℕ)

variable (s : Space)

def map (addr size : ℕ) (kind : RegionKind) : Except MapError Unit × Space :=
  match h : s.mem.map addr size kind with
  | .error e => (.error e, s)
  | .ok m => (.ok (), (s.withMem m (map_bounds h)).reprotect addr size true)

def unmap (addr size : ℕ) : Except MapError Unit × Space :=
  match h : s.mem.unmap addr size with
  | .error e => (.error e, s)
  | .ok m => (.ok (), (s.withMem m (unmap_bounds h)).reprotect addr size false)

def call : Call → Except MapError Unit × Space
  | .map addr size kind => s.map addr size kind
  | .unmap addr size => s.unmap addr size

def lookup (addr size : ℕ) : Except MemTrap Region × Space :=
  let found := s.mem.regionAt s.lastRegion addr size
  (found.1, { s with lastRegion := found.2 })

def store (addr : ℕ) (bs : List U8) : Space :=
  s.withMem ((s.mem.setBytes addr bs).noteWrite addr bs.length)
    ⟨(noteWrite_sameTags _ _ _).span, noteWrite_guestBase _ _ _⟩

def read (addr : U64) (size : Size) : Except MemTrap U64 × Space :=
  let found := s.lookup addr.toNat size.bytes
  match found.1 with
  | .error t => (.error t, found.2)
  | .ok r =>
    match r.kind with
    | .trap => (.error .mmio, found.2)
    | _ => (.ok (s.mem.loadLe addr.toNat size.bytes), found.2)

def write (addr val : U64) (size : Size) : Except MemTrap Unit × Space :=
  let found := s.lookup addr.toNat size.bytes
  match found.1 with
  | .error t => (.error t, found.2)
  | .ok r =>
    match r.kind with
    | .trap => (.error .mmio, found.2)
    | .rom => (.ok (), found.2)
    | .ram => (.ok (), found.2.store addr.toNat (leBytes val size.bytes))

def writeBytes (addr : ℕ) (bs : List U8) : Except MemTrap Unit × Space :=
  match s.mem.regionFor addr bs.length with
  | none => (.error .unmapped, s)
  | some _ => (.ok (), s.store addr bs)

inductive Action
  | call (c : Call)
  | read (addr : U64) (size : Size)
  | write (addr val : U64) (size : Size)
  | writeBytes (addr : ℕ) (bs : List U8)

def act : Action → Space
  | .call c => (s.call c).2
  | .read addr size => (s.read addr size).2
  | .write addr val size => (s.write addr val size).2
  | .writeBytes addr bs => (s.writeBytes addr bs).2

def after (ram : HostRam) (history : List Action) : Space := history.foldl act (boot ram)

@[simp] theorem withMem_mem (m : Memory) (h) : (s.withMem m h).mem = m := rfl

@[simp] theorem protect_mem (off len : ℕ) (accessible : Bool) :
    (s.protect off len accessible).mem = s.mem := by
  unfold protect
  split <;> rfl

@[simp] theorem protect_ram (off len : ℕ) (accessible : Bool) :
    (s.protect off len accessible).ram = s.ram := by
  unfold protect
  split <;> rfl

@[simp] theorem closePage_mem (page : ℕ) : (s.closePage page).mem = s.mem := by
  unfold closePage
  dsimp only
  split
  · exact protect_mem _ _ _ _
  · rfl

@[simp] theorem closePage_ram (page : ℕ) : (s.closePage page).ram = s.ram := by
  unfold closePage
  dsimp only
  split
  · exact protect_ram _ _ _ _
  · rfl

theorem closePages_keep (pages : List ℕ) :
    (pages.foldl closePage s).mem = s.mem ∧ (pages.foldl closePage s).ram = s.ram := by
  induction pages generalizing s with
  | nil => exact ⟨rfl, rfl⟩
  | cons page pages ih =>
    have h := ih (s.closePage page)
    exact ⟨h.1.trans (closePage_mem s page), h.2.trans (closePage_ram s page)⟩

theorem reprotect_keep (start size : ℕ) (accessible : Bool) :
    (s.reprotect start size accessible).mem = s.mem ∧
      (s.reprotect start size accessible).ram = s.ram := by
  unfold reprotect
  dsimp only
  split
  · exact ⟨rfl, rfl⟩
  · split
    · exact ⟨protect_mem _ _ _ _, protect_ram _ _ _ _⟩
    · exact closePages_keep s _

theorem call_cases (c : Call) : (∃ e, s.call c = (.error e, s)) ∨
    (∃ addr size kind m h, c = .map addr size kind ∧ s.mem.map addr size kind = .ok m ∧
      s.call c = (.ok (), (s.withMem m h).reprotect addr size true)) ∨
    (∃ addr size m h, c = .unmap addr size ∧ s.mem.unmap addr size = .ok m ∧
      s.call c = (.ok (), (s.withMem m h).reprotect addr size false)) := by
  cases c with
  | map addr size kind =>
    unfold call map
    dsimp only
    split
    case h_1 e h => exact Or.inl ⟨e, rfl⟩
    case h_2 m h => exact Or.inr (Or.inl ⟨addr, size, kind, m, map_bounds h, rfl, h, rfl⟩)
  | unmap addr size =>
    unfold call unmap
    dsimp only
    split
    case h_1 e h => exact Or.inl ⟨e, rfl⟩
    case h_2 m h => exact Or.inr (Or.inr ⟨addr, size, m, unmap_bounds h, rfl, h, rfl⟩)

end Space
end X86Jit
