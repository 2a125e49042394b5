import Mathlib.Data.Finset.Basic
import Mathlib.Tactic.Tauto
import X86Jit.Core.Flags
import X86Jit.Lib.Pages

/-! Guest memory: regions, bytes, and the page tables that track writes. Guest addresses are
natural numbers below `2 ^ 64`; page indices are raw guest page numbers. -/
namespace X86Jit
open X86Jit.Lib List

def codePageBits : ℕ := 12
def codePageSize : ℕ := 4096

def maxTrackedSpan : ℕ := (2 ^ 32 - 1) * codePageSize

/-- The pages an access touches. An empty one names the page it starts on, and none wraps at the
top. -/
def codePageRange (addr len : ℕ) : List ℕ :=
  pagesBetween codePageSize addr (min (addr + (max len 1 - 1)) (2 ^ 64 - 1))

/-- Stores to a `rom` are discarded, any access to a `trap` region leaves the block. -/
inductive RegionKind
  | ram
  | trap
  | rom
  deriving DecidableEq, Repr

structure Region where
  start : ℕ
  size : ℕ
  kind : RegionKind
  deriving DecidableEq, Repr

def Region.stop (r : Region) : ℕ := r.start + r.size

inductive MapError
  | outOfBounds
  | overlap
  deriving DecidableEq, Repr

inductive MemTrap
  | unmapped
  | mmio
  deriving DecidableEq, Repr

/-- `codePage` are the pages tagged as backing a translated block, `codeRange` is the packed
watermark over every page ever tagged. The dirty flag of the code is `dirty ≠ []`. The constructor
bounds the span and `map` keeps every region inside it. -/
structure Memory where
  span : ℕ
  span_le : span ≤ maxTrackedSpan
  guestBase : ℕ
  regions : List Region
  regions_le : ∀ r ∈ regions, r.stop ≤ span
  bytes : ℕ → U8
  codePage : Finset ℕ
  codeRange : U64
  dirty : List ℕ
  watched : Finset ℕ
  watchDirty : Finset ℕ

namespace Memory

variable (m : Memory)

/-- Pages with a bit in the tables, which are allocated in words of 64. -/
def tablePages : ℕ := ((m.span + 4095) / 4096 + 63) / 64 * 64

def fresh (span guestBase : ℕ) (span_le : span ≤ maxTrackedSpan) : Memory :=
  { span, span_le, guestBase, regions := [], regions_le := by simp, bytes := fun _ => 0, codePage := ∅, codeRange := 0,
    dirty := [], watched := ∅, watchDirty := ∅ }

/-- One pass of the widening loop. The stored `lo` is one page below the lowest page recorded. -/
def widenCodeRange (cur p : U64) : U64 :=
  let lo := cur >>> 32
  let len := cur &&& 0xffffffff
  if len ≠ 0 ∧ (p - lo).ult len then cur else
  let want : U64 × U64 := if len = 0 then (p, p) else (lo + 1, lo + len - 1)
  let newLo := if want.1.ult p then want.1 else p
  let newHi := if want.2.ult p then p else want.2
  ((if newLo = 0 then 0 else newLo - 1) <<< 32) ||| (newHi - newLo + 2)

variable (page : ℕ)

def markPage : Memory :=
  if page < m.tablePages then
    { m with
      codePage := insert page m.codePage
      codeRange := widenCodeRange m.codeRange (BitVec.ofNat 64 page) }
  else m

def markCode (addr len : ℕ) : Memory := (codePageRange addr len).foldl markPage m

def isCodePage : Bool := page ∈ m.codePage

def clearCodePage : Memory := { m with codePage := m.codePage.erase page }

def clearAllCodePages : Memory := { m with codePage := ∅ }

def watchCount : ℕ := m.watched.card

def noteCode : Memory :=
  if page ∈ m.codePage then { m with dirty := m.dirty ++ [page] } else m

def noteWatch : Memory :=
  if m.watchCount ≠ 0 ∧ page ∈ m.watched then
    { m with watchDirty := insert page m.watchDirty } else m

def notePage : Memory := (m.noteCode page).noteWatch page

def noteWrite (addr len : ℕ) : Memory := (codePageRange addr len).foldl notePage m

def hasDirtyCode : Bool := !m.dirty.isEmpty

/-- Map a region. The end of the region is bounded by the span, and so does not wrap. -/
def map (addr size : ℕ) (kind : RegionKind) : Except MapError Memory :=
  if addr < m.guestBase then .error .outOfBounds
  else if h : m.span < addr + size then .error .outOfBounds
  else if m.regions.any (fun r => addr < r.stop && r.start < addr + size) then .error .overlap
  else .ok
    { m with
      regions := m.regions ++ [⟨addr, size, kind⟩]
      regions_le := by
        intro r hr
        rcases List.mem_append.mp hr with hr | hr
        · exact m.regions_le r hr
        · rw [List.mem_singleton.mp hr]
          exact not_lt.mp h }

/-- Drop the first region with exactly this start and size. The bytes stay. -/
def unmap (addr size : ℕ) : Except MapError Memory :=
  if m.regions.any (fun r => r.start == addr && r.size == size) then .ok
    { m with
      regions := m.regions.eraseP fun r => r.start == addr && r.size == size
      regions_le := fun r hr => m.regions_le r (mem_of_mem_eraseP hr) }
  else .error .outOfBounds

def regionFor (addr len : ℕ) : Option Region :=
  m.regions.find? fun r => r.start ≤ addr && addr + len ≤ r.stop

def setBytes (addr : ℕ) (bs : List U8) : Memory :=
  { m with
    bytes := fun a => if addr ≤ a ∧ a < addr + bs.length then bs.getD (a - addr) 0 else m.bytes a }

/-- The embedder's write, which looks only at whether the range is mapped. -/
def writeBytes (addr : ℕ) (bs : List U8) : Except MemTrap Memory :=
  match m.regionFor addr bs.length with
  | none => .error .unmapped
  | some _ => .ok ((m.setBytes addr bs).noteWrite addr bs.length)

def leBytes (val : U64) (size : ℕ) : List U8 :=
  (range size).map fun i => (val >>> (8 * i)).setWidth 8

def write (addr : ℕ) (val : U64) (size : ℕ) : Except MemTrap Memory :=
  match m.regionFor addr size with
  | none => .error .unmapped
  | some r =>
    match r.kind with
    | .trap => .error .mmio
    | .rom => .ok m
    | .ram => .ok ((m.setBytes addr (leBytes val size)).noteWrite addr size)

def codeSlice (addr maxLen : ℕ) : Option (List U8) :=
  (m.regions.find? fun r => r.start ≤ addr && addr < r.stop).map fun r =>
    (range (min (addr + maxLen) r.stop - addr)).map fun i => m.bytes (addr + i)

def takeDirtyCode : List ℕ × Memory := (m.dirty, { m with dirty := [] })

/-- Two memories with the same contents, mapping and pending writes: tags and watermark
may differ. -/
structure SameContents (m m' : Memory) : Prop where
  bytes : m'.bytes = m.bytes
  regions : m'.regions = m.regions
  span : m'.span = m.span
  dirty : m'.dirty = m.dirty

theorem SameContents.refl : SameContents m m := ⟨rfl, rfl, rfl, rfl⟩

theorem SameContents.trans {m₁ m₂ m₃ : Memory} (h : SameContents m₁ m₂)
    (h' : SameContents m₂ m₃) : SameContents m₁ m₃ :=
  ⟨h'.bytes.trans h.bytes, h'.regions.trans h.regions, h'.span.trans h.span,
    h'.dirty.trans h.dirty⟩

theorem SameContents.tablePages {m m' : Memory} (h : SameContents m m') :
    m'.tablePages = m.tablePages := by
  rw [Memory.tablePages, h.span, Memory.tablePages]

theorem markPage_sameContents : SameContents m (m.markPage page) := by
  unfold markPage
  split
  · exact ⟨rfl, rfl, rfl, rfl⟩
  · exact SameContents.refl m

variable {p : ℕ}

theorem mem_codePage_markPage {m : Memory} {page : ℕ} :
    p ∈ (m.markPage page).codePage ↔ p ∈ m.codePage ∨ (p = page ∧ p < m.tablePages) := by
  unfold markPage
  split
  · rw [Finset.mem_insert]
    constructor
    · rintro (rfl | h)
      · exact Or.inr ⟨rfl, ‹_›⟩
      · exact Or.inl h
    · rintro (h | ⟨rfl, -⟩)
      · exact Or.inr h
      · exact Or.inl rfl
  · constructor
    · exact Or.inl
    · rintro (h | ⟨rfl, h⟩)
      · exact h
      · contradiction

theorem markPages_sameContents (ps : List ℕ) : SameContents m (ps.foldl markPage m) := by
  induction ps generalizing m with
  | nil => exact SameContents.refl m
  | cons page ps ih => exact (markPage_sameContents m page).trans (ih _)

theorem mem_codePage_markPages {m : Memory} {ps : List ℕ} :
    p ∈ (ps.foldl markPage m).codePage ↔ p ∈ m.codePage ∨ (p ∈ ps ∧ p < m.tablePages) := by
  induction ps generalizing m with
  | nil => simp
  | cons page ps ih =>
    rw [foldl_cons, ih, mem_codePage_markPage, (markPage_sameContents m page).tablePages,
      mem_cons]
    tauto

theorem markCode_sameContents (addr len : ℕ) : SameContents m (m.markCode addr len) :=
  markPages_sameContents m _

variable {addr len : ℕ}

theorem mem_codePage_markCode {m : Memory} : p ∈ (m.markCode addr len).codePage ↔
      p ∈ m.codePage ∨ (p ∈ codePageRange addr len ∧ p < m.tablePages) :=
  mem_codePage_markPages

structure SameTags (m m' : Memory) : Prop where
  bytes : m'.bytes = m.bytes
  regions : m'.regions = m.regions
  span : m'.span = m.span
  codePage : m'.codePage = m.codePage

theorem SameTags.trans {m₁ m₂ m₃ : Memory} (h : SameTags m₁ m₂) (h' : SameTags m₂ m₃) :
    SameTags m₁ m₃ :=
  ⟨h'.bytes.trans h.bytes, h'.regions.trans h.regions, h'.span.trans h.span,
    h'.codePage.trans h.codePage⟩

theorem notePage_sameTags : SameTags m (m.notePage page) := by
  have hcode : SameTags m (m.noteCode page) := by
    unfold noteCode
    split <;> exact ⟨rfl, rfl, rfl, rfl⟩
  refine hcode.trans ?_
  rw [notePage, noteWatch]
  split <;> exact ⟨rfl, rfl, rfl, rfl⟩

theorem mem_dirty_notePage {m : Memory} {page : ℕ} :
    p ∈ (m.notePage page).dirty ↔ p ∈ m.dirty ∨ (p = page ∧ p ∈ m.codePage) := by
  have hwatch : (m.notePage page).dirty = (m.noteCode page).dirty := by
    rw [notePage, noteWatch]
    split <;> rfl
  rw [hwatch, noteCode]
  split
  · rw [mem_append, mem_singleton]
    constructor
    · rintro (h | rfl)
      · exact Or.inl h
      · exact Or.inr ⟨rfl, ‹_›⟩
    · rintro (h | ⟨rfl, -⟩)
      · exact Or.inl h
      · exact Or.inr rfl
  · constructor
    · exact Or.inl
    · rintro (h | ⟨rfl, h⟩)
      · exact h
      · contradiction

theorem notePages_spec (ps : List ℕ) : SameTags m (ps.foldl notePage m) ∧
      ∀ p, p ∈ (ps.foldl notePage m).dirty ↔ p ∈ m.dirty ∨ (p ∈ ps ∧ p ∈ m.codePage) := by
  induction ps generalizing m with
  | nil => exact ⟨⟨rfl, rfl, rfl, rfl⟩, by simp⟩
  | cons page ps ih =>
    obtain ⟨htags, hdirty⟩ := ih (m.notePage page)
    have h1 := notePage_sameTags m page
    refine ⟨h1.trans htags, ?_⟩
    intro p
    rw [foldl_cons, hdirty, mem_dirty_notePage, h1.codePage, mem_cons]
    tauto

theorem noteWrite_sameTags (addr len : ℕ) : SameTags m (m.noteWrite addr len) :=
  (notePages_spec m _).1

theorem mem_dirty_noteWrite {m : Memory} : p ∈ (m.noteWrite addr len).dirty ↔
      p ∈ m.dirty ∨ (p ∈ codePageRange addr len ∧ p ∈ m.codePage) :=
  (notePages_spec m _).2 p

theorem notePage_watch : (m.notePage page).watched = m.watched ∧
      ∀ p, p ∈ (m.notePage page).watchDirty ↔ p ∈ m.watchDirty ∨ (p = page ∧ p ∈ m.watched) := by
  have hcode : (m.noteCode page).watched = m.watched ∧
      (m.noteCode page).watchDirty = m.watchDirty := by
    unfold noteCode
    split <;> exact ⟨rfl, rfl⟩
  rw [← hcode.1, ← hcode.2, notePage, noteWatch]
  split
  case isTrue h =>
    refine ⟨rfl, ?_⟩
    intro p
    rw [Finset.mem_insert]
    constructor
    · rintro (rfl | hp)
      · exact Or.inr ⟨rfl, h.2⟩
      · exact Or.inl hp
    · rintro (hp | ⟨rfl, -⟩)
      · exact Or.inr hp
      · exact Or.inl rfl
  case isFalse h =>
    refine ⟨rfl, ?_⟩
    intro p
    constructor
    · exact Or.inl
    · rintro (hp | ⟨rfl, hw⟩)
      · exact hp
      · exact absurd ⟨Finset.card_ne_zero_of_mem hw, hw⟩ h

theorem notePages_watch (ps : List ℕ) : (ps.foldl notePage m).watched = m.watched ∧
      ∀ p, p ∈ (ps.foldl notePage m).watchDirty ↔ p ∈ m.watchDirty ∨ (p ∈ ps ∧ p ∈ m.watched) := by
  induction ps generalizing m with
  | nil => exact ⟨rfl, by simp⟩
  | cons page ps ih =>
    obtain ⟨hw, hd⟩ := ih (m.notePage page)
    have h1 := notePage_watch m page
    refine ⟨hw.trans h1.1, ?_⟩
    intro p
    rw [foldl_cons, hd, h1.1, h1.2, mem_cons]
    tauto

theorem watched_noteWrite (addr len : ℕ) : (m.noteWrite addr len).watched = m.watched :=
  (notePages_watch m _).1

theorem mem_watchDirty_noteWrite {m : Memory} : p ∈ (m.noteWrite addr len).watchDirty ↔
      p ∈ m.watchDirty ∨ (p ∈ codePageRange addr len ∧ p ∈ m.watched) :=
  (notePages_watch m _).2 p

/-- Bytes change only in the range of a write, and every tagged page it changed is dirty afterwards.
-/
structure Wrote (m m' : Memory) (addr len : ℕ) : Prop where
  regions : m'.regions = m.regions
  span : m'.span = m.span
  codePage : m'.codePage = m.codePage
  dirty : ∀ p ∈ m.dirty, p ∈ m'.dirty
  frame : ∀ b, ¬(addr ≤ b ∧ b < addr + len) → m'.bytes b = m.bytes b
  noted : ∀ b, m'.bytes b ≠ m.bytes b → b / codePageSize ∈ m.codePage →
    b / codePageSize ∈ m'.dirty

theorem Wrote.refl (addr len : ℕ) : Wrote m m addr len :=
  ⟨rfl, rfl, rfl, fun _ h => h, fun _ _ => rfl, fun _ h => absurd rfl h⟩

theorem regionFor_bounds {m : Memory} {r : Region} (h : m.regionFor addr len = some r) :
    r ∈ m.regions ∧ r.start ≤ addr ∧ addr + len ≤ r.stop := by
  have hp := List.find?_some h
  simp only [Bool.and_eq_true, decide_eq_true_eq] at hp
  exact ⟨List.mem_of_find?_eq_some h, hp⟩

theorem mem_codePageRange_of_byte {b : ℕ} (hspan : addr + len ≤ maxTrackedSpan)
    (hb : addr ≤ b) (hb' : b < addr + len) : b / codePageSize ∈ codePageRange addr len := by
  have hlast : min (addr + (max len 1 - 1)) (2 ^ 64 - 1) = addr + (len - 1) := by
    unfold maxTrackedSpan codePageSize at hspan
    omega
  rw [codePageRange, mem_pagesBetween]
  exact ⟨Nat.div_le_div_right hb, Nat.div_le_div_right (by omega)⟩

theorem wrote_of_regionFor {m : Memory} {bs : List U8} {r : Region}
    (h : m.regionFor addr bs.length = some r) :
    Wrote m ((m.setBytes addr bs).noteWrite addr bs.length) addr bs.length := by
  obtain ⟨hmem, -, hstop⟩ := regionFor_bounds h
  have hspan := (m.regions_le r hmem).trans m.span_le
  have htags := noteWrite_sameTags (m.setBytes addr bs) addr bs.length
  have hframe : ∀ b, ¬(addr ≤ b ∧ b < addr + bs.length) →
      ((m.setBytes addr bs).noteWrite addr bs.length).bytes b = m.bytes b := by
    intro b hb
    rw [htags.bytes]
    exact if_neg hb
  refine ⟨htags.regions, htags.span, htags.codePage, ?_, hframe, ?_⟩
  · intro p hp
    exact mem_dirty_noteWrite.mpr (Or.inl hp)
  · intro b hne hcode
    have hin : addr ≤ b ∧ b < addr + bs.length := by
      by_contra hout
      exact hne (hframe b hout)
    apply mem_dirty_noteWrite.mpr
    exact Or.inr ⟨mem_codePageRange_of_byte (hstop.trans hspan) hin.1 hin.2, hcode⟩

theorem writeBytes_wrote {m m' : Memory} {bs : List U8}
    (h : m.writeBytes addr bs = .ok m') : Wrote m m' addr bs.length := by
  unfold writeBytes at h
  cases hr : m.regionFor addr bs.length with
  | none => simp [hr] at h
  | some r =>
    simp only [hr, Except.ok.injEq] at h
    rw [← h]
    exact wrote_of_regionFor hr

theorem length_leBytes (val : U64) (size : ℕ) : (leBytes val size).length = size := by
  simp [leBytes]

variable {size : ℕ}

theorem write_wrote {m m' : Memory} {val : U64}
    (h : m.write addr val size = .ok m') : Wrote m m' addr size := by
  unfold write at h
  cases hr : m.regionFor addr size with
  | none => simp [hr] at h
  | some r =>
    cases hk : r.kind with
    | trap => simp [hr, hk] at h
    | rom =>
      simp only [hr, hk, Except.ok.injEq] at h
      rw [← h]
      exact Wrote.refl m addr size
    | ram =>
      simp only [hr, hk, Except.ok.injEq] at h
      have hlen := length_leBytes val size
      rw [← h]
      rw [← hlen] at hr
      have hw := wrote_of_regionFor hr
      rwa [hlen] at hw

def Mapped (b : ℕ) : Prop := ∃ r ∈ m.regions, r.start ≤ b ∧ b < r.stop

structure Remapped (m m' : Memory) : Prop where
  bytes : m'.bytes = m.bytes
  span : m'.span = m.span
  codePage : m'.codePage = m.codePage
  dirty : m'.dirty = m.dirty

theorem map_spec {m m' : Memory} {kind : RegionKind} (h : m.map addr size kind = .ok m') :
    Remapped m m' ∧ ∀ b, m.Mapped b → m'.Mapped b := by
  unfold map at h
  split at h
  · cases h
  split at h
  · cases h
  split at h
  · cases h
  cases h
  refine ⟨⟨rfl, rfl, rfl, rfl⟩, ?_⟩
  intro b ⟨r, hr, hb⟩
  exact ⟨r, mem_append_left _ hr, hb⟩

theorem unmap_spec {m m' : Memory} (h : m.unmap addr size = .ok m') :
    Remapped m m' ∧ addr + size ≤ m.span ∧
      ∀ b, m.Mapped b → ¬(addr ≤ b ∧ b < addr + size) → m'.Mapped b := by
  unfold unmap at h
  split at h
  · cases h
    rename_i hany
    refine ⟨⟨rfl, rfl, rfl, rfl⟩, ?_, ?_⟩
    · obtain ⟨r, hr, hp⟩ := List.any_eq_true.mp hany
      simp only [Bool.and_eq_true, beq_iff_eq] at hp
      have := m.regions_le r hr
      rwa [Region.stop, hp.1, hp.2] at this
    · intro b ⟨r, hr, hb⟩ hout
      refine ⟨r, (mem_eraseP_of_neg ?_).mpr hr, hb⟩
      intro hp
      simp only [Bool.and_eq_true, beq_iff_eq] at hp
      rw [Region.stop, hp.1, hp.2] at hb
      exact hout hb
  · cases h

theorem clearPages_sameContents (ps : List ℕ) : SameContents m (ps.foldl clearCodePage m) := by
  induction ps generalizing m with
  | nil => exact SameContents.refl m
  | cons page ps ih =>
    have hone : SameContents m (m.clearCodePage page) := ⟨rfl, rfl, rfl, rfl⟩
    exact hone.trans (ih _)

theorem mem_codePage_clearPages {m : Memory} {ps : List ℕ} :
    p ∈ (ps.foldl clearCodePage m).codePage ↔ p ∈ m.codePage ∧ p ∉ ps := by
  induction ps generalizing m with
  | nil => simp
  | cons page ps ih =>
    rw [foldl_cons, ih, clearCodePage, Finset.mem_erase, mem_cons]
    tauto

theorem codeSlice_spec {m : Memory} {maxLen : ℕ} {code : List U8}
    (h : m.codeSlice addr maxLen = some code) :
    (∃ r ∈ m.regions, r.start ≤ addr ∧ addr + code.length ≤ r.stop) ∧
      ∀ i (hi : i < code.length), code[i] = m.bytes (addr + i) := by
  obtain ⟨r, hr, rfl⟩ := Option.map_eq_some_iff.mp h
  have hp := List.find?_some hr
  simp only [Bool.and_eq_true, decide_eq_true_eq] at hp
  refine ⟨⟨r, List.mem_of_find?_eq_some hr, hp.1, ?_⟩, ?_⟩
  · rw [length_map, length_range]
    omega
  · intro i hi
    simp

end Memory

/-- The test a compiled store makes on the watermark with the address of its first byte. -/
def codeGate (codeRange : U64) (addr : U64) : Bool :=
  ((addr >>> codePageBits) - (codeRange >>> 32)).ult (codeRange &&& 0xffffffff)

end X86Jit
