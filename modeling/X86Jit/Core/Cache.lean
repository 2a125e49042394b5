import Mathlib.Data.Finset.SDiff
import Mathlib.Data.List.Pairwise
import X86Jit.Core.Memory

/-! The shared translation cache: units keyed by fetch address and mode, the guest byte
ranges each of them was lifted from, and the invalidation epoch. -/
namespace X86Jit
open X86Jit.Lib List

inductive CpuMode
  | long64
  | compat32
  | real16
  deriving DecidableEq, Repr

structure BlockKey where
  guestAddr : ℕ
  mode : CpuMode
  deriving DecidableEq, Repr

/-- A guest byte range recorded for a unit, with the bytes that were lifted there. -/
structure Span where
  start : ℕ
  code : List U8
  code_ne : code ≠ []
  deriving DecidableEq

variable {page : ℕ}

namespace Span

variable (sp : Span)

def len : ℕ := sp.code.length

def stop : ℕ := sp.start + sp.len

def overlaps (lo hi : ℕ) : Bool := sp.start < hi && lo < sp.stop

def touches (page : ℕ) : Bool :=
  sp.overlaps (page * codePageSize) (page * codePageSize + codePageSize)

theorem len_pos : 0 < sp.len := length_pos_of_ne_nil sp.code_ne

theorem start_lt_stop : sp.start < sp.stop :=
  Nat.lt_add_of_pos_right sp.len_pos

variable {sp : Span}

theorem overlaps_iff {lo hi : ℕ} : sp.overlaps lo hi = true ↔ sp.start < hi ∧ lo < sp.stop := by
  simp [overlaps]

theorem touches_iff : sp.touches page = true ↔
      sp.start < page * codePageSize + codePageSize ∧ page * codePageSize < sp.stop :=
  overlaps_iff

theorem touches_of_mem {b : ℕ} (hlo : sp.start ≤ b) (hhi : b < sp.stop) :
    sp.touches (b / codePageSize) = true := by
  have hmod := Nat.div_add_mod b codePageSize
  have hlt := Nat.mod_lt b (show 0 < codePageSize by decide)
  rw [touches_iff]
  rw [Nat.mul_comm] at hmod
  omega

theorem mem_codePageRange_iff (h : sp.stop ≤ 2 ^ 64) :
    page ∈ codePageRange sp.start sp.len ↔ sp.touches page = true := by
  have hlen := sp.len_pos
  have hlast : min (sp.start + (max sp.len 1 - 1)) (2 ^ 64 - 1) = sp.stop - 1 := by
    unfold stop at *
    omega
  rw [codePageRange, mem_pagesBetween_iff_meets (by decide), touches_iff]
  have := sp.start_lt_stop
  omega

end Span

/-- A lifted block: the address it was decoded under and the bytes it was decoded from. -/
structure IrBlock where
  guestStart : ℕ
  code : List U8
  code_ne : code ≠ []
  deriving DecidableEq

def IrBlock.span (ir : IrBlock) : Span := ⟨ir.guestStart, ir.code, ir.code_ne⟩

def IrBlock.spanAt (ir : IrBlock) (pa : ℕ) : Span := ⟨pa, ir.code, ir.code_ne⟩

inductive CachedBlock
  | interpreted (ir : IrBlock)
  | compiled (entry : ℕ)
  deriving DecidableEq

/-- A unit in the cache. The two maps of the code always hold the same keys. -/
structure Entry where
  key : BlockKey
  block : CachedBlock
  spans : List Span
  deriving DecidableEq

variable {e : Entry}

namespace Entry

def overlaps (e : Entry) (lo hi : ℕ) : Bool := e.spans.any fun sp => sp.overlaps lo hi

def touches (e : Entry) (page : ℕ) : Bool := e.spans.any fun sp => sp.touches page

theorem overlaps_iff {lo hi : ℕ} :
    e.overlaps lo hi = true ↔ ∃ sp ∈ e.spans, sp.overlaps lo hi = true := by
  simp [overlaps]

theorem touches_iff : e.touches page = true ↔ ∃ sp ∈ e.spans, sp.touches page = true := by
  simp [touches]

end Entry

/-- The translation cache. Keys are unique; `tierPending` are the keys with a compile in flight. -/
structure TranslationCache where
  entries : List Entry
  keys_ne : entries.Pairwise fun e e' => e.key ≠ e'.key
  epoch : ℕ
  tierPending : Finset BlockKey

namespace TranslationCache

def new : TranslationCache := ⟨[], List.Pairwise.nil, 0, ∅⟩

variable (c : TranslationCache) (key : BlockKey)

def get : Option Entry :=
  c.entries.find? fun e => e.key == key

def put (e : Entry) : TranslationCache :=
  { c with
    entries := e :: c.entries.filter fun e' => e'.key != e.key
    keys_ne := by
      refine pairwise_cons.mpr ⟨?_, c.keys_ne.filter _⟩
      intro e' he'
      have := (mem_filter.mp he').2
      simp only [bne_iff_ne] at this
      exact this.symm }

variable (block : CachedBlock)

def insert (spans : List Span) : TranslationCache :=
  c.put ⟨key, block, spans⟩

def upgrade (span : Span) (sinceEpoch : ℕ) : Option TranslationCache :=
  if c.epoch ≠ sinceEpoch then none else some (c.put ⟨key, block, [span]⟩)

def upgradeRegion (spans : List Span) (sinceEpoch : ℕ) : Option TranslationCache :=
  if c.epoch ≠ sinceEpoch then none else some (c.put ⟨key, block, spans⟩)

def tryBeginTierUp : Option TranslationCache :=
  if key ∈ c.tierPending then none
  else some { c with tierPending := Insert.insert key c.tierPending }

def endTierUp : TranslationCache :=
  { c with tierPending := c.tierPending.erase key }

def victims (lo hi : ℕ) : List BlockKey :=
  (c.entries.filter fun e => e.overlaps lo hi).map Entry.key

def invalidateOverlapping (lo hi : ℕ) : TranslationCache :=
  { entries := c.entries.filter fun e => e.key ∉ c.victims lo hi
    keys_ne := c.keys_ne.filter _
    epoch := if c.victims lo hi = [] then c.epoch else c.epoch + 1
    tierPending := c.tierPending \ (c.victims lo hi).toFinset }

variable {c : TranslationCache}

theorem mem_put {e' : Entry} :
    e' ∈ (c.put e).entries ↔ e' = e ∨ (e' ∈ c.entries ∧ e'.key ≠ e.key) := by
  simp [put]

theorem eq_of_key_eq {e' : Entry} (h : e ∈ c.entries)
    (h' : e' ∈ c.entries) (hkey : e.key = e'.key) : e = e' := by
  have hsymm : Std.Symm fun e e' : Entry => e.key ≠ e'.key := ⟨fun _ _ => Ne.symm⟩
  by_contra hne
  exact c.keys_ne.forall h h' hne hkey

theorem get_eq_some_iff {key : BlockKey} : c.get key = some e ↔ e ∈ c.entries ∧ e.key = key := by
  constructor
  · intro h
    exact ⟨mem_of_find?_eq_some h, by simpa using find?_some h⟩
  · rintro ⟨hmem, hkey⟩
    cases hget : c.get key with
    | none =>
      have := find?_eq_none.mp hget e hmem
      simp [hkey] at this
    | some e' =>
      have hkey' : e'.key = key := by simpa using find?_some hget
      rw [eq_of_key_eq (mem_of_find?_eq_some hget) hmem (hkey'.trans hkey.symm)]

theorem get_put (e : Entry) (key : BlockKey) :
    (c.put e).get key = if key = e.key then some e else c.get key := by
  by_cases hkey : key = e.key
  · rw [if_pos hkey, get_eq_some_iff]
    exact ⟨mem_put.mpr (.inl rfl), hkey.symm⟩
  · rw [if_neg hkey]
    ext e'
    rw [get_eq_some_iff, get_eq_some_iff, mem_put]
    constructor
    · rintro ⟨rfl | ⟨hmem, -⟩, hkey'⟩
      · exact absurd hkey'.symm hkey
      · exact ⟨hmem, hkey'⟩
    · rintro ⟨hmem, rfl⟩
      exact ⟨.inr ⟨hmem, hkey⟩, rfl⟩

theorem get_eq_none_iff {key : BlockKey} : c.get key = none ↔ ∀ e ∈ c.entries, e.key ≠ key := by
  simp [get]

theorem mem_invalidateOverlapping {lo hi : ℕ} : e ∈ (c.invalidateOverlapping lo hi).entries ↔
      e ∈ c.entries ∧ e.overlaps lo hi = false := by
  have hvictim : e ∈ c.entries → (e.key ∈ c.victims lo hi ↔ e.overlaps lo hi = true) := by
    intro hmem
    simp only [victims, mem_map, mem_filter]
    constructor
    · rintro ⟨e', ⟨hmem', hover⟩, hkey⟩
      rwa [← eq_of_key_eq hmem' hmem hkey]
    · intro hover
      exact ⟨e, ⟨hmem, hover⟩, rfl⟩
  simp only [invalidateOverlapping, mem_filter]
  constructor
  · rintro ⟨hmem, hno⟩
    exact ⟨hmem, by simpa [hvictim hmem] using hno⟩
  · rintro ⟨hmem, hno⟩
    exact ⟨hmem, by simp [hvictim hmem, hno]⟩

theorem victims_eq_nil_iff {lo hi : ℕ} :
    c.victims lo hi = [] ↔ ∀ e ∈ c.entries, e.overlaps lo hi = false := by
  simp [victims]

theorem epoch_invalidateOverlapping (lo hi : ℕ) : ((c.invalidateOverlapping lo hi).epoch = c.epoch ∧
        ∀ e ∈ c.entries, e.overlaps lo hi = false) ∨
      (c.invalidateOverlapping lo hi).epoch = c.epoch + 1 := by
  by_cases h : c.victims lo hi = []
  · left
    exact ⟨if_pos h, victims_eq_nil_iff.mp h⟩
  · right
    exact if_neg h

end TranslationCache

end X86Jit
