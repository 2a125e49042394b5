import Mathlib.Data.List.Pairwise
import X86Jit.Core.Flags

/-! The way back from host code to guest addresses. A compiled function is registered with a table
of source locations, which are the low 32 bits of guest addresses. -/
namespace X86Jit
open List

/-- The host offsets from `start` to `stop` hold code of the guest instruction at `addr`. -/
structure SrcLoc where
  start : ℕ
  stop : ℕ
  addr : U64

/-- The locations are those the code generator was given, sorted by offset. -/
structure HostCode where
  entry : ℕ
  len : ℕ
  locs : List SrcLoc
  sorted : locs.Pairwise fun l l' => l.stop ≤ l'.start
  inside : ∀ l ∈ locs, l.start < l.stop ∧ l.stop ≤ len

namespace HostCode

def Apart (c c' : HostCode) : Prop := c.entry + c.len ≤ c'.entry ∨ c'.entry + c'.len ≤ c.entry

instance : Std.Symm Apart := ⟨fun _ _ => Or.symm⟩

end HostCode

structure CodeMap where
  codes : List HostCode
  apart : codes.Pairwise HostCode.Apart

namespace CodeMap

structure Entry where
  start : ℕ
  stop : ℕ
  table : List (ℕ × U32)

def row (l : SrcLoc) : ℕ × U32 := (l.start, l.addr.setWidth 32)

/-- All ones is the location of code that has none. -/
def register (c : HostCode) : Entry :=
  ⟨c.entry, c.entry + c.len, (c.locs.map row).filter (·.2 ≠ .allOnes 32)⟩

def lookup (entries : List Entry) (pc : ℕ) : Option U64 :=
  (entries.find? fun e => e.start ≤ pc ∧ pc < e.stop).bind fun e =>
    (e.table.takeWhile fun p => p.1 ≤ pc - e.start).getLast?.map (·.2.setWidth 64)

variable (m : CodeMap)

def entries : List Entry := m.codes.map register

/-- A host address in the code of an instruction gives its address, one outside of all code gives
none. -/
structure Resolves : Prop where
  inside : ∀ c ∈ m.codes, ∀ l ∈ c.locs, ∀ pc, c.entry + l.start ≤ pc → pc < c.entry + l.stop →
    lookup m.entries pc = some l.addr
  outside : ∀ pc, (∀ c ∈ m.codes, c.entry ≤ pc → c.entry + c.len ≤ pc) →
    lookup m.entries pc = none

variable {m} {c : HostCode} {l : SrcLoc} {pc : ℕ}

theorem lookup_lt {v : U64} (h : lookup m.entries pc = some v) : v.toNat < 2 ^ 32 - 1 := by
  obtain ⟨e, he, hv⟩ := Option.bind_eq_some_iff.mp h
  obtain ⟨p, hp, rfl⟩ := Option.map_eq_some_iff.mp hv
  obtain ⟨c, -, rfl⟩ := mem_map.mp (mem_of_find?_eq_some he)
  have hmem := (takeWhile_sublist _).subset (mem_of_getLast? hp)
  have hne := of_decide_eq_true (mem_filter.mp hmem).2
  have hbits : p.2.toNat ≠ 2 ^ 32 - 1 := fun heq => hne (BitVec.eq_of_toNat_eq heq)
  rw [BitVec.toNat_setWidth]
  omega

theorem find_register (hc : c ∈ m.codes) (hlow : c.entry ≤ pc) (hhigh : pc < c.entry + c.len) :
    m.entries.find? (fun e => e.start ≤ pc ∧ pc < e.stop) = some (register c) := by
  have hsome : (m.entries.find? fun e => e.start ≤ pc ∧ pc < e.stop).isSome := by
    rw [find?_isSome]
    exact ⟨register c, mem_map_of_mem hc, decide_eq_true ⟨hlow, hhigh⟩⟩
  obtain ⟨e, he⟩ := Option.isSome_iff_exists.mp hsome
  obtain ⟨c', hc', rfl⟩ := mem_map.mp (mem_of_find?_eq_some he)
  have hin' : c'.entry ≤ pc ∧ pc < c'.entry + c'.len := by simpa [register] using find?_some he
  rw [he]
  by_contra hne
  have hapart := m.apart.forall hc hc' fun heq => hne (heq ▸ rfl)
  rw [HostCode.Apart] at hapart
  omega

/-- Of the locations that start at or before an offset, the last is the one it lies in. -/
theorem getLast_takeWhile {locs : List SrcLoc} {off : ℕ} (hl : l ∈ locs)
    (hsorted : locs.Pairwise fun l l' => l.stop ≤ l'.start)
    (hin : ∀ l ∈ locs, l.start < l.stop) (hlow : l.start ≤ off) (hhigh : off < l.stop) :
    ((locs.map row).takeWhile fun p => p.1 ≤ off).getLast? = some (row l) := by
  obtain ⟨before, rest, rfl⟩ := append_of_mem hl
  obtain ⟨-, hrest, hbefore⟩ := pairwise_append.mp hsorted
  have hfirst : ∀ p ∈ before.map row, decide (p.1 ≤ off) = true := by
    intro p hp
    obtain ⟨l', hl', rfl⟩ := mem_map.mp hp
    have hsucc := hbefore l' hl' l mem_cons_self
    have hne := hin l' (mem_append_left _ hl')
    exact decide_eq_true (by dsimp only [row]; omega)
  have hlast : (rest.map row).takeWhile (fun p => p.1 ≤ off) = [] := by
    cases rest with
    | nil => rfl
    | cons l' rest =>
      have hsucc := (pairwise_cons.mp hrest).1 l' mem_cons_self
      exact takeWhile_cons_of_neg (by rw [decide_eq_true_eq, row]; omega)
  have hself : decide ((row l).1 ≤ off) = true := decide_eq_true hlow
  rw [map_append, takeWhile_append_of_pos hfirst, map_cons, takeWhile_cons, if_pos hself, hlast,
    getLast?_append]
  rfl

variable (m)

/-- The map is right exactly if no instruction is at the last address of 32 bits or above. -/
theorem resolves_iff : m.Resolves ↔ ∀ c ∈ m.codes, ∀ l ∈ c.locs, l.addr.toNat < 2 ^ 32 - 1 := by
  constructor
  · intro h c hc l hl
    exact lookup_lt (h.inside c hc l hl _ le_rfl (Nat.add_lt_add_left (c.inside l hl).1 _))
  · intro h
    constructor
    · intro c hc l hl pc hlow hhigh
      have hkept : (register c).table = c.locs.map row := by
        rw [register, filter_eq_self]
        intro p hp
        obtain ⟨l', hl', rfl⟩ := mem_map.mp hp
        have hlt := h c hc l' hl'
        refine decide_eq_true fun heq => ?_
        have hbits := congrArg BitVec.toNat heq
        rw [row] at hbits
        simp at hbits
        omega
      have hin := (c.inside l hl).2
      have hlow : l.start ≤ pc - c.entry := by omega
      have hlast := getLast_takeWhile hl c.sorted (fun l hl => (c.inside l hl).1) hlow (by omega)
      have hback : (l.addr.setWidth 32).setWidth 64 = l.addr := by
        have := h c hc l hl
        bv_omega
      rw [lookup, find_register hc (by omega) (by omega), Option.bind_some, hkept]
      exact (congrArg (Option.map _) hlast).trans (congrArg some hback)
    · intro pc hout
      rw [lookup, find?_eq_none.mpr, Option.bind_none]
      intro e he
      obtain ⟨c, hc, rfl⟩ := mem_map.mp he
      simpa [register] using hout c hc

/-- One instruction of host code at `0x1000`, for the guest instruction 4 GiB and a page up. -/
def highCode : CodeMap :=
  ⟨[⟨0x1000, 0x10, [⟨0, 0x10, 0x1_0000_1000⟩], pairwise_singleton _ _, by decide⟩],
    pairwise_singleton _ _⟩

theorem highCode_truncated : lookup highCode.entries 0x1000 = some 0x1000 := by decide

end CodeMap

end X86Jit
