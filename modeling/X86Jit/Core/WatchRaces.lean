import X86Jit.Core.WatchPages
import X86Jit.Lib.Threads

/-! Watching, unwatching, writing and draining by several threads at once. The bitmap and the set
of words are brought in line by different steps. -/
namespace X86Jit.WatchRaces
open X86Jit.Lib Finset Threads Bitset Bool

structure Page (n : ℕ) where
  val : ℕ
  inTable : val / 64 < n
  deriving DecidableEq

namespace Page
variable {n : ℕ} (p : Page n) (f : Bitset n)

def index : Fin n := ⟨p.val / 64, p.inTable⟩

def clear : Bool := f p.index &&& Bitset.mask p.val == 0

def setBit : Bitset n := Function.update f p.index (f p.index ||| Bitset.mask p.val)

def clearBit : Bitset n := Function.update f p.index (f p.index &&& ~~~Bitset.mask p.val)

theorem clear_eq : p.clear f = !f.has p.val := by
  have htest := f.mask_test p.inTable
  cases hhas : f.has p.val with
  | false => exact beq_iff_eq.mpr (htest.mpr hhas)
  | true =>
    apply beq_false_of_ne
    intro h0
    rw [htest.mp h0] at hhas
    cases hhas

theorem adds_setBit : f.Adds p.val (p.setBit f) := fun _ => f.has_update_or p.inTable

theorem drops_clearBit : f.Drops p.val (p.clearBit f) := fun _ => f.has_update_and p.inTable

end Page

/-- The counter may pass below zero while calls are under way; a drain holds the lock of `words`
while it scans. -/
structure Tables (n : ℕ) where
  watch : Bitset n
  dirty : Bitset n
  words : Finset ℕ
  count : ℤ
  locked : Bool
  drains : List (List ℕ)

inductive Place (n : ℕ)
  | idle
  | watchOr (p : Page n)
  | watchCount (p : Page n)
  | watchInsert (p : Page n)
  | unwatchAnd (p : Page n)
  | unwatchCount (p : Page n)
  | unwatchClear (p : Page n)
  | unwatchLoad (p : Page n)
  | unwatchRemove (p : Page n)
  | noteCount (pages : List ℕ)
  | noteTest (pages : List ℕ)
  | markLoad (p : Page n) (pages : List ℕ)
  | markOr (p : Page n) (pages : List ℕ)
  | drainCount
  | drainLock
  | drainScan (ws out : List ℕ)
  deriving DecidableEq

inductive Act
  | watch (page : ℕ)
  | unwatch (page : ℕ)
  | noteWrite (addr len : ℕ)
  | takeDirty
  | go
  deriving DecidableEq

variable {n : ℕ}

def enter (f : Page n → Place n) (page : ℕ) : Place n :=
  if h : page / 64 < n then f ⟨page, h⟩ else .idle

def next (s : Tables n) : Place n → Act → Option (Place n × Tables n)
  | .idle, .watch page => some (enter .watchOr page, s)
  | .watchOr p, .go =>
    some (if p.clear s.watch then .watchCount p else .idle, { s with watch := p.setBit s.watch })
  | .watchCount p, .go => some (.watchInsert p, { s with count := s.count + 1 })
  | .watchInsert p, .go =>
    if s.locked then none else some (.idle, { s with words := insert (p.val / 64) s.words })
  | .idle, .unwatch page => some (enter .unwatchAnd page, s)
  | .unwatchAnd p, .go =>
    some (if p.clear s.watch then .idle else .unwatchCount p,
      { s with watch := p.clearBit s.watch })
  | .unwatchCount p, .go => some (.unwatchClear p, { s with count := s.count - 1 })
  | .unwatchClear p, .go => some (.unwatchLoad p, { s with dirty := p.clearBit s.dirty })
  | .unwatchLoad p, .go => some (if s.watch p.index = 0 then .unwatchRemove p else .idle, s)
  | .unwatchRemove p, .go =>
    if s.locked then none else some (.idle, { s with words := s.words.erase (p.val / 64) })
  | .idle, .noteWrite addr len => some (.noteCount (codePageRange addr len), s)
  -- the counter is read once, before the pages
  | .noteCount pages, .go => some (if s.count = 0 then .idle else .noteTest pages, s)
  | .noteTest [], .go => some (.idle, s)
  | .noteTest (page :: pages), .go =>
    some (if h : page / 64 < n then
      (if Page.clear ⟨page, h⟩ s.watch then .noteTest pages else .markLoad ⟨page, h⟩ pages)
      else .noteTest pages, s)
  | .markLoad p pages, .go =>
    some (if p.clear s.dirty then .markOr p pages else .noteTest pages, s)
  | .markOr p pages, .go => some (.noteTest pages, { s with dirty := p.setBit s.dirty })
  | .idle, .takeDirty => some (.drainCount, s)
  | .drainCount, .go =>
    some (if s.count = 0 then (.idle, { s with drains := s.drains ++ [[]] }) else (.drainLock, s))
  | .drainLock, .go =>
    if s.locked then none
    else some (.drainScan (s.words.sort (· ≤ ·)) [], { s with locked := true })
  | .drainScan (w :: ws) out, .go =>
    some (.drainScan ws (out ++ WatchPages.pagesOf s.dirty w), { s with
      dirty := fun i => if i.val = w then 0 else s.dirty i })
  | .drainScan [] out, .go =>
    some (.idle, { s with locked := false, drains := s.drains ++ [out] })
  | _, _ => none

abbrev Conf (n : ℕ) (τ : Type) := Threads τ (Tables n) (Place n)

variable {τ : Type} [DecidableEq τ]

def step (c : Conf n τ) (a : τ × Act) : Option (Conf n τ) := c.step next a

def start (n : ℕ) (τ : Type) : Conf n τ :=
  ⟨⟨fun _ => 0, fun _ => 0, ∅, 0, false, []⟩, fun _ => .idle⟩

namespace Place

def owed : Place n → ℤ
  | watchCount _ => 1
  | unwatchCount _ => -1
  | _ => 0

def willInsert (w : ℕ) : Place n → Bool
  | watchCount p | watchInsert p => p.val / 64 == w
  | _ => false

/-- The call takes the word out of the set at its end, or finds a page left in it. -/
def willCheck (w : ℕ) : Place n → Bool
  | unwatchCount p | unwatchClear p | unwatchLoad p | unwatchRemove p => p.val / 64 == w
  | _ => false

def willClear (q : ℕ) : Place n → Bool
  | unwatchCount p | unwatchClear p => p.val == q
  | _ => false

def scanning : Place n → Bool
  | drainScan _ _ => true
  | _ => false

end Place

def InUse {n : ℕ} (f : Bitset n) (w : ℕ) : Prop := ∃ q, q / 64 = w ∧ f.has q = true

/-- The set of words is changed in line with the bitmap, or another call on the word is still to
look at it; a page is marked while it is watched, or a call is still to clear it. -/
structure Apart {n : ℕ} {τ : Type} (c : Conf n τ) (a : τ × Act) : Prop where
  insert : ∀ p, c.place a.1 = .watchInsert p →
    InUse c.shared.watch (p.val / 64) ∨ c.Other a.1 fun l => l.willCheck (p.val / 64) = true
  remove : ∀ p, c.place a.1 = .unwatchRemove p →
    ¬InUse c.shared.watch (p.val / 64) ∨ c.Other a.1 fun l => l.willInsert (p.val / 64) = true
  mark : ∀ p pages, c.place a.1 = .markOr p pages →
    c.shared.watch.has p.val = true ∨ c.Other a.1 fun l => l.willClear p.val = true

structure Inv {n : ℕ} {τ : Type} [Fintype τ] (c : Conf n τ) : Prop where
  counted : c.shared.count = c.shared.watch.elems.card - c.total Place.owed
  listed : ∀ w, InUse c.shared.watch w →
    w ∈ c.shared.words ∨ c.Some fun l => l.willInsert w = true
  used : ∀ w ∈ c.shared.words, InUse c.shared.watch w ∨ c.Some fun l => l.willCheck w = true
  clean : ∀ q, c.shared.dirty.has q = true →
    c.shared.watch.has q = true ∨ c.Some fun l => l.willClear q = true
  held : c.shared.locked = true → c.Some fun l => l.scanning = true

def Place.free : Place n → Bool
  | .idle | .watchOr _ | .unwatchAnd _ | .noteCount _ | .noteTest _ | .markLoad _ _ | .markOr _ _
  | .drainCount | .drainLock => true
  | _ => false

inductive Move (s : Tables n) : Place n → Place n → Tables n → Prop
  /-- Only the place changes, or the record of the drains. -/
  | look {l l' d} (h : l.free = true) (h' : l'.free = true) :
      Move s l l' { s with drains := d }
  | watchNew {p} (h : s.watch.has p.val = false) :
      Move s (.watchOr p) (.watchCount p) { s with watch := p.setBit s.watch }
  | watchOld {p} (h : s.watch.has p.val = true) :
      Move s (.watchOr p) .idle { s with watch := p.setBit s.watch }
  | watchCounted {p} : Move s (.watchCount p) (.watchInsert p) { s with count := s.count + 1 }
  | inserted {p} (h : s.locked = false) : Move s (.watchInsert p) .idle
      { s with words := insert (p.val / 64) s.words }
  | unwatchSet {p} (h : s.watch.has p.val = true) :
      Move s (.unwatchAnd p) (.unwatchCount p) { s with watch := p.clearBit s.watch }
  | unwatchUnset {p} (h : s.watch.has p.val = false) :
      Move s (.unwatchAnd p) .idle { s with watch := p.clearBit s.watch }
  | unwatchCounted {p} :
      Move s (.unwatchCount p) (.unwatchClear p) { s with count := s.count - 1 }
  | cleared {p} :
      Move s (.unwatchClear p) (.unwatchLoad p) { s with dirty := p.clearBit s.dirty }
  | emptied {p} : Move s (.unwatchLoad p) (.unwatchRemove p) s
  | inUse {p} (h : InUse s.watch (p.val / 64)) : Move s (.unwatchLoad p) .idle s
  | removed {p} (h : s.locked = false) : Move s (.unwatchRemove p) .idle
      { s with words := s.words.erase (p.val / 64) }
  | marked {p pages} :
      Move s (.markOr p pages) (.noteTest pages) { s with dirty := p.setBit s.dirty }
  | lock (h : s.locked = false) :
      Move s .drainLock (.drainScan (s.words.sort (· ≤ ·)) []) { s with locked := true }
  | scan {w ws out} :
      Move s (.drainScan (w :: ws) out) (.drainScan ws (out ++ WatchPages.pagesOf s.dirty w))
        { s with dirty := fun i => if i.val = w then 0 else s.dirty i }
  | drained {out} : Move s (.drainScan [] out) .idle
      { s with locked := false, drains := s.drains ++ [out] }

theorem Place.owes_nothing {l : Place n} (h : l.free = true) :
    l.owed = 0 ∧ (∀ w, l.willInsert w = false) ∧ (∀ w, l.willCheck w = false) ∧
      (∀ q, l.willClear q = false) ∧ l.scanning = false := by
  cases l <;> first | exact ⟨rfl, fun _ => rfl, fun _ => rfl, fun _ => rfl, rfl⟩ | cases h

theorem enter_free {f : Page n → Place n} (hf : ∀ p, (f p).free = true) (page : ℕ) :
    (enter f page).free = true := by
  unfold enter
  split
  · exact hf _
  · rfl

theorem Move.same {s : Tables n} {l l' : Place n} (h : l.free = true) (h' : l'.free = true) :
    Move s l l' s := .look (d := s.drains) h h'

theorem inUse_of_word_ne {f : Bitset n} {p : Page n} (h : f p.index ≠ 0) :
    InUse f (p.val / 64) := (word_ne_zero_iff p.inTable).mp h

theorem move_of_next {s s' : Tables n} {l l' : Place n} {a : Act}
    (h : next s l a = some (l', s')) : Move s l l' s' := by
  have hhas {p : Page n} {f : Bitset n} (hclear : p.clear f = true) : f.has p.val = false := by
    rw [p.clear_eq, not_eq_true'] at hclear
    exact hclear
  have hhas' {p : Page n} {f : Bitset n} (hclear : ¬p.clear f = true) : f.has p.val = true := by
    rwa [p.clear_eq, not_eq_true', not_eq_false] at hclear
  unfold next at h
  split at h
  · cases h
    exact .same rfl (enter_free (fun _ => rfl) _)
  · split at h
    · rename_i hclear
      cases h
      exact .watchNew (hhas hclear)
    · rename_i hclear
      cases h
      exact .watchOld (hhas' hclear)
  · cases h
    exact .watchCounted
  · split at h
    · cases h
    · rename_i hlocked
      cases h
      exact .inserted (eq_false_iff.mpr hlocked)
  · cases h
    exact .same rfl (enter_free (fun _ => rfl) _)
  · split at h
    · rename_i hclear
      cases h
      exact .unwatchUnset (hhas hclear)
    · rename_i hclear
      cases h
      exact .unwatchSet (hhas' hclear)
  · cases h
    exact .unwatchCounted
  · cases h
    exact .cleared
  · split at h
    · cases h
      exact .emptied
    · rename_i hword
      cases h
      exact .inUse (inUse_of_word_ne hword)
  · split at h
    · cases h
    · rename_i hlocked
      cases h
      exact .removed (eq_false_iff.mpr hlocked)
  · cases h
    exact .same rfl rfl
  · split at h <;> cases h <;> exact .same rfl rfl
  · cases h
    exact .same rfl rfl
  · split at h
    · split at h <;> cases h <;> exact .same rfl rfl
    · cases h
      exact .same rfl rfl
  · split at h <;> cases h <;> exact .same rfl rfl
  · cases h
    exact .marked
  · cases h
    exact .same rfl rfl
  · split at h
    · cases h
      exact .look rfl rfl
    · cases h
      exact .same rfl rfl
  · split at h
    · cases h
    · rename_i hlocked
      cases h
      exact .lock (eq_false_iff.mpr hlocked)
  · cases h
    exact .scan
  · cases h
    exact .drained
  · cases h

variable {f : Bitset n} {p : Page n} {w : ℕ}

theorem elems_setBit : (p.setBit f).elems = insert p.val f.elems := (p.adds_setBit f).elems

theorem elems_clearBit : (p.clearBit f).elems = f.elems.erase p.val := (p.drops_clearBit f).elems

theorem inUse_setBit : InUse (p.setBit f) w ↔ InUse f w ∨ w = p.val / 64 :=
  (p.adds_setBit f).word_iff

theorem InUse.of_clearBit (h : InUse (p.clearBit f) w) : InUse f w := by
  obtain ⟨q, hq, hin⟩ := h
  exact ⟨q, hq, ((p.drops_clearBit f).has_iff.mp hin).1⟩

theorem InUse.clearBit (h : InUse f w) (hw : w ≠ p.val / 64) : InUse (p.clearBit f) w :=
  ((p.drops_clearBit f).word_iff hw).mpr h

variable {c : Conf n τ} {t : τ} {a : Act} {l : Place n} {s : Tables n}

theorem counted_step [Fintype τ] (h : Inv c) (hmove : Move c.shared (c.place t) l s) :
    s.count = s.watch.elems.card - (c.moved t l s).total Place.owed := by
  have hcount := h.counted
  have htotal := total_moved (c := c) (t := t) (l := l) (s := s) Place.owed
  generalize c.place t = l₀ at hmove htotal
  rw [htotal]
  cases hmove with
  | look hl hl' =>
    rw [(Place.owes_nothing hl).1, (Place.owes_nothing hl').1, sub_zero, add_zero]
    exact hcount
  | @watchNew p hnew =>
    have hout : p.val ∉ c.shared.watch.elems := by
      rw [mem_elems, hnew]
      exact false_ne_true
    rw [elems_setBit, card_insert_of_notMem hout, hcount]
    change _ = _ - (_ - 0 + 1)
    omega
  | @watchOld p hold =>
    rw [elems_setBit, insert_eq_of_mem (Bitset.mem_elems.mpr hold), hcount]
    change _ = _ - (_ - 0 + 0)
    omega
  | @unwatchSet p hset =>
    have hcard := card_erase_add_one (Bitset.mem_elems.mpr hset)
    rw [elems_clearBit, hcount]
    change _ = _ - (_ - 0 + -1)
    omega
  | @unwatchUnset p hunset =>
    have hout : p.val ∉ c.shared.watch.elems := by
      rw [mem_elems, hunset]
      exact false_ne_true
    rw [elems_clearBit, erase_eq_of_notMem hout, hcount]
    change _ = _ - (_ - 0 + 0)
    omega
  | watchCounted =>
    change c.shared.count + 1 = c.shared.watch.elems.card - (_ - 1 + 0)
    omega
  | unwatchCounted =>
    change c.shared.count - 1 = c.shared.watch.elems.card - (_ - -1 + 0)
    omega
  | _ =>
    change c.shared.count = c.shared.watch.elems.card - (_ - 0 + 0)
    omega

theorem listed_step [Fintype τ] (h : Inv c) (hapart : Apart c (t, a))
    (hmove : Move c.shared (c.place t) l s) (w : ℕ) (hw : InUse s.watch w) :
    w ∈ s.words ∨ (c.moved t l s).Some fun l => l.willInsert w = true := by
  have hremove := hapart.remove
  generalize hplace : c.place t = l₀ at hmove hremove
  have keep {s : Tables n} {l : Place n} (huse : InUse c.shared.watch w)
      (hwords : w ∈ c.shared.words → w ∈ s.words)
      (hl : l₀.willInsert w = true → l.willInsert w = true) :
      w ∈ s.words ∨ (c.moved t l s).Some fun l => l.willInsert w = true := by
    rcases h.listed w huse with hin | hsome
    · exact .inl (hwords hin)
    · exact .inr (hsome.moved (hplace ▸ hl))
  cases hmove with
  | look hl hl' =>
    apply keep hw id
    rw [(Place.owes_nothing hl).2.1]
    exact nofun
  | @watchNew p =>
    rcases inUse_setBit.mp hw with hw | rfl
    · exact keep hw id nofun
    · exact .inr (some_moved.mpr (.inl (beq_self_eq_true _)))
  | @watchOld p hold =>
    apply keep _ id nofun
    rcases inUse_setBit.mp hw with hw | rfl
    · exact hw
    · exact ⟨p.val, rfl, hold⟩
  | watchCounted => exact keep hw id id
  | @inserted p =>
    by_cases heq : w = p.val / 64
    · rw [heq]
      exact .inl (Finset.mem_insert_self _ _)
    · apply keep hw (Finset.mem_insert_of_mem ·)
      intro hins
      exact absurd (eq_of_beq hins).symm heq
  | unwatchSet | unwatchUnset => exact keep hw.of_clearBit id nofun
  | @removed p =>
    by_cases heq : w = p.val / 64
    · subst heq
      rcases hremove p rfl with hnot | hother
      · exact absurd hw hnot
      · exact .inr (some_moved.mpr (.inr hother))
    · exact keep hw (mem_erase_of_ne_of_mem heq ·) nofun
  | _ => exact keep hw id nofun

theorem used_step [Fintype τ] (h : Inv c) (hapart : Apart c (t, a))
    (hmove : Move c.shared (c.place t) l s) (w : ℕ) (hw : w ∈ s.words) :
    InUse s.watch w ∨ (c.moved t l s).Some fun l => l.willCheck w = true := by
  have hinsert := hapart.insert
  generalize hplace : c.place t = l₀ at hmove hinsert
  have keep {s : Tables n} {l : Place n} (hin : w ∈ c.shared.words)
      (huse : InUse c.shared.watch w → InUse s.watch w)
      (hl : l₀.willCheck w = true → l.willCheck w = true) :
      InUse s.watch w ∨ (c.moved t l s).Some fun l => l.willCheck w = true := by
    rcases h.used w hin with hused | hsome
    · exact .inl (huse hused)
    · exact .inr (hsome.moved (hplace ▸ hl))
  cases hmove with
  | look hl hl' =>
    apply keep hw id
    rw [(Place.owes_nothing hl).2.2.1]
    exact nofun
  | watchNew | watchOld => exact keep hw (fun hu => inUse_setBit.mpr (.inl hu)) nofun
  | @inserted p =>
    -- the page may have been unwatched since its bit was set: that is what `Apart` rules out
    rcases Finset.mem_insert.mp hw with rfl | hw
    · rcases hinsert p rfl with huse | hother
      · exact .inl huse
      · exact .inr (some_moved.mpr (.inr hother))
    · exact keep hw id nofun
  | @unwatchSet p =>
    by_cases heq : w = p.val / 64
    · rw [heq]
      exact .inr (some_moved.mpr (.inl (beq_self_eq_true _)))
    · exact keep hw (·.clearBit heq) nofun
  | @unwatchUnset p hunset =>
    apply keep hw _ nofun
    rintro ⟨q, hq, hin⟩
    refine ⟨q, hq, (p.drops_clearBit _).has_iff.mpr ⟨hin, ?_⟩⟩
    rintro rfl
    rw [hin] at hunset
    cases hunset
  | unwatchCounted | cleared | emptied => exact keep hw id id
  | @inUse p huse =>
    by_cases heq : w = p.val / 64
    · rw [heq]
      exact .inl huse
    · apply keep hw id
      intro hchk
      exact absurd (eq_of_beq hchk).symm heq
  | @removed p =>
    obtain ⟨hne, hin⟩ := Finset.mem_erase.mp hw
    apply keep hin id
    intro hchk
    exact absurd (eq_of_beq hchk).symm hne
  | _ => exact keep hw id nofun

theorem clean_step [Fintype τ] (h : Inv c) (hapart : Apart c (t, a))
    (hmove : Move c.shared (c.place t) l s) (q : ℕ) (hq : s.dirty.has q = true) :
    s.watch.has q = true ∨ (c.moved t l s).Some fun l => l.willClear q = true := by
  have hmark := hapart.mark
  generalize hplace : c.place t = l₀ at hmove hmark
  have keep {s : Tables n} {l : Place n} (hdirty : c.shared.dirty.has q = true)
      (hwatch : c.shared.watch.has q = true → s.watch.has q = true)
      (hl : l₀.willClear q = true → l.willClear q = true) :
      s.watch.has q = true ∨ (c.moved t l s).Some fun l => l.willClear q = true := by
    rcases h.clean q hdirty with hin | hsome
    · exact .inl (hwatch hin)
    · exact .inr (hsome.moved (hplace ▸ hl))
  cases hmove with
  | look hl hl' =>
    apply keep hq id
    rw [(Place.owes_nothing hl).2.2.2.1]
    exact nofun
  | @watchNew p | @watchOld p =>
    apply keep hq _ nofun
    intro hin
    exact (p.adds_setBit _).has_iff.mpr (.inl hin)
  | @unwatchSet p =>
    by_cases heq : q = p.val
    · rw [heq]
      exact .inr (some_moved.mpr (.inl (beq_self_eq_true _)))
    · apply keep hq _ nofun
      intro hin
      exact (p.drops_clearBit _).has_iff.mpr ⟨hin, heq⟩
  | @unwatchUnset p hunset =>
    apply keep hq _ nofun
    intro hin
    refine (p.drops_clearBit _).has_iff.mpr ⟨hin, ?_⟩
    rintro rfl
    rw [hin] at hunset
    cases hunset
  | unwatchCounted => exact keep hq id id
  | @cleared p =>
    obtain ⟨hq, hne⟩ := (p.drops_clearBit _).has_iff.mp hq
    apply keep hq id
    intro hclr
    exact absurd (eq_of_beq hclr).symm hne
  | @marked p pages =>
    rcases (p.adds_setBit _).has_iff.mp hq with hq | rfl
    · exact keep hq id nofun
    · rcases hmark p pages rfl with hin | hother
      · exact .inl hin
      · exact .inr (some_moved.mpr (.inr hother))
  | @scan w =>
    have hold : c.shared.dirty.has q = true := by
      have hlt := lt_of_has hq
      rw [has_of_lt _ hlt] at hq ⊢
      dsimp only at hq
      split at hq
      · simp at hq
      · exact hq
    exact keep hold id nofun
  | _ => exact keep hq id nofun

theorem held_step [Fintype τ] (h : Inv c) (hmove : Move c.shared (c.place t) l s)
    (hlocked : s.locked = true) : (c.moved t l s).Some fun l => l.scanning = true := by
  generalize hplace : c.place t = l₀ at hmove
  have keep {s : Tables n} {l : Place n} (hlocked : c.shared.locked = true)
      (hl : l₀.scanning = true → l.scanning = true) :
      (c.moved t l s).Some fun l => l.scanning = true := (h.held hlocked).moved (hplace ▸ hl)
  cases hmove with
  | look hl hl' =>
    apply keep hlocked
    rw [(Place.owes_nothing hl).2.2.2.2]
    exact nofun
  | lock => exact some_moved.mpr (.inl rfl)
  | scan => exact keep hlocked id
  | drained => cases hlocked
  | _ => exact keep hlocked nofun

theorem Inv.step [Fintype τ] {c' : Conf n τ} (h : Inv c) (hapart : Apart c (t, a))
    (hstep : step c (t, a) = some c') : Inv c' := by
  obtain ⟨l, s, hnext, rfl⟩ := step_eq_some.mp hstep
  have hmove := move_of_next hnext
  exact
    { counted := counted_step h hmove
      listed := listed_step h hapart hmove
      used := used_step h hapart hmove
      clean := clean_step h hapart hmove
      held := held_step h hmove }

variable {c' : Conf n τ}

def Alone (t : τ) (c c' : Conf n τ) : Prop :=
  ∃ k, run step c (List.replicate k (t, .go)) = some c'

theorem Alone.refl (t : τ) (c : Conf n τ) : Alone t c c := ⟨0, rfl⟩

theorem Alone.head (hnext : next c.shared (c.place t) .go = some (l, s))
    (h : Alone t (c.moved t l s) c') : Alone t c c' := by
  obtain ⟨k, hrun⟩ := h
  refine ⟨k + 1, ?_⟩
  rw [List.replicate_succ, run_cons]
  exact ⟨_, step_eq_some.mpr ⟨l, s, hnext, rfl⟩, hrun⟩

/-- A call that is made while no other one is under way: it begins with `a` and goes on to
its end. -/
def Does (t : τ) (a : Act) (c c' : Conf n τ) : Prop :=
  c'.place t = .idle ∧ ∃ d, step c (t, a) = some d ∧ Alone t d c'

theorem Alone.trans {d : Conf n τ} (h : Alone t c d) (h' : Alone t d c') : Alone t c c' := by
  obtain ⟨k, hrun⟩ := h
  obtain ⟨k', hrun'⟩ := h'
  refine ⟨k + k', ?_⟩
  rw [List.replicate_add, run_append, hrun]
  exact hrun'

theorem Page.clear_of_has {b : Bitset n} {value : Bool} (h : b.has p.val = value) :
    p.clear b = !value := by
  rw [Page.clear_eq, h]

theorem alone_mark (t : τ) {pages : List ℕ} (hplace : c.place t = .markLoad p pages) :
    ∃ d : Bitset n, Alone t c (c.moved t (.noteTest pages) { c.shared with dirty := d }) ∧
      ∀ q, d.has q = true ↔ c.shared.dirty.has q = true ∨ q = p.val := by
  cases hdirty : c.shared.dirty.has p.val with
  | true =>
    refine ⟨c.shared.dirty, Alone.head ?_ (Alone.refl t _), ?_⟩
    · rw [hplace, next, Page.clear_of_has hdirty]
      rfl
    · intro q
      constructor
      · exact .inl
      · rintro (h | rfl)
        · exact h
        · exact hdirty
  | false =>
    refine ⟨p.setBit c.shared.dirty, ?_, ?_⟩
    · apply Alone.head (l := .markOr p pages)
      · rw [hplace, next, Page.clear_of_has hdirty]
        rfl
      · apply Alone.head
        · rw [moved_place_self]
          rfl
        · rw [moved_moved]
          exact Alone.refl t _
    · exact fun q => (p.adds_setBit _).has_iff

theorem alone_notePage (t : τ) {page : ℕ} {pages : List ℕ}
    (hplace : c.place t = .noteTest (page :: pages)) :
    ∃ d : Bitset n, Alone t c (c.moved t (.noteTest pages) { c.shared with dirty := d }) ∧
      ∀ q, d.has q = true ↔
        c.shared.dirty.has q = true ∨ q = page ∧ c.shared.watch.has q = true := by
  by_cases hwatch : c.shared.watch.has page = true
  · have hpage := lt_of_has hwatch
    have htest : next c.shared (c.place t) .go =
        some (.markLoad ⟨page, hpage⟩ pages, c.shared) := by
      rw [hplace]
      have hclear : Page.clear ⟨page, hpage⟩ c.shared.watch = !true := Page.clear_of_has hwatch
      simp only [next, dif_pos hpage, hclear]
      rfl
    obtain ⟨d, hmark, hd⟩ :=
      alone_mark t (c := c.moved t (.markLoad ⟨page, hpage⟩ pages) c.shared)
        moved_place_self
    rw [moved_moved] at hmark
    refine ⟨d, Alone.head htest hmark, ?_⟩
    intro q
    rw [hd]
    apply or_congr_right
    constructor
    · rintro rfl
      exact ⟨rfl, hwatch⟩
    · exact And.left
  · refine ⟨c.shared.dirty, Alone.head ?_ (Alone.refl t _), ?_⟩
    · rw [hplace]
      simp only [next]
      split
      · rename_i hpage
        have hclear : Page.clear ⟨page, hpage⟩ c.shared.watch = !false :=
          Page.clear_of_has (eq_false_iff.mpr hwatch)
        rw [hclear]
        rfl
      · rfl
    · intro q
      constructor
      · exact .inl
      · rintro (h | ⟨rfl, h⟩)
        · exact h
        · exact absurd h hwatch

theorem alone_noteTest (t : τ) (pages : List ℕ) (c : Conf n τ)
    (hplace : c.place t = .noteTest pages) :
    ∃ d : Bitset n, Alone t c (c.moved t .idle { c.shared with dirty := d }) ∧
      ∀ q, d.has q = true ↔
        c.shared.dirty.has q = true ∨ q ∈ pages ∧ c.shared.watch.has q = true := by
  induction pages generalizing c with
  | nil =>
    refine ⟨c.shared.dirty, ?_, fun q => by simp⟩
    apply Alone.head (l := .idle)
    · rw [hplace]
      rfl
    · exact Alone.refl t _
  | cons page pages ih =>
    obtain ⟨d, hone, hd⟩ := alone_notePage t hplace
    obtain ⟨d', hrest, hd'⟩ :=
      ih (c.moved t (.noteTest pages) { c.shared with dirty := d }) moved_place_self
    rw [moved_moved] at hrest
    refine ⟨d', hone.trans hrest, ?_⟩
    intro q
    rw [hd', List.mem_cons]
    have := hd q
    tauto

theorem alone_drainScan (t : τ) {ws : List ℕ} (hws : ws.Nodup) (out : List ℕ) (c : Conf n τ)
    (hplace : c.place t = .drainScan ws out) :
    ∃ (s : Tables n) (out' : List ℕ), Alone t c (c.moved t .idle { s with
        locked := false, drains := c.shared.drains ++ [out'] }) ∧
      ∀ q, q ∈ out' ↔ q ∈ out ∨ q / 64 ∈ ws ∧ c.shared.dirty.has q = true := by
  induction ws generalizing c out with
  | nil =>
    refine ⟨c.shared, out, ?_, fun q => by simp⟩
    apply Alone.head
    · rw [hplace]
      rfl
    · exact Alone.refl t _
  | cons w ws ih =>
    obtain ⟨hw, hws⟩ := List.nodup_cons.mp hws
    let d : Bitset n := fun i => if i.val = w then 0 else c.shared.dirty i
    have hd {q : ℕ} (hq : q / 64 ≠ w) : d.has q = c.shared.dirty.has q := by
      by_cases hlt : q / 64 < n
      · rw [has_of_lt _ hlt, has_of_lt _ hlt]
        change (if q / 64 = w then _ else _ : BitVec 64).getLsbD _ = _
        rw [if_neg hq]
      · rw [Bitset.has, dif_neg hlt, Bitset.has, dif_neg hlt]
    obtain ⟨s, out', halone, hout⟩ := ih hws (out ++ WatchPages.pagesOf c.shared.dirty w)
      (c.moved t (.drainScan ws (out ++ WatchPages.pagesOf c.shared.dirty w))
        { c.shared with dirty := d }) moved_place_self
    rw [moved_moved] at halone
    refine ⟨s, out', Alone.head ?_ halone, ?_⟩
    · rw [hplace]
      rfl
    · intro q
      rw [hout, List.mem_append, WatchPages.mem_pagesOf, List.mem_cons]
      simp only [moved_shared]
      constructor
      · rintro ((h | ⟨h, hq⟩) | ⟨h, hq⟩)
        · exact .inl h
        · exact .inr ⟨.inl h, hq⟩
        · have hne : q / 64 ≠ w := fun he => hw (he ▸ h)
          rw [hd hne] at hq
          exact .inr ⟨.inr h, hq⟩
      · rintro (h | ⟨h | h, hq⟩)
        · exact .inl (.inl h)
        · exact .inl (.inr ⟨h, hq⟩)
        · have hne : q / 64 ≠ w := fun he => hw (he ▸ h)
          rw [← hd hne] at hq
          exact .inr ⟨h, hq⟩

def Quiet (c : Conf n τ) : Prop := ∀ t, c.place t = .idle

omit [DecidableEq τ] in
theorem Quiet.none (h : Quiet c) {P : Place n → Bool} (hP : P .idle = false) :
    ¬c.Some fun l => P l = true := by
  rintro ⟨t, ht⟩
  rw [h t, hP] at ht
  cases ht

omit [DecidableEq τ] in
theorem Inv.count_of_quiet [Fintype τ] (hinv : Inv c) (hquiet : Quiet c) :
    c.shared.count = c.shared.watch.elems.card := by
  have htotal : c.total Place.owed = 0 := by
    apply total_eq_zero
    intro t
    rw [hquiet t]
    rfl
  rw [hinv.counted, htotal, sub_zero]

theorem does_noteWrite (t : τ) (hidle : c.place t = .idle) (hcount : c.shared.count ≠ 0)
    (addr len : ℕ) : ∃ d : Bitset n,
      Does t (.noteWrite addr len) c (c.moved t .idle { c.shared with dirty := d }) ∧
      ∀ q, d.has q = true ↔ c.shared.dirty.has q = true ∨
        q ∈ codePageRange addr len ∧ c.shared.watch.has q = true := by
  let pages := codePageRange addr len
  obtain ⟨d, halone, hd⟩ := alone_noteTest t pages (c.moved t (.noteTest pages) c.shared)
    moved_place_self
  rw [moved_moved] at halone
  refine ⟨d, ⟨moved_place_self, c.moved t (.noteCount pages) c.shared, ?_, ?_⟩, hd⟩
  · apply step_eq_some.mpr
    refine ⟨_, _, ?_, rfl⟩
    rw [hidle]
    rfl
  · apply Alone.head (s := c.shared)
    · rw [moved_place_self]
      exact congrArg (fun l => some (l, c.shared)) (if_neg hcount)
    · rw [moved_moved]
      exact halone

theorem does_takeDirty (u : τ) (hidle : c.place u = .idle) (hcount : c.shared.count ≠ 0)
    (hfree : c.shared.locked = false) : ∃ (c' : Conf n τ) (out : List ℕ),
      Does u .takeDirty c c' ∧ c'.shared.drains = c.shared.drains ++ [out] ∧
      ∀ q, q ∈ out ↔ q / 64 ∈ c.shared.words ∧ c.shared.dirty.has q = true := by
  let ws := c.shared.words.sort (· ≤ ·)
  obtain ⟨s, out, halone, hout⟩ := alone_drainScan u (sort_nodup _ (· ≤ ·)) []
    (c.moved u (.drainScan ws []) { c.shared with locked := true }) moved_place_self
  rw [moved_moved] at halone
  refine ⟨c.moved u .idle { s with locked := false, drains := c.shared.drains ++ [out] }, out,
    ⟨moved_place_self, c.moved u .drainCount c.shared, ?_,
      Alone.head (l := .drainLock) (s := c.shared) ?_
        (Alone.head (l := .drainScan ws []) (s := { c.shared with locked := true }) ?_ ?_)⟩,
    rfl, ?_⟩
  · apply step_eq_some.mpr
    refine ⟨_, _, ?_, rfl⟩
    rw [hidle]
    rfl
  · rw [moved_place_self]
    exact congrArg some (if_neg hcount)
  · rw [moved_place_self]
    exact if_neg (eq_false_iff.mp hfree)
  · rw [moved_moved, moved_moved]
    exact halone
  · intro q
    rw [hout, mem_sort]
    exact or_iff_right List.not_mem_nil

/-- A write and then a drain, with no other call under way: the watched pages that were written are
among those the drain returns. -/
theorem write_then_drain [Fintype τ] (hinv : Inv c) (hquiet : Quiet c) {addr len q : ℕ}
    (hq : q ∈ codePageRange addr len) (hwatch : c.shared.watch.has q = true) (t u : τ) :
    ∃ c₁ c₂ out, Does t (.noteWrite addr len) c c₁ ∧ Does u .takeDirty c₁ c₂ ∧
      c₂.shared.drains = c₁.shared.drains ++ [out] ∧ q ∈ out := by
  have hcount : c.shared.count ≠ 0 := by
    have hpos : 0 < c.shared.watch.elems.card :=
      Finset.card_pos.mpr ⟨q, Bitset.mem_elems.mpr hwatch⟩
    rw [hinv.count_of_quiet hquiet]
    omega
  have hfree : c.shared.locked = false :=
    eq_false_iff.mpr fun hlocked => hquiet.none rfl (hinv.held hlocked)
  have hword : q / 64 ∈ c.shared.words :=
    (hinv.listed _ ⟨q, rfl, hwatch⟩).resolve_right (hquiet.none rfl)
  obtain ⟨d, hwrite, hd⟩ := does_noteWrite t (hquiet t) hcount addr len
  have hidle : (c.moved t .idle { c.shared with dirty := d }).place u = .idle := by
    by_cases hut : u = t
    · rw [hut, moved_place_self]
    · rw [moved_place_of_ne hut, hquiet u]
  obtain ⟨c₂, out, hdrain, hlog, hout⟩ := does_takeDirty u hidle hcount hfree
  exact ⟨_, c₂, out, hwrite, hdrain, hlog, (hout q).mpr ⟨hword, (hd q).mpr (.inr ⟨hq, hwatch⟩)⟩⟩

/-- The tables are in line, and a write to a watched page is returned by the next drain. -/
structure InLine {n : ℕ} {τ : Type} [DecidableEq τ] (c : Conf n τ) : Prop where
  words : ∀ w, w ∈ c.shared.words ↔ ∃ h : w < n, c.shared.watch ⟨w, h⟩ ≠ 0
  count : c.shared.count = c.shared.watch.elems.card
  dirty : ∀ q, c.shared.dirty.has q = true → c.shared.watch.has q = true
  drain : ∀ addr len q, q ∈ codePageRange addr len → c.shared.watch.has q = true → ∀ t u : τ,
    ∃ c₁ c₂ out, Does t (.noteWrite addr len) c c₁ ∧ Does u .takeDirty c₁ c₂ ∧
      c₂.shared.drains = c₁.shared.drains ++ [out] ∧ q ∈ out

variable [Fintype τ]

omit [DecidableEq τ] in
theorem inv_start : Inv (start n τ) := by
  have hnone (q : ℕ) : ¬Bitset.has (fun _ : Fin n => 0) q = true := by
    intro hq
    rw [has_of_lt _ (lt_of_has hq)] at hq
    simp at hq
  have hcard : Bitset.elems (fun _ : Fin n => 0) = ∅ := by
    apply eq_empty_of_forall_notMem
    intro q hq
    exact hnone q (Bitset.mem_elems.mp hq)
  have htotal : (start n τ).total Place.owed = 0 := total_eq_zero fun _ => rfl
  constructor
  · change (0 : ℤ) = ((Bitset.elems fun _ : Fin n => 0).card : ℤ) - _
    rw [hcard, htotal]
    rfl
  · rintro w ⟨q, -, hq⟩
    exact absurd hq (hnone q)
  · intro w hw
    exact absurd hw (notMem_empty w)
  · intro q hq
    exact absurd hq (hnone q)
  · exact nofun

theorem Inv.inLine (h : Inv c) (hquiet : Quiet c) : InLine c := by
  constructor
  · intro w
    constructor
    · intro hw
      have huse : InUse c.shared.watch w :=
        (h.used w hw).resolve_right (hquiet.none rfl)
      obtain ⟨q, hq, hin⟩ := huse
      have hlt : w < n := hq ▸ lt_of_has hin
      exact ⟨hlt, (word_ne_zero_iff hlt).mpr ⟨q, hq, hin⟩⟩
    · rintro ⟨hlt, hne⟩
      have huse : InUse c.shared.watch w := (word_ne_zero_iff hlt).mp hne
      exact (h.listed w huse).resolve_right (hquiet.none rfl)
  · exact h.count_of_quiet hquiet
  · intro q hq
    exact (h.clean q hq).resolve_right (hquiet.none rfl)
  · intro addr len q hq hwatch t u
    exact write_then_drain h hquiet hq hwatch t u

/-- In every interleaving whose steps are not made across another call, the tables are in line
whenever no call is under way. -/
theorem inLine_of_apart {acts : List (τ × Act)} (hrun : run step (start n τ) acts = some c)
    (hapart : AllSteps step Apart (start n τ) acts) (hquiet : Quiet c) : InLine c := by
  have hinv : Inv c := by
    apply AllSteps.invariant Inv _ inv_start hapart hrun
    intro c a c' hc ha hstep
    exact hc.step ha hstep
  exact hinv.inLine hquiet

/-- The steps that `Apart` speaks of. -/
def Place.crossable {n : ℕ} : Place n → Bool
  | watchInsert _ | unwatchRemove _ | markOr _ _ => true
  | _ => false

omit [DecidableEq τ] [Fintype τ] in
theorem Apart.of_not_crossable {n : ℕ} {c : Conf n τ} {a : τ × Act}
    (h : (c.place a.1).crossable = false) : Apart c a := by
  constructor
  · intro p hp
    rw [hp] at h
    cases h
  · intro p hp
    rw [hp] at h
    cases h
  · intro p pages hp
    rw [hp] at h
    cases h

/-- Two threads watch a page each in one word, and one of the pages is written. -/
def watchesAndWrite : List (Bool × Act) :=
  [(false, .watch 0), (false, .go), (true, .watch 1), (true, .go), (false, .go), (true, .go),
    (true, .go), (false, .go), (true, .noteWrite 4096 1), (true, .go), (true, .go), (true, .go),
    (true, .go), (true, .go)]

theorem watches_in_line : ∃ c, run step (start 1 Bool) watchesAndWrite = some c ∧
    AllSteps step Apart (start 1 Bool) watchesAndWrite ∧ Quiet c ∧
    c.shared.dirty.has 1 = true ∧ InLine c := by
  have hapart : AllSteps step Apart (start 1 Bool) watchesAndWrite := by
    have insert {c : Conf 1 Bool} {t : Bool} {p : Page 1} (hplace : c.place t = .watchInsert p)
        (huse : InUse c.shared.watch (p.val / 64)) : Apart c (t, .go) := by
      constructor
      · intro q hq
        cases hplace.symm.trans hq
        exact .inl huse
      · intro q hq
        cases hplace.symm.trans hq
      · intro q pages hq
        cases hplace.symm.trans hq
    apply AllSteps.cons (.of_not_crossable rfl) rfl
    apply AllSteps.cons (.of_not_crossable rfl) rfl
    apply AllSteps.cons (.of_not_crossable rfl) rfl
    apply AllSteps.cons (.of_not_crossable rfl) rfl
    apply AllSteps.cons (.of_not_crossable rfl) rfl
    apply AllSteps.cons (.of_not_crossable rfl) rfl
    apply AllSteps.cons (insert rfl ⟨1, rfl, by decide +kernel⟩) rfl
    apply AllSteps.cons (insert rfl ⟨0, rfl, by decide +kernel⟩) rfl
    apply AllSteps.cons (.of_not_crossable rfl) rfl
    apply AllSteps.cons (.of_not_crossable rfl) rfl
    apply AllSteps.cons (.of_not_crossable rfl) rfl
    apply AllSteps.cons (.of_not_crossable rfl) rfl
    refine AllSteps.cons ?_ rfl (AllSteps.cons (.of_not_crossable rfl) rfl trivial)
    constructor
    · intro p hp
      cases hp
    · intro p hp
      cases hp
    · intro p pages hp
      cases hp
      exact .inl (by decide +kernel)
  have hquiet {c : Conf 1 Bool} (hrun : run step (start 1 Bool) watchesAndWrite = some c) :
      Quiet c := by
    cases hrun
    intro t
    cases t <;> rfl
  exact ⟨_, rfl, hapart, hquiet rfl, by decide +kernel, inLine_of_apart rfl hapart (hquiet rfl)⟩

/-- The last page of a word is unwatched by one thread while another watches a page of it. -/
def crossing : List (Bool × Act) :=
  [(false, .watch 0), (false, .go), (false, .go), (false, .go),
    (false, .unwatch 0), (false, .go), (false, .go), (false, .go), (false, .go),
    -- the word has been seen empty, and is still to be taken out of the set
    (true, .watch 1), (true, .go), (true, .go), (true, .go),
    (false, .go)]

/-- Page 1 is watched, yet its word is not in the set, and a drain after a write to it returns
nothing. -/
theorem watched_page_lost : ∃ c c₁ c₂, run step (start 1 Bool) crossing = some c ∧ Quiet c ∧
    c.shared.watch.has 1 = true ∧ 0 ∉ c.shared.words ∧
    Does true (.noteWrite 4096 1) c c₁ ∧ c₁.shared.dirty.has 1 = true ∧
    Does true .takeDirty c₁ c₂ ∧ c₂.shared.drains = [[]] := by
  obtain ⟨c, hrun, hquiet, hwatch, hwords, hcount, hfree, hlog⟩ :
      ∃ c, run step (start 1 Bool) crossing = some c ∧ Quiet c ∧ c.shared.watch.has 1 = true ∧
        c.shared.words = ∅ ∧ c.shared.count ≠ 0 ∧ c.shared.locked = false ∧
        c.shared.drains = [] := by
    refine ⟨_, rfl, ?_, by decide +kernel, by decide +kernel, by decide, rfl, rfl⟩
    intro t
    cases t <;> rfl
  obtain ⟨d, hwrite, hd⟩ := does_noteWrite true (hquiet true) hcount 4096 1
  have hidle : (c.moved true .idle { c.shared with dirty := d }).place true = .idle :=
    moved_place_self
  obtain ⟨c₂, out, hdrain, hout, hmem⟩ := does_takeDirty true hidle hcount hfree
  have hempty : out = [] := by
    apply List.eq_nil_iff_forall_not_mem.mpr
    intro q hq
    have hin : q / 64 ∈ c.shared.words := ((hmem q).mp hq).1
    rw [hwords] at hin
    exact notMem_empty _ hin
  refine ⟨c, _, c₂, hrun, hquiet, hwatch, ?_, hwrite, (hd 1).mpr (.inr ⟨by decide, hwatch⟩),
    hdrain, ?_⟩
  · rw [hwords]
    exact notMem_empty 0
  · rw [hout, hempty]
    change c.shared.drains ++ [[]] = [[]]
    rw [hlog]
    rfl

end X86Jit.WatchRaces
