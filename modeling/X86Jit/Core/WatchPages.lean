import Mathlib.Data.Finset.Sort
import X86Jit.Core.Memory
import X86Jit.Lib.Bitset
import X86Jit.Lib.Coalesce
import X86Jit.Lib.Runs

/-! Dirty tracking of watched data ranges: two bitmaps over the guest pages, the set of
words with a watched page, and the count of watched pages. -/
namespace X86Jit
open X86Jit.Lib Function List Bitset

/-- The tables, `n` words long. `words` are the indices the drain scans. -/
structure WatchPages (n : ℕ) where
  watch : Bitset n
  dirty : Bitset n
  words : Finset ℕ
  count : ℕ

namespace WatchPages
variable {n : ℕ}

def wordsFor (span : ℕ) : ℕ := ((span + 4095) / 4096 + 63) / 64

def new (span : ℕ) : WatchPages (wordsFor span) := ⟨fun _ => 0, fun _ => 0, ∅, 0⟩

variable (s : WatchPages n) (page : ℕ)

def isWatched : Bool :=
  if h : page / 64 < n then s.watch ⟨page / 64, h⟩ &&& Bitset.mask page != 0 else false

def markDirty : WatchPages n :=
  if h : page / 64 < n then
    let word := s.dirty ⟨page / 64, h⟩
    if word &&& Bitset.mask page = 0 then
      { s with dirty := update s.dirty ⟨page / 64, h⟩ (word ||| Bitset.mask page) }
    else s
  else s

def watchPage : WatchPages n :=
  if h : page / 64 < n then
    let word := s.watch ⟨page / 64, h⟩
    let marked := update s.watch ⟨page / 64, h⟩ (word ||| Bitset.mask page)
    if word &&& Bitset.mask page = 0 then
      { s with watch := marked, count := s.count + 1, words := insert (page / 64) s.words }
    else { s with watch := marked }
  else s

def unwatchPage : WatchPages n :=
  if h : page / 64 < n then
    let word := s.watch ⟨page / 64, h⟩
    let cleared := update s.watch ⟨page / 64, h⟩ (word &&& ~~~Bitset.mask page)
    if word &&& Bitset.mask page ≠ 0 then
      { watch := cleared
        dirty := update s.dirty ⟨page / 64, h⟩
          (s.dirty ⟨page / 64, h⟩ &&& ~~~Bitset.mask page)
        words := if cleared ⟨page / 64, h⟩ = 0 then s.words.erase (page / 64) else s.words
        count := s.count - 1 }
    else { s with watch := cleared }
  else s

def watchRange (addr size : ℕ) : WatchPages n :=
  (codePageRange addr size).foldl watchPage s

def unwatchRange (addr size : ℕ) : WatchPages n :=
  (codePageRange addr size).foldl unwatchPage s

/-- The data half of noting a write: the count is read once, before the pages. -/
def noteWrite (addr len : ℕ) : WatchPages n :=
  let watched := s.count != 0
  (codePageRange addr len).foldl
    (fun s page => if watched && s.isWatched page then s.markDirty page else s) s

def drainWord (acc : List ℕ × WatchPages n) (w : ℕ) : List ℕ × WatchPages n :=
  if h : w < n then
    (acc.1 ++ (lowBits (acc.2.dirty ⟨w, h⟩)).map (fun b => w <<< 6 ||| b),
      { acc.2 with dirty := update acc.2.dirty ⟨w, h⟩ 0 })
  else acc

def takeDirty : List ℕ × WatchPages n :=
  if s.count = 0 then ([], s) else (s.words.sort (· ≤ ·)).foldl drainWord ([], s)

def addRange (out : List (ℕ × ℕ)) (p : ℕ) : List (ℕ × ℕ) :=
  let start := p <<< codePageBits
  match out.getLast? with
  | some last =>
    if start = last.1 + last.2 then out.dropLast ++ [(last.1, last.2 + codePageSize)]
    else out ++ [(start, codePageSize)]
  | none => out ++ [(start, codePageSize)]

def takeDirtyRanges : List (ℕ × ℕ) × WatchPages n :=
  (s.takeDirty.1.foldl addRange [], s.takeDirty.2)

inductive Event
  | watch (addr size : ℕ)
  | unwatch (addr size : ℕ)
  | write (addr len : ℕ)
  | drain
  deriving DecidableEq

def act : Event → WatchPages n
  | .watch addr size => s.watchRange addr size
  | .unwatch addr size => s.unwatchRange addr size
  | .write addr len => s.noteWrite addr len
  | .drain => s.takeDirtyRanges.2

def after (span : ℕ) (history : List Event) : WatchPages (wordsFor span) :=
  history.foldl act (new span)

/-- The counter and the word set tell the truth about the bitmap, and only watched pages
are dirty. -/
structure Agrees (s : WatchPages n) : Prop where
  count_eq : s.count = s.watch.elems.card
  mem_words : ∀ w, w ∈ s.words ↔ ∃ p, p / 64 = w ∧ s.watch.has p = true
  dirty_sub : ∀ p, s.dirty.has p = true → s.watch.has p = true

variable {s : WatchPages n} {f : Bitset n}

theorem Agrees.rewrite (hs : s.Agrees)
    (hsame : ∀ q, f.has q = s.watch.has q) : { s with watch := f }.Agrees := by
  constructor
  · have helems : f.elems = s.watch.elems := by
      ext q
      rw [mem_elems, mem_elems, hsame]
    rw [helems]
    exact hs.count_eq
  · intro w
    simp only [hsame]
    exact hs.mem_words w
  · intro q hq
    rw [hsame]
    exact hs.dirty_sub q hq

theorem isWatched_eq : s.isWatched page = s.watch.has page := by
  unfold isWatched
  split
  case isTrue h =>
    have htest := s.watch.mask_test h
    cases hhas : s.watch.has page with
    | true =>
      rw [bne_iff_ne]
      intro h0
      rw [htest.mp h0] at hhas
      cases hhas
    | false =>
      rw [bne_eq_false_iff_eq]
      exact htest.mpr hhas
  case isFalse h => rw [Bitset.has, dif_neg h]

variable {page : ℕ}

theorem markDirty_spec (hs : s.Agrees) (hwatched : s.watch.has page = true) :
    (s.markDirty page).Agrees ∧ (s.markDirty page).watch = s.watch ∧
      s.dirty.Adds page (s.markDirty page).dirty := by
  have h := lt_of_has hwatched
  unfold markDirty
  rw [dif_pos h]
  dsimp only
  split
  case isTrue =>
    have hadds : s.dirty.Adds page _ := fun _ => s.dirty.has_update_or h
    refine ⟨⟨hs.count_eq, hs.mem_words, ?_⟩, rfl, hadds⟩
    intro q hq
    rcases hadds.has_iff.mp hq with hq | rfl
    · exact hs.dirty_sub q hq
    · exact hwatched
  case isFalse hset =>
    rw [s.dirty.mask_test h, Bool.not_eq_false] at hset
    exact ⟨hs, rfl, adds_self hset⟩

theorem Agrees.watched (hs : s.Agrees)
    (hadds : s.watch.Adds page f) (hnew : s.watch.has page = false) :
    Agrees { s with watch := f, count := s.count + 1, words := insert (page / 64) s.words } := by
  refine ⟨?_, ?_, ?_⟩
  · have hout : page ∉ s.watch.elems := by
      rw [mem_elems, hnew]
      exact Bool.false_ne_true
    rw [hadds.elems, Finset.card_insert_of_notMem hout, hs.count_eq]
  · intro w
    rw [Finset.mem_insert, hs.mem_words, hadds.word_iff, or_comm]
  · intro q hq
    exact hadds.has_iff.mpr (.inl (hs.dirty_sub q hq))

theorem watchPage_spec (hs : s.Agrees) (page : ℕ) :
    (s.watchPage page).Agrees ∧ (s.watchPage page).dirty = s.dirty ∧
      ∀ q, (s.watchPage page).watch.has q = true ↔
        s.watch.has q = true ∨ q = page ∧ q / 64 < n := by
  unfold watchPage
  split
  case isFalse h =>
    refine ⟨hs, rfl, ?_⟩
    intro q
    rw [or_iff_left]
    rintro ⟨rfl, hlt⟩
    exact h hlt
  case isTrue h =>
    have hadds : s.watch.Adds page _ := fun _ => s.watch.has_update_or h
    have hinTable (q : ℕ) : q = page ↔ q = page ∧ q / 64 < n :=
      ⟨fun hq => ⟨hq, hq ▸ h⟩, And.left⟩
    dsimp only
    split
    case isTrue hnew =>
      exact ⟨hs.watched hadds ((s.watch.mask_test h).mp hnew), rfl,
        fun q => hadds.has_iff.trans (or_congr_right (hinTable q))⟩
    case isFalse hold =>
      -- The bit was set: the word is written back as it was.
      rw [s.watch.mask_test h, Bool.not_eq_false] at hold
      exact ⟨hs.rewrite fun q => (hadds q).trans (adds_self hold q).symm, rfl,
        fun q => hadds.has_iff.trans (or_congr_right (hinTable q))⟩

theorem Agrees.unwatched (hs : s.Agrees) (h : page / 64 < n)
    {g : Bitset n} (hwatch : s.watch.Drops page f) (hdirty : s.dirty.Drops page g)
    (hset : s.watch.has page = true) :
    Agrees ⟨f, g, if f ⟨page / 64, h⟩ = 0 then s.words.erase (page / 64) else s.words,
      s.count - 1⟩ := by
  refine ⟨?_, ?_, ?_⟩
  · dsimp only
    rw [hwatch.elems, Finset.card_erase_of_mem (Bitset.mem_elems.mpr hset), hs.count_eq]
  · intro w
    by_cases hw : w = page / 64
    · rw [hw, ← word_ne_zero_iff h]
      split
      case isTrue h0 => exact ⟨fun hin => absurd rfl (Finset.ne_of_mem_erase hin), absurd h0⟩
      case isFalse h0 => exact ⟨fun _ => h0, fun _ => (hs.mem_words _).mpr ⟨page, rfl, hset⟩⟩
    · rw [hwatch.word_iff hw, ← hs.mem_words]
      split
      · rw [Finset.mem_erase]
        exact and_iff_right hw
      · rfl
  · intro q hq
    obtain ⟨hq, hne⟩ := hdirty.has_iff.mp hq
    exact hwatch.has_iff.mpr ⟨hs.dirty_sub q hq, hne⟩

theorem unwatchPage_spec (hs : s.Agrees) (page : ℕ) :
    (s.unwatchPage page).Agrees ∧ s.watch.Drops page (s.unwatchPage page).watch ∧
      s.dirty.Drops page (s.unwatchPage page).dirty := by
  unfold unwatchPage
  split
  case isFalse h =>
    have hout (f : Bitset n) : f.has page = false := dif_neg h
    exact ⟨hs, drops_self (hout _), drops_self (hout _)⟩
  case isTrue h =>
    have hwatch : s.watch.Drops page _ := fun _ => s.watch.has_update_and h
    have hdirty : s.dirty.Drops page _ := fun _ => s.dirty.has_update_and h
    dsimp only
    split
    case isTrue hset =>
      rw [Ne, s.watch.mask_test h, Bool.not_eq_false] at hset
      exact ⟨hs.unwatched h hwatch hdirty hset, hwatch, hdirty⟩
    case isFalse hclear =>
      have hhas : s.watch.has page = false := (s.watch.mask_test h).mp (not_not.mp hclear)
      have hhas' : s.dirty.has page = false := by
        by_contra hd
        rw [Bool.not_eq_false] at hd
        rw [hs.dirty_sub page hd] at hhas
        cases hhas
      exact ⟨hs.rewrite fun q => (hwatch q).trans (drops_self hhas q).symm, hwatch,
        drops_self hhas'⟩

theorem watchPages_spec (hs : s.Agrees) (pages : List ℕ) :
    (pages.foldl watchPage s).Agrees ∧ (pages.foldl watchPage s).dirty = s.dirty ∧
      ∀ q, (pages.foldl watchPage s).watch.has q = true ↔
        s.watch.has q = true ∨ (q ∈ pages ∧ q / 64 < n) := by
  induction pages generalizing s with
  | nil => exact ⟨hs, rfl, fun q => by simp⟩
  | cons page pages ih =>
    obtain ⟨hs', hdirty, hwatch⟩ := watchPage_spec hs page
    obtain ⟨hagrees, hdirty', hwatch'⟩ := ih hs'
    refine ⟨hagrees, hdirty'.trans hdirty, ?_⟩
    intro q
    rw [foldl_cons, hwatch', hwatch, or_assoc, mem_cons, or_and_right]

theorem unwatchPages_spec (hs : s.Agrees) (pages : List ℕ) : (pages.foldl unwatchPage s).Agrees ∧
      (∀ q, (pages.foldl unwatchPage s).watch.has q = true ↔ s.watch.has q = true ∧ q ∉ pages) ∧
      ∀ q, (pages.foldl unwatchPage s).dirty.has q = true ↔ s.dirty.has q = true ∧ q ∉ pages := by
  induction pages generalizing s with
  | nil => exact ⟨hs, fun q => by simp, fun q => by simp⟩
  | cons page pages ih =>
    obtain ⟨hs', hwatch, hdirty⟩ := unwatchPage_spec hs page
    obtain ⟨hagrees, hwatch', hdirty'⟩ := ih hs'
    refine ⟨hagrees, ?_, ?_⟩
    · intro q
      rw [foldl_cons, hwatch', hwatch.has_iff, mem_cons, not_or, and_assoc]
    · intro q
      rw [foldl_cons, hdirty', hdirty.has_iff, mem_cons, not_or, and_assoc]

theorem notePage_spec (hs : s.Agrees) {watched : Bool}
    (hcount : s.watch.has page = true → watched = true) {s' : WatchPages n}
    (hs' : (if watched && s.isWatched page then s.markDirty page else s) = s') :
    s'.Agrees ∧ s'.watch = s.watch ∧ ∀ q, s'.dirty.has q = true ↔
      s.dirty.has q = true ∨ q = page ∧ s.watch.has q = true := by
  rw [isWatched_eq] at hs'
  by_cases hpage : s.watch.has page = true
  · rw [hcount hpage, hpage] at hs'
    obtain rfl : s.markDirty page = s' := hs'
    obtain ⟨hagrees, hwatch, hdirty⟩ := markDirty_spec hs hpage
    refine ⟨hagrees, hwatch, fun q => hdirty.has_iff.trans (or_congr_right ⟨?_, And.left⟩)⟩
    rintro rfl
    exact ⟨rfl, hpage⟩
  · rw [Bool.not_eq_true] at hpage
    rw [hpage, Bool.and_false] at hs'
    obtain rfl : s = s' := hs'
    refine ⟨hs, rfl, fun q => (or_iff_left ?_).symm⟩
    rintro ⟨rfl, hq⟩
    rw [hpage] at hq
    cases hq

theorem noteWrite_spec (hs : s.Agrees) (addr len : ℕ) :
    (s.noteWrite addr len).Agrees ∧ (s.noteWrite addr len).watch = s.watch ∧
      ∀ q, (s.noteWrite addr len).dirty.has q = true ↔
        s.dirty.has q = true ∨ (q ∈ codePageRange addr len ∧ s.watch.has q = true) := by
  have hcount : ∀ q, s.watch.has q = true → (s.count != 0) = true := by
    intro q hq
    rw [bne_iff_ne, hs.count_eq]
    exact Finset.card_ne_zero_of_mem (Bitset.mem_elems.mpr hq)
  unfold noteWrite
  generalize (s.count != 0) = watched at hcount
  generalize codePageRange addr len = pages
  induction pages generalizing s with
  | nil => exact ⟨hs, rfl, fun q => by simp⟩
  | cons page pages ih =>
    rw [foldl_cons]
    obtain ⟨hs', hwatch, hdirty⟩ := notePage_spec hs (hcount page) rfl
    obtain ⟨hagrees, hwatch', hdirty'⟩ := ih hs' (by rw [hwatch]; exact hcount)
    refine ⟨hagrees, hwatch'.trans hwatch, ?_⟩
    intro q
    rw [hdirty', hdirty, hwatch, or_assoc, mem_cons, or_and_right]

def pagesOf (f : Bitset n) (w : ℕ) : List ℕ :=
  if h : w < n then (lowBits (f ⟨w, h⟩)).map fun b => w <<< 6 ||| b else []

theorem shiftLeft_or {w b : ℕ} (hb : b < 64) : w <<< 6 ||| b = 64 * w + b := by
  rw [← Nat.shiftLeft_add_eq_or_of_lt (show b < 2 ^ 6 from hb), Nat.shiftLeft_eq, Nat.mul_comm]

theorem mem_pagesOf {w p : ℕ} : p ∈ pagesOf f w ↔ p / 64 = w ∧ f.has p = true := by
  unfold pagesOf
  split
  case isTrue h =>
    have hbits := (lowBits_spec (f ⟨w, h⟩)).1
    rw [mem_map]
    constructor
    · rintro ⟨b, hb, rfl⟩
      rw [hbits] at hb
      have hlt : b < 64 := BitVec.lt_of_getLsbD hb
      rw [shiftLeft_or hlt]
      have hdiv : (64 * w + b) / 64 = w := by omega
      have hmod : (64 * w + b) % 64 = b := by omega
      refine ⟨hdiv, ?_⟩
      rw [has_of_lt f (by rw [hdiv]; exact h), hmod]
      simp only [hdiv]
      exact hb
    · rintro ⟨rfl, hp⟩
      rw [has_of_lt f h] at hp
      refine ⟨p % 64, (hbits _).mpr hp, ?_⟩
      rw [shiftLeft_or (Nat.mod_lt p (by decide))]
      exact Nat.div_add_mod p 64
  case isFalse h =>
    refine ⟨fun hp => absurd hp not_mem_nil, ?_⟩
    rintro ⟨rfl, hp⟩
    exact absurd (lt_of_has hp) h

theorem pairwise_pagesOf (f : Bitset n) (w : ℕ) : (pagesOf f w).Pairwise (· < ·) := by
  unfold pagesOf
  split
  case isTrue h =>
    obtain ⟨hbits, hsorted⟩ := lowBits_spec (f ⟨w, h⟩)
    rw [pairwise_map]
    refine hsorted.imp_of_mem ?_
    intro b b' hb hb' hlt
    rw [shiftLeft_or (BitVec.lt_of_getLsbD ((hbits b).mp hb)),
      shiftLeft_or (BitVec.lt_of_getLsbD ((hbits b').mp hb'))]
    omega
  case isFalse => exact List.Pairwise.nil

theorem drainWord_spec (acc : List ℕ × WatchPages n) (w : ℕ) :
    (drainWord acc w).1 = acc.1 ++ pagesOf acc.2.dirty w ∧
      (drainWord acc w).2.watch = acc.2.watch ∧ (drainWord acc w).2.words = acc.2.words ∧
      (drainWord acc w).2.count = acc.2.count ∧
      (∀ w', w' ≠ w → pagesOf (drainWord acc w).2.dirty w' = pagesOf acc.2.dirty w') ∧
      ∀ q, (drainWord acc w).2.dirty.has q = true ↔ acc.2.dirty.has q = true ∧ q / 64 ≠ w := by
  by_cases h : w < n
  · rw [drainWord, dif_pos h, pagesOf, dif_pos h]
    refine ⟨rfl, rfl, rfl, rfl, ?_, ?_⟩
    · intro w' hne
      unfold pagesOf
      split
      case isTrue h' =>
        have hfin : (⟨w', h'⟩ : Fin n) ≠ ⟨w, h⟩ := fun he => hne (Fin.mk.inj he)
        dsimp only
        rw [update_of_ne hfin]
      case isFalse => rfl
    · intro q
      rw [has_update]
      split
      case isTrue heq => simp [heq]
      case isFalse hne => exact (and_iff_left hne).symm
  · rw [drainWord, dif_neg h, pagesOf, dif_neg h]
    refine ⟨(append_nil _).symm, rfl, rfl, rfl, fun _ _ => rfl, ?_⟩
    intro q
    refine ⟨fun hq => ⟨hq, ?_⟩, And.left⟩
    rintro rfl
    exact h (lt_of_has hq)

theorem drainWords_spec (acc : List ℕ × WatchPages n) {ws : List ℕ} (hws : ws.Nodup) :
    (ws.foldl drainWord acc).1 = acc.1 ++ ws.flatMap (pagesOf acc.2.dirty) ∧
      (ws.foldl drainWord acc).2.watch = acc.2.watch ∧
      (ws.foldl drainWord acc).2.words = acc.2.words ∧
      (ws.foldl drainWord acc).2.count = acc.2.count ∧
      ∀ q, (ws.foldl drainWord acc).2.dirty.has q = true ↔
        acc.2.dirty.has q = true ∧ q / 64 ∉ ws := by
  induction ws generalizing acc with
  | nil => exact ⟨by simp, rfl, rfl, rfl, fun q => by simp⟩
  | cons w ws ih =>
    obtain ⟨hw, hws⟩ := List.nodup_cons.mp hws
    obtain ⟨hfirst, hwatch, hwords, hcount, hother, hdirty⟩ := drainWord_spec acc w
    obtain ⟨hpages, hwatch', hwords', hcount', hdirty'⟩ := ih (drainWord acc w) hws
    -- The words still to come are as they were.
    have hrest : ws.flatMap (pagesOf (drainWord acc w).2.dirty) =
        ws.flatMap (pagesOf acc.2.dirty) :=
      flatMap_congr fun w' hw' => hother w' fun he => hw (he ▸ hw')
    rw [foldl_cons]
    refine ⟨?_, hwatch'.trans hwatch, hwords'.trans hwords, hcount'.trans hcount, ?_⟩
    · rw [hpages, hfirst, hrest, flatMap_cons, List.append_assoc]
    · intro q
      rw [hdirty', hdirty, mem_cons, not_or, and_assoc]

theorem takeDirty_spec (hs : s.Agrees) :
    (∀ p, p ∈ s.takeDirty.1 ↔ s.dirty.has p = true) ∧ s.takeDirty.1.Pairwise (· < ·) ∧
      s.takeDirty.2.Agrees ∧ s.takeDirty.2.watch = s.watch ∧
      ∀ q, ¬s.takeDirty.2.dirty.has q = true := by
  unfold takeDirty
  split
  case isTrue h0 =>
    have hnone (q : ℕ) : ¬s.dirty.has q = true := by
      intro hq
      have hmem := Bitset.mem_elems.mpr (hs.dirty_sub q hq)
      rw [hs.count_eq] at h0
      exact Finset.card_ne_zero_of_mem hmem h0
    refine ⟨fun p => ?_, List.Pairwise.nil, hs, rfl, hnone⟩
    exact ⟨fun hp => absurd hp not_mem_nil, fun hp => absurd hp (hnone p)⟩
  case isFalse =>
    have hsorted : (s.words.sort (· ≤ ·)).Pairwise (· < ·) :=
      (Finset.sortedLT_sort s.words).pairwise
    have hnodup := Finset.sort_nodup s.words (· ≤ ·)
    have hword (p : ℕ) (hp : s.dirty.has p = true) : p / 64 ∈ s.words.sort (· ≤ ·) := by
      rw [Finset.mem_sort, hs.mem_words]
      exact ⟨p, rfl, hs.dirty_sub p hp⟩
    obtain ⟨hpages, hwatch, hwords, hcount, hdirty⟩ := drainWords_spec ([], s) hnodup
    have hnone (q : ℕ) : ¬((s.words.sort (· ≤ ·)).foldl drainWord ([], s)).2.dirty.has q = true := by
      rw [hdirty]
      exact fun hq => hq.2 (hword q hq.1)
    refine ⟨?_, ?_, ⟨?_, ?_, ?_⟩, hwatch, hnone⟩
    · intro p
      rw [hpages, nil_append, mem_flatMap]
      constructor
      · rintro ⟨w, -, hp⟩
        exact (mem_pagesOf.mp hp).2
      · intro hp
        exact ⟨p / 64, hword p hp, mem_pagesOf.mpr ⟨rfl, hp⟩⟩
    · rw [hpages, nil_append, pairwise_flatMap]
      refine ⟨fun w _ => pairwise_pagesOf s.dirty w, ?_⟩
      refine hsorted.imp ?_
      intro w w' hlt p hp p' hp'
      have hp := (mem_pagesOf.mp hp).1
      have hp' := (mem_pagesOf.mp hp').1
      omega
    · rw [hcount, hwatch]
      exact hs.count_eq
    · rw [hwords, hwatch]
      exact hs.mem_words
    · exact fun q hq => absurd hq (hnone q)

def byteRange (q : ℕ × ℕ) : ℕ × ℕ := (q.1 * codePageSize, q.2 * codePageSize)

theorem addRange_map (runs : List (ℕ × ℕ)) (p : ℕ) :
    addRange (runs.map byteRange) p = (joinRun runs p).map byteRange := by
  have hstart : p <<< codePageBits = p * codePageSize := Nat.shiftLeft_eq p codePageBits
  have hone : (p * codePageSize, codePageSize) = byteRange (p, 1) := by
    rw [byteRange, Nat.one_mul]
  rcases eq_nil_or_concat runs with rfl | ⟨init, q, rfl⟩
  · unfold addRange
    dsimp only
    rw [hstart, hone]
    rfl
  · rw [concat_eq_append, joinRun_concat, map_append, map_singleton]
    unfold addRange
    rw [List.getLast?_concat]
    dsimp only
    have hjoin : p * codePageSize = (byteRange q).1 + (byteRange q).2 ↔ p = q.1 + q.2 := by
      unfold byteRange codePageSize
      omega
    rw [hstart, hone, dropLast_concat]
    by_cases h : p = q.1 + q.2
    · have hmore : ((byteRange q).1, (byteRange q).2 + codePageSize) =
          byteRange (q.1, q.2 + 1) := by
        rw [byteRange, byteRange, Nat.succ_mul]
      rw [if_pos (hjoin.mpr h), if_pos h, map_append, map_singleton, hmore]
    · rw [if_neg fun hj => h (hjoin.mp hj), if_neg h, map_append, map_append,
        map_singleton, map_singleton]

theorem addRanges_map (pages : List ℕ) (runs : List (ℕ × ℕ)) :
    pages.foldl addRange (runs.map byteRange) = (pages.foldl joinRun runs).map byteRange := by
  induction pages generalizing runs with
  | nil => rfl
  | cons p pages ih => rw [foldl_cons, addRange_map, ih, foldl_cons]

def Event.Watches (p : ℕ) : Event → Prop
  | .watch addr size => p ∈ codePageRange addr size
  | _ => False

def Event.Unwatches (p : ℕ) : Event → Prop
  | .unwatch addr size => p ∈ codePageRange addr size
  | _ => False

def Event.Writes (p : ℕ) : Event → Prop
  | .write addr len => p ∈ codePageRange addr len
  | _ => False

def WatchedAfter (n p : ℕ) (history : List Event) : Prop :=
  p / 64 < n ∧ Since (fun _ e => e.Watches p) (Event.Unwatches p) history

/-- The page was written while watched, and neither unwatched nor drained since. -/
def DirtyAfter (n p : ℕ) (history : List Event) : Prop :=
  Since (fun before e => e.Writes p ∧ WatchedAfter n p before)
    (fun e => e.Unwatches p ∨ e = .drain) history

structure Tracks (s : WatchPages n) (history : List Event) : Prop where
  agrees : s.Agrees
  watch_iff : ∀ p, s.watch.has p = true ↔ WatchedAfter n p history
  dirty_iff : ∀ p, s.dirty.has p = true ↔ DirtyAfter n p history

theorem Tracks.new (span : ℕ) : Tracks (new span) [] := by
  have hnone (p : ℕ) : ¬Bitset.has (fun _ : Fin (wordsFor span) => 0) p = true := by
    intro hp
    rw [has_of_lt _ (lt_of_has hp)] at hp
    simp at hp
  refine ⟨⟨?_, ?_, fun p hp => absurd hp (hnone p)⟩, ?_, ?_⟩
  · symm
    apply Finset.card_eq_zero.mpr
    apply Finset.eq_empty_of_forall_notMem
    intro p hp
    exact hnone p (Bitset.mem_elems.mp hp)
  · intro w
    refine ⟨fun hw => absurd hw (Finset.notMem_empty w), ?_⟩
    rintro ⟨p, -, hp⟩
    exact absurd hp (hnone p)
  · intro p
    exact ⟨fun hp => absurd hp (hnone p), fun hp => absurd hp.2 not_since_nil⟩
  · intro p
    exact ⟨fun hp => absurd hp (hnone p), fun hp => absurd hp not_since_nil⟩

variable {history : List Event}

theorem watchedAfter_concat {p : ℕ} {e : Event} : WatchedAfter n p (history ++ [e]) ↔
      (p / 64 < n ∧ e.Watches p) ∨ (WatchedAfter n p history ∧ ¬e.Unwatches p) := by
  unfold WatchedAfter
  rw [since_concat, and_or_left, and_assoc]

theorem dirtyAfter_concat {p : ℕ} {e : Event} :
    DirtyAfter n p (history ++ [e]) ↔ (e.Writes p ∧ WatchedAfter n p history) ∨
      (DirtyAfter n p history ∧ ¬(e.Unwatches p ∨ e = .drain)) := since_concat

theorem Tracks.act (h : Tracks s history) (e : Event) : Tracks (s.act e) (history ++ [e]) := by
  cases e with
  | watch addr size =>
    obtain ⟨hagrees, hdirty, hwatch⟩ := watchPages_spec h.agrees (codePageRange addr size)
    refine ⟨hagrees, ?_, ?_⟩
    · intro p
      rw [watchedAfter_concat, ← h.watch_iff]
      refine (hwatch p).trans ?_
      simp only [Event.Watches, Event.Unwatches, not_false_eq_true, and_true]
      rw [or_comm, and_comm]
    · intro p
      rw [dirtyAfter_concat, ← h.dirty_iff]
      have hsame : (s.act (.watch addr size)).dirty = s.dirty := hdirty
      rw [hsame]
      simp [Event.Writes, Event.Unwatches]
  | unwatch addr size =>
    obtain ⟨hagrees, hwatch, hdirty⟩ := unwatchPages_spec h.agrees (codePageRange addr size)
    refine ⟨hagrees, ?_, ?_⟩
    · intro p
      rw [watchedAfter_concat, ← h.watch_iff]
      refine (hwatch p).trans ?_
      simp [Event.Watches, Event.Unwatches]
    · intro p
      rw [dirtyAfter_concat, ← h.dirty_iff]
      refine (hdirty p).trans ?_
      simp [Event.Writes, Event.Unwatches]
  | write addr len =>
    obtain ⟨hagrees, hwatch, hdirty⟩ := noteWrite_spec h.agrees addr len
    refine ⟨hagrees, ?_, ?_⟩
    · intro p
      rw [watchedAfter_concat, ← h.watch_iff]
      have hsame : (s.act (.write addr len)).watch = s.watch := hwatch
      rw [hsame]
      simp [Event.Watches, Event.Unwatches]
    · intro p
      rw [dirtyAfter_concat, ← h.dirty_iff, ← h.watch_iff]
      refine (hdirty p).trans ?_
      simp only [Event.Writes, Event.Unwatches, false_or, reduceCtorEq, not_false_eq_true, and_true]
      rw [or_comm]
  | drain =>
    obtain ⟨-, -, hagrees, hwatch, hdirty⟩ := takeDirty_spec h.agrees
    refine ⟨hagrees, ?_, ?_⟩
    · intro p
      rw [watchedAfter_concat, ← h.watch_iff]
      have hsame : (s.act .drain).watch = s.watch := hwatch
      rw [hsame]
      simp [Event.Watches, Event.Unwatches]
    · intro p
      rw [dirtyAfter_concat]
      refine ⟨fun hp => absurd hp (hdirty p), ?_⟩
      simp [Event.Writes]

theorem tracks_after (span : ℕ) (history : List Event) : Tracks (after span history) history := by
  induction history using reverseRecOn with
  | nil => exact Tracks.new span
  | append_singleton history e ih =>
    have hstep := ih.act e
    unfold after at hstep ⊢
    rw [foldl_append]
    exact hstep

/-- After every history a drain hands out, in ascending order, exactly the maximal runs of the pages
written while watched since the last drain and since they were last watched, and the counter and the
word set agree with the bitmap. -/
theorem drain_reports_runs (span : ℕ) (history : List Event) :
    (∃ runs, IsRuns (fun p => WatchedAfter (wordsFor span) p history ∧
        DirtyAfter (wordsFor span) p history) runs ∧
      (after span history).takeDirtyRanges.1 = runs.map byteRange) ∧
    (after span history).count = (after span history).watch.elems.card ∧
    ∀ w, w ∈ (after span history).words ↔
      ∃ h : w < wordsFor span, (after span history).watch ⟨w, h⟩ ≠ 0 := by
  have htracks := tracks_after span history
  obtain ⟨hmem, hsorted, -, -, -⟩ := takeDirty_spec htracks.agrees
  refine ⟨⟨_, ?_, addRanges_map _ []⟩, htracks.agrees.count_eq, ?_⟩
  · have hset : (fun p => WatchedAfter (wordsFor span) p history ∧
        DirtyAfter (wordsFor span) p history) = (· ∈ (after span history).takeDirty.1) := by
      funext p
      apply propext
      rw [hmem, ← htracks.watch_iff, ← htracks.dirty_iff]
      exact and_iff_right_of_imp (htracks.agrees.dirty_sub p)
    rw [hset]
    exact isRuns_foldl hsorted
  · intro w
    rw [htracks.agrees.mem_words]
    constructor
    · rintro ⟨p, rfl, hp⟩
      have hlt := lt_of_has hp
      exact ⟨hlt, (word_ne_zero_iff hlt).mpr ⟨p, rfl, hp⟩⟩
    · rintro ⟨hlt, hne⟩
      exact (word_ne_zero_iff hlt).mp hne

def Event.Stores (p : ℕ) : Event → Prop
  | .write addr len => ∃ b, addr ≤ b ∧ b < addr + len ∧ b / codePageSize = p
  | _ => False

theorem lowBits_one : lowBits 1 = [0] := by
  have hctz : (1 : BitVec 64).ctz.toNat = 0 := by decide +kernel
  rw [lowBits, dif_neg (by decide), hctz, lowBits, dif_pos (by decide)]

theorem empty_write_reported :
    (after 4096 [.watch 0 1, .write 0 0]).takeDirtyRanges.1 = [(0, 4096)] ∧
      ∀ e ∈ [Event.watch 0 1, .write 0 0], ∀ p, ¬e.Stores p := by
  have hcount : (after 4096 [.watch 0 1, .write 0 0]).count = 1 := by decide
  have hwords : (after 4096 [.watch 0 1, .write 0 0]).words = {0} := by decide
  have hlt : 0 < wordsFor 4096 := by decide
  have hdirty : (after 4096 [.watch 0 1, .write 0 0]).dirty ⟨0, hlt⟩ = 1 := rfl
  constructor
  · unfold takeDirtyRanges takeDirty
    rw [hcount, if_neg one_ne_zero, hwords, Finset.sort_singleton]
    have hpages : (drainWord ([], after 4096 [.watch 0 1, .write 0 0]) 0).1 = [0] := by
      unfold drainWord
      rw [dif_pos hlt]
      rw [hdirty, lowBits_one]
      rfl
    rw [foldl_cons, foldl_nil, hpages]
    rfl
  · intro e he p hp
    rw [mem_pair] at he
    rcases he with rfl | rfl
    · exact hp
    · obtain ⟨b, -, hb, -⟩ := hp
      exact absurd hb (Nat.not_lt_zero b)

end WatchPages
end X86Jit
