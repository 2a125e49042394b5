import Mathlib.Data.List.AList
import X86Jit.Core.Cache
import X86Jit.Lib.Runs

/-! The translation cache as the separate maps it is made of. Ends of ranges are machine words,
and an end that wraps hides a unit from the writes to it. -/
namespace X86Jit.CacheMaps
open X86Jit.Lib List BitVec AList

/-- A range `(start, len)` as it is recorded: any two machine words. -/
structure ByteRange where
  start : U64
  len : U32
  deriving DecidableEq

namespace ByteRange

variable (r : ByteRange) (lo hi : U64)

def overlaps : Bool :=
  decide (r.start < hi) && decide (lo < r.start + r.len.setWidth 64)

def stop : ℕ := r.start.toNat + r.len.toNat

def Meets : Prop :=
  ∃ b, r.start.toNat ≤ b ∧ b < r.stop ∧ lo.toNat ≤ b ∧ b < hi.toNat

/-- The range or `[lo, hi)` is empty, and the one lies inside the other. -/
def Spurious : Prop :=
  r.stop < 2 ^ 64 ∧ r.start < hi ∧ lo.toNat < r.stop ∧ (r.len = 0 ∨ hi ≤ lo)

/-- The end of the range has wrapped to an address that is not beyond `lo`. -/
def Missed : Prop :=
  2 ^ 64 ≤ r.stop ∧ r.start < hi ∧ lo < hi ∧ r.stop - 2 ^ 64 ≤ lo.toNat

variable {r : ByteRange} {lo hi : U64}

theorem overlaps_iff : r.overlaps lo hi = true ↔ r.start < hi ∧ lo.toNat < r.stop % 2 ^ 64 := by
  rw [overlaps, Bool.and_eq_true, decide_eq_true_eq, decide_eq_true_eq, lt_def,
    lt_def, toNat_add, toNat_setWidth, Nat.add_mod_mod, stop]

theorem meets_iff : r.Meets lo hi ↔
    0 < r.len.toNat ∧ lo < hi ∧ r.start < hi ∧ lo.toNat < r.stop := by
  rw [lt_def, lt_def]
  constructor
  · rintro ⟨b, h₁, h₂, h₃, h₄⟩
    have hstop : r.stop = r.start.toNat + r.len.toNat := rfl
    omega
  · rintro ⟨hlen, hrange, hstart, hlo⟩
    have hstop : r.stop = r.start.toNat + r.len.toNat := rfl
    exact ⟨max r.start.toNat lo.toNat, by omega, by omega, by omega, by omega⟩

theorem spurious_iff : r.Spurious lo hi ↔ r.overlaps lo hi = true ∧ ¬r.Meets lo hi := by
  have hstop : r.stop = r.start.toNat + r.len.toNat := rfl
  have hzero : r.len = 0 ↔ r.len.toNat = 0 := by
    rw [← toNat_inj]
    rfl
  rw [overlaps_iff, meets_iff, Spurious, hzero, le_def, lt_def, lt_def]
  by_cases hwrap : r.stop < 2 ^ 64
  · rw [Nat.mod_eq_of_lt hwrap]
    omega
  · have hend : r.stop % 2 ^ 64 = r.stop - 2 ^ 64 := by
      omega
    -- the wrapped end lies below the start, so `lo` lies below `hi`
    omega

theorem missed_iff : r.Missed lo hi ↔ r.Meets lo hi ∧ ¬r.overlaps lo hi = true := by
  have hstop : r.stop = r.start.toNat + r.len.toNat := rfl
  rw [overlaps_iff, meets_iff, Missed, lt_def, lt_def]
  by_cases hwrap : r.stop < 2 ^ 64
  · rw [Nat.mod_eq_of_lt hwrap]
    omega
  · have hend : r.stop % 2 ^ 64 = r.stop - 2 ^ 64 := by
      omega
    omega

end ByteRange

/-- A range that the test judges right decides; otherwise one is missed exactly when another is
taken for nothing. -/
def Fair (rs : List ByteRange) (lo hi : U64) : Prop :=
  (∃ r ∈ rs, r.overlaps lo hi = true ∧ r.Meets lo hi) ∨
    ((∃ r ∈ rs, r.Spurious lo hi) ↔ ∃ r ∈ rs, r.Missed lo hi)

theorem fair_iff {rs : List ByteRange} {lo hi : U64} : Fair rs lo hi ↔
    ((∃ r ∈ rs, r.overlaps lo hi = true) ↔ ∃ r ∈ rs, r.Meets lo hi) := by
  simp only [Fair, ByteRange.spurious_iff, ByteRange.missed_iff]
  constructor
  · rintro (⟨r, hr, htest, hmeets⟩ | hboth)
    · exact ⟨fun _ => ⟨r, hr, hmeets⟩, fun _ => ⟨r, hr, htest⟩⟩
    · constructor
      · rintro ⟨r, hr, htest⟩
        by_cases hmeets : r.Meets lo hi
        · exact ⟨r, hr, hmeets⟩
        · obtain ⟨r', hr', hmeets', -⟩ := hboth.mp ⟨r, hr, htest, hmeets⟩
          exact ⟨r', hr', hmeets'⟩
      · rintro ⟨r, hr, hmeets⟩
        by_cases htest : r.overlaps lo hi = true
        · exact ⟨r, hr, htest⟩
        · obtain ⟨r', hr', htest', -⟩ := hboth.mpr ⟨r, hr, hmeets, htest⟩
          exact ⟨r', hr', htest'⟩
  · intro hiff
    by_cases hcaught : ∃ r ∈ rs, r.overlaps lo hi = true ∧ r.Meets lo hi
    · exact .inl hcaught
    · right
      constructor
      · rintro ⟨r, hr, htest, -⟩
        obtain ⟨r', hr', hmeets'⟩ := hiff.mp ⟨r, hr, htest⟩
        exact ⟨r', hr', hmeets', fun htest' => hcaught ⟨r', hr', htest', hmeets'⟩⟩
      · rintro ⟨r, hr, hmeets, -⟩
        obtain ⟨r', hr', htest'⟩ := hiff.mpr ⟨r, hr, hmeets⟩
        exact ⟨r', hr', htest', fun hmeets' => hcaught ⟨r', hr', htest', hmeets'⟩⟩

abbrev Map (β : Type) := AList fun _ : BlockKey => β

inductive Effect (α : Type)
  | mark (spans : List ByteRange)
  | clearPage
  | publish (what : α)

structure Maps (α : Type) where
  map : Map CachedBlock
  spans : Map (List ByteRange)
  epoch : U64
  hotness : Map U32
  tierPending : Finset BlockKey
  effects : List (Effect α)

variable {α : Type}

namespace Maps

def new : Maps α := ⟨∅, ∅, 0, ∅, ∅, []⟩

variable (c : Maps α) (key : BlockKey)

def bumpHotness : Maps α × U32 :=
  let count := (c.hotness.lookup key).getD 0 + 1
  ({ c with hotness := c.hotness.insert key count }, count)

variable (block : CachedBlock)

def upgrade (span : ByteRange) (sinceEpoch : U64) : Maps α × Bool :=
  if c.epoch ≠ sinceEpoch then (c, false)
  else ({ c with
    spans := c.spans.insert key [span]
    map := c.map.insert key block
    hotness := c.hotness.erase key }, true)

def upgradeRegion (spans : List ByteRange) (sinceEpoch : U64) : Maps α × Bool :=
  if c.epoch ≠ sinceEpoch then (c, false)
  else ({ c with
    effects := c.effects ++ [.mark spans]
    map := c.map.insert key block
    spans := c.spans.insert key spans
    hotness := c.hotness.erase key }, true)

def publishIfCurrent (sinceEpoch : U64) (what : α) : Maps α × Bool :=
  if c.epoch ≠ sinceEpoch then (c, false)
  else ({ c with effects := c.effects ++ [.publish what] }, true)

def tryBeginTierUp : Maps α × Bool :=
  ({ c with tierPending := Insert.insert key c.tierPending }, decide (key ∉ c.tierPending))

def endTierUp : Maps α :=
  { c with tierPending := c.tierPending.erase key }

def insert (spans : List ByteRange) : Maps α :=
  { c with
    effects := c.effects ++ [.mark spans]
    map := c.map.insert key block
    spans := c.spans.insert key spans }

def victims (lo hi : U64) : List BlockKey :=
  (c.spans.entries.filter fun e => e.2.any fun r => r.overlaps lo hi).map Sigma.fst

def forget : Maps α :=
  { c with
    spans := c.spans.erase key
    map := c.map.erase key
    hotness := c.hotness.erase key
    tierPending := c.tierPending.erase key }

def invalidateOverlapping (lo hi : U64) : Maps α × List BlockKey :=
  let victims := c.victims lo hi
  let c' := victims.foldl forget c
  ({ c' with
    effects := c'.effects ++ [.clearPage]
    epoch := if victims.isEmpty then c'.epoch else c'.epoch + 1 }, victims)

end Maps

inductive Call (α : Type)
  | insert (key : BlockKey) (block : CachedBlock) (spans : List ByteRange)
  | upgrade (key : BlockKey) (block : CachedBlock) (span : ByteRange) (sinceEpoch : U64)
  | upgradeRegion (key : BlockKey) (block : CachedBlock) (spans : List ByteRange)
      (sinceEpoch : U64)
  | invalidateOverlapping (lo hi : U64)
  | publishIfCurrent (sinceEpoch : U64) (what : α)
  | bumpHotness (key : BlockKey)
  | tryBeginTierUp (key : BlockKey)
  | endTierUp (key : BlockKey)

inductive Answer
  | unit
  | bool (b : Bool)
  | keys (l : List BlockKey)
  | count (n : U32)
  deriving DecidableEq

namespace Call

def apply (c : Maps α) : Call α → Maps α × Answer
  | insert key block spans => (c.insert key block spans, .unit)
  | upgrade key block span since => (c.upgrade key block span since).map id .bool
  | upgradeRegion key block spans since => (c.upgradeRegion key block spans since).map id .bool
  | invalidateOverlapping lo hi => (c.invalidateOverlapping lo hi).map id .keys
  | publishIfCurrent since what => (c.publishIfCurrent since what).map id .bool
  | bumpHotness key => (c.bumpHotness key).map id .count
  | tryBeginTierUp key => (c.tryBeginTierUp key).map id .bool
  | endTierUp key => (c.endTierUp key, .unit)

def since : Call α → Option U64
  | upgrade _ _ _ since | upgradeRegion _ _ _ since | publishIfCurrent since _ => some since
  | _ => none

end Call

def step (c : Maps α) (a : Call α) : Option (Maps α) := some (a.apply c).1

def Lockstep (c : Maps α) : Prop := ∀ key, key ∈ c.map ↔ key ∈ c.spans

def Dropped (c c' : Maps α) (key : BlockKey) : Prop := key ∈ c.map ∧ key ∉ c'.map

/-- An invalidation takes out exactly the units with a byte in the range, with all that belongs
to them. -/
structure Exact (c c' : Maps α) (lo hi : U64) : Prop where
  dropped : ∀ key, Dropped c c' key ↔
    ∃ rs, c.spans.lookup key = some rs ∧ ∃ r ∈ rs, r.Meets lo hi
  cleared : ∀ key, Dropped c c' key →
    key ∉ c'.spans ∧ key ∉ c'.hotness ∧ key ∉ c'.tierPending
  kept : ∀ key, ¬Dropped c c' key →
    c'.map.lookup key = c.map.lookup key ∧ c'.spans.lookup key = c.spans.lookup key ∧
      c'.hotness.lookup key = c.hotness.lookup key ∧
      (key ∈ c'.tierPending ↔ key ∈ c.tierPending)

structure Right (c : Maps α) (a : Call α) : Prop where
  keys : Lockstep (a.apply c).1
  stale : ∀ e, a.since = some e → e < c.epoch → a.apply c = (c, .bool false)
  epoch : c.epoch < (a.apply c).1.epoch ↔ ∃ key, Dropped c (a.apply c).1 key
  exact : ∀ lo hi, a = .invalidateOverlapping lo hi → Exact c (a.apply c).1 lo hi

/-- An invalidation meets no unit that the test judges wrongly, and the epoch does not wrap. -/
def Judged (c : Maps α) (a : Call α) : Prop :=
  ∀ lo hi, a = .invalidateOverlapping lo hi →
    (∀ key rs, c.spans.lookup key = some rs → Fair rs lo hi) ∧
    ((∃ key rs, c.spans.lookup key = some rs ∧ ∃ r ∈ rs, r.overlaps lo hi = true) →
      c.epoch ≠ allOnes 64)

variable {c : Maps α} {key : BlockKey} {lo hi : U64}

theorem mem_victims : key ∈ c.victims lo hi ↔
    ∃ rs, c.spans.lookup key = some rs ∧ ∃ r ∈ rs, r.overlaps lo hi = true := by
  have hentry (rs : List ByteRange) :
      c.spans.lookup key = some rs ↔ (⟨key, rs⟩ : Sigma fun _ : BlockKey => List ByteRange) ∈
        c.spans.entries := mem_lookup_iff
  unfold Maps.victims
  rw [mem_map]
  constructor
  · rintro ⟨⟨k, rs⟩, hmem, rfl⟩
    rw [mem_filter, any_eq_true] at hmem
    exact ⟨rs, (hentry rs).mpr hmem.1, hmem.2⟩
  · rintro ⟨rs, hrs, hany⟩
    refine ⟨⟨key, rs⟩, ?_, rfl⟩
    rw [mem_filter, any_eq_true]
    exact ⟨(hentry rs).mp hrs, hany⟩

theorem lookup_erases {β : Type} (l : List BlockKey) (m : Map β) :
    (l.foldl (fun m k => m.erase k) m).lookup key = if key ∈ l then none else m.lookup key := by
  induction l generalizing m with
  | nil => simp
  | cons k l ih =>
    rw [foldl_cons, ih]
    by_cases hk : key = k
    · rw [hk, lookup_erase, ite_self, if_pos mem_cons_self]
    · rw [lookup_erase_ne hk]
      simp only [mem_cons, or_iff_right hk]

theorem foldl_forget (l : List BlockKey) (c : Maps α) : l.foldl Maps.forget c =
    { c with
      spans := l.foldl (fun m k => m.erase k) c.spans
      map := l.foldl (fun m k => m.erase k) c.map
      hotness := l.foldl (fun m k => m.erase k) c.hotness
      tierPending := l.foldl Finset.erase c.tierPending } := by
  induction l generalizing c with
  | nil => rfl
  | cons k l ih =>
    rw [foldl_cons, ih]
    rfl

theorem mem_foldl_erase (l : List BlockKey) (s : Finset BlockKey) :
    key ∈ l.foldl Finset.erase s ↔ key ∉ l ∧ key ∈ s := by
  induction l generalizing s with
  | nil => simp
  | cons k l ih =>
    rw [foldl_cons, ih, Finset.mem_erase, mem_cons]
    tauto

structure Left (c c' : Maps α) (lo hi : U64) : Prop where
  map : ∀ key, c'.map.lookup key = if key ∈ c.victims lo hi then none else c.map.lookup key
  spans : ∀ key, c'.spans.lookup key = if key ∈ c.victims lo hi then none else c.spans.lookup key
  hotness : ∀ key,
    c'.hotness.lookup key = if key ∈ c.victims lo hi then none else c.hotness.lookup key
  tierPending : ∀ key, key ∈ c'.tierPending ↔ key ∉ c.victims lo hi ∧ key ∈ c.tierPending
  epoch : c'.epoch = if c.victims lo hi = [] then c.epoch else c.epoch + 1

theorem left_invalidate (c : Maps α) (lo hi : U64) :
    Left c (c.invalidateOverlapping lo hi).1 lo hi := by
  have hfold := foldl_forget (c.victims lo hi) c
  unfold Maps.invalidateOverlapping
  simp only [hfold, List.isEmpty_iff]
  exact
    { map := fun key => lookup_erases _ _
      spans := fun key => lookup_erases _ _
      hotness := fun key => lookup_erases _ _
      tierPending := fun key => mem_foldl_erase _ _
      epoch := rfl }

variable {c' : Maps α}

theorem Left.lockstep (h : Left c c' lo hi) (hc : Lockstep c) : Lockstep c' := by
  intro key
  rw [← lookup_isSome, ← lookup_isSome, h.map, h.spans]
  split
  · rfl
  · rw [lookup_isSome, lookup_isSome]
    exact hc key

theorem Left.dropped_iff (h : Left c c' lo hi) (hc : Lockstep c) :
    Dropped c c' key ↔ key ∈ c.victims lo hi := by
  have hgone : key ∉ c'.map ↔ key ∈ c.victims lo hi ∨ key ∉ c.map := by
    rw [← lookup_eq_none, h.map, ← lookup_eq_none]
    by_cases hv : key ∈ c.victims lo hi
    · simp [hv]
    · simp [hv]
  have hin : key ∈ c.victims lo hi → key ∈ c.map := by
    intro hv
    obtain ⟨rs, hrs, -⟩ := mem_victims.mp hv
    rw [hc, ← lookup_isSome, hrs]
    rfl
  unfold Dropped
  tauto

/-- No other call changes the epoch, and each changes the two maps together. -/
theorem apply_cases {a : Call α} (ha : ∀ lo hi, a ≠ .invalidateOverlapping lo hi) :
    (a.apply c).1.epoch = c.epoch ∧
      ((a.apply c).1.map = c.map ∧ (a.apply c).1.spans = c.spans ∨
        ∃ key block rs, (a.apply c).1.map = c.map.insert key block ∧
          (a.apply c).1.spans = c.spans.insert key rs) := by
  cases a with
  | insert key block spans => exact ⟨rfl, .inr ⟨key, block, spans, rfl, rfl⟩⟩
  | upgrade key block span since =>
    simp only [Call.apply, Prod.map_fst, id, Maps.upgrade]
    split
    · exact ⟨rfl, .inl ⟨rfl, rfl⟩⟩
    · exact ⟨rfl, .inr ⟨key, block, [span], rfl, rfl⟩⟩
  | upgradeRegion key block spans since =>
    simp only [Call.apply, Prod.map_fst, id, Maps.upgradeRegion]
    split
    · exact ⟨rfl, .inl ⟨rfl, rfl⟩⟩
    · exact ⟨rfl, .inr ⟨key, block, spans, rfl, rfl⟩⟩
  | invalidateOverlapping lo hi => exact absurd rfl (ha lo hi)
  | publishIfCurrent since what =>
    simp only [Call.apply, Prod.map_fst, id, Maps.publishIfCurrent]
    split <;> exact ⟨rfl, .inl ⟨rfl, rfl⟩⟩
  | _ => exact ⟨rfl, .inl ⟨rfl, rfl⟩⟩

theorem keeps_of_not_invalidate {a : Call α} (hc : Lockstep c)
    (ha : ∀ lo hi, a ≠ .invalidateOverlapping lo hi) :
    Lockstep (a.apply c).1 ∧ ∀ key, ¬Dropped c (a.apply c).1 key := by
  unfold Lockstep Dropped
  obtain ⟨-, ⟨hmap, hspans⟩ | ⟨key, block, rs, hmap, hspans⟩⟩ := apply_cases (c := c) ha
  · rw [hmap, hspans]
    exact ⟨hc, fun k h => h.2 h.1⟩
  · rw [hmap, hspans]
    constructor
    · intro k
      rw [mem_insert, mem_insert]
      exact or_congr_right (hc k)
    · rintro k ⟨hin, hout⟩
      exact hout ((mem_insert _).mpr (.inr hin))

theorem lockstep_apply (hc : Lockstep c) (a : Call α) : Lockstep (a.apply c).1 := by
  by_cases ha : ∀ lo hi, a ≠ .invalidateOverlapping lo hi
  · exact (keeps_of_not_invalidate hc ha).1
  · push Not at ha
    obtain ⟨lo, hi, rfl⟩ := ha
    exact (left_invalidate c lo hi).lockstep hc

theorem apply_of_stale {a : Call α} {e : U64} (hsince : a.since = some e) (hold : e < c.epoch) :
    a.apply c = (c, .bool false) := by
  have hne : c.epoch ≠ e := by
    rintro rfl
    exact BitVec.lt_irrefl _ hold
  cases a <;> cases hsince
  case upgrade key block span =>
    change (c.upgrade key block span e).map id Answer.bool = _
    rw [Maps.upgrade, if_pos hne]
    rfl
  case upgradeRegion key block spans =>
    change (c.upgradeRegion key block spans e).map id Answer.bool = _
    rw [Maps.upgradeRegion, if_pos hne]
    rfl
  case publishIfCurrent what =>
    change (c.publishIfCurrent e what).map id Answer.bool = _
    rw [Maps.publishIfCurrent, if_pos hne]
    rfl

theorem lt_add_one_iff (x : U64) : x < x + 1 ↔ x ≠ allOnes 64 := by
  rw [lt_def, ne_eq, ← toNat_inj, toNat_allOnes]
  change x.toNat < (x.toNat + 1) % 2 ^ 64 ↔ _
  omega

theorem Left.epoch_iff (h : Left c c' lo hi) (hc : Lockstep c) :
    (c.epoch < c'.epoch ↔ ∃ key, Dropped c c' key) ↔
      ((∃ key, key ∈ c.victims lo hi) → c.epoch ≠ allOnes 64) := by
  simp only [h.dropped_iff hc, h.epoch]
  by_cases hnil : c.victims lo hi = []
  · rw [if_pos hnil, hnil]
    simp
  · have hex : ∃ key, key ∈ c.victims lo hi := exists_mem_of_ne_nil _ hnil
    rw [if_neg hnil, lt_add_one_iff, iff_true_right hex]
    exact ⟨fun h _ => h, fun h => h hex⟩

theorem Left.exact_iff (h : Left c c' lo hi) (hc : Lockstep c) :
    Exact c c' lo hi ↔ ∀ key rs, c.spans.lookup key = some rs → Fair rs lo hi := by
  constructor
  · intro hexact key rs hrs
    have hdropped := hexact.dropped key
    rw [h.dropped_iff hc, mem_victims, hrs] at hdropped
    rw [fair_iff]
    simpa using hdropped
  · intro hfair
    constructor
    · intro key
      rw [h.dropped_iff hc, mem_victims]
      apply exists_congr
      intro rs
      apply and_congr_right
      intro hrs
      exact fair_iff.mp (hfair key rs hrs)
    · intro key hkey
      rw [h.dropped_iff hc] at hkey
      refine ⟨?_, ?_, ?_⟩
      · rw [← lookup_eq_none, h.spans, if_pos hkey]
      · rw [← lookup_eq_none, h.hotness, if_pos hkey]
      · rw [h.tierPending]
        exact fun hin => hin.1 hkey
    · intro key hkey
      rw [h.dropped_iff hc] at hkey
      rw [h.map, h.spans, h.hotness, h.tierPending, if_neg hkey, if_neg hkey, if_neg hkey]
      exact ⟨rfl, rfl, rfl, and_iff_right hkey⟩

theorem right_iff_judged (hc : Lockstep c) (a : Call α) : Right c a ↔ Judged c a := by
  by_cases ha : ∃ lo hi, a = .invalidateOverlapping lo hi
  · obtain ⟨lo, hi, rfl⟩ := ha
    have hleft := left_invalidate c lo hi
    have hepoch := hleft.epoch_iff hc
    simp only [mem_victims] at hepoch
    constructor
    · intro hright lo' hi' heq
      cases heq
      exact ⟨(hleft.exact_iff hc).mp (hright.exact lo hi rfl), hepoch.mp hright.epoch⟩
    · intro hjudged
      obtain ⟨hfair, hwrap⟩ := hjudged lo hi rfl
      refine ⟨hleft.lockstep hc, nofun, hepoch.mpr hwrap, ?_⟩
      intro lo' hi' heq
      cases heq
      exact (hleft.exact_iff hc).mpr hfair
  · have hno (lo hi : U64) : a ≠ .invalidateOverlapping lo hi := fun heq => ha ⟨lo, hi, heq⟩
    have hepoch := (apply_cases (c := c) hno).1
    obtain ⟨hkeys, hkeeps⟩ := keeps_of_not_invalidate hc hno
    constructor
    · intro _ lo hi heq
      exact absurd heq (hno lo hi)
    · intro _
      refine ⟨hkeys, fun e => apply_of_stale, ?_, ?_⟩
      · rw [hepoch]
        exact iff_of_false (BitVec.lt_irrefl _) fun ⟨key, hkey⟩ => hkeeps key hkey
      · intro lo hi heq
        exact absurd heq (hno lo hi)

/-- With spans that are not empty and do not wrap a call does what it has to. -/
theorem right_of_regular (hc : Lockstep c) (a : Call α)
    (hspans : ∀ key rs, c.spans.lookup key = some rs → ∀ r ∈ rs, r.len ≠ 0 ∧ r.stop < 2 ^ 64)
    (hrange : ∀ lo hi, a = .invalidateOverlapping lo hi → lo < hi)
    (hepoch : c.epoch ≠ allOnes 64) : Right c a := by
  apply (right_iff_judged hc a).mpr
  intro lo hi ha
  refine ⟨fun key rs hrs => .inr (iff_of_false ?_ ?_), fun _ => hepoch⟩
  · rintro ⟨r, hr, -, -, -, hempty | hle⟩
    · exact (hspans key rs hrs r hr).1 hempty
    · exact absurd (hrange lo hi ha) (BitVec.not_lt.mpr hle)
  · rintro ⟨r, hr, hwrap, -⟩
    exact absurd (hspans key rs hrs r hr).2 (not_lt.mpr hwrap)

/-- Over every history, the calls do what they have to exactly when no invalidation misjudges a unit
it meets and none drops a unit at the last epoch. -/
theorem calls_right_iff {α : Type} (calls : List (Call α)) :
    AllSteps step Right Maps.new calls ↔ AllSteps step Judged Maps.new calls := by
  apply allSteps_congr Lockstep
  · intro c a c' hc hstep
    cases hstep
    exact lockstep_apply hc a
  · intro c a hc
    exact right_iff_judged hc a
  · intro key
    exact iff_of_false (notMem_empty key) (notMem_empty key)

def topRange : ByteRange := ⟨0xFFFFFFFFFFFFFFF8, 8⟩

/-- The end of the range wraps to 0, so the unit stays. -/
theorem top_unit_kept : ∃ c : Maps Unit,
    run step Maps.new [.insert ⟨0xFFFFFFFFFFFFFFF8, .long64⟩ (.compiled 0) [topRange]] = some c ∧
    topRange.Meets topRange.start 0xFFFFFFFFFFFFFFFF ∧
    c.spans.lookup ⟨0xFFFFFFFFFFFFFFF8, .long64⟩ = some [topRange] ∧
    c.victims topRange.start 0xFFFFFFFFFFFFFFFF = [] ∧
    ¬Right c (.invalidateOverlapping topRange.start 0xFFFFFFFFFFFFFFFF) := by
  let key : BlockKey := ⟨0xFFFFFFFFFFFFFFF8, .long64⟩
  have hmeets : topRange.Meets topRange.start 0xFFFFFFFFFFFFFFFF :=
    ⟨topRange.start.toNat, by decide, by decide, by decide, by decide⟩
  refine ⟨_, rfl, hmeets, by decide, by decide, ?_⟩
  intro hright
  have hdropped := ((hright.exact _ _ rfl).dropped key).mpr
    ⟨[topRange], by decide, topRange, mem_singleton_self _, hmeets⟩
  exact hdropped.2 (by decide)

end X86Jit.CacheMaps
