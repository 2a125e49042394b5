import Mathlib.Data.Fintype.Option
import X86Jit.Core.Vm
import X86Jit.Lib.Threads

/-! The background compiler: vcpus that submit requests and drain finished units, and the worker
between them, with three locks. -/
namespace X86Jit.TierQueue
open X86Jit.Lib List Threads

/-- A request in the queue. `id` tells how many were queued before it; the code has no use for
it. -/
structure Job where
  id : ℕ
  req : TierUpRequest

structure Finished where
  job : Job
  entry : ℕ

def Finished.id (f : Finished) : ℕ := f.job.id

def Finished.key (f : Finished) : BlockKey := f.job.req.key

/-- The cache, the queue (`items` to `paused` are under its lock), the done list with its lock, and
the probe. What has become of the requests is recorded by number. -/
structure Shared where
  cache : TranslationCache
  items : List Job
  outstanding : ℕ
  shutdown : Bool
  paused : Bool
  done : List Finished
  locked : Bool
  ready : ℕ
  queued : ℕ
  published : List ℕ
  rejected : List ℕ

def tierQueueCap : ℕ := 64

/-- The first group are the places of a vcpu, in `drain_tier_up` and in the submission of a request;
the others those of the worker. -/
inductive Place
  | idle
  | lockDone
  | zeroReady
  | takeDone
  | publish (fins : List Finished)
  | release (key : BlockKey) (fins : List Finished)
  | submit (req : TierUpRequest)
  | cancel (key : BlockKey)
  | asleep
  | compiling (j : Job)
  | finish (f : Finished)
  | push (f : Finished)
  | probe
  | settle
  | stopped

/-- A vcpu begins something, or a thread goes on. A request comes with the epoch and the ranges
`resolve` has found. -/
inductive Act
  | drain
  | begin (req : TierUpRequest)
  | invalidate (lo hi : ℕ)
  | insert (key : BlockKey) (block : CachedBlock) (spans : List Span)
  | upgrade (key : BlockKey) (block : CachedBlock) (span : Span) (sinceEpoch : ℕ)
  | waitIdle
  | pause (on : Bool)
  | shutDown
  | compile (entry : ℕ)
  | go

section Program

def publishFirst (s : Shared) (f : Finished) : Shared :=
  match s.cache.upgradeRegion f.key (.compiled f.entry) f.job.req.spans f.job.req.epoch with
  | none => { s with rejected := s.rejected ++ [f.id] }
  | some cache => { s with cache, published := s.published ++ [f.id] }

/-- `tier_up_async`: the request is queued, or there is no worker any more, or no room. -/
def submit (s : Shared) (req : TierUpRequest) : Place × Shared :=
  if s.shutdown then (.cancel req.key, s)
  else if tierQueueCap ≤ s.items.length then (.cancel req.key, s)
  else (.idle, { s with
    items := s.items ++ [⟨s.queued, req⟩]
    outstanding := s.outstanding + 1
    queued := s.queued + 1 })

/-- The worker sleeps while there is no request or it is paused, and stops when it is told to and
there is none. -/
def take (s : Shared) : Option (Place × Shared) :=
  if (s.items = [] ∨ s.paused = true) ∧ s.shutdown = false then none
  else
    match s.items with
    | [] => some (.stopped, s)
    | j :: js => some (.compiling j, { s with items := js })

def next (s : Shared) : Place → Act → Option (Place × Shared)
  | .idle, .drain => some (if s.ready = 0 then .idle else .lockDone, s)
  | .lockDone, .go => if s.locked then none else some (.zeroReady, { s with locked := true })
  | .zeroReady, .go => some (.takeDone, { s with ready := 0 })
  | .takeDone, .go => some (.publish s.done, { s with done := [], locked := false })
  | .publish [], .go => some (.idle, s)
  | .publish (f :: fins), .go => some (.release f.key fins, publishFirst s f)
  -- the marker goes whether or not the unit was published
  | .release key fins, .go => some (.publish fins, { s with cache := s.cache.endTierUp key })
  | .idle, .begin req =>
    match s.cache.tryBeginTierUp req.key with
    | none => some (.idle, s)
    | some cache => some (.submit req, { s with cache })
  | .submit req, .go => some (submit s req)
  | .cancel key, .go => some (.idle, { s with cache := s.cache.endTierUp key })
  | .idle, .invalidate lo hi =>
    some (.idle, { s with cache := s.cache.invalidateOverlapping lo hi })
  | .idle, .insert key block spans =>
    some (.idle, { s with cache := s.cache.insert key block spans })
  | .idle, .upgrade key block span sinceEpoch =>
    some (.idle, { s with cache := (s.cache.upgrade key block span sinceEpoch).getD s.cache })
  | .idle, .waitIdle => if s.outstanding = 0 then some (.idle, s) else none
  | .idle, .pause on => some (.idle, { s with paused := on })
  | .idle, .shutDown => some (.idle, { s with shutdown := true })
  | .asleep, .go => take s
  | .compiling j, .compile entry => some (.finish ⟨j, entry⟩, s)
  | .finish f, .go => if s.locked then none else some (.push f, { s with locked := true })
  | .push f, .go => some (.probe, { s with done := s.done ++ [f] })
  | .probe, .go => some (.settle, { s with ready := s.done.length, locked := false })
  | .settle, .go => some (.asleep, { s with outstanding := s.outstanding - 1 })
  | _, _ => none

end Program

/-- The worker is the thread `none`; the others are vcpus and holders of a handle. -/
abbrev Conf (τ : Type) := Threads (Option τ) Shared Place

section Runs
variable {τ : Type}

def begins : Option τ → Place
  | none => .asleep
  | some _ => .idle

def start (τ : Type) : Conf τ :=
  ⟨⟨.new, [], 0, false, false, [], false, 0, 0, [], []⟩, begins⟩

variable [DecidableEq τ]

def step (c : Conf τ) (a : Option τ × Act) : Option (Conf τ) := Threads.step next c a

end Runs

section Accounts

def Place.ids : Place → List ℕ
  | .publish fins | .release _ fins => fins.map Finished.id
  | .compiling j => [j.id]
  | .finish f | .push f => [f.id]
  | _ => []

def Place.keys : Place → List BlockKey
  | .publish fins => fins.map Finished.key
  | .release key fins => key :: fins.map Finished.key
  | .submit req => [req.key]
  | .cancel key => [key]
  | .compiling j => [j.req.key]
  | .finish f | .push f => [f.key]
  | _ => []

def Place.holdsDone : Place → Bool
  | .zeroReady | .takeDone | .push _ | .probe => true
  | _ => false

def Place.owes : Place → Bool
  | .compiling _ | .finish _ | .push _ | .probe | .settle => true
  | _ => false

def Place.isWorkers : Place → Bool
  | .asleep | .compiling _ | .finish _ | .push _ | .probe | .settle | .stopped => true
  | _ => false

def Shared.settled (s : Shared) : List ℕ := s.published ++ s.rejected

def Shared.count (s : Shared) (i : ℕ) : ℤ :=
  ((s.items.map Job.id).count i : ℤ) + (s.done.map Finished.id).count i + s.settled.count i

def Shared.known (s : Shared) (i : ℕ) : ℤ := if i < s.queued then 1 else 0

def held (i : ℕ) (l : Place) : ℤ := l.ids.count i

def inLock (l : Place) : ℤ := if l.holdsDone then 1 else 0

def owing (l : Place) : ℤ := if l.owes then 1 else 0

end Accounts

section Moves

inductive Move (s : Shared) : Place → Place → Shared → Prop
  | other {s' : Shared} (hpending : s'.cache.tierPending ⊆ s.cache.tierPending)
      (hshutdown : s.shutdown = true → s'.shutdown = true)
      (hrest : s' = { s with cache := s'.cache, paused := s'.paused, shutdown := s'.shutdown }) :
      Move s .idle .idle s'
  | look (hready : s.ready ≠ 0) : Move s .idle .lockDone s
  | lockDone (hfree : s.locked = false) : Move s .lockDone .zeroReady { s with locked := true }
  | zeroReady : Move s .zeroReady .takeDone { s with ready := 0 }
  | takeDone : Move s .takeDone (.publish s.done) { s with done := [], locked := false }
  | drained : Move s (.publish []) .idle s
  | published (f : Finished) (fins : List Finished) {cache : TranslationCache}
      (hcache : cache.tierPending = s.cache.tierPending) :
      Move s (.publish (f :: fins)) (.release f.key fins)
        { s with cache, published := s.published ++ [f.id] }
  | rejected (f : Finished) (fins : List Finished) :
      Move s (.publish (f :: fins)) (.release f.key fins)
        { s with rejected := s.rejected ++ [f.id] }
  | release (key : BlockKey) (fins : List Finished) :
      Move s (.release key fins) (.publish fins) { s with cache := s.cache.endTierUp key }
  | claim (req : TierUpRequest) {cache : TranslationCache}
      (hclaim : s.cache.tryBeginTierUp req.key = some cache) :
      Move s .idle (.submit req) { s with cache }
  | queue (req : TierUpRequest) (hopen : s.shutdown = false)
      (hroom : s.items.length < tierQueueCap) :
      Move s (.submit req) .idle { s with
        items := s.items ++ [⟨s.queued, req⟩]
        outstanding := s.outstanding + 1
        queued := s.queued + 1 }
  | refuse (req : TierUpRequest) : Move s (.submit req) (.cancel req.key) s
  | cancel (key : BlockKey) :
      Move s (.cancel key) .idle { s with cache := s.cache.endTierUp key }
  | take (j : Job) (js : List Job) (hitems : s.items = j :: js) :
      Move s .asleep (.compiling j) { s with items := js }
  | stop (hitems : s.items = []) (hshutdown : s.shutdown = true) : Move s .asleep .stopped s
  | compile (j : Job) (entry : ℕ) : Move s (.compiling j) (.finish ⟨j, entry⟩) s
  | lockPush (f : Finished) (hfree : s.locked = false) :
      Move s (.finish f) (.push f) { s with locked := true }
  | push (f : Finished) : Move s (.push f) .probe { s with done := s.done ++ [f] }
  | probe : Move s .probe .settle { s with ready := s.done.length, locked := false }
  | settle : Move s .settle .asleep { s with outstanding := s.outstanding - 1 }

variable {s s' : Shared} {l l' : Place}

theorem pending_upgradeRegion {c c' : TranslationCache} {key : BlockKey} {block : CachedBlock}
    {spans : List Span} {epoch : ℕ} (h : c.upgradeRegion key block spans epoch = some c') :
    c'.tierPending = c.tierPending := by
  unfold TranslationCache.upgradeRegion at h
  split at h
  · cases h
  · cases h
    rfl

theorem pending_upgrade (c : TranslationCache) (key : BlockKey) (block : CachedBlock)
    (span : Span) (epoch : ℕ) :
    ((c.upgrade key block span epoch).getD c).tierPending = c.tierPending := by
  unfold TranslationCache.upgrade
  split <;> rfl

theorem move_of_publishFirst (s : Shared) (f : Finished) (fins : List Finished) :
    Move s (.publish (f :: fins)) (.release f.key fins) (publishFirst s f) := by
  unfold publishFirst
  split
  · exact .rejected f fins
  · rename_i cache hcache
    exact .published f fins (pending_upgradeRegion hcache)

theorem move_of_submit {req : TierUpRequest} (h : submit s req = (l', s')) :
    Move s (.submit req) l' s' := by
  unfold submit at h
  split at h
  · cases h
    exact .refuse req
  · rename_i hopen
    split at h
    · cases h
      exact .refuse req
    · rename_i hroom
      cases h
      exact .queue req (Bool.eq_false_iff.mpr hopen) (not_le.mp hroom)

theorem move_of_take (h : take s = some (l', s')) : Move s .asleep l' s' := by
  unfold take at h
  split at h
  · cases h
  · rename_i hgo
    split at h
    · rename_i hitems
      cases h
      refine .stop hitems ?_
      by_contra hopen
      exact hgo ⟨.inl hitems, Bool.eq_false_iff.mpr hopen⟩
    · rename_i j js hitems
      cases h
      exact .take j js hitems

theorem outstanding_of_waitIdle (h : next s l .waitIdle = some (l', s')) : s.outstanding = 0 := by
  cases l with
  | idle =>
    by_contra hne
    simp only [next, if_neg hne] at h
    cases h
  | publish fins => cases fins <;> cases h
  | _ => cases h

theorem move_of_next {a : Act} (h : next s l a = some (l', s')) : Move s l l' s' := by
  unfold next at h
  split at h
  · cases h
    by_cases hready : s.ready = 0
    · rw [if_pos hready]
      exact .other (Finset.Subset.refl _) id rfl
    · rw [if_neg hready]
      exact .look hready
  · split at h
    · cases h
    · rename_i hfree
      cases h
      exact .lockDone (Bool.eq_false_iff.mpr hfree)
  · cases h
    exact .zeroReady
  · cases h
    exact .takeDone
  · cases h
    exact .drained
  · cases h
    exact move_of_publishFirst _ _ _
  · cases h
    exact .release _ _
  · split at h
    · cases h
      exact .other (Finset.Subset.refl _) id rfl
    · rename_i cache hclaim
      cases h
      exact .claim _ hclaim
  · exact move_of_submit (Option.some.inj h)
  · cases h
    exact .cancel _
  · cases h
    exact .other Finset.sdiff_subset id rfl
  · cases h
    exact .other (Finset.Subset.refl _) id rfl
  · cases h
    exact .other (pending_upgrade _ _ _ _ _).subset id rfl
  · split at h
    · cases h
      exact .other (Finset.Subset.refl _) id rfl
    · cases h
  · cases h
    exact .other (Finset.Subset.refl _) id rfl
  · cases h
    exact .other (Finset.Subset.refl _) (fun _ => rfl) rfl
  · exact move_of_take h
  · cases h
    exact .compile _ _
  · split at h
    · cases h
    · rename_i hfree
      cases h
      exact .lockPush _ (Bool.eq_false_iff.mpr hfree)
  · cases h
    exact .push _
  · cases h
    exact .probe
  · cases h
    exact .settle
  · cases h

end Moves

section Balance
variable {s s' : Shared} {l l' : Place}

/-- A request only moves from one place to another, and a new one appears when it is queued. -/
theorem Move.conserves (h : Move s l l' s') (i : ℕ) :
    s'.count i + held i l' - s'.known i = s.count i + held i l - s.known i := by
  cases h with
  | other _ _ hrest =>
    rw [hrest]
    rfl
  | published f fins _ | rejected f fins =>
    simp only [Shared.count, Shared.settled, Shared.known, held, Place.ids, map_cons,
      count_append, count_cons, count_nil]
    omega
  | queue req _ _ =>
    simp only [Shared.count, Shared.settled, Shared.known, held, Place.ids, map_append,
      map_cons, map_nil, count_append, count_cons, count_nil,
      beq_iff_eq]
    split_ifs <;> omega
  | take j js hitems =>
    simp only [Shared.count, Shared.settled, Shared.known, held, Place.ids, hitems, map_cons,
      count_cons, count_nil]
    omega
  | takeDone =>
    simp only [Shared.count, Shared.settled, Shared.known, held, Place.ids, map_nil,
      count_nil]
    omega
  | push f =>
    simp only [Shared.count, Shared.settled, Shared.known, held, Place.ids, map_append,
      map_cons, map_nil, count_append, count_nil]
    omega
  | _ => rfl

theorem Move.locks (h : Move s l l' s') :
    inLock l' - (if s'.locked then 1 else 0) = inLock l - (if s.locked then 1 else 0) ∨
      (l.holdsDone = true ∧ s'.locked = false ∧ inLock l' = 0) := by
  cases h with
  | other _ _ hrest =>
    rw [hrest]
    exact .inl rfl
  | lockDone hfree | lockPush f hfree =>
    rw [hfree]
    exact .inl rfl
  | takeDone | probe => exact .inr ⟨rfl, rfl, rfl⟩
  | _ => exact .inl rfl

theorem Move.counts (h : Move s l l' s') (hpos : 0 ≤ (s.outstanding : ℤ) - owing l) :
    (s'.outstanding : ℤ) - s'.items.length - owing l' =
      s.outstanding - s.items.length - owing l := by
  cases h with
  | other _ _ hrest => rw [hrest]
  | queue req _ _ =>
    simp only [owing, Place.owes, Bool.false_eq_true, if_false, length_append,
      length_singleton]
    omega
  | take j js hitems =>
    simp only [owing, Place.owes, Bool.false_eq_true, if_false, if_true, hitems, length_cons]
    omega
  | settle =>
    simp only [owing, Place.owes, Bool.false_eq_true, if_false, if_true] at hpos ⊢
    omega
  | _ => rfl

def Shared.keys (s : Shared) : List BlockKey :=
  s.items.map (fun j => j.req.key) ++ s.done.map Finished.key

/-- A marker is claimed by the thread that moves, or was there before; a key that was stood for
still is, unless its marker is gone. -/
theorem Move.marks (h : Move s l l' s') {key : BlockKey} (hkey : key ∈ s'.cache.tierPending) :
    (key ∈ s.cache.tierPending ∨ key ∈ l'.keys) ∧
      (key ∈ s.keys ∨ key ∈ l.keys → key ∈ s'.keys ∨ key ∈ l'.keys) := by
  cases h with
  | other hpending _ hrest =>
    refine ⟨.inl (hpending hkey), ?_⟩
    rw [hrest]
    exact id
  | published f fins hcache => exact ⟨.inl (hcache ▸ hkey), id⟩
  | takeDone =>
    refine ⟨.inl hkey, ?_⟩
    simp only [Shared.keys, Place.keys, map_nil, append_nil, mem_append,
      not_mem_nil, or_false]
    exact id
  | release key' fins =>
    obtain ⟨hne, hold⟩ := Finset.mem_erase.mp hkey
    refine ⟨.inl hold, Or.imp_right ?_⟩
    exact fun hmem => (mem_cons.mp hmem).resolve_left hne
  | cancel key' =>
    obtain ⟨hne, hold⟩ := Finset.mem_erase.mp hkey
    refine ⟨.inl hold, Or.imp_right ?_⟩
    exact fun hmem => absurd (mem_singleton.mp hmem) hne
  | claim req hclaim =>
    unfold TranslationCache.tryBeginTierUp at hclaim
    split at hclaim
    · cases hclaim
    · cases hclaim
      refine ⟨?_, Or.imp_right fun hmem => absurd hmem not_mem_nil⟩
      rcases Finset.mem_insert.mp hkey with rfl | hold
      · exact .inr (mem_singleton_self _)
      · exact .inl hold
  | queue req _ _ =>
    refine ⟨.inl hkey, ?_⟩
    simp only [Shared.keys, Place.keys, map_append, map_cons, map_nil,
      mem_append, mem_singleton, not_mem_nil, or_false]
    tauto
  | take j js hitems =>
    refine ⟨.inl hkey, ?_⟩
    simp only [Shared.keys, Place.keys, hitems, map_cons, mem_append, mem_cons,
      not_mem_nil, or_false]
    tauto
  | push f =>
    refine ⟨.inl hkey, ?_⟩
    simp only [Shared.keys, Place.keys, map_append, map_cons, map_nil,
      mem_append, mem_singleton, not_mem_nil, or_false]
    tauto
  | _ => exact ⟨.inl hkey, id⟩

theorem Move.isWorkers (h : Move s l l' s') : l'.isWorkers = l.isWorkers := by
  cases h <;> rfl

theorem Move.shuts (h : Move s l l' s') (hshut : s.shutdown = true) (hitems : s.items = []) :
    s'.shutdown = true ∧ s'.items = [] := by
  cases h with
  | other _ hshutdown hrest =>
    refine ⟨hshutdown hshut, ?_⟩
    rw [hrest]
    exact hitems
  | queue req hopen _ =>
    rw [hshut] at hopen
    cases hopen
  | take j js htake =>
    rw [hitems] at htake
    cases htake
  | _ => exact ⟨hshut, hitems⟩

theorem Move.probe_eq (h : Move s l l' s') (hout : l.holdsDone = false) :
    s'.ready = s.ready ∧ s'.done = s.done := by
  cases h with
  | other _ _ hrest =>
    rw [hrest]
    exact ⟨rfl, rfl⟩
  | zeroReady | takeDone | push f | probe => cases hout
  | _ => exact ⟨rfl, rfl⟩

end Balance

variable {l : Place} {s : Shared}

section Invariant
variable {τ : Type} {c c' : Conf τ}

theorem held_nonneg (i : ℕ) (l : Place) : 0 ≤ held i l := Int.natCast_nonneg _

theorem inLock_nonneg (l : Place) : 0 ≤ inLock l := by
  unfold inLock
  split <;> omega

theorem owing_nonneg (l : Place) : 0 ≤ owing l := by
  unfold owing
  split <;> omega

def Seen (c : Conf τ) (key : BlockKey) : Prop :=
  key ∈ c.shared.keys ∨ c.Some fun l => key ∈ l.keys

variable [Fintype τ]

structure Inv (c : Conf τ) : Prop where
  conserved : ∀ i, c.shared.count i + c.total (held i) = c.shared.known i
  lock : c.total inLock = if c.shared.locked then 1 else 0
  outstanding : (c.shared.outstanding : ℤ) = c.shared.items.length + c.total owing
  ready : c.shared.locked = false → c.shared.ready = c.shared.done.length
  zeroed : ∀ t, c.place t = .takeDone → c.shared.ready = 0
  marked : ∀ key ∈ c.shared.cache.tierPending, Seen c key
  worker : (c.place none).isWorkers = true
  vcpu : ∀ v, (c.place (some v)).isWorkers = false
  stopped : ∀ t, c.place t = .stopped → c.shared.shutdown = true ∧ c.shared.items = []

namespace Inv

protected theorem start : Inv (start τ) := by
  have hplaces (f : Place → ℤ) (hidle : f .idle = 0) (hasleep : f .asleep = 0) :
      (start τ).total f = 0 := by
    apply total_eq_zero
    intro t
    cases t with
    | none => exact hasleep
    | some v => exact hidle
  refine ⟨fun i => ?_, hplaces _ rfl rfl, ?_, fun _ => rfl, ?_, ?_, rfl, fun v => rfl, ?_⟩
  · rw [hplaces (held i) rfl rfl]
    rfl
  · rw [hplaces owing rfl rfl]
    rfl
  · intro t ht
    cases t <;> cases ht
  · exact fun key hkey => absurd hkey (Finset.notMem_empty key)
  · intro t ht
    cases t <;> cases ht

variable (h : Inv c) {t : Option τ}
include h

theorem locked_of_holds (ht : (c.place t).holdsDone = true) : c.shared.locked = true := by
  by_contra hfree
  have hle := c.le_total inLock_nonneg t
  rw [h.lock, Bool.eq_false_iff.mpr hfree] at hle
  simp only [inLock, ht, if_true, Bool.false_eq_true, if_false] at hle
  omega

theorem owing_le : owing (c.place t) ≤ c.shared.outstanding := by
  have hle := c.le_total owing_nonneg t
  have heq := h.outstanding
  omega

variable [DecidableEq τ]

theorem alone_in_lock {u : Option τ} (hne : t ≠ u) (ht : (c.place t).holdsDone = true) :
    (c.place u).holdsDone = false := by
  by_contra hu
  have hle := pair_le_total (c := c) inLock_nonneg hne
  rw [h.lock] at hle
  simp only [inLock, ht, Bool.of_not_eq_false hu, if_true] at hle
  omega

theorem moved (hmove : Move c.shared (c.place t) l s) : Inv (c.moved t l s) where
  conserved i := by
    have hold := h.conserved i
    have hstep := hmove.conserves i
    rw [total_moved, moved_shared]
    omega
  lock := by
    have hold := h.lock
    rw [total_moved, moved_shared]
    rcases hmove.locks with hstep | ⟨hholds, hfree, hout⟩
    · omega
    · have hin : inLock (c.place t) = 1 := if_pos hholds
      rw [h.locked_of_holds hholds, if_pos rfl] at hold
      rw [hfree, if_neg Bool.false_ne_true]
      omega
  outstanding := by
    have hold := h.outstanding
    have hstep := hmove.counts (sub_nonneg.mpr h.owing_le)
    rw [total_moved, moved_shared]
    omega
  ready hfree := by
    rw [moved_shared] at hfree ⊢
    by_cases hholds : (c.place t).holdsDone = true
    · -- the lock was given up: the probe was set, or is zero for an empty list
      have hlocked := h.locked_of_holds hholds
      generalize hplace : c.place t = l₀ at hmove hholds
      cases hmove with
      | zeroReady | push f => rw [hlocked] at hfree; cases hfree
      | takeDone => exact h.zeroed t hplace
      | probe => rfl
      | _ => cases hholds
    · have hout := Bool.eq_false_iff.mpr hholds
      obtain ⟨hready, hdone⟩ := hmove.probe_eq hout
      rw [hready, hdone]
      apply h.ready
      rcases hmove.locks with hstep | ⟨hin, -⟩
      · by_contra hlocked
        have hwas : inLock (c.place t) = 0 := if_neg hholds
        have hpos := inLock_nonneg l
        rw [hfree, Bool.of_not_eq_false hlocked] at hstep
        simp only [Bool.false_eq_true, if_false, if_true] at hstep
        omega
      · exact absurd hin hholds
  zeroed u hu := by
    rw [moved_shared]
    by_cases hut : u = t
    · subst hut
      rw [moved_place_self] at hu
      cases hu
      generalize c.place u = l₀ at hmove
      cases hmove
      rfl
    · rw [moved_place_of_ne hut] at hu
      have hholds : (c.place u).holdsDone = true := by rw [hu]; rfl
      rw [(hmove.probe_eq (h.alone_in_lock hut hholds)).1]
      exact h.zeroed u hu
  marked key hkey := by
    obtain ⟨hwas, hkeeps⟩ := hmove.marks hkey
    show key ∈ s.keys ∨ (c.moved t l s).Some fun l => key ∈ l.keys
    rw [some_moved]
    rcases hwas with hold | hnew
    · rcases h.marked key hold with hshared | hsome
      · rw [← or_assoc]
        exact .inl (hkeeps (.inl hshared))
      · rcases (some_iff t).mp hsome with hown | hother
        · rw [← or_assoc]
          exact .inl (hkeeps (.inr hown))
        · exact .inr (.inr hother)
    · exact .inr (.inl hnew)
  worker := by
    cases t with
    | none =>
      rw [moved_place_self, hmove.isWorkers]
      exact h.worker
    | some v =>
      exact h.worker
  vcpu v := by
    by_cases hvt : some v = t
    · subst hvt
      rw [moved_place_self, hmove.isWorkers]
      exact h.vcpu v
    · rw [moved_place_of_ne hvt]
      exact h.vcpu v
  stopped u hu := by
    by_cases hut : u = t
    · subst hut
      rw [moved_place_self] at hu
      cases hu
      generalize c.place u = l₀ at hmove
      cases hmove with
      | stop hitems hshutdown => exact ⟨hshutdown, hitems⟩
    · rw [moved_place_of_ne hut] at hu
      obtain ⟨hshut, hitems⟩ := h.stopped u hu
      exact hmove.shuts hshut hitems

theorem step {a : Option τ × Act} (hstep : TierQueue.step c a = some c') : Inv c' := by
  obtain ⟨l, s, hnext, rfl⟩ := Threads.step_eq_some.mp hstep
  exact h.moved (move_of_next hnext)

theorem run {acts : List (Option τ × Act)} (hrun : Lib.run TierQueue.step c acts = some c') :
    Inv c' :=
  run_invariant Inv (fun _ _ _ hinv hstep => hinv.step hstep) h hrun

end Inv

end Invariant

section Progress

def Place.weight : Place → ℕ
  | .idle | .stopped => 0
  | .asleep | .cancel _ => 1
  | .takeDone | .settle => 2
  | .zeroReady | .probe => 3
  | .lockDone => 4
  | .publish fins => 2 * fins.length + 1
  | .release _ fins => 2 * fins.length + 2
  | .push _ => 8
  | .finish _ => 9
  | .compiling _ => 10
  | .submit _ => 12

def Shared.weight (s : Shared) : ℕ := 10 * s.items.length + 4 * s.done.length

theorem Move.lighter {s' : Shared} {l' : Place} (h : Move s l l' s') (hl : l ≠ .idle)
    (hstop : l' ≠ .stopped) : s'.weight + l'.weight < s.weight + l.weight := by
  cases h with
  | other | look | claim => exact absurd rfl hl
  | stop => exact absurd rfl hstop
  | take j js hitems =>
    simp only [Shared.weight, Place.weight, hitems, length_cons]
    omega
  | takeDone =>
    simp only [Shared.weight, Place.weight, length_nil]
    omega
  | queue | push f =>
    simp only [Shared.weight, Place.weight, length_append, length_singleton]
    omega
  | published f fins | rejected f fins =>
    simp only [Shared.weight, Place.weight, length_cons]
    omega
  | _ =>
    simp only [Shared.weight, Place.weight]
    omega

/-- Those of the worker and of a drain, and the end of a pause. -/
def Act.goesOn : Act → Bool
  | .go | .compile _ | .drain => true
  | .pause on => !on
  | _ => false

def Place.atRest : Place → Bool
  | .idle | .asleep | .stopped => true
  | _ => false

def Place.wantsDone : Place → Bool
  | .lockDone | .finish _ => true
  | _ => false

theorem submit_ne_stopped (s : Shared) (req : TierUpRequest) : (submit s req).1 ≠ .stopped := by
  unfold submit
  split
  · exact nofun
  · split
    · exact nofun
    · exact nofun

theorem exists_next (hrest : l.atRest = false) (hlock : l.wantsDone = true → s.locked = false) :
    ∃ a l' s', a.goesOn = true ∧ next s l a = some (l', s') ∧ l ≠ .idle ∧ l' ≠ .stopped := by
  cases l with
  | idle | asleep | stopped => cases hrest
  | lockDone =>
    refine ⟨.go, .zeroReady, { s with locked := true }, rfl, ?_, nofun, nofun⟩
    simp only [next, hlock rfl, Bool.false_eq_true, if_false]
  | finish f =>
    refine ⟨.go, .push f, { s with locked := true }, rfl, ?_, nofun, nofun⟩
    simp only [next, hlock rfl, Bool.false_eq_true, if_false]
  | publish fins =>
    cases fins with
    | nil | cons f fins => exact ⟨.go, _, _, rfl, rfl, nofun, nofun⟩
  | compiling j => exact ⟨.compile 0, _, _, rfl, rfl, nofun, nofun⟩
  | submit req => exact ⟨.go, _, _, rfl, rfl, nofun, submit_ne_stopped s req⟩
  | zeroReady | takeDone | release key fins | cancel key | push f | probe | settle =>
    exact ⟨.go, _, _, rfl, rfl, nofun, nofun⟩

variable {τ : Type} [Fintype τ] {c : Conf τ}

def work (c : Conf τ) : ℤ := c.shared.weight + c.total fun l => (l.weight : ℤ)

theorem work_nonneg (c : Conf τ) : 0 ≤ work c := by
  have hplaces : 0 ≤ c.total fun l => l.weight :=
    total_nonneg fun l => Int.natCast_nonneg _
  unfold work
  omega

structure Settled (c : Conf τ) : Prop where
  items : c.shared.items = []
  done : c.shared.done = []
  places : ∀ t, (c.place t).atRest = true

theorem idle_of_atRest (hrest : l.atRest = true) (hvcpu : l.isWorkers = false) : l = .idle := by
  cases l with
  | idle => rfl
  | asleep | stopped => cases hvcpu
  | _ => cases hrest

/-- The lock is somebody's, and its holder is in the middle of something and waits for nobody. -/
theorem Inv.exists_holder (h : Inv c) (hlocked : c.shared.locked = true) :
    ∃ t, (c.place t).atRest = false ∧ (c.place t).wantsDone = false := by
  have hsome : ∃ t, inLock (c.place t) ≠ 0 := by
    by_contra hnone
    have hzero := total_eq_zero fun t => not_not.mp fun ht => hnone ⟨t, ht⟩
    rw [h.lock, hlocked, if_pos rfl] at hzero
    omega
  obtain ⟨t, ht⟩ := hsome
  have hholds : (c.place t).holdsDone = true := by
    by_contra hout
    exact ht (if_neg hout)
  refine ⟨t, ?_⟩
  generalize c.place t = l at hholds
  cases l with
  | zeroReady | takeDone | push f | probe => exact ⟨rfl, rfl⟩
  | _ => cases hholds

theorem Inv.asleep (h : Inv c) (hrest : (c.place none).atRest = true)
    (hitems : c.shared.items ≠ []) : c.place none = .asleep := by
  have hworker := h.worker
  have hstopped := h.stopped none
  generalize c.place none = l at hworker hrest hstopped
  cases l with
  | asleep => rfl
  | idle => cases hworker
  | stopped => exact absurd (hstopped rfl).2 hitems
  | _ => cases hrest

variable [DecidableEq τ]

theorem work_moved {t : Option τ} (h : s.weight + l.weight < c.shared.weight + (c.place t).weight) :
    work (c.moved t l s) < work c := by
  unfold work
  rw [total_moved, moved_shared]
  omega

def Goes (c c' : Conf τ) : Prop :=
  ∃ acts, (∀ a ∈ acts, a.2.goesOn = true) ∧ run step c acts = some c' ∧ work c' < work c

theorem goes_of_next {t : Option τ} (hrest : (c.place t).atRest = false)
    (hlock : (c.place t).wantsDone = true → c.shared.locked = false) : ∃ c', Goes c c' := by
  obtain ⟨a, l, s, ha, hnext, hidle, hstop⟩ := exists_next hrest hlock
  refine ⟨c.moved t l s, [(t, a)], ?_, ?_, ?_⟩
  · intro b hb
    rw [mem_singleton.mp hb]
    exact ha
  · exact run_cons.mpr ⟨_, Threads.step_eq_some.mpr ⟨l, s, hnext, rfl⟩, rfl⟩
  · exact work_moved ((move_of_next hnext).lighter hidle hstop)

theorem goes_of_items {v : τ} {j : Job} {js : List Job} (hidle : c.place (some v) = .idle)
    (hasleep : c.place none = .asleep) (hitems : c.shared.items = j :: js) : ∃ c', Goes c c' := by
  -- the compiler may have been paused, so it is let go on first
  let s₁ : Shared := { c.shared with paused := false }
  let c₁ : Conf τ := c.moved (some v) .idle s₁
  have hpause : step c (some v, .pause false) = some c₁ := by
    apply Threads.step_eq_some.mpr
    refine ⟨.idle, s₁, ?_, rfl⟩
    rw [hidle]
    rfl
  have htake : take s₁ = some (.compiling j, { s₁ with items := js }) := by
    have hgo : ¬((s₁.items = [] ∨ s₁.paused = true) ∧ s₁.shutdown = false) := by
      rintro ⟨hnone | hpaused, -⟩
      · cases hitems.symm.trans hnone
      · cases hpaused
    have hs₁ : s₁.items = j :: js := hitems
    unfold take
    rw [if_neg hgo, hs₁]
  have hplace : c₁.place none = .asleep := by
    exact hasleep
  have hwork : work c₁ = work c := by
    unfold work
    rw [total_moved, hidle, sub_add_cancel]
    rfl
  refine ⟨c₁.moved none (.compiling j) { s₁ with items := js },
    [(some v, .pause false), (none, .go)], ?_, ?_, ?_⟩
  · intro a ha
    rcases mem_cons.mp ha with rfl | hlast
    · rfl
    · rw [mem_singleton.mp hlast]
      rfl
  · refine run_cons.mpr ⟨c₁, hpause, run_cons.mpr ⟨_, ?_, rfl⟩⟩
    apply Threads.step_eq_some.mpr
    refine ⟨_, _, ?_, rfl⟩
    rw [hplace]
    exact htake
  · rw [← hwork]
    apply work_moved
    rw [hplace]
    exact (move_of_take htake).lighter nofun nofun

theorem goes_of_done {v : τ} (hidle : c.place (some v) = .idle) (hfree : c.shared.locked = false)
    (hready : c.shared.ready ≠ 0) (hdone : c.shared.done ≠ []) : ∃ c', Goes c c' := by
  have hgo {l l' : Place} {s s' : Shared} (hnext : next s l .go = some (l', s')) :
      step (c.moved (some v) l s) (some v, .go) = some (c.moved (some v) l' s') := by
    apply Threads.step_eq_some.mpr
    refine ⟨l', s', ?_, Threads.moved_moved.symm⟩
    rw [moved_place_self]
    exact hnext
  have hlook : step c (some v, .drain) = some (c.moved (some v) .lockDone c.shared) := by
    apply Threads.step_eq_some.mpr
    refine ⟨.lockDone, c.shared, ?_, rfl⟩
    rw [hidle]
    simp only [next, if_neg hready]
  have hlock : next c.shared .lockDone .go =
      some (.zeroReady, { c.shared with locked := true }) := by
    simp only [next, hfree, Bool.false_eq_true, if_false]
  let s' : Shared := { c.shared with locked := false, ready := 0, done := [] }
  refine ⟨c.moved (some v) (.publish c.shared.done) s',
    [(some v, .drain), (some v, .go), (some v, .go), (some v, .go)], ?_, ?_, ?_⟩
  · intro a ha
    simp only [mem_cons, not_mem_nil, or_false] at ha
    rcases ha with rfl | rfl | rfl | rfl <;> rfl
  · refine run_cons.mpr ⟨_, hlook, run_cons.mpr ⟨_, hgo hlock, ?_⟩⟩
    exact run_cons.mpr ⟨_, hgo rfl, run_cons.mpr ⟨_, hgo rfl, rfl⟩⟩
  · apply work_moved
    have hpos := length_pos_of_ne_nil hdone
    simp only [s', Shared.weight, Place.weight, length_nil]
    omega

theorem Inv.goes (h : Inv c) (v : τ) (hnot : ¬Settled c) : ∃ c', Goes c c' := by
  by_cases hbusy : ∃ t, (c.place t).atRest = false
  · obtain ⟨t, ht⟩ := hbusy
    cases hlocked : c.shared.locked with
    | false => exact goes_of_next ht fun _ => hlocked
    | true =>
      obtain ⟨u, hu, hfree⟩ := h.exists_holder hlocked
      apply goes_of_next hu
      intro hwants
      rw [hfree] at hwants
      cases hwants
  · have hrest (t : Option τ) : (c.place t).atRest = true :=
      Bool.of_not_eq_false fun ht => hbusy ⟨t, ht⟩
    have hidle : c.place (some v) = .idle := idle_of_atRest (hrest _) (h.vcpu v)
    have hfree : c.shared.locked = false := by
      by_contra hlocked
      obtain ⟨u, hu, -⟩ := h.exists_holder (Bool.of_not_eq_false hlocked)
      exact hbusy ⟨u, hu⟩
    cases hitems : c.shared.items with
    | cons j js =>
      have hwaits : c.shared.items ≠ [] := by
        rw [hitems]
        exact cons_ne_nil j js
      exact goes_of_items hidle (h.asleep (hrest none) hwaits) hitems
    | nil =>
      have hdone : c.shared.done ≠ [] := fun hdone => hnot ⟨hitems, hdone, hrest⟩
      apply goes_of_done hidle hfree ?_ hdone
      rw [h.ready hfree]
      exact fun hzero => hdone (length_eq_zero_iff.mp hzero)

/-- From everywhere, the steps that go on lead to where everything is settled. The induction is on
the work left. -/
theorem Inv.settles (h : Inv c) (v : τ) : ∃ acts c', (∀ a ∈ acts, a.2.goesOn = true) ∧
    Lib.run TierQueue.step c acts = some c' ∧ Inv c' ∧ Settled c' := by
  induction hn : (work c).toNat using Nat.strong_induction_on generalizing c with
  | _ n ih =>
    by_cases hsettled : Settled c
    · exact ⟨[], c, fun a ha => absurd ha not_mem_nil, rfl, h, hsettled⟩
    · obtain ⟨c₁, acts₁, hacts₁, hrun₁, hless⟩ := h.goes v hsettled
      have hpos := work_nonneg c₁
      obtain ⟨acts, c', hacts, hrun, hend⟩ := ih (work c₁).toNat (by omega) (h.run hrun₁) rfl
      refine ⟨acts₁ ++ acts, c', ?_, ?_, hend⟩
      · intro a ha
        exact (mem_append.mp ha).elim (hacts₁ a) (hacts a)
      · rw [run_append, hrun₁]
        exact hrun

end Progress

section Results
variable {τ : Type} {c : Conf τ}

def Place.drained : Place → List ℕ
  | .publish fins | .release _ fins => fins.map Finished.id
  | _ => []

def InFlight (c : Conf τ) (i : ℕ) : Prop :=
  i ∈ c.shared.items.map Job.id ∨ i ∈ c.shared.done.map Finished.id ∨ c.Some fun l => i ∈ l.ids

structure Drained (c : Conf τ) : Prop where
  items : c.shared.items = []
  done : c.shared.done = []
  places : ∀ t, (c.place t).keys = []

variable [Fintype τ] {i : ℕ}

namespace Inv
variable (h : Inv c)
include h

theorem inFlight_iff (i : ℕ) : InFlight c i ↔ c.shared.known i - c.shared.settled.count i ≠ 0 := by
  have hconserved := h.conserved i
  have hpos : 0 ≤ c.total (held i) := total_nonneg (held_nonneg i)
  have hsome : (c.Some fun l => i ∈ l.ids) ↔ c.total (held i) ≠ 0 := by
    rw [Ne, total_eq_zero_iff (held_nonneg i), not_forall]
    apply exists_congr
    intro t
    unfold held
    rw [Int.natCast_eq_zero, count_eq_zero, not_not]
  unfold InFlight
  rw [hsome, ← count_pos_iff, ← count_pos_iff]
  unfold Shared.count at hconserved
  omega

theorem settled_count_le (i : ℕ) : (c.shared.settled.count i : ℤ) ≤ c.shared.known i := by
  have hconserved := h.conserved i
  have hpos : 0 ≤ c.total (held i) := total_nonneg (held_nonneg i)
  unfold Shared.count at hconserved
  omega

theorem once (hi : i < c.shared.queued) : InFlight c i ∧ c.shared.settled.count i = 0 ∨
      ¬InFlight c i ∧ c.shared.settled.count i = 1 := by
  have hknown : c.shared.known i = 1 := if_pos hi
  have hle := h.settled_count_le i
  rw [h.inFlight_iff]
  omega

theorem known (hi : i ∈ c.shared.settled) : i < c.shared.queued := by
  by_contra hout
  have hknown : c.shared.known i = 0 := if_neg hout
  have hle := h.settled_count_le i
  have hpos := count_pos_iff.mpr hi
  omega

theorem probe (hfree : c.shared.locked = false) (hdone : c.shared.done ≠ []) :
    c.shared.ready ≠ 0 := by
  rw [h.ready hfree]
  exact fun hzero => hdone (length_eq_zero_iff.mp hzero)

/-- With nothing outstanding the queue is empty and the worker has nothing in its hands. -/
theorem idle (hzero : c.shared.outstanding = 0) (hi : i < c.shared.queued) :
    i ∈ c.shared.done.map Finished.id ∨ (c.Some fun l => i ∈ l.drained) ∨ i ∈ c.shared.settled := by
  have hsum := h.outstanding
  have hpos : 0 ≤ c.total owing := total_nonneg owing_nonneg
  have hitems : c.shared.items = [] := length_eq_zero_iff.mp (by omega)
  have howes := (total_eq_zero_iff owing_nonneg).mp (show c.total owing = 0 by omega)
  rcases h.once hi with ⟨hflight, -⟩ | ⟨-, hcount⟩
  · rcases hflight with hitem | hdone | ⟨t, ht⟩
    · rw [hitems] at hitem
      exact absurd hitem not_mem_nil
    · exact .inl hdone
    · refine .inr (.inl ⟨t, ?_⟩)
      have hnot := howes t
      generalize c.place t = l at ht hnot
      cases l with
      | publish fins | release key fins => exact ht
      | compiling j | finish f | push f => cases hnot
      | _ => exact absurd ht not_mem_nil
  · exact .inr (.inr (count_pos_iff.mp (by omega)))

theorem unmarked (hdrained : Drained c) : c.shared.cache.tierPending = ∅ := by
  apply Finset.eq_empty_of_forall_notMem
  intro key hkey
  rcases h.marked key hkey with hshared | ⟨t, ht⟩
  · unfold Shared.keys at hshared
    rw [hdrained.items, hdrained.done] at hshared
    exact not_mem_nil hshared
  · rw [hdrained.places t] at ht
    exact not_mem_nil ht

theorem drained_of_settled (hsettled : Settled c) : Drained c ∧
    ∀ i < c.shared.queued, c.shared.settled.count i = 1 := by
  have hplace (t : Option τ) : (c.place t).keys = [] ∧ (c.place t).ids = [] := by
    have hrest := hsettled.places t
    generalize c.place t = l at hrest
    cases l with
    | idle | asleep | stopped => exact ⟨rfl, rfl⟩
    | _ => cases hrest
  refine ⟨⟨hsettled.items, hsettled.done, fun t => (hplace t).1⟩, ?_⟩
  intro i hi
  rcases h.once hi with ⟨hflight, -⟩ | ⟨-, hcount⟩
  · rcases hflight with hitem | hdone | ⟨t, ht⟩
    · rw [hsettled.items] at hitem
      exact absurd hitem not_mem_nil
    · rw [hsettled.done] at hdone
      exact absurd hdone not_mem_nil
    · rw [(hplace t).2] at ht
      exact absurd ht not_mem_nil
  · exact hcount

end Inv

variable [DecidableEq τ]

structure Accounted (c : Conf τ) : Prop where
  once : ∀ i < c.shared.queued, InFlight c i ∧ c.shared.settled.count i = 0 ∨
    ¬InFlight c i ∧ c.shared.settled.count i = 1
  known : ∀ i ∈ c.shared.settled, i < c.shared.queued
  probe : c.shared.locked = false → c.shared.done ≠ [] → c.shared.ready ≠ 0
  idle : ∀ t c', step c (t, .waitIdle) = some c' → ∀ i < c.shared.queued,
    i ∈ c.shared.done.map Finished.id ∨ (c.Some fun l => i ∈ l.drained) ∨ i ∈ c.shared.settled
  marked : ∀ key ∈ c.shared.cache.tierPending, Seen c key
  unmarked : Drained c → c.shared.cache.tierPending = ∅
  settles : ∀ _ : τ, ∃ acts c', (∀ a ∈ acts, a.2.goesOn = true) ∧ run step c acts = some c' ∧
    Drained c' ∧ ∀ i < c'.shared.queued, c'.shared.settled.count i = 1

theorem Inv.accounted (h : Inv c) : Accounted c where
  once i hi := h.once hi
  known i hi := h.known hi
  probe := h.probe
  idle t c' hwait i hi := by
    obtain ⟨l, s, hnext, -⟩ := Threads.step_eq_some.mp hwait
    exact h.idle (outstanding_of_waitIdle hnext) hi
  marked := h.marked
  unmarked := h.unmarked
  settles v := by
    obtain ⟨acts, c', hacts, hrun, hinv, hsettled⟩ := h.settles v
    exact ⟨acts, c', hacts, hrun, hinv.drained_of_settled hsettled⟩

/-- However the steps of the vcpus and of the worker come in turn, every queued request is
accounted for. -/
theorem requests_accounted {acts : List (Option τ × Act)}
    (hrun : run step (start τ) acts = some c) : Accounted c :=
  (Inv.start.run hrun).accounted

/-- One vcpu submits two requests, the worker finishes the first, and the vcpu publishes it. -/
def twoRequests : List (Option Unit × Act) :=
  [(some (), .begin ⟨⟨0x1000, .long64⟩, [], 0⟩), (some (), .go),
    (some (), .begin ⟨⟨0x2000, .long64⟩, [], 0⟩), (some (), .go),
    (none, .go), (none, .compile 1), (none, .go), (none, .go), (none, .go),
    (some (), .drain), (some (), .go), (some (), .go), (some (), .go), (some (), .go),
    (some (), .go)]

theorem two_requests_accounted : ∃ c : Conf Unit, run step (start Unit) twoRequests = some c ∧
    c.shared.queued = 2 ∧ c.shared.published = [0] ∧ Accounted c :=
  ⟨_, rfl, rfl, rfl, requests_accounted (show run step (start Unit) twoRequests = some _ from rfl)⟩

/-- What waits to be drained, in the order in which it will come out: the finished units, what the
worker has in its hands, the queue; and the number the next request will get. -/
def Shared.line (s : Shared) (hands : List ℕ) : List ℕ :=
  s.done.map Finished.id ++ (hands ++ (s.items.map Job.id ++ [s.queued]))

structure Shared.InLine (s : Shared) (hands : List ℕ) : Prop where
  sorted : (s.line hands).Pairwise (· < ·)
  bounded : s.items.length ≤ tierQueueCap

theorem Move.inLine_worker {s' : Shared} {l' : Place} (h : Move s l l' s')
    (hl : l.isWorkers = true) (hline : s.InLine l.ids) : s'.InLine l'.ids := by
  cases h with
  | take j js hitems =>
    obtain ⟨hsorted, hbounded⟩ := hline
    rw [Shared.line, hitems] at hsorted
    rw [hitems] at hbounded
    exact ⟨hsorted, (Nat.le_succ _).trans hbounded⟩
  | push f =>
    refine ⟨?_, hline.bounded⟩
    have hsorted := hline.sorted
    simp only [Shared.line, Place.ids, map_append, map_cons, map_nil, nil_append,
      append_assoc] at hsorted ⊢
    exact hsorted
  | stop | compile | lockPush | probe | settle => exact ⟨hline.sorted, hline.bounded⟩
  | _ => cases hl

theorem Move.inLine_vcpu {s' : Shared} {l' : Place} {hands : List ℕ} (h : Move s l l' s')
    (hl : l.isWorkers = false) (hline : s.InLine hands) : s'.InLine hands := by
  cases h with
  | other _ _ hrest =>
    rw [hrest]
    exact ⟨hline.sorted, hline.bounded⟩
  | takeDone => exact ⟨(pairwise_append.mp hline.sorted).2.1, hline.bounded⟩
  | queue req _ hroom =>
    refine ⟨?_, ?_⟩
    · -- the number just given is the greatest in the line, and the next one is greater still
      have hsorted := hline.sorted
      simp only [Shared.line, ← append_assoc, map_append, map_cons, map_nil] at hsorted ⊢
      refine pairwise_append.mpr ⟨hsorted, pairwise_singleton _ _, ?_⟩
      intro i hi j hj
      rw [mem_singleton.mp hj, Nat.lt_succ_iff]
      rcases mem_append.mp hi with hwaits | hlast
      · exact ((pairwise_append.mp hsorted).2.2 i hwaits _ (mem_singleton_self _)).le
      · exact (mem_singleton.mp hlast).le
    · rw [length_append]
      exact hroom
  | take | stop | compile | lockPush | push | probe | settle => cases hl
  | _ => exact ⟨hline.sorted, hline.bounded⟩

structure Orderly (c : Conf τ) : Prop where
  inLine : c.shared.InLine (c.place none).ids
  alone : ∀ t u, (c.place t).holdsDone = true → (c.place u).holdsDone = true → t = u
  ready : c.shared.locked = false → c.shared.ready = c.shared.done.length

/-- However the steps come in turn, units come out of the compiler in the order in which they were
requested, the queue keeps to its cap, one thread at a time is at the done list, and the probe
counts it whenever nobody is. -/
theorem run_orderly {acts : List (Option τ × Act)}
    (hrun : run step (start τ) acts = some c) : Orderly c := by
  have hinv : Inv c ∧ c.shared.InLine (c.place none).ids := by
    refine run_invariant (fun c => Inv c ∧ c.shared.InLine (c.place none).ids) ?_
      ⟨.start, pairwise_singleton _ _, Nat.zero_le _⟩ hrun
    rintro c a c' ⟨hinv, hline⟩ hstep
    refine ⟨hinv.step hstep, ?_⟩
    obtain ⟨l, s, hnext, rfl⟩ := Threads.step_eq_some.mp hstep
    obtain ⟨t, a⟩ := a
    cases t with
    | none =>
      rw [moved_shared, moved_place_self]
      exact (move_of_next hnext).inLine_worker hinv.worker hline
    | some v => exact (move_of_next hnext).inLine_vcpu (hinv.vcpu v) hline
  refine ⟨hinv.2, ?_, hinv.1.ready⟩
  intro t u ht hu
  by_contra hne
  cases hu.symm.trans (hinv.1.alone_in_lock hne ht)

theorem twoRequests_orderly : ∃ c : Conf Unit, run step (start Unit) twoRequests = some c ∧
    c.shared.items.map Job.id = [1] ∧ Orderly c :=
  ⟨_, rfl, rfl, run_orderly (show run step (start Unit) twoRequests = some _ from rfl)⟩

end Results

end X86Jit.TierQueue
