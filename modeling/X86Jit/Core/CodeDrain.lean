import X86Jit.Core.Memory
import X86Jit.Lib.Threads

/-! Noting writes to code pages and draining them, by any number of threads. -/
namespace X86Jit.CodeDrain
open X86Jit.Lib Threads

/-- The list, the flag and the tags of the code pages. `pushed` and `results` record what was put on
the list and what each drain has returned. -/
structure Shared where
  dirty : List ℕ
  dirtyFlag : Bool
  isCodePage : ℕ → Bool
  pushed : List ℕ
  results : List (List ℕ)

/-- `pages` are those a write has not looked at yet. -/
inductive Place
  | idle
  | testPage (pages : List ℕ)
  | push (page : ℕ) (pages : List ℕ)
  | setFlag (pages : List ℕ)
  | loadFlag
  | swapFlag
  | takeList
  deriving DecidableEq, Repr

/-- A thread begins a call or makes its next step. Between calls the tags change as blocks come and
go. -/
inductive Act
  | noteWrite (addr len : ℕ)
  | takeDirtyCode
  | retag (tags : ℕ → Bool)
  | go

def Shared.returning (s : Shared) (pages : List ℕ) : Shared :=
  { s with results := s.results ++ [pages] }

def next (s : Shared) : Place → Act → Option (Place × Shared)
  | .idle, .noteWrite addr len => some (.testPage (codePageRange addr len), s)
  | .idle, .takeDirtyCode => some (.loadFlag, s)
  | .idle, .retag tags => some (.idle, { s with isCodePage := tags })
  | .testPage [], .go => some (.idle, s)
  | .testPage (p :: pages), .go =>
    some (if s.isCodePage p then .push p pages else .testPage pages, s)
  | .push p pages, .go =>
    some (.setFlag pages, { s with dirty := s.dirty ++ [p], pushed := s.pushed ++ [p] })
  | .setFlag pages, .go => some (.testPage pages, { s with dirtyFlag := true })
  | .loadFlag, .go =>
    some (if s.dirtyFlag then (.swapFlag, s) else (.idle, s.returning []))
  | .swapFlag, .go =>
    some (if s.dirtyFlag then (.takeList, { s with dirtyFlag := false })
      else (.idle, s.returning []))
  | .takeList, .go => some (.idle, { s.returning s.dirty with dirty := [] })
  | _, _ => none

abbrev Conf (τ : Type) := Threads τ Shared Place

variable {τ : Type} [DecidableEq τ]

def step (c : Conf τ) (a : τ × Act) : Option (Conf τ) := c.step next a

def start (τ : Type) : Conf τ := ⟨⟨[], false, fun _ => false, [], []⟩, fun _ => .idle⟩

def Place.writing : Place → Bool
  | .testPage _ | .push _ _ | .setFlag _ => true
  | _ => false

def Place.owesFlag : Place → Bool
  | .setFlag _ => true
  | _ => false

def Place.owesTake : Place → Bool
  | .takeList => true
  | _ => false

def Place.looking : Place → Bool
  | .loadFlag | .swapFlag => true
  | _ => false

def Place.drainSteps : Place → ℕ
  | .loadFlag => 3
  | .swapFlag => 2
  | .takeList => 1
  | _ => 0

inductive Move (s : Shared) : Place → Act → Place → Shared → Prop
  | noteWrite {addr len} : Move s .idle (.noteWrite addr len) (.testPage (codePageRange addr len)) s
  | takeDirtyCode : Move s .idle .takeDirtyCode .loadFlag s
  | retag {tags} : Move s .idle (.retag tags) .idle { s with isCodePage := tags }
  | written : Move s (.testPage []) .go .idle s
  | found {p pages} : Move s (.testPage (p :: pages)) .go (.push p pages) s
  | passed {p pages} : Move s (.testPage (p :: pages)) .go (.testPage pages) s
  | push {p pages} : Move s (.push p pages) .go (.setFlag pages)
      { s with dirty := s.dirty ++ [p], pushed := s.pushed ++ [p] }
  | setFlag {pages} : Move s (.setFlag pages) .go (.testPage pages) { s with dirtyFlag := true }
  | loaded (hflag : s.dirtyFlag = true) : Move s .loadFlag .go .swapFlag s
  | clean (hflag : s.dirtyFlag = false) : Move s .loadFlag .go .idle (s.returning [])
  | claimed (hflag : s.dirtyFlag = true) :
      Move s .swapFlag .go .takeList { s with dirtyFlag := false }
  | late (hflag : s.dirtyFlag = false) : Move s .swapFlag .go .idle (s.returning [])
  | take : Move s .takeList .go .idle { s.returning s.dirty with dirty := [] }

variable {s : Shared} {l : Place}

theorem move_of_next {s' : Shared} {l' : Place} {a : Act}
    (h : next s l a = some (l', s')) : Move s l a l' s' := by
  unfold next at h
  split at h
  · cases h; exact .noteWrite
  · cases h; exact .takeDirtyCode
  · cases h; exact .retag
  · cases h; exact .written
  · split at h
    · cases h; exact .found
    · cases h; exact .passed
  · cases h; exact .push
  · cases h; exact .setFlag
  · split at h
    · rename_i hflag
      cases h
      exact .loaded hflag
    · rename_i hflag
      cases h
      exact .clean (Bool.eq_false_iff.mpr hflag)
  · split at h
    · rename_i hflag
      cases h
      exact .claimed hflag
    · rename_i hflag
      cases h
      exact .late (Bool.eq_false_iff.mpr hflag)
  · cases h; exact .take
  · cases h

variable {c c' : Conf τ} {t : τ} {a : Act}

/-- Every page that was put on the list is still there or was returned, once and in order. -/
def Kept (s : Shared) : Prop := s.pushed = s.results.flatten ++ s.dirty

/-- A page on the list is announced by the flag, or by a thread that is about to set it or
about to take the list. -/
def Announced (c : Conf τ) : Prop :=
  c.shared.dirty ≠ [] → c.shared.dirtyFlag = true ∨ c.Some (fun l => l.owesFlag = true) ∨
    c.Some (fun l => l.owesTake = true)

structure Inv (c : Conf τ) : Prop where
  kept : Kept c.shared
  announced : Announced c

theorem Kept.returning (h : Kept s) : Kept (s.returning []) := by
  unfold Kept Shared.returning at *
  simpa using h

theorem inv_start (τ : Type) [DecidableEq τ] : Inv (start τ) := ⟨rfl, fun h => absurd rfl h⟩

theorem Announced.moved (h : Announced c)
    (hdirty : s.dirty = c.shared.dirty) (hflag : s.dirtyFlag = c.shared.dirtyFlag)
    (howes : (c.place t).owesFlag = false) (htakes : (c.place t).owesTake = false) :
    Announced (c.moved t l s) := by
  intro hne
  rw [moved_shared, hdirty] at hne
  rcases h hne with h | h | h
  · left
    rw [moved_shared, hflag]
    exact h
  · right
    left
    apply h.moved
    rw [howes]
    exact nofun
  · right
    right
    apply h.moved
    rw [htakes]
    exact nofun

theorem Inv.step (h : Inv c) (hstep : step c (t, a) = some c') : Inv c' := by
  obtain ⟨l, s, hnext, rfl⟩ := step_eq_some.mp hstep
  have hmove := move_of_next hnext
  generalize hplace : c.place t = l₀ at hmove
  have quiet {l : Place} {s : Shared} (hkept : Kept s) (hdirty : s.dirty = c.shared.dirty)
      (hflag : s.dirtyFlag = c.shared.dirtyFlag) (howes : l₀.owesFlag = false)
      (htakes : l₀.owesTake = false) : Inv (c.moved t l s) :=
    ⟨hkept, h.announced.moved hdirty hflag (hplace ▸ howes) (hplace ▸ htakes)⟩
  cases hmove with
  | noteWrite | takeDirtyCode | written | found | passed | loaded =>
    exact quiet h.kept rfl rfl rfl rfl
  | retag => exact quiet h.kept rfl rfl rfl rfl
  | clean => exact quiet h.kept.returning rfl rfl rfl rfl
  | late => exact quiet h.kept.returning rfl rfl rfl rfl
  | @push p pages =>
    constructor
    · have hkept := h.kept
      unfold Kept at hkept ⊢
      rw [moved_shared, hkept, List.append_assoc]
    · intro _
      exact .inr (.inl (some_moved.mpr (.inl rfl)))
  | setFlag =>
    constructor
    · exact h.kept
    · intro _
      exact .inl rfl
  | claimed =>
    constructor
    · exact h.kept
    · intro _
      exact .inr (.inr (some_moved.mpr (.inl rfl)))
  | take =>
    constructor
    · have hkept := h.kept
      unfold Kept Shared.returning at *
      simpa using hkept
    · intro hne
      exact absurd rfl hne

def NoWriter (c : Conf τ) : Prop := ∀ t, (c.place t).writing = false

/-- After the last write a drain has begun that has cleared the flag or is about to. -/
structure Draining (c : Conf τ) : Prop where
  inv : Inv c
  quiet : NoWriter c
  looks : c.shared.dirtyFlag = true → c.Some fun l => l.looking = true

theorem NoWriter.moved (h : NoWriter c) (hl : l.writing = false) : NoWriter (c.moved t l s) := by
  intro u
  by_cases hu : u = t
  · rw [hu, moved_place_self]
    exact hl
  · rw [moved_place_of_ne hu]
    exact h u

theorem NoWriter.step (h : NoWriter c) (hnote : ∀ addr len, a ≠ .noteWrite addr len)
    (hstep : step c (t, a) = some c') : NoWriter c' := by
  obtain ⟨l, s, hnext, rfl⟩ := step_eq_some.mp hstep
  have hquiet := h t
  have hmove := move_of_next hnext
  generalize c.place t = l₀ at hmove hquiet
  apply h.moved
  cases hmove with
  | noteWrite => exact absurd rfl (hnote _ _)
  | found | passed | push | setFlag => cases hquiet
  | _ => rfl

theorem Draining.step (h : Draining c) (hnote : ∀ addr len, a ≠ .noteWrite addr len)
    (hstep : step c (t, a) = some c') : Draining c' := by
  refine ⟨h.inv.step hstep, h.quiet.step hnote hstep, ?_⟩
  obtain ⟨l, s, hnext, rfl⟩ := step_eq_some.mp hstep
  have hquiet := h.quiet t
  have hmove := move_of_next hnext
  generalize hplace : c.place t = l₀ at hmove hquiet
  -- a thread that was not looking leaves the others as they are
  have other {l : Place} {s : Shared} (hflag : s.dirtyFlag = c.shared.dirtyFlag)
      (hl : l₀.looking = false) (hs : s.dirtyFlag = true) :
      (c.moved t l s).Some fun l => l.looking = true := by
    apply (h.looks (hflag ▸ hs)).moved
    rw [hplace, hl]
    exact nofun
  intro hset
  cases hmove with
  | noteWrite => exact absurd rfl (hnote _ _)
  | found | passed | push | setFlag | written => cases hquiet
  | takeDirtyCode | loaded => exact some_moved.mpr (.inl rfl)
  | retag | take => exact other rfl rfl hset
  | clean hflag | late hflag => exact absurd (hset.symm.trans hflag) (by decide)
  | claimed => cases hset

theorem draining_of_begun (hinv : Inv c) (hquiet : NoWriter c)
    (hstep : step c (t, .takeDirtyCode) = some c') : Draining c' := by
  have hnote : ∀ addr len, Act.takeDirtyCode ≠ .noteWrite addr len := by
    intro addr len h
    cases h
  refine ⟨hinv.step hstep, hquiet.step hnote hstep, ?_⟩
  obtain ⟨l, s, hnext, rfl⟩ := step_eq_some.mp hstep
  have hmove := move_of_next hnext
  generalize c.place t = l₀ at hmove
  cases hmove
  intro _
  exact some_moved.mpr (.inl rfl)

omit [DecidableEq τ] in
theorem Draining.dirty_eq_nil (h : Draining c) (hidle : ∀ t, c.place t = .idle) :
    c.shared.dirty = [] := by
  have hnone {P : Place → Bool} (hP : P .idle = false) : ¬c.Some fun l => P l = true := by
    rintro ⟨t, ht⟩
    rw [hidle t, hP] at ht
    cases ht
  by_contra hne
  rcases h.inv.announced hne with hflag | howes | htakes
  · exact hnone rfl (h.looks hflag)
  · exact hnone rfl howes
  · exact hnone rfl htakes

theorem inv_of_run {acts : List (τ × Act)} (h : run step (start τ) acts = some c) : Inv c := by
  apply run_invariant Inv _ (inv_start τ) h
  intro c a c' hinv hstep
  exact hinv.step hstep

theorem drained_of_run (hinv : Inv c) (hquiet : NoWriter c) {later : List (τ × Act)}
    (hnote : ∀ a ∈ later, ∀ addr len, a.2 ≠ .noteWrite addr len)
    (hdrain : ∃ t, (t, Act.takeDirtyCode) ∈ later) (h : run step c later = some c') :
    Draining c' := by
  induction later generalizing c with
  | nil =>
    obtain ⟨t, ht⟩ := hdrain
    cases ht
  | cons a later ih =>
    obtain ⟨t, b⟩ := a
    obtain ⟨d, hstep, hrun⟩ := run_cons.mp h
    have hnote' : ∀ a ∈ later, ∀ addr len, a.2 ≠ .noteWrite addr len := fun a ha =>
      hnote a (List.mem_cons_of_mem _ ha)
    have hb := hnote (t, b) List.mem_cons_self
    obtain ⟨u, hu⟩ := hdrain
    rcases List.mem_cons.mp hu with heq | hu
    · -- from here on a drain that began after the last write is under way
      cases heq
      apply run_invariant_of Draining (fun a => ∀ addr len, a.2 ≠ .noteWrite addr len) _
        (draining_of_begun hinv hquiet hstep) hnote' hrun
      intro e a e' he ha hstep'
      exact he.step ha hstep'
    · exact ih (hinv.step hstep) (hquiet.step hb hstep) hnote' ⟨u, hu⟩ hrun

/-- The steps of a drain are never blocked, and each brings it closer to its end. -/
theorem drain_goes_on (s : Shared) (h : 0 < l.drainSteps) :
    ∃ l' s', next s l .go = some (l', s') ∧ l'.drainSteps < l.drainSteps := by
  cases l with
  | loadFlag =>
    cases hflag : s.dirtyFlag with
    | true => exact ⟨.swapFlag, s, by simp [next, hflag], by decide⟩
    | false => exact ⟨.idle, s.returning [], by simp [next, hflag], by decide⟩
  | swapFlag =>
    cases hflag : s.dirtyFlag with
    | true =>
      exact ⟨.takeList, { s with dirtyFlag := false }, by simp [next, hflag], by decide⟩
    | false => exact ⟨.idle, s.returning [], by simp [next, hflag], by decide⟩
  | takeList => exact ⟨.idle, _, rfl, by decide⟩
  | _ => cases h

/-- In every interleaving the drains have returned, in order, the pages put on the list, but for
those still on it. Once no write is under way, the drains under way and one more return all of them;
each step of it goes through. -/
theorem pushed_returned {acts : List (τ × Act)} (hrun : run step (start τ) acts = some c) :
    c.shared.pushed = c.shared.results.flatten ++ c.shared.dirty ∧
      (NoWriter c → ∀ (later : List (τ × Act)) (c' : Conf τ),
        (∀ a ∈ later, ∀ addr len, a.2 ≠ .noteWrite addr len) →
        (∃ t, (t, Act.takeDirtyCode) ∈ later) → run step c later = some c' →
        (∀ t, c'.place t = .idle) → c'.shared.results.flatten = c'.shared.pushed) ∧
      ∀ t, 0 < (c.place t).drainSteps → ∃ c', step c (t, .go) = some c' ∧
        (c'.place t).drainSteps < (c.place t).drainSteps := by
  have hinv := inv_of_run hrun
  refine ⟨hinv.kept, ?_, ?_⟩
  · intro hquiet later c' hnote hdrain hlater hidle
    have hdraining := drained_of_run hinv hquiet hnote hdrain hlater
    have hkept : c'.shared.pushed = c'.shared.results.flatten ++ c'.shared.dirty :=
      hdraining.inv.kept
    rw [hdraining.dirty_eq_nil hidle, List.append_nil] at hkept
    exact hkept.symm
  · intro t ht
    obtain ⟨l', s', hnext, hlt⟩ := drain_goes_on c.shared ht
    refine ⟨c.moved t l' s', step_eq_some.mpr ⟨l', s', hnext, rfl⟩, ?_⟩
    rw [moved_place_self]
    exact hlt

def writesPage : List (Bool × Act) :=
  [(true, .retag fun p => p == 5), (true, .noteWrite 0x5ff0 8), (true, .go), (true, .go),
    (true, .go), (true, .go)]

def drains : List (Bool × Act) := [(false, .takeDirtyCode), (false, .go), (false, .go), (false, .go)]

theorem written_page_returned : ∃ c c', run step (start Bool) writesPage = some c ∧ NoWriter c ∧
      run step c drains = some c' ∧ c'.shared.pushed = [5] ∧
      c'.shared.results.flatten = c'.shared.pushed := by
  have hwrite : run step (start Bool) writesPage = some _ := rfl
  have hquiet : NoWriter ((run step (start Bool) writesPage).get rfl) := by
    intro t
    cases t <;> rfl
  refine ⟨_, _, hwrite, hquiet, rfl, rfl, ?_⟩
  refine (pushed_returned hwrite).2.1 hquiet drains _ ?_ ⟨false, List.mem_cons_self⟩ rfl ?_
  · intro a ha addr len hnote
    simp only [drains, List.mem_cons, List.not_mem_nil, or_false] at ha
    rcases ha with rfl | rfl | rfl | rfl <;> cases hnote
  · intro t
    cases t <;> rfl

end X86Jit.CodeDrain
