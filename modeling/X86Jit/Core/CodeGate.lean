import X86Jit.Core.Watermark
import X86Jit.Lib.Runs

/-! The gate of compiled stores over histories of `mark_code` calls. -/
namespace X86Jit
open X86Jit.Lib List Memory

/-- Every store of 1 to 64 bytes that touches one of the pages passes the gate. -/
def GateCovers (marked : Set ℕ) (cr : U64) : Prop :=
  ∀ addr n, addr < 2 ^ 64 → 1 ≤ n → n ≤ 64 → (∃ i < n, (addr + i) / 4096 ∈ marked) →
    codeGate cr (BitVec.ofNat 64 addr) = true

variable {marked : Set ℕ} {cr : U64}

theorem Tracks.gateCovers (h : Tracks marked cr) : GateCovers marked cr := by
  intro addr n haddr hn hn' ⟨i, hi, hmem⟩
  rcases h with ⟨rfl, -⟩ | ⟨m, M, hr⟩
  · exact absurd hmem (Set.notMem_empty _)
  · have hle := hr.least.2 hmem
    have hge := hr.greatest.2 hmem
    have hlo := hr.lo_eq
    have hab := hr.above
    -- a store spills at most into the next page, which the skew allows for
    rw [codeGate_iff cr addr haddr]
    omega

theorem keepsSkew_of_lower {page q : ℕ} (hq : q ∈ marked) (hlt : q ≤ page)
    (h0 : page ≠ 0) : KeepsSkew marked page := by
  refine ⟨Or.inr ?_, fun h => h0 h.1⟩
  intro hl
  have := hl.2 hq
  omega

def widenFrom (cr : U64) (s k : ℕ) : U64 :=
  (range' s k).foldl (fun cr page => widenCodeRange cr (BitVec.ofNat 64 page)) cr

theorem widenFrom_succ (cr : U64) (s k : ℕ) : widenFrom cr s (k + 1) =
      widenFrom (widenCodeRange cr (BitVec.ofNat 64 s)) (s + 1) k := rfl

/-- Marking upward needs the condition for the first page only: each later page has the
one below it marked. -/
theorem Tracks.widenFrom (h : Tracks marked cr) {s k : ℕ}
    (htop : s + k ≤ topPage + 1) (hmax : ∀ q ∈ marked, q ≤ topPage)
    (hk : k ≠ 0 → KeepsSkew marked s) :
    Tracks (marked ∪ {q | s ≤ q ∧ q < s + k}) (widenFrom cr s k) := by
  induction k generalizing marked cr s with
  | zero =>
    have he : {q | s ≤ q ∧ q < s + 0} = (∅ : Set ℕ) := by
      ext q
      simp
    rw [he, Set.union_empty]
    exact h
  | succ k ih =>
    have hstep := h.widen (by omega : s ≤ topPage) hmax (hk (Nat.succ_ne_zero k))
    have hmax' : ∀ q ∈ insert s marked, q ≤ topPage := by
      rintro q (rfl | hq)
      · omega
      · exact hmax q hq
    have hset : marked ∪ {q | s ≤ q ∧ q < s + (k + 1)} =
        insert s marked ∪ {q | s + 1 ≤ q ∧ q < s + 1 + k} := by
      ext q
      simp only [Set.mem_union, Set.mem_ofPred_eq, Set.mem_insert_iff]
      constructor
      · rintro (hq | hq)
        · exact Or.inl (Or.inr hq)
        · by_cases he : q = s
          · exact Or.inl (Or.inl he)
          · exact Or.inr (by omega)
      · rintro ((rfl | hq) | hq)
        · exact Or.inr (by omega)
        · exact Or.inl hq
        · exact Or.inr (by omega)
    rw [widenFrom_succ, hset]
    exact ih hstep (by omega) hmax'
      (fun _ => keepsSkew_of_lower (Set.mem_insert s marked) (Nat.le_succ s) (Nat.succ_ne_zero s))

theorem Tracks.rangeLo_eq (h : Tracks marked cr) {m : ℕ}
    (hm : IsLeast marked m) : rangeLo cr = m - 1 ∧ rangeLen cr ≠ 0 := by
  rcases h with ⟨rfl, -⟩ | ⟨m', M, hr⟩
  · exact absurd hm.1 (Set.notMem_empty _)
  · have hmm : m' = m := hr.least.unique hm
    have hab := hr.above
    have hlo := hr.lo_eq
    have hle := hr.least.2 hr.greatest.1
    omega

/-- A store that spills from below into a page marked just below the lowest one misses the gate. -/
theorem not_gateCovers_of_below (h : Tracks marked cr) {s k : ℕ}
    (htop : s + (k + 1) ≤ topPage + 1) (hmax : ∀ q ∈ marked, q ≤ topPage) (hs : s ≠ 0)
    (hl : IsLeast marked (s + 1)) :
    ¬ GateCovers (marked ∪ {q | s ≤ q ∧ q < s + (k + 1)}) (X86Jit.widenFrom cr s (k + 1)) := by
  obtain ⟨hlo, hlen⟩ := h.rangeLo_eq hl
  have hs32 : s < 2 ^ 32 := by
    unfold topPage at htop
    omega
  have hsame := widen_inside cr s hs32 (by omega) (by omega)
  have hrest := h.widenFrom (s := s + 1) (k := k) (by omega) hmax
    (fun _ => keepsSkew_of_lower hl.1 le_rfl (Nat.succ_ne_zero s))
  have hleast : IsLeast (marked ∪ {q | s + 1 ≤ q ∧ q < s + 1 + k}) (s + 1) := by
    refine ⟨Or.inl hl.1, ?_⟩
    rintro q (hq | hq)
    · exact hl.2 hq
    · exact hq.1
  obtain ⟨hlo', -⟩ := hrest.rangeLo_eq hleast
  rw [widenFrom_succ, hsame]
  intro hcov
  have hgate := hcov (s * 4096 - 1) 2 (by omega) (by omega) (by omega)
    ⟨1, by omega, Or.inr (by constructor <;> omega)⟩
  rw [codeGate_iff _ _ (by omega)] at hgate
  omega

/-- Marking page 0 when the top page is marked overflows the length half, and the watermark forgets
its pages. -/
theorem not_gateCovers_of_overflow (h : Tracks marked cr) {k : ℕ}
    (hk : k + 1 ≤ topPage) (hmax : ∀ q ∈ marked, q ≤ topPage) (htop : topPage ∈ marked)
    (h0 : 0 ∉ marked) (h1 : 1 ∉ marked) :
    ¬ GateCovers (marked ∪ {q | 0 ≤ q ∧ q < 0 + (k + 1)}) (X86Jit.widenFrom cr 0 (k + 1)) := by
  rcases h with ⟨rfl, -⟩ | ⟨m, M, hr⟩
  · exact absurd htop (Set.notMem_empty _)
  · have hm : 2 ≤ m := by
      have hmem := hr.least.1
      by_contra hlt
      rcases (by omega : m = 0 ∨ m = 1) with rfl | rfl
      · exact h0 hmem
      · exact h1 hmem
    have hM : M = topPage := le_antisymm (hmax M hr.greatest.1) (hr.greatest.2 htop)
    have hlo := hr.lo_eq
    have hex := hr.exact (by omega)
    have hmM := hr.least.2 hr.greatest.1
    have hlen : rangeLen cr ≠ 0 := by omega
    have hw := widen_outside cr 0 (by decide) (by omega) 0 topPage
      (by rw [if_neg hlen]; omega) (by rw [if_neg hlen]; omega)
    -- the length of the range from page 0 to the top page wraps to 0 in its field
    have hempty : rangeLen (widenCodeRange cr (BitVec.ofNat 64 0)) = 0 := by
      rw [hw]
      decide
    have hforgot : Tracks ∅ (widenCodeRange cr (BitVec.ofNat 64 0)) :=
      Or.inl ⟨rfl, hempty⟩
    have hrest := hforgot.widenFrom (s := 0 + 1) (k := k) (by omega) (by simp)
      (fun _ => ⟨Or.inr (by simp [IsLeast]), by simp⟩)
    rw [widenFrom_succ]
    intro hcov
    have hgate := hcov (topPage * 4096) 1 (by decide) le_rfl (by decide)
      ⟨0, by decide, Or.inl (by simpa using htop)⟩
    rw [codeGate_iff _ _ (by decide)] at hgate
    rcases hrest with ⟨-, hlen⟩ | ⟨m', M', hr'⟩
    · omega
    · have hM' : M' ≤ k := by
        rcases hr'.greatest.1 with hc | hc
        · exact absurd hc (Set.notMem_empty _)
        · have := hc.2
          omega
      have hm' : 1 ≤ m' := by
        rcases hr'.least.1 with hc | hc
        · exact absurd hc (Set.notMem_empty _)
        · exact hc.1
      have := hr'.exact hm'
      omega

/-- A call of `mark_code` on bytes of the guest span. The length is a `u32`. -/
structure CodeSpan (span : ℕ) where
  addr : ℕ
  len : ℕ
  len_lt : len < 2 ^ 32
  fits : addr + max len 1 ≤ span

section Histories
variable {span : ℕ}

def CodeSpan.firstPage (c : CodeSpan span) : ℕ := c.addr / 4096

def CodeSpan.pageCount (c : CodeSpan span) : ℕ :=
  (c.addr + (max c.len 1 - 1)) / 4096 + 1 - c.addr / 4096

def markedPages (calls : List (CodeSpan span)) : Set ℕ :=
  {p | ∃ c ∈ calls, p ∈ codePageRange c.addr c.len}

variable (hspan : span ≤ maxTrackedSpan) (guestBase : ℕ) (calls : List (CodeSpan span))

def afterMarks : Memory :=
  calls.foldl (fun m c => m.markCode c.addr c.len) (fresh span guestBase hspan)

theorem CodeSpan.pages_eq (hspan : span ≤ maxTrackedSpan) (c : CodeSpan span) :
    codePageRange c.addr c.len = range' c.firstPage c.pageCount := by
  have hf := c.fits
  have hle : c.addr + (max c.len 1 - 1) ≤ 2 ^ 64 - 1 := by
    unfold maxTrackedSpan codePageSize at hspan
    omega
  rw [codePageRange, Nat.min_eq_left hle]
  rfl

theorem CodeSpan.page_bounds (hspan : span ≤ maxTrackedSpan) (c : CodeSpan span) :
    1 ≤ c.pageCount ∧ c.firstPage + c.pageCount ≤ topPage + 1 ∧
      c.firstPage + c.pageCount ≤ ((span + 4095) / 4096 + 63) / 64 * 64 := by
  have hf := c.fits
  unfold maxTrackedSpan codePageSize at hspan
  unfold CodeSpan.firstPage CodeSpan.pageCount topPage
  omega

theorem markPages_codeRange (m : Memory) (s k : ℕ) (h : s + k ≤ m.tablePages) :
    ((range' s k).foldl markPage m).codeRange = widenFrom m.codeRange s k ∧
      ((range' s k).foldl markPage m).span = m.span := by
  induction k generalizing m s with
  | zero => exact ⟨rfl, rfl⟩
  | succ k ih =>
    have hlt : s < m.tablePages := by omega
    have hrest := ih (m.markPage s) (s + 1) (by
      rw [markPage, if_pos hlt]
      change s + 1 + k ≤ m.tablePages
      omega)
    rw [range'_succ, foldl_cons, hrest.1, hrest.2, widenFrom_succ, markPage,
      if_pos hlt]
    exact ⟨rfl, rfl⟩

theorem markCode_codeRange (hspan : span ≤ maxTrackedSpan) (m : Memory) (hm : m.span = span)
    (c : CodeSpan span) :
    (m.markCode c.addr c.len).codeRange = widenFrom m.codeRange c.firstPage c.pageCount ∧
      (m.markCode c.addr c.len).span = span := by
  have hb := (c.page_bounds hspan).2.2
  have hmark := markPages_codeRange m c.firstPage c.pageCount (by
    rw [tablePages, hm]
    exact hb)
  rw [markCode, c.pages_eq hspan, hmark.1, hmark.2]
  exact ⟨rfl, hm⟩

theorem afterMarks_concat (pre : List (CodeSpan span)) (c : CodeSpan span) :
    afterMarks hspan guestBase (pre ++ [c]) =
      (afterMarks hspan guestBase pre).markCode c.addr c.len := by
  simp [afterMarks]

theorem afterMarks_span : (afterMarks hspan guestBase calls).span = span := by
  induction calls using reverseRecOn with
  | nil => rfl
  | append_singleton pre c ih =>
    rw [afterMarks_concat]
    exact (markCode_codeRange hspan _ ih c).2

theorem markedPages_concat (hspan : span ≤ maxTrackedSpan) (pre : List (CodeSpan span))
    (c : CodeSpan span) : markedPages (pre ++ [c]) =
      markedPages pre ∪ {q | c.firstPage ≤ q ∧ q < c.firstPage + c.pageCount} := by
  ext q
  simp only [markedPages, mem_append, mem_singleton, Set.mem_union]
  constructor
  · rintro ⟨d, hd | rfl, hq⟩
    · exact Or.inl ⟨d, hd, hq⟩
    · right
      rwa [CodeSpan.pages_eq hspan, mem_range'_1] at hq
  · rintro (⟨d, hd, hq⟩ | hq)
    · exact ⟨d, Or.inl hd, hq⟩
    · refine ⟨c, Or.inr rfl, ?_⟩
      rw [CodeSpan.pages_eq hspan, mem_range'_1]
      exact hq

theorem markedPages_le (hspan : span ≤ maxTrackedSpan) (calls : List (CodeSpan span)) :
    ∀ q ∈ markedPages calls, q ≤ topPage := by
  rintro q ⟨c, -, hq⟩
  have hb := (c.page_bounds hspan).2.1
  rw [CodeSpan.pages_eq hspan, mem_range'_1] at hq
  omega

/-- After every prefix of a history of `mark_code` the gate passes every store that touches a marked
page, exactly when no call starts on the page just below the lowest one (page 0 excepted) and none
on page 0 while the top page is marked and pages 0 and 1 are not. -/
theorem gate_covers_marked_iff : (∀ pre, pre <+: calls →
        GateCovers (markedPages pre) (afterMarks hspan guestBase pre).codeRange) ↔
      ∀ pre c, pre ++ [c] <+: calls → KeepsSkew (markedPages pre) c.firstPage := by
  refine forall_prefix_iff
    (fun pre => Tracks (markedPages pre) (afterMarks hspan guestBase pre).codeRange)
    (fun pre => GateCovers (markedPages pre) (afterMarks hspan guestBase pre).codeRange)
    (fun pre c => KeepsSkew (markedPages pre) c.firstPage) ?_ ?_ ?_ ?_
  · left
    refine ⟨?_, rfl⟩
    ext q
    simp [markedPages]
  · intro pre h
    exact h.gateCovers
  · intro pre c _ h hk
    obtain ⟨-, htop, -⟩ := c.page_bounds hspan
    rw [markedPages_concat hspan, afterMarks_concat,
      (markCode_codeRange hspan _ (afterMarks_span hspan _ pre) c).1]
    exact h.widenFrom htop (markedPages_le hspan pre) (fun _ => hk)
  · intro pre c _ h hk
    obtain ⟨hpos, htop, -⟩ := c.page_bounds hspan
    obtain ⟨k, hcount⟩ : ∃ k, c.pageCount = k + 1 := ⟨c.pageCount - 1, by omega⟩
    rw [markedPages_concat hspan, afterMarks_concat,
      (markCode_codeRange hspan _ (afterMarks_span hspan _ pre) c).1, hcount]
    rw [hcount] at htop
    have hmax := markedPages_le hspan pre
    by_cases hlow : c.firstPage = 0 ∨ ¬ IsLeast (markedPages pre) (c.firstPage + 1)
    · -- the first condition holds, so the second fails
      have hover := not_not.mp (fun hno => hk ⟨hlow, hno⟩)
      obtain ⟨h0, ht, hn0, hn1⟩ := hover
      have hshort : k + 1 ≤ topPage := by
        have hl := c.len_lt
        unfold CodeSpan.pageCount at hcount
        unfold topPage
        omega
      rw [h0]
      exact not_gateCovers_of_overflow h hshort hmax ht hn0 hn1
    · rw [not_or, not_not] at hlow
      exact not_gateCovers_of_below h htop hmax hlow.1 hlow.2

end Histories

def oneByteAt (page : ℕ) (h : page < 16) : CodeSpan 0x10000 :=
  { addr := page * 4096, len := 1, len_lt := by decide, fits := by omega }

/-- Code is marked on page 5, then on page 4; a store at `0x3ffc` writes page 4 and misses the gate.
-/
theorem mark_below_misses_store :
    ¬ GateCovers (markedPages [oneByteAt 5 (by decide), oneByteAt 4 (by decide)])
      (afterMarks (by decide) 0 [oneByteAt 5 (by decide), oneByteAt 4 (by decide)]).codeRange := by
  intro hcov
  have hmem : (0x3ffc + 4) / 4096 ∈
      markedPages [oneByteAt 5 (by decide), oneByteAt 4 (by decide)] :=
    ⟨oneByteAt 4 (by decide), by simp, by decide⟩
  have hgate := hcov 0x3ffc 8 (by decide) (by decide) (by decide) ⟨4, by decide, hmem⟩
  revert hgate
  decide

theorem gate_covers_marked_three_below_five : (0x10000 ≤ maxTrackedSpan) ∧
      ((∀ pre, pre <+: [oneByteAt 5 (by decide), oneByteAt 3 (by decide)] →
          GateCovers (markedPages pre) (afterMarks (by decide) 0 pre).codeRange) ↔
        ∀ pre c, pre ++ [c] <+: [oneByteAt 5 (by decide), oneByteAt 3 (by decide)] →
          KeepsSkew (markedPages pre) c.firstPage) :=
  ⟨by decide, gate_covers_marked_iff (by decide) 0 _⟩

end X86Jit
