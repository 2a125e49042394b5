import X86Jit.Core.RegionLookup

/-! Guard pages: which pages of the host buffer the protection hook leaves open after a
history of `map` and `unmap`. -/
namespace X86Jit
open List

def Region.OnPage (base p : ℕ) (r : Region) : Prop :=
  ∃ b, r.start ≤ b ∧ b < r.stop ∧ (b - base) / hostPage = p

variable {p : ℕ}

theorem Region.onPage_iff {base : ℕ} {r : Region} (hbase : base ≤ r.start) : r.OnPage base p ↔
      r.size ≠ 0 ∧ r.start - base < (p + 1) * hostPage ∧ p * hostPage < r.stop - base := by
  have hstop : r.stop = r.start + r.size := rfl
  unfold OnPage
  unfold hostPage
  constructor
  · rintro ⟨b, hb, hb', hpage⟩
    omega
  · rintro ⟨hsize, hlo, hhi⟩
    -- The first byte that is both in the region and on the page.
    refine ⟨max r.start (base + p * 4096), ?_, ?_, ?_⟩
    · exact le_max_left _ _
    · omega
    · omega

namespace Space
variable {s : Space}

def sharedPage (s : Space) (p : ℕ) : Bool :=
  s.shared (p * hostPage) (min ((p + 1) * hostPage) s.ram.len)

theorem closePage_opened (hhook : s.ram.hook = true) {page : ℕ} (hp : p * hostPage < s.ram.len) :
    (s.closePage page).opened p = true ↔
      s.opened p = true ∧ (p = page → s.sharedPage page = true) := by
  unfold closePage
  dsimp only
  split
  case isTrue hclose =>
    rw [protect, if_pos hhook]
    dsimp only
    have hpend : page * hostPage + (min ((page + 1) * hostPage) s.ram.len - page * hostPage) =
        min ((page + 1) * hostPage) s.ram.len := by
      omega
    rw [hpend]
    by_cases heq : p = page
    · have hin : page * hostPage < (p + 1) * hostPage ∧
          p * hostPage < min ((page + 1) * hostPage) s.ram.len := by
        rw [heq]
        exact ⟨by unfold hostPage; omega, hclose.2⟩
      have hshared : s.sharedPage page = false := by
        have := hclose.1
        rw [Bool.not_eq_true'] at this
        exact this
      rw [if_pos hin, hshared]
      simp [heq]
    · have hout : ¬(page * hostPage < (p + 1) * hostPage ∧
          p * hostPage < min ((page + 1) * hostPage) s.ram.len) := by
        unfold hostPage
        omega
      rw [if_neg hout]
      exact ⟨fun h => ⟨h, fun h' => absurd h' heq⟩, And.left⟩
  case isFalse hkeep =>
    refine ⟨fun h => ⟨h, ?_⟩, And.left⟩
    intro heq
    rw [heq] at hp
    by_contra hshared
    apply hkeep
    constructor
    · rw [Bool.not_eq_true']
      exact Bool.not_eq_true _ ▸ hshared
    · unfold hostPage at hp ⊢
      omega

theorem closePages_opened (hhook : s.ram.hook = true) (hp : p * hostPage < s.ram.len)
    (pages : List ℕ) : (pages.foldl closePage s).opened p = true ↔
      s.opened p = true ∧ (p ∈ pages → s.sharedPage p = true) := by
  induction pages generalizing s with
  | nil => simp
  | cons page pages ih =>
    have hram := s.closePage_ram page
    have hsame : (s.closePage page).sharedPage p = s.sharedPage p := by
      rw [sharedPage, shared, hram, closePage_mem, ← shared, ← sharedPage]
    rw [foldl_cons, ih (by rw [hram]; exact hhook) (by rw [hram]; exact hp),
      closePage_opened hhook hp, hsame, mem_cons]
    constructor
    · rintro ⟨⟨hopen, hpage⟩, hpages⟩
      refine ⟨hopen, ?_⟩
      rintro (heq | hin)
      · rw [heq]
        exact hpage heq
      · exact hpages hin
    · rintro ⟨hopen, hpages⟩
      refine ⟨⟨hopen, ?_⟩, fun hin => hpages (Or.inr hin)⟩
      rintro rfl
      exact hpages (Or.inl rfl)

theorem reprotect_opened (hhook : s.ram.hook = true) {start size : ℕ}
    (hbase : s.ram.guestBase ≤ start) (hend : start + size - s.ram.guestBase ≤ s.ram.len)
    (hsize : size ≠ 0) (hp : p * hostPage < s.ram.len) :
    (s.reprotect start size true).opened p = true ↔
      s.opened p = true ∨ (start - s.ram.guestBase < (p + 1) * hostPage ∧
        p * hostPage < start + size - s.ram.guestBase) := by
  unfold reprotect
  dsimp only
  unfold hostPage at hp ⊢
  rw [if_neg (by omega), if_pos rfl, protect, if_pos hhook]
  dsimp only
  unfold hostPage
  split
  case isTrue hin => exact ⟨fun _ => Or.inr (by omega), fun _ => rfl⟩
  case isFalse hout =>
    refine ⟨Or.inl, ?_⟩
    rintro (hopen | hin)
    · exact hopen
    · exact absurd (by omega) hout

theorem reprotect_closed (hhook : s.ram.hook = true) {start size : ℕ}
    (hend : start + size - s.ram.guestBase ≤ s.ram.len) (hp : p * hostPage < s.ram.len) :
    (s.reprotect start size false).opened p = true ↔
      s.opened p = true ∧ (start - s.ram.guestBase < (p + 1) * hostPage →
        p * hostPage < start + size - s.ram.guestBase → s.sharedPage p = true) := by
  unfold reprotect
  dsimp only
  split
  case isTrue hempty =>
    refine ⟨fun hopen => ⟨hopen, ?_⟩, And.left⟩
    intro hlo hhi
    unfold hostPage at hempty hlo hhi
    omega
  case isFalse =>
    rw [if_neg Bool.false_ne_true, closePages_opened hhook hp]
    apply and_congr_right
    intro _
    rw [← and_imp, mem_range'_1]
    -- The loop visits the pages whose bounds the statement spells out.
    apply imp_congr_left
    unfold hostPage
    omega

theorem reprotect_empty {start : ℕ} (halign : (start - s.ram.guestBase) % hostPage = 0)
    (accessible : Bool) : s.reprotect start 0 accessible = s := by
  unfold reprotect
  rw [if_pos]
  unfold hostPage at halign ⊢
  omega

def Tidy (s : Space) : Prop :=
  ∀ r ∈ s.mem.regions, r.size = 0 → (r.start - s.ram.guestBase) % hostPage = 0

theorem sharedPage_iff (hlayout : s.mem.Layout) (htidy : s.Tidy) (hp : p * hostPage < s.ram.len) :
    s.sharedPage p = true ↔ ∃ r ∈ s.mem.regions, r.OnPage s.ram.guestBase p := by
  rw [sharedPage, shared, any_eq_true]
  apply exists_congr
  intro r
  apply and_congr_right
  intro hr
  have hbase : s.ram.guestBase ≤ r.start := s.base_eq ▸ hlayout.base_le r hr
  have hspan : r.stop ≤ s.ram.span := s.span_eq ▸ s.mem.regions_le r hr
  have hextent := s.ram.extent_le
  have halign := htidy r hr
  rw [Region.onPage_iff hbase, Bool.and_eq_true, decide_eq_true_eq, decide_eq_true_eq]
  have hstop : r.stop = r.start + r.size := rfl
  unfold hostPage at hp halign ⊢
  omega

/-- What holds of a space with a protection hook as long as no empty region is mapped
inside a page. -/
structure Guarded (s : Space) : Prop where
  layout : s.mem.Layout
  tidy : s.Tidy
  hook : s.ram.hook = true
  opened_iff : ∀ p, p * hostPage < s.ram.len →
    (s.opened p = true ↔ ∃ r ∈ s.mem.regions, r.OnPage s.ram.guestBase p)

def Call.Rounded (ram : HostRam) : Call → Prop
  | .map addr size _ => size = 0 → (addr - ram.guestBase) % hostPage = 0
  | .unmap _ _ => True

theorem Guarded.map (h : s.Guarded) {addr size : ℕ} {kind : RegionKind} {m : Memory}
    (hb : m.span = s.mem.span ∧ m.guestBase = s.mem.guestBase)
    (hround : size = 0 → (addr - s.ram.guestBase) % hostPage = 0)
    (hmap : s.mem.map addr size kind = .ok m) :
    ((s.withMem m hb).reprotect addr size true).Guarded := by
  obtain ⟨hbase, hspan, -, hregions, -, -, -⟩ := Memory.map_inv hmap
  have hkeep := (s.withMem m hb).reprotect_keep addr size true
  rw [s.base_eq] at hbase
  rw [s.span_eq] at hspan
  have hextent := s.ram.extent_le
  constructor
  · rw [hkeep.1]
    exact h.layout.map hmap
  · unfold Tidy
    rw [hkeep.1, hkeep.2, withMem_mem, hregions]
    intro r hr
    rcases List.mem_append.mp hr with hr | hr
    · exact h.tidy r hr
    · rw [List.mem_singleton.mp hr]
      exact hround
  · rw [hkeep.2]
    exact h.hook
  · rw [hkeep.1, hkeep.2, withMem_mem, hregions]
    intro p hp
    have hold := h.opened_iff p hp
    have hnew : (∃ r ∈ s.mem.regions ++ [(⟨addr, size, kind⟩ : Region)],
        r.OnPage s.ram.guestBase p) ↔ s.opened p = true ∨
          (⟨addr, size, kind⟩ : Region).OnPage s.ram.guestBase p := by
      rw [hold]
      simp only [mem_append, mem_singleton, or_and_right, exists_or, exists_eq_left]
    have hpage := Region.onPage_iff (p := p) (r := ⟨addr, size, kind⟩) hbase
    refine Iff.trans ?_ hnew.symm
    rw [hpage]
    -- an empty region that starts a page opens none; elsewhere it would open the page it is in
    by_cases hsize : size = 0
    · have halign : (addr - (s.withMem m hb).ram.guestBase) % hostPage = 0 := hround hsize
      rw [hsize, reprotect_empty halign]
      exact ⟨Or.inl, fun h => h.resolve_right fun h => h.1 rfl⟩
    · have hend : addr + size - s.ram.guestBase ≤ s.ram.len := by omega
      rw [reprotect_opened (s := s.withMem m hb) h.hook hbase hend hsize hp]
      exact or_congr_right ⟨fun h => ⟨hsize, h⟩, And.right⟩

theorem Guarded.unmap (h : s.Guarded) {addr size : ℕ} {m : Memory}
    (hb : m.span = s.mem.span ∧ m.guestBase = s.mem.guestBase)
    (hunmap : s.mem.unmap addr size = .ok m) :
    ((s.withMem m hb).reprotect addr size false).Guarded := by
  have hkeep := (s.withMem m hb).reprotect_keep addr size false
  have hlayout := h.layout.unmap hunmap
  have hend : addr + size - s.ram.guestBase ≤ s.ram.len := by
    have hspan := (Memory.unmap_spec hunmap).2.1
    rw [s.span_eq] at hspan
    have hextent := s.ram.extent_le
    omega
  have hregions := (Memory.unmap_inv hunmap).1
  have hsub (r : Region) (hr : r ∈ m.regions) : r ∈ s.mem.regions :=
    mem_of_mem_eraseP (hregions ▸ hr)
  have htidy : (s.withMem m hb).Tidy := fun r hr => h.tidy r (hsub r hr)
  constructor
  · rw [hkeep.1]
    exact hlayout
  · unfold Tidy
    rw [hkeep.1, hkeep.2]
    exact htidy
  · rw [hkeep.2]
    exact h.hook
  · rw [hkeep.1, hkeep.2]
    intro p hp
    have hshared := sharedPage_iff (s := s.withMem m hb) hlayout htidy hp
    rw [reprotect_closed (s := s.withMem m hb) h.hook hend hp]
    constructor
    · rintro ⟨hopen, hclosed⟩
      obtain ⟨r, hr, hpage⟩ := (h.opened_iff p hp).mp hopen
      -- The region that made the page open is left, or it is the one that went.
      by_cases hgone : (r.start == addr && r.size == size) = true
      · have hbase : s.ram.guestBase ≤ r.start := s.base_eq ▸ h.layout.base_le r hr
        obtain ⟨-, hlo, hhi⟩ := (Region.onPage_iff hbase).mp hpage
        rw [Bool.and_eq_true, beq_iff_eq, beq_iff_eq] at hgone
        rw [Region.stop, hgone.1, hgone.2] at hhi
        rw [hgone.1] at hlo
        exact hshared.mp (hclosed hlo hhi)
      · refine ⟨r, ?_, hpage⟩
        rw [withMem_mem, hregions]
        apply (mem_eraseP_of_neg ?_).mpr hr
        exact hgone
    · rintro ⟨r, hr, hpage⟩
      refine ⟨(h.opened_iff p hp).mpr ⟨r, hsub r hr, hpage⟩, ?_⟩
      intro _ _
      exact hshared.mpr ⟨r, hr, hpage⟩

theorem Guarded.act (h : s.Guarded) (a : Action) (ha : ∀ c, a = .call c → c.Rounded s.ram) :
    (s.act a).Guarded := by
  rcases s.act_cases a with ⟨c, hc, hact⟩ | hacc
  · rw [hact]
    rcases s.call_cases c with ⟨e, he⟩ | ⟨addr, size, kind, m, hb, hmap, hok, he⟩ |
      ⟨addr, size, m, hb, hunmap, hok, he⟩
    · rw [he]
      exact h
    · rw [he]
      have hround := ha c hc
      rw [hmap] at hround
      exact h.map hb hround hok
    · rw [he]
      exact h.unmap hb hok
  · constructor
    · exact h.layout.congr hacc.regions hacc.base
    · unfold Tidy
      rw [hacc.regions, hacc.ram]
      exact h.tidy
    · rw [hacc.ram]
      exact h.hook
    · rw [hacc.regions, hacc.ram, hacc.opened]
      exact h.opened_iff

theorem Guarded.boot {ram : HostRam} (hhook : ram.hook = true) : (boot ram).Guarded := by
  refine ⟨⟨List.Pairwise.nil, fun r hr => absurd hr not_mem_nil⟩,
    fun r hr => absurd hr not_mem_nil, hhook, ?_⟩
  intro p _
  constructor
  · intro hopen
    cases hopen
  · rintro ⟨r, hr, -⟩
    exact absurd hr not_mem_nil

/-- After a history that maps no empty region inside a page, a page of the buffer is open exactly
when a byte of a region lies on it. -/
theorem guard_pages_after {ram : HostRam} (hhook : ram.hook = true) {history : List Action}
    (hrounded : ∀ c, .call c ∈ history → c.Rounded ram) {p : ℕ} (hp : p * hostPage < ram.len) :
    (after ram history).opened p = true ↔
      ∃ r ∈ (after ram history).mem.regions, r.OnPage ram.guestBase p := by
  have hrun : ∀ s : Space, s.Guarded → s.ram = ram → (history.foldl act s).Guarded := by
    induction history with
    | nil => exact fun s h _ => h
    | cons a history ih =>
      intro s h hram
      have ha : ∀ c, a = .call c → c.Rounded s.ram := by
        intro c hc
        rw [hram]
        exact hrounded c (hc ▸ mem_cons_self)
      have hrest : ∀ c, .call c ∈ history → c.Rounded ram :=
        fun c hc => hrounded c (mem_cons_of_mem a hc)
      exact ih hrest (s.act a) (h.act a ha) ((layout_act h.layout a).2.trans hram)
  have hguarded : (after ram history).Guarded := hrun (Space.boot ram) (Guarded.boot hhook) rfl
  have hram := (layout_after ram history).2
  have hiff := hguarded.opened_iff p
  rw [hram] at hiff
  exact hiff hp

theorem page_tracked : 0 + 4096 ≤ maxTrackedSpan := by decide

def pageRam : HostRam :=
  ⟨4096, 0, 4096, true, Nat.zero_le 4096, Nat.le_refl 4096, page_tracked⟩

theorem guard_pages_one_region : (after pageRam [.call (.map 256 16 .ram)]).opened 0 = true ↔
      ∃ r ∈ (after pageRam [.call (.map 256 16 .ram)]).mem.regions, r.OnPage 0 0 := by
  have hrounded : ∀ c, Action.call c ∈ [Action.call (.map 256 16 .ram)] → c.Rounded pageRam := by
    intro c hc
    rw [mem_singleton, Action.call.injEq] at hc
    rw [hc]
    exact fun h => absurd h (by decide)
  have hpage : 0 * hostPage < pageRam.len := by decide
  exact guard_pages_after rfl hrounded hpage

theorem empty_region_opens_page : (after pageRam [.call (.map 256 0 .ram)]).opened 0 = true ∧
      ¬∃ r ∈ (after pageRam [.call (.map 256 0 .ram)]).mem.regions, r.OnPage 0 0 := by
  constructor
  · decide
  · rintro ⟨r, hr, b, hlo, hhi, -⟩
    have hone : r = ⟨256, 0, .ram⟩ := List.mem_singleton.mp hr
    rw [hone] at hlo hhi
    have hempty : b < 256 := hhi
    exact absurd hlo (Nat.not_le.mpr hempty)

end Space
end X86Jit
