import X86Jit.Core.Regions

/-! What holds of the region list after every history, and what a scalar access finds there. -/
namespace X86Jit
open BitVec List Memory

instance : Std.Symm Region.Apart := ⟨fun _ _ h => h.symm⟩

variable {size addr : ℕ} {r : Region}

namespace Memory

structure Layout (m : Memory) : Prop where
  apart : m.regions.Pairwise Region.Apart
  base_le : ∀ r ∈ m.regions, m.guestBase ≤ r.start

theorem Layout.congr {m m' : Memory} (h : m.Layout) (hregions : m'.regions = m.regions)
    (hbase : m'.guestBase = m.guestBase) : m'.Layout := by
  constructor
  · rw [hregions]
    exact h.apart
  · rw [hregions, hbase]
    exact h.base_le

theorem Layout.map {m m' : Memory} {kind : RegionKind} (h : m.Layout)
    (hmap : m.map addr size kind = .ok m') : m'.Layout := by
  obtain ⟨hbase, -, hapart, hregions, -, hbase', -⟩ := map_inv hmap
  constructor
  · rw [hregions, pairwise_append]
    refine ⟨h.apart, pairwise_singleton _ _, ?_⟩
    intro r hr r' hr'
    rw [mem_singleton.mp hr']
    exact hapart r hr
  · intro r hr
    rw [hbase']
    rw [hregions, mem_append] at hr
    rcases hr with hr | hr
    · exact h.base_le r hr
    · rw [mem_singleton.mp hr]
      exact hbase

theorem Layout.unmap {m m' : Memory} (h : m.Layout)
    (hunmap : m.unmap addr size = .ok m') : m'.Layout := by
  obtain ⟨hregions, -, hbase, -⟩ := unmap_inv hunmap
  have hsub : m'.regions.Sublist m.regions := hregions ▸ eraseP_sublist
  constructor
  · exact h.apart.sublist hsub
  · intro r hr
    rw [hbase]
    exact h.base_le r (hsub.subset hr)

def UniqueAt (m : Memory) (addr size : ℕ) : Prop :=
  ∀ r ∈ m.regions, ∀ r' ∈ m.regions,
    r.contains addr size = true → r'.contains addr size = true → r = r'

variable {m : Memory} {addr size : ℕ}

theorem Layout.uniqueAt (h : m.Layout) (hsize : size ≠ 0) : m.UniqueAt addr size := by
  intro r hr r' hr' hin hin'
  by_contra hne
  exact (h.apart.forall hr hr' hne).not_contains hsize hin hin'

theorem not_contains_of_overflow (h : 2 ^ 64 ≤ addr + size) (hr : r ∈ m.regions) :
    ¬r.contains addr size = true := by
  intro hin
  have hstop := (Region.contains_iff.mp hin).2
  have hspan := (m.regions_le r hr).trans m.span_le
  unfold maxTrackedSpan codePageSize at hspan
  omega

theorem search_eq_ok (hm : m.UniqueAt addr size)
    (hr : r ∈ m.regions) (hin : r.contains addr size = true) : m.search addr size = .ok r := by
  unfold search
  cases hfind : m.regions.find? fun r => r.contains addr size with
  | none => exact absurd hin (find?_eq_none.mp hfind r hr)
  | some r' =>
    have hin' : r'.contains addr size = true := by
      have hp := find?_some hfind
      exact hp
    have heq := hm r' (mem_of_find?_eq_some hfind) r hr hin' hin
    rw [heq]
    rfl

theorem search_eq_error (h : ∀ r ∈ m.regions, ¬r.contains addr size = true) :
    m.search addr size = .error .unmapped := by
  unfold search
  rw [find?_eq_none.mpr h]
  rfl

theorem regionAt_of_miss {hint : ℕ}
    (h : (m.regions[hint]?).filter (fun r => r.contains addr size) = none) :
    (m.regionAt hint addr size).1 = m.search addr size := by
  unfold regionAt
  split
  case isTrue hover => exact (search_eq_error fun r hr => not_contains_of_overflow hover hr).symm
  case isFalse =>
    rw [h]
    unfold search
    rw [find?_eq_bind_findIdx?_getElem?]
    cases m.regions.findIdx? fun r => r.contains addr size with
    | none => rfl
    | some i => rfl

theorem regionAt_of_hit {hint : ℕ}
    (hget : m.regions[hint]? = some r) (hin : r.contains addr size = true) :
    (m.regionAt hint addr size).1 = .ok r := by
  unfold regionAt
  split
  case isTrue hover =>
    exact absurd hin (not_contains_of_overflow hover (mem_of_getElem? hget))
  case isFalse =>
    have hfilter : (some r).filter (fun r => r.contains addr size) = some r := if_pos hin
    rw [hget, hfilter]

/-- The remembered index never shows exactly when the range determines its region. -/
theorem regionAt_eq_search_iff :
    (∀ hint, (m.regionAt hint addr size).1 = m.search addr size) ↔ m.UniqueAt addr size := by
  constructor
  · intro h r hr r' hr' hin hin'
    -- Either region is what the lookup gives when its own index is remembered.
    obtain ⟨i, hi⟩ := mem_iff_getElem?.mp hr
    obtain ⟨j, hj⟩ := mem_iff_getElem?.mp hr'
    have hsame := (regionAt_of_hit hi hin).symm.trans ((h i).trans (h j).symm)
    have hok := hsame.trans (regionAt_of_hit hj hin')
    exact Except.ok.inj hok
  · intro hm hint
    cases hget : (m.regions[hint]?).filter fun r => r.contains addr size with
    | none => exact regionAt_of_miss hget
    | some r =>
      obtain ⟨hr, hin⟩ := Option.filter_eq_some_iff.mp hget
      rw [regionAt_of_hit hr hin]
      exact (search_eq_ok hm (mem_of_getElem? hr) hin).symm

end Memory

namespace Space

structure Accessed (s s' : Space) : Prop where
  ram : s'.ram = s.ram
  regions : s'.mem.regions = s.mem.regions
  base : s'.mem.guestBase = s.mem.guestBase
  opened : s'.opened = s.opened

variable (s : Space)

theorem lookup_accessed (addr size : ℕ) : Accessed s (s.lookup addr size).2 :=
  ⟨rfl, rfl, rfl, rfl⟩

theorem store_accessed (addr : ℕ) (bs : List U8) : Accessed s (s.store addr bs) :=
  ⟨rfl, (noteWrite_sameTags _ _ _).regions, noteWrite_guestBase _ _ _, rfl⟩

theorem Accessed.trans {s₁ s₂ s₃ : Space} (h : Accessed s₁ s₂) (h' : Accessed s₂ s₃) :
    Accessed s₁ s₃ :=
  ⟨h'.ram.trans h.ram, h'.regions.trans h.regions, h'.base.trans h.base,
    h'.opened.trans h.opened⟩

theorem read_accessed (addr : U64) (size : Size) : Accessed s (s.read addr size).2 := by
  have h := s.lookup_accessed addr.toNat size.bytes
  unfold read
  dsimp only
  split
  · exact h
  · split
    · exact h
    · exact h

theorem write_accessed (addr val : U64) (size : Size) : Accessed s (s.write addr val size).2 := by
  have h := s.lookup_accessed addr.toNat size.bytes
  unfold write
  dsimp only
  split
  · exact h
  · split
    · exact h
    · exact h
    · exact h.trans (store_accessed _ _ _)

theorem writeBytes_accessed (addr : ℕ) (bs : List U8) :
    Accessed s (s.writeBytes addr bs).2 := by
  unfold writeBytes
  split
  · exact ⟨rfl, rfl, rfl, rfl⟩
  · exact store_accessed s addr bs

theorem act_cases (a : Action) :
    (∃ c, a = .call c ∧ s.act a = (s.call c).2) ∨ Accessed s (s.act a) := by
  cases a with
  | call c => exact Or.inl ⟨c, rfl, rfl⟩
  | read addr size => exact Or.inr (s.read_accessed addr size)
  | write addr val size => exact Or.inr (s.write_accessed addr val size)
  | writeBytes addr bs => exact Or.inr (s.writeBytes_accessed addr bs)

theorem layout_call {s : Space} (h : s.mem.Layout) (c : Call) : (s.call c).2.mem.Layout := by
  rcases s.call_cases c with ⟨e, he⟩ | ⟨addr, size, kind, m, hb, -, hmap, he⟩ |
    ⟨addr, size, m, hb, -, hunmap, he⟩
  · rw [he]
    exact h
  · rw [he, (reprotect_keep _ _ _ _).1]
    exact h.map hmap
  · rw [he, (reprotect_keep _ _ _ _).1]
    exact h.unmap hunmap

theorem ram_call (c : Call) : (s.call c).2.ram = s.ram := by
  rcases s.call_cases c with ⟨e, he⟩ | ⟨addr, size, kind, m, hb, -, hmap, he⟩ |
    ⟨addr, size, m, hb, -, hunmap, he⟩
  · rw [he]
  · rw [he, (reprotect_keep _ _ _ _).2]
    rfl
  · rw [he, (reprotect_keep _ _ _ _).2]
    rfl

theorem layout_act {s : Space} (h : s.mem.Layout) (a : Action) :
    (s.act a).mem.Layout ∧ (s.act a).ram = s.ram := by
  rcases s.act_cases a with ⟨c, -, hc⟩ | hacc
  · rw [hc]
    exact ⟨layout_call h c, ram_call s c⟩
  · exact ⟨h.congr hacc.regions hacc.base, hacc.ram⟩

theorem layout_after (ram : HostRam) (history : List Action) :
    (after ram history).mem.Layout ∧ (after ram history).ram = ram := by
  have hrun : ∀ s : Space, s.mem.Layout →
      (history.foldl act s).mem.Layout ∧ (history.foldl act s).ram = s.ram := by
    induction history with
    | nil => exact fun s h => ⟨h, rfl⟩
    | cons a history ih =>
      intro s h
      obtain ⟨hlayout, hram⟩ := layout_act h a
      obtain ⟨hlayout', hram'⟩ := ih (s.act a) hlayout
      exact ⟨hlayout', hram'.trans hram⟩
  exact hrun (boot ram) ⟨List.Pairwise.nil, fun r hr => absurd hr not_mem_nil⟩

/-- The regions are apart and inside the bounds, a failed call changes nothing, and a lookup gives
what a linear search does. -/
structure LookupSound (s : Space) (addr size : ℕ) : Prop where
  apart : s.mem.regions.Pairwise Region.Apart
  inside : ∀ r ∈ s.mem.regions, s.ram.guestBase ≤ r.start ∧ r.stop ≤ s.ram.span
  failed : ∀ c e, (s.call c).1 = .error e → (s.call c).2 = s
  lookup : ∀ hint, (s.mem.regionAt hint addr size).1 = s.mem.search addr size

theorem call_failed {s : Space} {c : Call} {e : MapError} (h : (s.call c).1 = .error e) :
    (s.call c).2 = s := by
  rcases s.call_cases c with ⟨e', he⟩ | ⟨addr, size, kind, m, hb, -, -, he⟩ |
    ⟨addr, size, m, hb, -, -, he⟩
  · rw [he]
  · rw [he] at h
    cases h
  · rw [he] at h
    cases h

/-- After every history, all of this holds; the lookup of an empty range is right exactly when no
two regions both reach its address. -/
theorem lookup_sound_iff (ram : HostRam) (history : List Action) (addr size : ℕ) :
    LookupSound (after ram history) addr size ↔
      (size = 0 → (after ram history).mem.UniqueAt addr 0) := by
  obtain ⟨hlayout, -⟩ := layout_after ram history
  constructor
  · rintro h rfl
    exact regionAt_eq_search_iff.mp h.lookup
  · intro h
    have hunique : (after ram history).mem.UniqueAt addr size := by
      by_cases hsize : size = 0
      · rw [hsize]
        exact h hsize
      · exact hlayout.uniqueAt hsize
    refine ⟨hlayout.apart, ?_, fun c e => call_failed, ?_⟩
    · intro r hr
      rw [← Space.base_eq, ← Space.span_eq]
      exact ⟨hlayout.base_le r hr, regions_le _ r hr⟩
    · exact regionAt_eq_search_iff.mpr hunique

theorem tiny_tracked : 0 + 64 ≤ maxTrackedSpan := by decide

def tinyRam : HostRam := ⟨64, 0, 64, false, Nat.zero_le 64, Nat.le_refl 64, tiny_tracked⟩

/-- RAM and a device side by side: for an empty range where they meet the remembered index decides.
-/
theorem empty_lookup_shows_hint :
    ¬LookupSound (after tinyRam [.call (.map 0 16 .ram), .call (.map 16 16 .trap)]) 16 0 := by
  intro h
  have hhit : (after tinyRam [.call (.map 0 16 .ram), .call (.map 16 16 .trap)]).mem.search 16 0 =
      .ok ⟨16, 16, .trap⟩ := (h.lookup 1).symm
  have hscan : (after tinyRam [.call (.map 0 16 .ram), .call (.map 16 16 .trap)]).mem.search 16 0 =
      .ok ⟨0, 16, .ram⟩ := rfl
  have hsame := Except.ok.inj (hhit.symm.trans hscan)
  exact absurd (congrArg Region.start hsame) (by decide)

end Space

namespace Memory

variable (m : Memory)

def readable (b : ℕ) : Bool :=
  m.regions.any fun r => r.contains b 1 && r.kind != .trap

def inRam (b : ℕ) : Bool := m.regions.any fun r => r.contains b 1 && r.kind == .ram

def cut (addr size : ℕ) : Bool :=
  m.regions.any fun r => r.contains addr 1 && decide (r.stop < addr + size)

theorem readable_iff {m : Memory} {b : ℕ} :
    m.readable b = true ↔ ∃ r ∈ m.regions, r.contains b 1 = true ∧ r.kind ≠ .trap := by
  simp only [readable, any_eq_true, Bool.and_eq_true, bne_iff_ne]

theorem inRam_iff {m : Memory} {b : ℕ} :
    m.inRam b = true ↔ ∃ r ∈ m.regions, r.contains b 1 = true ∧ r.kind = .ram := by
  simp only [inRam, any_eq_true, Bool.and_eq_true, beq_iff_eq]

theorem cut_iff {m : Memory} : m.cut addr size = true ↔
      ∃ r ∈ m.regions, r.contains addr 1 = true ∧ r.stop < addr + size := by
  simp only [cut, any_eq_true, Bool.and_eq_true, decide_eq_true_eq]

theorem contains_byte {b : ℕ} (h : r.contains addr size = true)
    (hb : addr ≤ b) (hb' : b < addr + size) : r.contains b 1 = true := by
  rw [Region.contains_iff] at h ⊢
  omega

/-- One region that is not a device holds the range exactly when every byte is readable and no
boundary cuts it. -/
theorem Layout.whole_iff {m : Memory} (h : m.Layout) (addr : ℕ) (hsize : 0 < size) :
    (∃ r ∈ m.regions, r.contains addr size = true ∧ r.kind ≠ .trap) ↔
      (∀ i < size, m.readable (addr + i) = true) ∧ ¬m.cut addr size = true := by
  constructor
  · rintro ⟨r, hr, hin, hkind⟩
    constructor
    · intro i hi
      have hbyte : r.contains (addr + i) 1 = true := contains_byte hin (by omega) (by omega)
      exact readable_iff.mpr ⟨r, hr, hbyte, hkind⟩
    · intro hcut
      obtain ⟨r', hr', hfirst, hstop⟩ := cut_iff.mp hcut
      have hfirst' : r.contains addr 1 = true := contains_byte hin (by omega) (by omega)
      have hsame : r' = r := h.uniqueAt one_ne_zero r' hr' r hr hfirst hfirst'
      have hend := (Region.contains_iff.mp hin).2
      rw [hsame] at hstop
      omega
  · rintro ⟨hread, hcut⟩
    obtain ⟨r, hr, hfirst, hkind⟩ := readable_iff.mp (hread 0 hsize)
    refine ⟨r, hr, ?_, hkind⟩
    rw [Region.contains_iff]
    refine ⟨(Region.contains_iff.mp hfirst).1, ?_⟩
    by_contra hshort
    exact hcut (cut_iff.mpr ⟨r, hr, hfirst, not_le.mp hshort⟩)

theorem getLsbD_loadLe (addr n : ℕ) {k : ℕ} (hk : k < 64) : (m.loadLe addr n).getLsbD k =
      (decide (k / 8 < n) && (m.bytes (addr + k / 8)).getLsbD (k % 8)) := by
  induction n with
  | zero => simp [loadLe]
  | succ n ih =>
    unfold loadLe at ih ⊢
    rw [range_succ, foldl_append, foldl_cons, foldl_nil, getLsbD_or, ih,
      getLsbD_shiftLeft, getLsbD_setWidth]
    rcases Nat.lt_trichotomy (k / 8) n with hlt | heq | hgt
    · have hbelow : k < 8 * n := by omega
      simp [hlt, hbelow, Nat.lt_succ_of_lt hlt]
    · have hge : ¬k < 8 * n := by omega
      have hrest : k - 8 * n = k % 8 := by omega
      have hsmall : k % 8 < 64 := by omega
      simp [heq, hge, hrest, hk, hsmall]
    · have hge : 8 ≤ k - 8 * n := by omega
      have hout : (m.bytes (addr + n)).getLsbD (k - 8 * n) = false := getLsbD_of_ge _ _ hge
      have hnot : ¬k / 8 < n + 1 := by omega
      simp [hout, hnot, Nat.not_lt.mpr hgt.le]

theorem loadLe_byte (addr n : ℕ) {i : ℕ} (hi : i < 8) :
    (m.loadLe addr n).extractLsb' (8 * i) 8 = if i < n then m.bytes (addr + i) else 0 := by
  apply eq_of_getLsbD_eq
  intro j hj
  have hk : 8 * i + j < 64 := by omega
  have hdiv : (8 * i + j) / 8 = i := by omega
  have hmod : (8 * i + j) % 8 = j := by omega
  rw [getLsbD_extractLsb', getLsbD_loadLe m addr n hk, hdiv, hmod]
  by_cases hn : i < n
  · simp [hn, hj]
  · simp [hn]

theorem getD_leBytes (val : U64) {n i : ℕ} (hi : i < n) :
    (leBytes val n).getD i 0 = (val >>> (8 * i)).setWidth 8 := by
  simp [leBytes, hi]

end Memory

namespace Space
variable {s : Space}

theorem lookup_cases (h : s.mem.Layout) (addr : ℕ) (hsize : size ≠ 0) :
    (∃ r ∈ s.mem.regions, r.contains addr size = true ∧ (s.lookup addr size).1 = .ok r) ∨
    ((∀ r ∈ s.mem.regions, ¬r.contains addr size = true) ∧
      (s.lookup addr size).1 = .error .unmapped) := by
  have hunique : s.mem.UniqueAt addr size := h.uniqueAt hsize
  have hsearch : (s.lookup addr size).1 = s.mem.search addr size :=
    regionAt_eq_search_iff.mpr hunique s.lastRegion
  rw [hsearch]
  by_cases hin : ∃ r ∈ s.mem.regions, r.contains addr size = true
  · obtain ⟨r, hr, hin⟩ := hin
    exact Or.inl ⟨r, hr, hin, search_eq_ok hunique hr hin⟩
  · have hnone : ∀ r ∈ s.mem.regions, ¬r.contains addr size = true :=
      fun r hr hr' => hin ⟨r, hr, hr'⟩
    exact Or.inr ⟨hnone, search_eq_error hnone⟩

theorem bytes_ne_zero (size : Size) : size.bytes ≠ 0 := by
  cases size <;> decide

theorem read_cases (h : s.mem.Layout) (addr : U64) (size : Size) :
    (∃ r ∈ s.mem.regions, r.contains addr.toNat size.bytes = true ∧ r.kind ≠ .trap ∧
      (s.read addr size).1 = .ok (s.mem.loadLe addr.toNat size.bytes)) ∨
    ((¬∃ r ∈ s.mem.regions, r.contains addr.toNat size.bytes = true ∧ r.kind ≠ .trap) ∧
      ∃ t, (s.read addr size).1 = .error t) := by
  rcases lookup_cases h addr.toNat (bytes_ne_zero size) with ⟨r, hr, hin, hfound⟩ | ⟨hnone, hfound⟩
  · unfold read
    dsimp only
    rw [hfound]
    dsimp only
    cases hkind : r.kind with
    | trap =>
      refine Or.inr ⟨?_, .mmio, rfl⟩
      rintro ⟨r', hr', hin', hkind'⟩
      rw [h.uniqueAt (bytes_ne_zero size) r' hr' r hr hin' hin] at hkind'
      exact hkind' hkind
    | ram => exact Or.inl ⟨r, hr, hin, by rw [hkind]; decide, rfl⟩
    | rom => exact Or.inl ⟨r, hr, hin, by rw [hkind]; decide, rfl⟩
  · unfold read
    dsimp only
    rw [hfound]
    refine Or.inr ⟨?_, .unmapped, rfl⟩
    rintro ⟨r, hr, hin, -⟩
    exact hnone r hr hin

theorem write_cases (h : s.mem.Layout) (addr val : U64) (size : Size) :
    (∃ r ∈ s.mem.regions, r.contains addr.toNat size.bytes = true ∧ r.kind = .ram ∧
      (s.write addr val size).1 = .ok () ∧ (s.write addr val size).2.mem.bytes =
        (s.mem.setBytes addr.toNat (leBytes val size.bytes)).bytes) ∨
    (∃ r ∈ s.mem.regions, r.contains addr.toNat size.bytes = true ∧ r.kind = .rom ∧
      (s.write addr val size).1 = .ok () ∧ (s.write addr val size).2.mem.bytes = s.mem.bytes) ∨
    ((¬∃ r ∈ s.mem.regions, r.contains addr.toNat size.bytes = true ∧ r.kind ≠ .trap) ∧
      ∃ t, (s.write addr val size).1 = .error t) := by
  rcases lookup_cases h addr.toNat (bytes_ne_zero size) with ⟨r, hr, hin, hfound⟩ | ⟨hnone, hfound⟩
  · unfold write
    dsimp only
    rw [hfound]
    dsimp only
    cases hkind : r.kind with
    | trap =>
      refine Or.inr (Or.inr ⟨?_, .mmio, rfl⟩)
      rintro ⟨r', hr', hin', hkind'⟩
      rw [h.uniqueAt (bytes_ne_zero size) r' hr' r hr hin' hin] at hkind'
      exact hkind' hkind
    | ram =>
      refine Or.inl ⟨r, hr, hin, hkind, rfl, ?_⟩
      exact (noteWrite_sameTags _ _ _).bytes
    | rom => exact Or.inr (Or.inl ⟨r, hr, hin, hkind, rfl, rfl⟩)
  · unfold write
    dsimp only
    rw [hfound]
    refine Or.inr (Or.inr ⟨?_, .unmapped, rfl⟩)
    rintro ⟨r, hr, hin, -⟩
    exact hnone r hr hin

/-- A load and a store go through exactly when every byte is in RAM or ROM; the load gives the bytes
lowest first, and the store changes its bytes where there is RAM and no others. -/
structure ByteWise (s : Space) (addr val : U64) (size : Size) : Prop where
  read_iff : (∃ v, (s.read addr size).1 = .ok v) ↔
    ∀ i < size.bytes, s.mem.readable (addr.toNat + i) = true
  read_value : ∀ v, (s.read addr size).1 = .ok v → ∀ i < 8, v.extractLsb' (8 * i) 8 =
    if i < size.bytes then s.mem.bytes (addr.toNat + i) else 0
  write_iff : (s.write addr val size).1 = .ok () ↔
    ∀ i < size.bytes, s.mem.readable (addr.toNat + i) = true
  write_value : (s.write addr val size).1 = .ok () → ∀ b,
    (s.write addr val size).2.mem.bytes b =
      if (addr.toNat ≤ b ∧ b < addr.toNat + size.bytes) ∧ s.mem.inRam b = true
      then (val >>> (8 * (b - addr.toNat))).setWidth 8 else s.mem.bytes b

variable {size : Size} {addr : U64}

theorem read_value (h : s.mem.Layout) {v : U64}
    (hread : (s.read addr size).1 = .ok v) {i : ℕ} (hi : i < 8) :
    v.extractLsb' (8 * i) 8 =
      if i < size.bytes then s.mem.bytes (addr.toNat + i) else 0 := by
  rcases read_cases h addr size with ⟨r, -, -, -, hok⟩ | ⟨-, t, herr⟩
  · rw [hok, Except.ok.injEq] at hread
    rw [← hread]
    exact s.mem.loadLe_byte _ _ hi
  · rw [herr] at hread
    cases hread

theorem write_value (h : s.mem.Layout) {val : U64}
    (hwrite : (s.write addr val size).1 = .ok ()) (b : ℕ) :
    (s.write addr val size).2.mem.bytes b =
      if (addr.toNat ≤ b ∧ b < addr.toNat + size.bytes) ∧ s.mem.inRam b = true
      then (val >>> (8 * (b - addr.toNat))).setWidth 8 else s.mem.bytes b := by
  rcases write_cases h addr val size with ⟨r, hr, hin, hkind, -, hbytes⟩ |
    ⟨r, hr, hin, hkind, -, hbytes⟩ | ⟨-, t, herr⟩
  · rw [hbytes]
    unfold setBytes
    dsimp only
    rw [length_leBytes]
    by_cases hb : addr.toNat ≤ b ∧ b < addr.toNat + size.bytes
    · have hram : s.mem.inRam b = true :=
        inRam_iff.mpr ⟨r, hr, contains_byte hin hb.1 hb.2, hkind⟩
      rw [if_pos hb, if_pos ⟨hb, hram⟩]
      exact getD_leBytes val (by omega)
    · rw [if_neg hb, if_neg fun h => hb h.1]
  · rw [hbytes, if_neg]
    -- A byte of the range is in ROM, so it is not in RAM as well.
    rintro ⟨hb, hram⟩
    obtain ⟨r', hr', hin', hkind'⟩ := inRam_iff.mp hram
    have hbyte := contains_byte hin hb.1 hb.2
    rw [h.uniqueAt one_ne_zero r' hr' r hr hin' hbyte, hkind] at hkind'
    cases hkind'
  · rw [herr] at hwrite
    cases hwrite

theorem read_ok_iff (h : s.mem.Layout) : (∃ v, (s.read addr size).1 = .ok v) ↔
      ∃ r ∈ s.mem.regions, r.contains addr.toNat size.bytes = true ∧ r.kind ≠ .trap := by
  rcases read_cases h addr size with ⟨r, hr, hin, hkind, hok⟩ | ⟨hno, t, herr⟩
  · exact ⟨fun _ => ⟨r, hr, hin, hkind⟩, fun _ => ⟨_, hok⟩⟩
  · constructor
    · rintro ⟨v, hv⟩
      rw [herr] at hv
      cases hv
    · intro hr
      exact absurd hr hno

theorem write_ok_iff (h : s.mem.Layout) {val : U64} : (s.write addr val size).1 = .ok () ↔
      ∃ r ∈ s.mem.regions, r.contains addr.toNat size.bytes = true ∧ r.kind ≠ .trap := by
  rcases write_cases h addr val size with ⟨r, hr, hin, hkind, hok, -⟩ |
    ⟨r, hr, hin, hkind, hok, -⟩ | ⟨hno, t, herr⟩
  · exact ⟨fun _ => ⟨r, hr, hin, by rw [hkind]; decide⟩, fun _ => hok⟩
  · exact ⟨fun _ => ⟨r, hr, hin, by rw [hkind]; decide⟩, fun _ => hok⟩
  · constructor
    · intro hw
      rw [herr] at hw
      cases hw
    · intro hr
      exact absurd hr hno

/-- After every history, accesses follow the mapping of the bytes except for the ranges that are
readable throughout and cut by the end of a region. -/
theorem byteWise_iff (ram : HostRam) (history : List Action) (addr val : U64) (size : Size) :
    ByteWise (after ram history) addr val size ↔
      ¬((∀ i < size.bytes, (after ram history).mem.readable (addr.toNat + i) = true) ∧
        (after ram history).mem.cut addr.toNat size.bytes = true) := by
  have hlayout := (layout_after ram history).1
  have hpos : 0 < size.bytes := Nat.pos_of_ne_zero (bytes_ne_zero size)
  have hwhole := hlayout.whole_iff addr.toNat hpos
  constructor
  · rintro h ⟨hread, hcut⟩
    have hok := h.read_iff.mpr hread
    exact (hwhole.mp ((read_ok_iff hlayout).mp hok)).2 hcut
  · intro h
    have hiff : (∃ r ∈ (after ram history).mem.regions,
        r.contains addr.toNat size.bytes = true ∧ r.kind ≠ .trap) ↔
        ∀ i < size.bytes, (after ram history).mem.readable (addr.toNat + i) = true := by
      rw [hwhole]
      exact ⟨And.left, fun hread => ⟨hread, fun hcut => h ⟨hread, hcut⟩⟩⟩
    constructor
    · exact (read_ok_iff hlayout).trans hiff
    · exact fun v hv i hi => read_value hlayout hv hi
    · exact (write_ok_iff hlayout).trans hiff
    · exact fun hw b => write_value hlayout hw b

/-- A load across two neighbouring RAM regions is refused although both of its bytes are mapped. -/
theorem neighbours_not_byteWise :
    ¬ByteWise (after tinyRam [.call (.map 0 16 .ram), .call (.map 16 16 .ram)]) 15 0 .b2 := by
  intro h
  have hbytes : ∀ i < Size.b2.bytes,
      (after tinyRam [.call (.map 0 16 .ram), .call (.map 16 16 .ram)]).mem.readable
        ((15 : U64).toNat + i) = true := by decide
  obtain ⟨v, hv⟩ := h.read_iff.mpr hbytes
  cases hv

end Space
end X86Jit
