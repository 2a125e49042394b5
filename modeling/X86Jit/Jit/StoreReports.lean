import X86Jit.Core.CodeGate
import X86Jit.Jit.StoreOps

/-! Whether every store of a compiled op is reported. A page somebody tracks must be
named in a call of `note_write` before the unit returns to the dispatcher. -/
namespace X86Jit.Jit
open JitMem List Memory

variable {s : JitMem} {addr : U64} {b n size : ℕ} {mmio : MmioWindow} {m : Memory}

theorem backs_of_checkedAddr (h : checkedAddr mmio m addr size = none) : m.Backs addr size := by
  unfold checkedAddr at h
  split at h
  · assumption
  · cases h

theorem mem_codePageRange_of_backs (h : m.Backs addr size) (hb : addr.toNat ≤ b)
    (hb' : b < addr.toNat + size) : b / codePageSize ∈ codePageRange addr.toNat size :=
  mem_codePageRange_of_byte (h.2.trans m.span_le) hb hb'

/-- On its first page by the bit, further on because it has crossed a page boundary. -/
theorem watchProbe_of_watched (hb : addr.toNat ≤ b) (hb' : b < addr.toNat + size)
    (h : b / codePageSize ∈ m.watched) : watchProbe m addr size := by
  refine ⟨Finset.card_ne_zero_of_mem h, ?_⟩
  by_cases hpage : addr.toNat / codePageSize = b / codePageSize
  · rw [hpage]
    exact Or.inl h
  · right
    unfold codePageSize at hpage ⊢
    omega

theorem allReported_of_puts_nil (h : s.puts = []) : AllReported m s := by
  intro b hb
  obtain ⟨r, hr, -⟩ := hb
  rw [h] at hr
  cases hr

theorem allReported_of_noted (hb : m.Backs addr size) (hputs : s.puts = [(addr, size)])
    (hnotes : (addr, size) ∈ s.notes) : AllReported m s := by
  intro b hw ht
  obtain ⟨r, hr, hlo, hhi⟩ := hw
  rw [hputs, mem_singleton] at hr
  subst hr
  exact ⟨(addr, size), hnotes, mem_codePageRange_of_backs hb hlo hhi⟩

theorem noteStore_of_gate
    (h : codeGate s.mem.codeRange addr = true ∨ watchProbe s.mem addr size) :
    s.noteStore addr size = s.noteWrite addr size := by
  unfold JitMem.noteStore
  rcases h with h | h
  · rw [if_pos h]
  · rw [if_pos h, ite_self]

theorem puts_noteStore (s : JitMem) : (s.noteStore addr size).puts = s.puts := by
  unfold JitMem.noteStore
  split
  · rfl
  · split <;> rfl

/-- A watched page passes the probe, and a tagged one the gate if the watermark covers it. -/
theorem noteStore_reported {t : JitMem} (hcov : GateCovers {p | p ∈ m.codePage} m.codeRange)
    (hpos : 1 ≤ size) (hle : size ≤ 64) (hputs : t.puts = [(addr, size)])
    (hbacks : m.Backs addr size) (hmem : ∃ f, t.mem = { m with bytes := f }) :
    AllReported m (t.noteStore addr size) := by
  by_cases hgate : codeGate m.codeRange addr = true ∨ watchProbe m addr size
  · have hsame : codeGate t.mem.codeRange addr = true ∨ watchProbe t.mem addr size := by
      obtain ⟨f, hf⟩ := hmem
      rw [hf]
      exact hgate
    rw [noteStore_of_gate hsame]
    exact allReported_of_noted hbacks hputs (mem_append_right _ mem_cons_self)
  · intro b hw ht
    refine absurd ?_ hgate
    obtain ⟨r, hr, hlo, hhi⟩ := hw
    rw [puts_noteStore, hputs, mem_singleton] at hr
    subst hr
    dsimp only at hlo hhi
    rcases ht with hcode | hwatch
    · left
      have hpage := hcov addr.toNat size addr.isLt hpos hle ⟨b - addr.toNat, by omega, by
        rw [Nat.add_sub_cancel' hlo]
        exact hcode⟩
      rwa [BitVec.ofNat_toNat, BitVec.setWidth_eq] at hpage
    · exact .inr (watchProbe_of_watched hlo hhi hwatch)

theorem inlineStore_reported {value : JitMem → Option (List U8)}
    (hcov : GateCovers {p | p ∈ m.codePage} m.codeRange) (hpos : 1 ≤ size) (hle : size ≤ 64)
    (hlen : ∀ s bs, value s = some bs → bs.length = size) :
    AllReported m (inlineStore mmio (enter m) addr size value).1 := by
  have henter : (enter m).mem = m := rfl
  rw [inlineStore, henter]
  cases hc : checkedAddr mmio m addr size with
  | some ret => exact allReported_of_puts_nil rfl
  | none =>
    cases hv : value (enter m) with
    | none => exact allReported_of_puts_nil (puts_noteStore _)
    | some bs =>
      have hputs : ((enter m).put addr bs).puts = [(addr, size)] := by
        rw [← hlen _ _ hv]
        rfl
      exact noteStore_reported hcov hpos hle hputs (backs_of_checkedAddr hc) ⟨_, rfl⟩

/-- A lane helper reports nothing, so none of the elements it stores may be on a tracked page. -/
def LanesUntracked (m : Memory) (elem : Size) (lanes : List (U64 × U64)) : Prop :=
  ∀ ea ∈ (lanes.map Prod.fst).takeWhile (fun ea => m.Backs ea elem.bytes),
    ∀ b, ea.toNat ≤ b → b < ea.toNat + elem.bytes → ¬ m.Tracked (b / codePageSize)

theorem storeEach_reported_iff {elem : Size} {lanes : List (U64 × U64)} :
    AllReported m (storeEach elem lanes (enter m)).1 ↔ LanesUntracked m elem lanes := by
  have hraw := storeEach_raw elem lanes (enter m)
  have hputs : (storeEach elem lanes (enter m)).1.puts = _ := hraw.puts.trans (nil_append _)
  constructor
  · intro hall ea hea b hlo hhi ht
    have hmem : (ea, elem.bytes) ∈ (storeEach elem lanes (enter m)).1.puts := by
      rw [hputs]
      exact mem_map_of_mem hea
    obtain ⟨r, hr, -⟩ := hall b ⟨_, hmem, hlo, hhi⟩ ht
    rw [hraw.notes] at hr
    cases hr
  · intro hun b ⟨r, hr, hlo, hhi⟩ ht
    rw [hputs] at hr
    obtain ⟨ea, hea, rfl⟩ := mem_map.mp hr
    exact absurd ht (hun ea hea b hlo hhi)

theorem fpStore_reported {image : ℕ → U8}
    (h : fpStore (enter m) addr n image = .ok s) : AllReported m (s.noteWrite addr n) := by
  unfold fpStore at h
  split at h
  case isTrue hb =>
    cases h
    have hputs : ((enter m).put addr ((range n).map image)).puts = [(addr, n)] := by
      change [] ++ [(addr, ((range n).map image).length)] = _
      rw [length_map, length_range, nil_append]
    exact allReported_of_noted hb hputs (mem_append_right _ mem_cons_self)
  case isFalse => cases h

theorem x87Helper_reported (kind : FpuKind) (addr : U64) (mfPending raised : Bool)
    (image : ℕ → U8) :
    AllReported m (x87Helper (enter m) kind addr mfPending raised image).1 := by
  rw [x87Helper, FpuKind.memWriteBytes_eq]
  split
  · exact allReported_of_puts_nil rfl
  cases hn : kind.storeBytes with
  | none =>
    simp only [execX87, hn]
    exact allReported_of_puts_nil rfl
  | some n =>
    simp only [execX87, hn]
    cases raised with
    | true => exact allReported_of_puts_nil rfl
    | false =>
      cases hs : fpStore (enter m) addr n image with
      | error a => exact allReported_of_puts_nil rfl
      | ok s => exact fpStore_reported hs

theorem fxstateHelper_reported (addr : U64) (restore : Bool) (image : ℕ → U8) :
    AllReported m (fxstateHelper (enter m) addr restore image).1 := by
  rw [fxstateHelper]
  cases restore with
  | true =>
    simp only [if_true]
    split <;> exact allReported_of_puts_nil rfl
  | false =>
    cases hs : fpStore (enter m) addr 512 image with
    | error a => exact allReported_of_puts_nil rfl
    | ok s => exact fpStore_reported hs

/-- The ops whose store is inlined, with a barrier that looks at the watermark and the watched
pages. The others call a helper. -/
def StoreOp.inlined : StoreOp → Bool
  | .repString .. | .x87 .. | .fxState .. | .vMaskStoreMem .. | .vVecMaskStoreMem ..
  | .vPmovNarrowMem .. => false
  | _ => true

/-- When the op reports what it has to: an inlined store if the watermark covers the tagged pages,
a string store if its pointer does not pass zero over a tracked page, the x87 and `fxsave` helpers
always, and the masked and narrowing helpers only if there is nothing to report. -/
def StoreOp.Covered (m : Memory) : StoreOp → Prop
  | .repString op elem repKind segBase cpu => (op = .movs ∨ op = .stos) →
    StrInsn.Covered ⟨op, elem, repKind, Lift.stringAddrBits, segBase, 0⟩ cpu m
  | .x87 .. | .fxState .. => True
  | .vMaskStoreMem src addr k elem bytes =>
    LanesUntracked m elem (activeLanes src addr k elem bytes)
  | .vVecMaskStoreMem src addr msk elem bytes =>
    LanesUntracked m elem (activeLanes src addr (vecMsbMask msk elem bytes) elem bytes)
  | .vPmovNarrowMem src addr wide narrow srcWidth =>
    LanesUntracked m narrow (narrowLanes src addr wide narrow srcWidth)
  | _ => GateCovers {p | p ∈ m.codePage} m.codeRange

theorem length_vecBytes {w : ℕ} (v : BitVec w) (first n : ℕ) : (vecBytes v first n).length = n := by
  rw [vecBytes, length_map, length_range]

theorem size_bounds (size : Size) : 1 ≤ size.bytes ∧ size.bytes ≤ 64 := by
  cases size <;> decide

theorem inlined_reported (hcov : GateCovers {p | p ∈ m.codePage} m.codeRange)
    (hsize : 1 ≤ size ∧ size ≤ 64) {bs : JitMem → List U8}
    (hlen : ∀ s, (bs s).length = size) :
    AllReported m (inlineStore mmio (enter m) addr size fun s => some (bs s)).1 := by
  refine inlineStore_reported hcov hsize.1 hsize.2 fun s bs' h => ?_
  rw [← Option.some.inj h]
  exact hlen s

theorem emitLanes_reported {src : BitVec 512} {first : ℕ}
    (hcov : GateCovers {p | p ∈ m.codePage} m.codeRange) (hn : 1 ≤ n ∧ n ≤ 4) :
    AllReported m (emitLanes mmio (enter m) addr src first n).1 :=
  inlined_reported hcov (by omega) fun _ => length_vecBytes src (first * 16) (n * 16)

theorem StoreOp.inlined_reported (mmio : MmioWindow) (op : StoreOp) (h : op.inlined = true)
    (hcov : GateCovers {p | p ∈ m.codePage} m.codeRange) :
    AllReported m (op.run mmio (enter m)).1 := by
  unfold run
  cases op with
  | store addr src size =>
    exact Jit.inlined_reported hcov (size_bounds size) fun _ => length_leBytes src size.bytes
  | atomicRmw addr src size op =>
    exact Jit.inlined_reported hcov (size_bounds size) fun _ => length_leBytes _ size.bytes
  | atomicCas addr expected src size =>
    refine inlineStore_reported hcov (size_bounds size).1 (size_bounds size).2 fun s bs h => ?_
    split at h
    · rw [← Option.some.inj h]
      exact length_leBytes src size.bytes
    · cases h
  | call rsp returnAddr slot wrapSp =>
    exact Jit.inlined_reported hcov (size_bounds slot) fun _ =>
      length_leBytes returnAddr slot.bytes
  | vStore addr src size =>
    exact Jit.inlined_reported hcov (by cases size <;> decide) fun _ =>
      length_vecBytes src 0 size.bytes
  | vStoreWide addr src bytes =>
    exact emitLanes_reported hcov (by cases bytes <;> decide)
  | vExtractLaneWideM addr src idx pair =>
    exact emitLanes_reported hcov (by cases pair <;> decide)
  | vStoreHalf addr src high =>
    exact Jit.inlined_reported hcov (by decide) fun _ => length_vecBytes src _ 8
  | _ => cases h

theorem StoreOp.helper_reported_iff (mmio : MmioWindow) (op : StoreOp) (h : op.inlined = false) :
    AllReported m (op.run mmio (enter m)).1 ↔ op.Covered m := by
  cases op with
  | repString op elem repKind segBase cpu =>
    by_cases hop : op = .movs ∨ op = .stos
    · exact (StrInsn.helper_reported_iff hop rfl rfl).trans ⟨fun h _ => h, fun h => h hop⟩
    · refine iff_of_true (allReported_of_puts_nil ?_) fun h => absurd h hop
      exact (StrInsn.helper_puts cpu _).trans (congrArg puts (StrInsn.loop_loads hop _ _ _))
  | x87 kind addr mfPending raised image =>
    exact iff_true_intro (x87Helper_reported kind addr mfPending raised image)
  | fxState addr restore image => exact iff_true_intro (fxstateHelper_reported addr restore image)
  | vMaskStoreMem src addr k elem bytes | vVecMaskStoreMem src addr msk elem bytes
  | vPmovNarrowMem src addr wide narrow srcWidth => exact storeEach_reported_iff
  | _ => cases h

theorem StoreOp.reported_of_covered (mmio : MmioWindow) (op : StoreOp) (hcov : op.Covered m) :
    AllReported m (op.run mmio (enter m)).1 := by
  cases h : op.inlined with
  | false => exact (op.helper_reported_iff mmio h).mpr hcov
  | true =>
    refine op.inlined_reported mmio h ?_
    cases op <;> first | exact hcov | cases h

/-- What the calls of `note_write` made so far have done to the page tables. -/
structure JitMem.Ran (m : Memory) (s : JitMem) : Prop where
  codePage : s.mem.codePage = m.codePage
  watched : s.mem.watched = m.watched
  dirty : ∀ p ∈ m.dirty, p ∈ s.mem.dirty
  noted : ∀ page, s.Noted page →
    (page ∈ m.codePage → page ∈ s.mem.dirty) ∧ (page ∈ m.watched → page ∈ s.mem.watchDirty)

namespace JitMem.Ran

theorem enter (m : Memory) : Ran m (enter m) := by
  refine ⟨rfl, rfl, fun _ hp => hp, ?_⟩
  intro page ⟨r, hr, _⟩
  cases hr

variable {s' : JitMem}

theorem of_bytes (h : Ran m s) (hmem : ∃ f, s'.mem = { s.mem with bytes := f })
    (hnotes : s'.notes = s.notes) : Ran m s' := by
  obtain ⟨f, hf⟩ := hmem
  refine ⟨by rw [hf]; exact h.codePage, by rw [hf]; exact h.watched, ?_, ?_⟩
  · rw [hf]
    exact h.dirty
  · intro page ⟨r, hr, hpage⟩
    rw [hnotes] at hr
    rw [hf]
    exact h.noted page ⟨r, hr, hpage⟩

theorem put (h : Ran m s) (addr : U64) (bs : List U8) : Ran m (s.put addr bs) :=
  h.of_bytes ⟨_, rfl⟩ rfl

theorem raw {l : List (U64 × ℕ)} (h : Ran m s) (hraw : Raw s s' l) : Ran m s' :=
  h.of_bytes hraw.mem hraw.notes

theorem noteWrite (h : Ran m s) (addr : U64) (len : ℕ) : Ran m (s.noteWrite addr len) := by
  have htags := noteWrite_sameTags s.mem addr.toNat len
  refine ⟨htags.codePage.trans h.codePage, (watched_noteWrite _ _ _).trans h.watched, ?_, ?_⟩
  · intro p hp
    exact mem_dirty_noteWrite.mpr (Or.inl (h.dirty p hp))
  · intro page ⟨r, hr, hpage⟩
    change (_ → page ∈ (s.mem.noteWrite addr.toNat len).dirty) ∧
      (_ → page ∈ (s.mem.noteWrite addr.toNat len).watchDirty)
    rw [mem_dirty_noteWrite, mem_watchDirty_noteWrite, h.codePage, h.watched]
    rcases mem_append.mp hr with hr | hr
    · have hold := h.noted page ⟨r, hr, hpage⟩
      exact ⟨fun hp => Or.inl (hold.1 hp), fun hp => Or.inl (hold.2 hp)⟩
    · rw [mem_singleton.mp hr] at hpage
      exact ⟨fun hp => Or.inr ⟨hpage, hp⟩, fun hp => Or.inr ⟨hpage, hp⟩⟩

theorem noteStore (h : Ran m s) (addr : U64) (size : ℕ) : Ran m (s.noteStore addr size) := by
  unfold JitMem.noteStore
  split
  · exact h.noteWrite addr size
  · split
    · exact h.noteWrite addr size
    · exact h

theorem inlineStore (h : Ran m s) (addr : U64) (size : ℕ)
    (value : JitMem → Option (List U8)) :
    Ran m (Jit.inlineStore mmio s addr size value).1 := by
  unfold Jit.inlineStore
  split
  · exact h
  · split
    · exact (h.put addr _).noteStore addr size
    · exact h.noteStore addr size

theorem fpStore {image : ℕ → U8} (h : Ran m s)
    (hs : Jit.fpStore s addr n image = .ok s') : Ran m s' := by
  unfold Jit.fpStore at hs
  split at hs
  · cases hs
    exact h.put addr _
  · cases hs

theorem x87Helper (h : Ran m s) (kind : FpuKind) (addr : U64)
    (mfPending raised : Bool) (image : ℕ → U8) :
    Ran m (Jit.x87Helper s kind addr mfPending raised image).1 := by
  unfold Jit.x87Helper
  split
  · exact h
  cases hx : execX87 s kind addr raised image with
  | error a => exact h
  | ok s' =>
    have hs' : Ran m s' := by
      unfold execX87 at hx
      split at hx
      · cases hx
        exact h
      · split at hx
        · cases hx
          exact h
        · exact h.fpStore hx
    dsimp only
    split
    · exact hs'.noteWrite addr _
    · exact hs'

theorem fxstateHelper (h : Ran m s) (addr : U64) (restore : Bool)
    (image : ℕ → U8) : Ran m (Jit.fxstateHelper s addr restore image).1 := by
  unfold Jit.fxstateHelper
  split
  · split <;> exact h
  · cases hs : Jit.fpStore s addr 512 image with
    | error a => exact h
    | ok s' => exact (h.fpStore hs).noteWrite addr 512

theorem stringHelper (h : Ran m s) (i : StrInsn) (c : StrCpu) : Ran m (i.helper c s).1.2 := by
  have hrun : Ran m (i.run c s).1.2 := by
    by_cases hop : i.op = .movs ∨ i.op = .stos
    · exact h.raw (StrInsn.run_completed hop c s).1
    · have hsame : (i.run c s).1.2 = s := StrInsn.loop_loads hop _ _ _
      rw [hsame]
      exact h
  unfold StrInsn.helper
  dsimp only
  split
  · exact hrun.noteWrite _ _
  · exact hrun

end JitMem.Ran

theorem StoreOp.run_ran (mmio : MmioWindow) (m : Memory) (op : StoreOp) :
    JitMem.Ran m (op.run mmio (enter m)).1 := by
  have h := JitMem.Ran.enter m
  cases op with
  | store | atomicRmw | atomicCas | call | vStore | vStoreWide | vExtractLaneWideM | vStoreHalf =>
    exact h.inlineStore _ _ _
  | repString => exact h.stringHelper _ _
  | x87 => exact h.x87Helper _ _ _ _ _
  | fxState => exact h.fxstateHelper _ _ _
  | vMaskStoreMem | vVecMaskStoreMem | vPmovNarrowMem => exact h.raw (storeEach_raw _ _ _)

def codeOnPageOne : Memory := (fresh 0x3000 0 (by decide)).markCode 0x1000 16

end X86Jit.Jit
