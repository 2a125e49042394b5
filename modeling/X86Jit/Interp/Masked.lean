import X86Jit.Interp.Atomics
import X86Jit.Interp.Delivery
import X86Jit.Interp.Other

/-! Vector loads and stores under a mask. An element the mask leaves out is not accessed. A load
is put together before anything is committed; a store is made element by element. -/
namespace X86Jit
open X86Jit.Lib BitVec Function List Nat Memory

inductive Width
  | w128 | w256 | w512
  deriving DecidableEq, Repr

namespace Width

def lanes : Width → ℕ
  | w128 => 1
  | w256 => 2
  | w512 => 4

def bytes (w : Width) : ℕ := 16 * w.lanes

def elems (w : Width) (elem : Size) : ℕ := w.bytes / elem.bytes

end Width

abbrev Lanes := ℕ → U128

def VecRegs.lanes (v : VecRegs) (r : Fin 32) : Lanes
  | 0 => v.xmm r
  | 1 => v.ymmHi r
  | 2 => (v.zmmHi r).1
  | 3 => (v.zmmHi r).2
  | _ => 0

def VecRegs.setVec (v : VecRegs) (r : Fin 32) (x : Lanes) (w : Width) : VecRegs :=
  { v with
    xmm := update v.xmm r (x 0)
    ymmHi := update v.ymmHi r (if 2 ≤ w.lanes then x 1 else 0)
    zmmHi := update v.zmmHi r (if 4 ≤ w.lanes then (x 2, x 3) else (0, 0)) }

def getVelem (x : Lanes) (i : ℕ) (elem : Size) : U64 :=
  let byte := i * elem.bytes
  (x (byte / 16) >>> (byte % 16 * 8)).setWidth 64 &&& mask elem

def setVelem (x : Lanes) (i : ℕ) (elem : Size) (val : U64) : Lanes :=
  let byte := i * elem.bytes
  let sh := byte % 16 * 8
  let m := (mask elem).setWidth 128
  update x (byte / 16)
    ((x (byte / 16) &&& ~~~(m <<< sh)) ||| ((val.setWidth 128 &&& m) <<< sh))

def vecMsbMask (x : Lanes) (elem : Size) (w : Width) : U64 :=
  (range (w.elems elem)).foldl
    (fun k i => if (getVelem x i elem).getLsbD (elem.bits - 1) then k ||| (1#64 <<< i) else k) 0

section Runs
variable (base k : U64) (elem : Size)

def elemAddr (i : ℕ) : U64 := base + BitVec.ofNat 64 (i * elem.bytes)

def maskedLoadLoop (m : Memory) (zeroing : Bool) : List ℕ → Lanes → Except StrFault Lanes
  | [], x => .ok x
  | i :: rest, x =>
    if k.getLsbD i then
      let ea := elemAddr base elem i
      match m.read ea elem with
      | .ok v => maskedLoadLoop m zeroing rest (setVelem x i elem v)
      | .error trap => .error { addr := ea, write := false, trap, value := 0, elem }
    else maskedLoadLoop m zeroing rest (if zeroing then setVelem x i elem 0 else x)

def maskedStoreLoop (x : Lanes) : List ℕ → Memory → Memory × Option StrFault
  | [], m => (m, none)
  | i :: rest, m =>
    if k.getLsbD i then
      let ea := elemAddr base elem i
      let v := getVelem x i elem
      match m.write ea.toNat v elem.bytes with
      | .ok m => maskedStoreLoop x rest m
      | .error trap => (m, some { addr := ea, write := true, trap, value := v, elem })
    else maskedStoreLoop x rest m

variable (g : Guest Ext) (r : Fin 32) (w : Width)

def maskedLoadRun (zeroing : Bool) : Outcome (Guest Ext) :=
  match maskedLoadLoop base k elem g.mem zeroing (range (w.elems elem)) (g.ext.vec.lanes r) with
  | .ok x => .ok { g with ext := { g.ext with vec := g.ext.vec.setVec r x w } }
  | .error f => .error (g.trapOut f.trap f.addr f.elem .read f.value)

def maskedStoreRun : Outcome (Guest Ext) :=
  match maskedStoreLoop base k elem (g.ext.vec.lanes r) (range (w.elems elem)) g.mem with
  | (m, none) => .ok { g with mem := m }
  | (m, some f) => .error ({ g with mem := m }.trapOut f.trap f.addr f.elem .write f.value)

end Runs

section Ops
variable (g : Guest Ext) (r : Fin 32) (addr : Val) (elem : Size) (w : Width)

def execVMaskLoadMem (k : Fin 8) (zeroing : Bool) : Outcome (Guest Ext) :=
  maskedLoadRun (g.readVal addr) (g.ext.vec.kmask k) elem g r w zeroing

def execVMaskStoreMem (k : Fin 8) : Outcome (Guest Ext) :=
  maskedStoreRun (g.readVal addr) (g.ext.vec.kmask k) elem g r w

def execVVecmaskLoadMem (mask : Fin 32) : Outcome (Guest Ext) :=
  maskedLoadRun (g.readVal addr) (vecMsbMask (g.ext.vec.lanes mask) elem w) elem g r w true

def execVVecmaskStoreMem (mask : Fin 32) : Outcome (Guest Ext) :=
  maskedStoreRun (g.readVal addr) (vecMsbMask (g.ext.vec.lanes mask) elem w) elem g r w

end Ops

inductive VecMask
  | opmask (k : Fin 8)
  | signs (q : Fin 32)
  deriving DecidableEq, Repr

namespace VecMask

def bits (v : VecRegs) (elem : Size) (w : Width) : VecMask → U64
  | opmask k => v.kmask k
  | signs q => vecMsbMask (v.lanes q) elem w

def active (v : VecRegs) (elem : Size) (i : ℕ) : VecMask → Bool
  | opmask k => (v.kmask k).getLsbD i
  | signs q => (getVelem (v.lanes q) i elem).getLsbD (elem.bits - 1)

/-- The load under sign bits has no merging form. -/
def zeroes (zeroing : Bool) : VecMask → Bool
  | opmask _ => zeroing
  | signs _ => true

variable (g : Guest Ext) (r : Fin 32) (addr : Val) (elem : Size) (w : Width)

def load (zeroing : Bool) : VecMask → Outcome (Guest Ext)
  | opmask k => execVMaskLoadMem g r addr elem w k zeroing
  | signs q => execVVecmaskLoadMem g r addr elem w q

def store : VecMask → Outcome (Guest Ext)
  | opmask k => execVMaskStoreMem g r addr elem w k
  | signs q => execVVecmaskStoreMem g r addr elem w q

end VecMask

section Elements
variable (x : Lanes) (elem : Size) (v : U64) {i j : ℕ}

def Lanes.bit (x : Lanes) (p : ℕ) : Bool := (x (p / 128)).getLsbD (p % 128)

theorem getLsbD_getVelem (b : ℕ) :
    (getVelem x i elem).getLsbD b = (decide (b < elem.bits) && x.bit (i * elem.bits + b)) := by
  have hb := elem.bits_pos
  rw [getVelem, getLsbD_and, getLsbD_mask, getLsbD_setWidth,
    getLsbD_ushiftRight, Lanes.bit]
  by_cases hin : b < elem.bits
  · have hword : b < 64 := by omega
    have hdiv : (i * elem.bits + b) / 128 = i * elem.bytes / 16 := by
      cases elem <;> simp only [Size.bits, Size.bytes] at * <;> omega
    have hmod : (i * elem.bits + b) % 128 = i * elem.bytes % 16 * 8 + b := by
      cases elem <;> simp only [Size.bits, Size.bytes] at * <;> omega
    simp [hin, hword, hdiv, hmod]
  · simp [hin]

theorem bit_setVelem (p : ℕ) :
    (setVelem x i elem v).bit p =
      if i * elem.bits ≤ p ∧ p < (i + 1) * elem.bits then v.getLsbD (p - i * elem.bits)
      else x.bit p := by
  have hin : i * elem.bits ≤ p ∧ p < (i + 1) * elem.bits ↔ p / 128 = i * elem.bytes / 16 ∧
      i * elem.bytes % 16 * 8 ≤ p % 128 ∧ p % 128 < i * elem.bytes % 16 * 8 + elem.bits := by
    cases elem <;> simp only [Size.bits, Size.bytes] at * <;> omega
  unfold Lanes.bit setVelem
  by_cases hlane : p / 128 = i * elem.bytes / 16
  · have hsub (h : i * elem.bits ≤ p ∧ p < (i + 1) * elem.bits) :
        p - i * elem.bits = p % 128 - i * elem.bytes % 16 * 8 := by
      cases elem <;> simp only [Size.bits, Size.bytes] at * <;> omega
    have hq : p % 128 < 128 := mod_lt _ (by decide)
    rw [hlane, update_self]
    simp only [getLsbD_or, getLsbD_and, getLsbD_not, getLsbD_shiftLeft,
      getLsbD_setWidth, getLsbD_mask, hq, decide_true, Bool.true_and]
    by_cases h : i * elem.bits ≤ p ∧ p < (i + 1) * elem.bits
    · have hsh : ¬p % 128 < i * elem.bytes % 16 * 8 := by omega
      have hrange : p % 128 - i * elem.bytes % 16 * 8 < elem.bits := by omega
      have hword : p % 128 - i * elem.bytes % 16 * 8 < 128 := by omega
      rw [if_pos h, hsub h]
      simp [hsh, hrange, hword]
    · rw [if_neg h]
      by_cases hsh : p % 128 < i * elem.bytes % 16 * 8
      · simp [hsh]
      · have hrange : ¬p % 128 - i * elem.bytes % 16 * 8 < elem.bits := by omega
        simp [hrange]
  · rw [update_of_ne hlane, if_neg fun h => hlane (hin.1 h).1]

theorem getVelem_setVelem :
    getVelem (setVelem x i elem v) j elem = if j = i then v &&& mask elem else getVelem x j elem := by
  apply eq_of_getLsbD_eq
  intro b hb
  rw [getLsbD_getVelem, bit_setVelem]
  by_cases hin : b < elem.bits
  · by_cases hij : j = i
    · have h : i * elem.bits ≤ i * elem.bits + b ∧ i * elem.bits + b < (i + 1) * elem.bits := by
        rw [Nat.succ_mul]
        omega
      rw [if_pos hij, hij, if_pos h, getLsbD_and, getLsbD_mask, Nat.add_sub_cancel_left,
        Bool.and_comm]
    · have h : ¬(i * elem.bits ≤ j * elem.bits + b ∧ j * elem.bits + b < (i + 1) * elem.bits) := by
        rintro ⟨hle, hlt⟩
        rcases lt_or_gt_of_ne hij with hlt' | hgt
        · have := Nat.mul_le_mul_right elem.bits (succ_le_of_lt hlt')
          rw [Nat.succ_mul] at this
          omega
        · have := Nat.mul_le_mul_right elem.bits (succ_le_of_lt hgt)
          rw [Nat.succ_mul] at this hlt
          omega
      rw [if_neg hij, if_neg h, getLsbD_getVelem]
  · rw [decide_eq_false hin, Bool.false_and]
    split
    · rw [getLsbD_and, getLsbD_mask, decide_eq_false hin, Bool.and_false]
    · rw [getLsbD_getVelem, decide_eq_false hin, Bool.false_and]

end Elements

namespace Memory
variable {m : Memory} {addr : U64} {size : Size}

theorem read_of_backed (h : m.backed addr size = true) :
    m.read addr size = .ok (m.loadLe addr.toNat size.bytes) := by
  unfold backed at h
  unfold read
  cases hr : m.regionFor addr.toNat size.bytes with
  | none =>
    rw [hr] at h
    cases h
  | some r =>
    rw [hr] at h
    cases hkind : r.kind with
    | trap => simp [hkind] at h
    | ram => simp [hkind]
    | rom => simp [hkind]

theorem write_cases {m' : Memory} {addr n : ℕ} {v : U64} (h : m.write addr v n = .ok m') :
    (∃ r, m.regionFor addr n = some r ∧ r.kind = .ram ∧ ∀ b, m'.bytes b =
      if addr ≤ b ∧ b < addr + n then (v >>> (8 * (b - addr))).setWidth 8 else m.bytes b) ∨
    ∃ r, m.regionFor addr n = some r ∧ r.kind = .rom ∧ m' = m := by
  unfold write at h
  cases hr : m.regionFor addr n with
  | none =>
    rw [hr] at h
    cases h
  | some r =>
    rw [hr] at h
    cases hkind : r.kind with
    | trap => simp [hkind] at h
    | rom =>
      simp only [hkind] at h
      cases h
      exact .inr ⟨r, rfl, hkind, rfl⟩
    | ram =>
      simp only [hkind] at h
      cases h
      refine .inl ⟨r, rfl, hkind, fun b => ?_⟩
      rw [(noteWrite_sameTags _ _ _).bytes]
      simp only [setBytes, length_leBytes]
      split
      · rw [getD_leBytes _ (by omega)]
      · rfl

end Memory

section Load
variable {m m' : Memory} {base k : U64} {elem : Size} (zeroing : Bool) (x old : Lanes)

def loadedElem (m : Memory) (base k : U64) (elem : Size) (zeroing : Bool) (old : Lanes) (i : ℕ) :
    U64 :=
  if k.getLsbD i then m.loadLe (elemAddr base elem i).toNat elem.bytes
  else if zeroing then 0 else getVelem old i elem

theorem loadLoop_ok {a c : ℕ}
    (hx : ∀ j, getVelem x j elem =
      if j < a then loadedElem m base k elem zeroing old j else getVelem old j elem)
    (hall : ∀ i, a ≤ i → i < a + c → k.getLsbD i = true →
      m.backed (elemAddr base elem i) elem = true) :
    ∃ x', maskedLoadLoop base k elem m zeroing (range' a c) x = .ok x' ∧
      ∀ j, getVelem x' j elem =
        if j < a + c then loadedElem m base k elem zeroing old j else getVelem old j elem := by
  induction c generalizing a x with
  | zero => exact ⟨x, rfl, hx⟩
  | succ c ih =>
    have hnext (x' : Lanes) (hx' : ∀ j, getVelem x' j elem =
        if j = a then loadedElem m base k elem zeroing old a else getVelem x j elem) j :
        getVelem x' j elem =
          if j < a + 1 then loadedElem m base k elem zeroing old j else getVelem old j elem := by
      rw [hx', hx]
      rcases Nat.lt_trichotomy j a with hlt | rfl | hgt
      · rw [if_neg hlt.ne, if_pos hlt, if_pos (by omega)]
      · rw [if_pos rfl, if_pos (by omega)]
      · rw [if_neg hgt.ne', if_neg hgt.not_gt, if_neg (by omega)]
    have hrest (i : ℕ) (hi : a + 1 ≤ i) (hlt : i < a + 1 + c) := hall i (by omega) (by omega)
    have hsum : a + (c + 1) = a + 1 + c := by omega
    rw [range'_succ, maskedLoadLoop, hsum]
    by_cases hk : k.getLsbD a = true
    · rw [if_pos hk]
      simp only [read_of_backed (hall a le_rfl (by omega) hk)]
      refine ih _ (hnext _ fun j => ?_) hrest
      rw [getVelem_setVelem, loadedElem, if_pos hk, loadLe_and_mask]
    · rw [if_neg hk]
      refine ih _ (hnext _ fun j => ?_) hrest
      rw [loadedElem, if_neg hk]
      cases zeroing with
      | true => simp [getVelem_setVelem]
      | false =>
        by_cases hj : j = a
        · simp [hj, hx a]
        · simp [hj]

theorem loadLoop_error {l : List ℕ}
    (h : ∃ i ∈ l, k.getLsbD i = true ∧ m.backed (elemAddr base elem i) elem = false) :
    ∃ f, maskedLoadLoop base k elem m zeroing l x = .error f := by
  induction l generalizing x with
  | nil =>
    obtain ⟨i, hi, -⟩ := h
    cases hi
  | cons i rest ih =>
    obtain ⟨j, hj, hactive, hbad⟩ := h
    have hrest (hne : j ≠ i) : ∃ j ∈ rest, k.getLsbD j = true ∧
        m.backed (elemAddr base elem j) elem = false :=
      ⟨j, (List.mem_cons.1 hj).resolve_left hne, hactive, hbad⟩
    rw [maskedLoadLoop]
    by_cases hk : k.getLsbD i = true
    · rw [if_pos hk]
      dsimp only
      split
      · rename_i v hread
        refine ih _ (hrest ?_)
        rintro rfl
        rw [read_ok_iff.1 ⟨v, hread⟩] at hbad
        cases hbad
      · exact ⟨_, rfl⟩
    · rw [if_neg hk]
      refine ih _ (hrest ?_)
      rintro rfl
      exact hk hactive

theorem loadLoop_congr {l : List ℕ} (h : ∀ i ∈ l, k.getLsbD i = true →
      m'.read (elemAddr base elem i) elem = m.read (elemAddr base elem i) elem) :
    maskedLoadLoop base k elem m' zeroing l x = maskedLoadLoop base k elem m zeroing l x := by
  induction l generalizing x with
  | nil => rfl
  | cons i rest ih =>
    have ih' (y : Lanes) := ih y fun j hj => h j (mem_cons_of_mem i hj)
    rw [maskedLoadLoop, maskedLoadLoop]
    by_cases hk : k.getLsbD i = true
    · rw [if_pos hk, if_pos hk]
      simp only [h i mem_cons_self hk]
      split
      · exact ih' _
      · rfl
    · rw [if_neg hk, if_neg hk]
      exact ih' _

end Load

variable {m m' m₁ : Memory} {base k : U64} {elem : Size} {x : Lanes} {a : ℕ}

/-- The memory after the active elements below `a` have been stored. Only those in a RAM region
change: an element in a ROM keeps its bytes, as does everything outside the elements. -/
structure StoredBelow (base k : U64) (elem : Size) (x : Lanes) (m : Memory) (a : ℕ)
    (m' : Memory) : Prop where
  regions : m'.regions = m.regions
  stored {i : ℕ} {r : Region} (hi : i < a) (hk : k.getLsbD i = true)
    (hr : m.regionFor (elemAddr base elem i).toNat elem.bytes = some r) (hram : r.kind = .ram)
    {j : ℕ} (hj : j < elem.bytes) :
    m'.bytes ((elemAddr base elem i).toNat + j) = (getVelem x i elem >>> (8 * j)).setWidth 8
  others {b : ℕ} (hb : ∀ i < a, k.getLsbD i = true →
    ∀ r, m.regionFor (elemAddr base elem i).toNat elem.bytes = some r → r.kind = .ram →
    ∀ j < elem.bytes, b ≠ (elemAddr base elem i).toNat + j) : m'.bytes b = m.bytes b

theorem elemAddr_add {i j : ℕ} (h : m.backed (elemAddr base elem i) elem = true)
    (hj : j < elem.bytes) :
    (elemAddr base elem i).toNat + j = (base + BitVec.ofNat 64 (i * elem.bytes + j)).toNat := by
  obtain ⟨r, hr⟩ : ∃ r, m.regionFor (elemAddr base elem i).toNat elem.bytes = some r := by
    unfold backed at h
    split at h
    · exact ⟨_, ‹_›⟩
    · cases h
  obtain ⟨hmem, -, hstop⟩ := regionFor_bounds hr
  have hspan := (m.regions_le r hmem).trans m.span_le
  have hmax : maxTrackedSpan < 2 ^ 64 := by decide
  have hsplit : base + BitVec.ofNat 64 (i * elem.bytes + j) =
      elemAddr base elem i + BitVec.ofNat 64 j := by
    rw [elemAddr, ofNat_add, BitVec.add_assoc]
  rw [hsplit, toNat_add, toNat_ofNat, add_mod_mod, mod_eq_of_lt (by omega)]

theorem byteAddr_inj {b b' : ℕ} (hb : b < 64) (hb' : b' < 64)
    (h : base + BitVec.ofNat 64 b = base + BitVec.ofNat 64 b') : b = b' := by
  have hnat := congrArg BitVec.toNat ((BitVec.add_right_inj base).1 h)
  rwa [toNat_ofNat, toNat_ofNat, mod_eq_of_lt (by omega),
    mod_eq_of_lt (by omega)] at hnat

theorem elem_of_byteAddr {i j b : ℕ} (h : m.backed (elemAddr base elem i) elem = true)
    (hi : i * elem.bytes + j < 64) (hj : j < elem.bytes) (hb : b < 64)
    (heq : (base + BitVec.ofNat 64 b).toNat = (elemAddr base elem i).toNat + j) :
    b / elem.bytes = i := by
  rw [elemAddr_add h hj] at heq
  rw [byteAddr_inj hb hi (eq_of_toNat_eq heq), mul_comm, mul_add_div (by omega),
    div_eq_of_lt hj, add_zero]

theorem StoredBelow.refl (base k : U64) (elem : Size) (x : Lanes) (m : Memory) :
    StoredBelow base k elem x m 0 m := ⟨rfl, nofun, fun _ => rfl⟩

theorem StoredBelow.inactive (h : StoredBelow base k elem x m a m') (ha : a * elem.bytes ≤ 64)
    (hbacked : ∀ i < a, k.getLsbD i = true → m.backed (elemAddr base elem i) elem = true) {b : ℕ}
    (hb : b < 64) (hk : k.getLsbD (b / elem.bytes) = false) :
    m'.bytes (base + BitVec.ofNat 64 b).toNat = m.bytes (base + BitVec.ofNat 64 b).toNat := by
  refine h.others fun i hi hki _ _ _ j hj heq => ?_
  have hmul := Nat.mul_le_mul_right elem.bytes (succ_le_of_lt hi)
  rw [Nat.succ_mul] at hmul
  rw [elem_of_byteAddr (hbacked i hi hki) (by omega) hj hb heq, hki] at hk
  cases hk

theorem StoredBelow.write (h : StoredBelow base k elem x m a m₁) (hk : k.getLsbD a = true)
    (ha : (a + 1) * elem.bytes ≤ 64)
    (hb : ∀ i ≤ a, k.getLsbD i = true → m.backed (elemAddr base elem i) elem = true)
    (hw : m₁.write (elemAddr base elem a).toNat (getVelem x a elem) elem.bytes = .ok m') :
    StoredBelow base k elem x m (a + 1) m' := by
  have hregion : m₁.regionFor (elemAddr base elem a).toNat elem.bytes =
      m.regionFor (elemAddr base elem a).toNat elem.bytes := by
    rw [regionFor, regionFor, h.regions]
  rcases write_cases hw with ⟨r, hr, hram, hbytes⟩ | ⟨r, hr, hrom, rfl⟩
  · refine ⟨(regions_write hw).trans h.regions, ?_, ?_⟩
    · intro i r' hi hki hr' hram' j hj
      rw [hbytes]
      rcases Nat.lt_succ_iff_lt_or_eq.1 hi with hlt | rfl
      · have hmul := Nat.mul_le_mul_right elem.bytes (succ_le_of_lt hlt)
        rw [Nat.succ_mul] at hmul ha
        rw [if_neg]
        · exact h.stored hlt hki hr' hram' hj
        · rintro ⟨hle, hup⟩
          obtain ⟨d, hd⟩ := le.dest hle
          have hlast : d < elem.bytes := by omega
          rw [elemAddr_add (hb i hlt.le hki) hj] at hd
          have hia := elem_of_byteAddr (hb a le_rfl hk) (by omega) hlast (by omega) hd.symm
          rw [mul_comm, mul_add_div (by omega), div_eq_of_lt hj] at hia
          omega
      · rw [if_pos (by omega), Nat.add_sub_cancel_left]
    · intro b hne
      rw [hbytes, if_neg]
      · exact h.others fun i hi => hne i (by omega)
      · rintro ⟨hle, hup⟩
        exact hne a (by omega) hk r (hregion ▸ hr) hram (b - (elemAddr base elem a).toNat)
          (by omega) (by omega)
  · refine ⟨h.regions, ?_, fun hne => h.others fun i hi => hne i (by omega)⟩
    intro i r' hi hki hr' hram' j hj
    rcases Nat.lt_succ_iff_lt_or_eq.1 hi with hlt | rfl
    · exact h.stored hlt hki hr' hram' hj
    · rw [hregion, hr'] at hr
      cases hr
      rw [hram'] at hrom
      cases hrom

theorem storeLoop_spec {c : ℕ} (h : StoredBelow base k elem x m a m₁)
    (ha : (a + c) * elem.bytes ≤ 64)
    (hb : ∀ i < a, k.getLsbD i = true → m.backed (elemAddr base elem i) elem = true) :
    (∃ i, a ≤ i ∧ i < a + c ∧ k.getLsbD i = true ∧ m.backed (elemAddr base elem i) elem = false ∧
      (∀ j < i, k.getLsbD j = true → m.backed (elemAddr base elem j) elem = true) ∧
      ∃ m' f, maskedStoreLoop base k elem x (range' a c) m₁ = (m', some f) ∧
        StoredBelow base k elem x m i m') ∨
    ((∀ i < a + c, k.getLsbD i = true → m.backed (elemAddr base elem i) elem = true) ∧
      ∃ m', maskedStoreLoop base k elem x (range' a c) m₁ = (m', none) ∧
        StoredBelow base k elem x m (a + c) m') := by
  induction c generalizing a m₁ with
  | zero => exact .inr ⟨hb, m₁, rfl, h⟩
  | succ c ih =>
    have hsum : a + (c + 1) = a + 1 + c := by omega
    have hone : (a + 1) * elem.bytes ≤ 64 :=
      (Nat.mul_le_mul_right _ (by omega)).trans ha
    rw [range'_succ, maskedStoreLoop, hsum]
    rw [hsum] at ha
    by_cases hk : k.getLsbD a = true
    · rw [if_pos hk]
      cases hw : m₁.write (elemAddr base elem a).toNat (getVelem x a elem) elem.bytes with
      | ok m₂ =>
        simp only [hw]
        have hbacked : m.backed (elemAddr base elem a) elem = true := by
          rw [← backed_congr h.regions]
          exact write_ok_iff.1 ⟨m₂, hw⟩
        have hle (i : ℕ) (hi : i < a + 1) (hki : k.getLsbD i = true) :
            m.backed (elemAddr base elem i) elem = true := by
          rcases Nat.lt_succ_iff_lt_or_eq.1 hi with hlt | rfl
          · exact hb i hlt hki
          · exact hbacked
        have hnext := h.write hk hone (fun i hi => hle i (by omega)) hw
        rcases ih hnext ha hle with ⟨i, hi, hrest⟩ | hrest
        · exact .inl ⟨i, by omega, hrest⟩
        · exact .inr hrest
      | error t =>
        simp only [hw]
        refine .inl ⟨a, le_rfl, by omega, hk, ?_, hb, m₁, _, rfl, h⟩
        rw [← backed_congr h.regions, ← Bool.not_eq_true]
        intro hbacked
        obtain ⟨m', hm'⟩ := write_ok_iff.2 hbacked
        cases hw.symm.trans hm'
    · rw [if_neg hk]
      have hskip (i : ℕ) (hi : i < a + 1) (hki : k.getLsbD i = true) : i < a := by
        rcases Nat.lt_succ_iff_lt_or_eq.1 hi with hlt | rfl
        · exact hlt
        · exact absurd hki hk
      have hnext : StoredBelow base k elem x m (a + 1) m₁ :=
        ⟨h.regions, fun hi hki => h.stored (hskip _ hi hki) hki,
          fun hne => h.others fun i hi => hne i (by omega)⟩
      rcases ih hnext ha fun i hi hki => hb i (hskip i hi hki) hki with ⟨i, hi, hrest⟩ | hrest
      · exact .inl ⟨i, by omega, hrest⟩
      · exact .inr hrest

section Whole
variable (g : Guest Ext) (r : Fin 32) (base : U64) (elem : Size) (w : Width)

theorem elems_mul_bytes : w.elems elem * elem.bytes = w.bytes := by
  cases w <;> cases elem <;> rfl

theorem Width.bytes_le : w.bytes ≤ 64 := by
  cases w <;> decide

theorem lanes_setVec (v : VecRegs) (x : Lanes) (c : ℕ) :
    (v.setVec r x w).lanes r c = if c < w.lanes then x c else 0 := by
  rcases c with - | - | - | - | c
  case succ.succ.succ.succ =>
    have hout : ¬c + 1 + 1 + 1 + 1 < w.lanes := by cases w <;> simp only [Width.lanes] <;> omega
    rw [if_neg hout]
    rfl
  all_goals cases w <;> simp [VecRegs.lanes, VecRegs.setVec, Width.lanes]

theorem getVelem_setVec (v : VecRegs) (x : Lanes) {i : ℕ} (hi : i < w.elems elem) :
    getVelem ((v.setVec r x w).lanes r) i elem = getVelem x i elem := by
  have hlane : i * elem.bytes / 16 < w.lanes := by
    have hmul := Nat.mul_lt_mul_of_pos_right hi (show 0 < elem.bytes by cases elem <;> decide)
    rw [elems_mul_bytes] at hmul
    exact Nat.div_lt_of_lt_mul hmul
  rw [getVelem, getVelem, lanes_setVec, if_pos hlane]

theorem getLsbD_foldl_bit (p : ℕ → Bool) (n : ℕ) {j : ℕ} (hj : j < 64) :
    ((range n).foldl (fun k i => if p i then k ||| (1#64 <<< i) else k) 0).getLsbD j =
      (decide (j < n) && p j) := by
  induction n with
  | zero => simp
  | succ n ih =>
    rw [range_succ, foldl_append, foldl_cons, foldl_nil]
    have hone : (1#64 <<< n).getLsbD j = decide (j = n) := by
      rw [← twoPow_eq]
      by_cases h : j = n
      · subst h
        simp [hj]
      · simp [h, Ne.symm h]
    by_cases hp : p n = true
    · rw [if_pos hp, getLsbD_or, ih, hone]
      rcases Nat.lt_trichotomy j n with h | rfl | h
      · simp [h, h.ne, lt_succ_of_lt h]
      · simp [hp]
      · simp [h.not_gt, h.ne', not_lt.2 (succ_le_of_lt h)]
    · rw [if_neg hp, ih]
      by_cases h : j = n
      · simp [h, hp]
      · have hiff : j < n ↔ j < n + 1 := by omega
        simp [hiff]

theorem VecMask.getLsbD_bits (vm : VecMask) (v : VecRegs) {i : ℕ} (hi : i < w.elems elem) :
    (vm.bits v elem w).getLsbD i = vm.active v elem i := by
  have hlt : i < 64 := by
    refine hi.trans_le ((div_le_self _ _).trans w.bytes_le)
  cases vm with
  | opmask k => rfl
  | signs q =>
    change (vecMsbMask (v.lanes q) elem w).getLsbD i = _
    rw [vecMsbMask, getLsbD_foldl_bit _ _ hlt, decide_eq_true hi]
    rfl

end Whole

namespace Outcome
variable {V : Type}

def memory : Outcome (Guest V) → Memory
  | .ok g => g.mem
  | .error e => e.state.mem

def withMem (m : Memory) : Outcome (Guest V) → Outcome (Guest V)
  | .ok g => .ok { g with mem := m }
  | .error e => .error ⟨{ e.state with mem := m }, e.result⟩

end Outcome

variable (g : Guest Ext) (r : Fin 32) (base k : U64) (elem : Size) (w : Width) (zeroing : Bool)

structure LoadRight (run : Memory → Outcome (Guest Ext)) : Prop where
  inactive_unread {m m' : Memory}
    (h : ∀ i < w.elems elem, k.getLsbD i = true →
      m'.read (elemAddr base elem i) elem = m.read (elemAddr base elem i) elem) :
    run m' = (run m).withMem m'
  refused {m : Memory}
    (h : ∃ i < w.elems elem, k.getLsbD i = true ∧ m.backed (elemAddr base elem i) elem = false) :
    ∃ res, run m = .error ⟨{ g with mem := m, rip := g.curAddr }, res⟩
  loaded {m : Memory}
    (h : ∀ i < w.elems elem, k.getLsbD i = true → m.backed (elemAddr base elem i) elem = true) :
    ∃ x : Lanes,
      run m = .ok { g with mem := m, ext := { g.ext with vec := g.ext.vec.setVec r x w } } ∧
      (∀ i < w.elems elem, getVelem ((g.ext.vec.setVec r x w).lanes r) i elem =
        loadedElem m base k elem zeroing (g.ext.vec.lanes r) i) ∧
      ∀ c, w.lanes ≤ c → (g.ext.vec.setVec r x w).lanes r c = 0

structure StoreRight (run : Memory → Outcome (Guest Ext)) : Prop where
  inactive_unwritten {m : Memory} {b : ℕ} (hb : b < w.bytes)
    (hk : k.getLsbD (b / elem.bytes) = false) :
    (run m).memory.bytes (base + BitVec.ofNat 64 b).toNat =
      m.bytes (base + BitVec.ofNat 64 b).toNat
  refused {m : Memory} {i : ℕ} (hi : i < w.elems elem) (hk : k.getLsbD i = true)
    (hbad : m.backed (elemAddr base elem i) elem = false)
    (hfirst : ∀ j < i, k.getLsbD j = true → m.backed (elemAddr base elem j) elem = true) :
    ∃ m' res, run m = .error ⟨{ g with mem := m', rip := g.curAddr }, res⟩ ∧
      StoredBelow base k elem (g.ext.vec.lanes r) m i m'
  stored {m : Memory}
    (h : ∀ i < w.elems elem, k.getLsbD i = true → m.backed (elemAddr base elem i) elem = true) :
    ∃ m', run m = .ok { g with mem := m' } ∧
      StoredBelow base k elem (g.ext.vec.lanes r) m (w.elems elem) m'

theorem loadRight : LoadRight g r base k elem w zeroing
    fun m => maskedLoadRun base k elem { g with mem := m } r w zeroing := by
  refine ⟨fun {m m'} h => ?_, fun {m} h => ?_, fun {m} h => ?_⟩
  · have hloop := loadLoop_congr zeroing (g.ext.vec.lanes r) fun i hi => h i (List.mem_range.1 hi)
    simp only [maskedLoadRun, hloop]
    split <;> rfl
  · obtain ⟨i, hi, hbad⟩ := h
    obtain ⟨f, hf⟩ := loadLoop_error zeroing (g.ext.vec.lanes r) ⟨i, List.mem_range.2 hi, hbad⟩
    simp only [maskedLoadRun, hf]
    exact ⟨_, rfl⟩
  · obtain ⟨x, hx, helems⟩ := loadLoop_ok (c := w.elems elem) zeroing _
      (g.ext.vec.lanes r) (fun j => (if_neg (not_lt_zero j)).symm) fun i _ hi => h i (by omega)
    refine ⟨x, ?_, fun i hi => ?_, fun c hc => ?_⟩
    · simp only [maskedLoadRun, range_eq_range', hx]
    · rw [getVelem_setVec r elem w _ x hi, helems, if_pos (by omega)]
    · rw [lanes_setVec, if_neg (by omega)]

theorem storeRight : StoreRight g r base k elem w
    fun m => maskedStoreRun base k elem { g with mem := m } r w := by
  have hsize : w.elems elem * elem.bytes ≤ 64 := by
    rw [elems_mul_bytes]
    exact w.bytes_le
  have hspec (m : Memory) := storeLoop_spec
    (.refl base k elem (g.ext.vec.lanes r) m) (by rwa [zero_add]) nofun
  simp only [zero_add, ← range_eq_range'] at hspec
  refine ⟨fun {m b} hb hk => ?_, fun {m i} hi hk hbad hfirst => ?_, fun {m} h => ?_⟩
  · have hb := hb.trans_le w.bytes_le
    rcases hspec m with ⟨i, -, hi, -, -, hfirst, m', f, hrun, hbelow⟩ | ⟨hall, m', hrun, hbelow⟩
    · simp only [maskedStoreRun, hrun]
      exact hbelow.inactive ((Nat.mul_le_mul_right _ hi.le).trans hsize) hfirst hb hk
    · simp only [maskedStoreRun, hrun]
      exact hbelow.inactive hsize hall hb hk
  · rcases hspec m with ⟨i', -, hi', hk', hbad', hfirst', m', f, hrun, hbelow⟩ | ⟨hall, -⟩
    · have heq : i' = i := by
        rcases Nat.lt_trichotomy i' i with hlt | heq | hgt
        · rw [hfirst i' hlt hk'] at hbad'
          cases hbad'
        · exact heq
        · rw [hfirst' i hgt hk] at hbad
          cases hbad
      subst heq
      simp only [maskedStoreRun, hrun]
      exact ⟨m', _, rfl, hbelow⟩
    · rw [hall i hi hk] at hbad
      cases hbad
  · rcases hspec m with ⟨i, -, hi, hk, hbad, -⟩ | ⟨-, m', hrun, hbelow⟩
    · rw [h i hi hk] at hbad
      cases hbad
    · simp only [maskedStoreRun, hrun]
      exact ⟨m', rfl, hbelow⟩

/-- An active element is one that the mask register, or the sign bit of the element, selects. -/
theorem masked_access_right (vm : VecMask) (addr : Val) :
    let k := vm.bits g.ext.vec elem w
    (∀ i < w.elems elem, k.getLsbD i = vm.active g.ext.vec elem i) ∧
    LoadRight g r (g.readVal addr) k elem w (vm.zeroes zeroing)
      (fun m => vm.load { g with mem := m } r addr elem w zeroing) ∧
    StoreRight g r (g.readVal addr) k elem w
      (fun m => vm.store { g with mem := m } r addr elem w) := by
  refine ⟨fun i hi => vm.getLsbD_bits elem w _ hi, ?_, ?_⟩
  · cases vm <;> exact loadRight ..
  · cases vm <;> exact storeRight ..

theorem panelRegions_le : ∀ r ∈ [Region.mk 0x8000 16 .trap], r.stop ≤ 0x10000 := by decide

def panelGuest : Guest Ext :=
  let g := (WalkState.zero Ext.zero (.small _ panelRegions_le fun _ => 0)).guest
  { g with
    gpr := fun _ => 0x8000
    ext := { g.ext with vec := { g.ext.vec with kmask := fun _ => 1 } } }

/-- The one active element is mapped, as a device register, and the load does not complete. -/
theorem masked_load_leaves_at_device : (panelGuest.mem.regionFor 0x8000 4).isSome = true ∧
    ∃ g', execVMaskLoadMem panelGuest 0 (.imm 0x8000) .b4 .w128 1 true =
      .error ⟨g', .exit (.mmioRead 0x8000 .b4)⟩ :=
  ⟨by decide, _, rfl⟩

end X86Jit
