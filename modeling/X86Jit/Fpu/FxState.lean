import X86Jit.Fpu.Stores
import X86Jit.Lib.Bits

/-! The images of the unit in memory: the save area of `fxsave` and `fxrstor`, and the environment
of `fnstenv` and `fldenv`. -/
namespace X86Jit
open FpuM X86Jit.Lib List BitVec Nat

variable {i n : ℕ} {w : ℕ}

theorem getLsbD_ofBytes (bs : List U8) (hi : i < w) :
    (ofBytes w bs).getLsbD i = (bs.getD (i / 8) 0).getLsbD (i % 8) := by
  induction bs generalizing i with
  | nil => simp [ofBytes]
  | cons b bs ih =>
    have hcons : ofBytes w (b :: bs) = (ofBytes w bs <<< 8) ||| b.setWidth w := rfl
    rw [hcons, getLsbD_or, getLsbD_shiftLeft, getLsbD_setWidth]
    by_cases hlow : i < 8
    · have hdiv : i / 8 = 0 := div_eq_of_lt hlow
      have hmod : i % 8 = i := mod_eq_of_lt hlow
      rw [hdiv, hmod, decide_eq_true hlow, decide_eq_true hi]
      simp
    · have hdiv : i / 8 = (i - 8) / 8 + 1 := by omega
      have hmod : i % 8 = (i - 8) % 8 := by omega
      rw [hdiv, hmod, getD_cons_succ, ← ih (by omega), decide_eq_false hlow,
        decide_eq_true hi, getLsbD_of_ge b i (by omega)]
      simp

theorem ofBytes_wideBytes (v : BitVec w) (hn : w ≤ 8 * n) : ofBytes w (wideBytes v n) = v := by
  apply eq_of_getLsbD_eq
  intro i hi
  have hbyte : (wideBytes v n).getD (i / 8) 0 = (v >>> (8 * (i / 8))).setWidth 8 := by
    unfold wideBytes
    rw [List.getD_eq_getElem?_getD, List.getElem?_map, List.getElem?_range (by omega)]
    rfl
  have hplace : 8 * (i / 8) + i % 8 = i := by omega
  rw [getLsbD_ofBytes _ hi, hbyte, getLsbD_setWidth, getLsbD_ushiftRight, hplace,
    decide_eq_true (by omega), Bool.true_and]

theorem take_drop_flatMap {α : Type} (f : ℕ → List α) {k : ℕ} (hlen : ∀ j, (f j).length = k)
    {j : ℕ} (hj : j < n) : (((range n).flatMap f).drop (j * k)).take k = f j := by
  induction n generalizing f j with
  | zero => omega
  | succ n ih =>
    have hsplit : (range (n + 1)).flatMap f =
        f 0 ++ (range n).flatMap fun i => f (i + 1) := by
      rw [range_succ_eq_map, flatMap_cons, flatMap_map]
    rw [hsplit]
    cases j with
    | zero =>
      rw [Nat.zero_mul, ← hlen 0]
      exact take_left ..
    | succ j =>
      have hskip : (j + 1) * k = (f 0).length + j * k := by
        rw [hlen 0, Nat.succ_mul, Nat.add_comm]
      rw [hskip, drop_append, drop_eq_nil_of_le (le_add_right _ _),
        nil_append, Nat.add_sub_cancel_left]
      exact ih (fun i => f (i + 1)) (fun i => hlen (i + 1)) (by omega)

theorem take_drop_middle {α : Type} (a b c : List α) {off : ℕ} (h : off + n ≤ b.length) :
    ((a ++ (b ++ c)).drop (a.length + off)).take n = (b.drop off).take n := by
  have hrest : n ≤ (b.drop off).length := by
    rw [length_drop]
    omega
  rw [drop_length_add_append, drop_append_of_le_length (by omega),
    take_append_of_le_length hrest]

variable (x : Ext)

def fxHead : List U8 :=
  wideBytes x.fpu.cw 2 ++ wideBytes x.fpu.statusWord 2 ++ [~~~x.fpu.empty] ++
    List.replicate 19 0 ++ wideBytes (0x1f80 : U32) 4 ++ wideBytes (0xffff : U32) 4

def fxRegs : List U8 :=
  (range 8).flatMap fun j => wideBytes (x.fpu.fpr (x.fpu.slot j)) 10 ++ List.replicate 6 0

theorem mod_32_lt (i : ℕ) : i % 32 < 32 := mod_lt i (by omega)

def fxVectors : List U8 :=
  (range 16).flatMap fun i => wideBytes (x.vec.xmm ⟨i % 32, mod_32_lt i⟩) 16

theorem fxImage_eq :
    fxImage x = fxHead x ++ (fxRegs x ++ (fxVectors x ++ List.replicate 96 0)) := by
  rfl

theorem length_fxHead : (fxHead x).length = 32 := rfl

theorem length_fxRegs : (fxRegs x).length = 128 := by
  unfold fxRegs
  simp [length_wideBytes]

theorem length_fxVectors : (fxVectors x).length = 256 := by
  unfold fxVectors
  simp [length_wideBytes]

theorem length_fxImage : (fxImage x).length = 512 := by
  rw [fxImage_eq]
  simp [length_fxHead, length_fxRegs, length_fxVectors]

theorem fxImage_cw : (fxImage x).take 2 = wideBytes x.fpu.cw 2 := rfl

theorem fxImage_status : ((fxImage x).drop 2).take 2 = wideBytes x.fpu.statusWord 2 := rfl

theorem fxImage_tags : ((fxImage x).drop 4).take 1 = [~~~x.fpu.empty] := rfl

theorem fxImage_st {j : ℕ} (hj : j < 8) :
    ((fxImage x).drop (32 + j * 16)).take 10 = wideBytes (x.fpu.fpr (x.fpu.slot j)) 10 := by
  have hpiece : ((fxRegs x).drop (j * 16)).take 16 =
      wideBytes (x.fpu.fpr (x.fpu.slot j)) 10 ++ List.replicate 6 0 :=
    take_drop_flatMap _ (fun i => by simp [length_wideBytes]) hj
  have hfits : j * 16 + 10 ≤ (fxRegs x).length := by
    rw [length_fxRegs]
    omega
  have hshort : ((fxRegs x).drop (j * 16)).take 10 =
      (((fxRegs x).drop (j * 16)).take 16).take 10 := by
    rw [take_take]
    rfl
  rw [fxImage_eq, ← length_fxHead x, take_drop_middle _ _ _ hfits, hshort, hpiece]
  exact take_left' (length_wideBytes _ _)

theorem fxImage_xmm (hi : i < 16) : ((fxImage x).drop (160 + i * 16)).take 16 =
      wideBytes (x.vec.xmm ⟨i % 32, mod_32_lt i⟩) 16 := by
  have hpiece : ((fxVectors x).drop (i * 16)).take 16 =
      wideBytes (x.vec.xmm ⟨i % 32, mod_32_lt i⟩) 16 :=
    take_drop_flatMap _ (fun i => by simp [length_wideBytes]) hi
  have hfits : i * 16 + 16 ≤ (fxVectors x).length := by
    rw [length_fxVectors]
    omega
  have hbefore : (fxHead x ++ fxRegs x).length = 160 := by
    rw [length_append, length_fxHead, length_fxRegs]
  rw [fxImage_eq, ← List.append_assoc, ← hbefore, take_drop_middle _ _ _ hfits, hpiece]

variable (u : Fpu)

theorem getLsbD_statusWord (hi : i < 16) : u.statusWord.getLsbD i =
    if 11 ≤ i ∧ i < 14 then u.top.getLsbD (i - 11) else u.sw.getLsbD i := by
  have hhole : ∀ i < 16, (~~~(0x3800 : U16)).getLsbD i = !decide (11 ≤ i ∧ i < 14) := by
    decide
  have hseven : ∀ i < 16, (7 : U16).getLsbD i = decide (i < 3) := by decide
  unfold Fpu.statusWord
  rw [getLsbD_or, getLsbD_and, hhole i hi, getLsbD_shiftLeft,
    getLsbD_and, getLsbD_setWidth, hseven (i - 11) (by omega), decide_eq_true hi,
    decide_eq_true (show i - 11 < 16 by omega)]
  by_cases hlow : i < 11
  · rw [if_neg (by omega), decide_eq_false (show ¬(11 ≤ i ∧ i < 14) by omega),
      decide_eq_true hlow]
    simp
  · by_cases hhigh : i < 14
    · rw [if_pos (by omega), decide_eq_true (show 11 ≤ i ∧ i < 14 by omega),
        decide_eq_true (show i - 11 < 3 by omega), decide_eq_false hlow]
      simp
    · rw [if_neg (by omega), decide_eq_false (show ¬(11 ≤ i ∧ i < 14) by omega),
        decide_eq_false (show ¬i - 11 < 3 by omega)]
      simp

theorem statusWord_top : ((u.statusWord >>> 11) &&& 7).setWidth 32 = u.top &&& 7 := by
  have hseven : ∀ i < 32, (7 : U16).getLsbD i = decide (i < 3) ∧
      (7 : U32).getLsbD i = decide (i < 3) := by decide
  apply eq_of_getLsbD_eq
  intro i hi
  rw [getLsbD_setWidth, getLsbD_and, getLsbD_and, (hseven i hi).1,
    (hseven i hi).2, getLsbD_ushiftRight, decide_eq_true hi]
  by_cases hlow : i < 3
  · rw [getLsbD_statusWord u (by omega), if_pos (by omega), Nat.add_sub_cancel_left]
    simp
  · rw [decide_eq_false hlow]
    simp

theorem statusWord_rest : u.statusWord &&& ~~~0x3800 = u.sw &&& ~~~0x3800 := by
  have hhole : ∀ i < 16, (~~~(0x3800 : U16)).getLsbD i = !decide (11 ≤ i ∧ i < 14) := by
    decide
  apply eq_of_getLsbD_eq
  intro i hi
  rw [getLsbD_and, getLsbD_and, getLsbD_statusWord u hi, hhole i hi]
  by_cases htop : 11 ≤ i ∧ i < 14
  · rw [decide_eq_true htop]
    simp
  · rw [if_neg htop]

/-- A top below eight that is not in the stored status word as well, and a control word that a load
would not change. -/
structure Fpu.Regular (u : Fpu) : Prop where
  top : u.top.toNat < 8
  sw : ∀ i, 11 ≤ i → i < 14 → u.sw.getLsbD i = false
  cw : normalizeCw u.cw = u.cw

namespace Fpu.Regular
variable {u : Fpu}

theorem top_eq (h : u.Regular) : u.top &&& 7 = u.top := by
  apply eq_of_toNat_eq
  exact (and_two_pow_sub_one_eq_mod u.top.toNat 3).trans (mod_eq_of_lt h.top)

theorem sw_eq (h : u.Regular) : u.sw &&& ~~~0x3800 = u.sw := by
  have hhole : ∀ i < 16, (~~~(0x3800 : U16)).getLsbD i = !decide (11 ≤ i ∧ i < 14) := by
    decide
  apply eq_of_getLsbD_eq
  intro i hi
  rw [getLsbD_and, hhole i hi]
  by_cases htop : 11 ≤ i ∧ i < 14
  · rw [h.sw i htop.1 htop.2, Bool.false_and]
  · rw [decide_eq_false htop]
    exact Bool.and_true _

end Fpu.Regular

/-- The tags, the top and the status word of the other unit, and its control word as a load keeps
it. If an op has left that unit, all is as it was. -/
structure EnvRestored (u v : Fpu) : Prop where
  empty : v.empty = u.empty
  top : v.top = u.top &&& 7
  status : v.statusWord = u.statusWord
  cw : v.cw = normalizeCw u.cw
  exact : u.Regular → v.top = u.top ∧ v.sw = u.sw ∧ v.cw = u.cw

theorem envRestored_of_words {u v : Fpu} (hempty : v.empty = u.empty)
    (htop : v.top = ((u.statusWord >>> 11) &&& 7).setWidth 32)
    (hsw : v.sw = u.statusWord &&& ~~~0x3800) (hcw : v.cw = normalizeCw u.cw) :
    EnvRestored u v := by
  rw [statusWord_top] at htop
  rw [statusWord_rest] at hsw
  refine ⟨hempty, htop, ?_, hcw, ?_⟩
  · have htwice : (u.top &&& 7).setWidth 16 &&& 7 = u.top.setWidth 16 &&& 7 := by
      have hseven : (7 : U32).setWidth 16 = 7 := rfl
      rw [BitVec.setWidth_and, hseven, BitVec.and_assoc, BitVec.and_self]
    unfold Fpu.statusWord
    rw [htop, hsw, htwice, BitVec.and_assoc, BitVec.and_self]
  · intro hu
    exact ⟨htop.trans hu.top_eq, hsw.trans hu.sw_eq, hcw.trans hu.cw⟩

variable (y : Ext)

structure Restored (x y : Ext) : Prop where
  fpr : y.fpu.fpr = x.fpu.fpr
  words : EnvRestored x.fpu y.fpu
  xmm : ∀ i : Fin 32, i.val < 16 → y.vec.xmm i = x.vec.xmm i

theorem slot_back (u : Fpu) (i : Fin 8) : u.slot ((i.val + 8 - (u.top &&& 7).toNat) % 8) = i := by
  have htop : (u.top &&& 7).toNat = u.top.toNat % 8 := by
    exact and_two_pow_sub_one_eq_mod u.top.toNat 3
  apply Fin.ext
  change (u.top.toNat + (i.val + 8 - (u.top &&& 7).toNat) % 8) % 8 = i.val
  omega

theorem fxRestore_fxImage : Restored x (fxRestore y (fxImage x)) := by
  have hstatus : ofBytes 16 (((fxImage x).drop 2).take 2) = x.fpu.statusWord := by
    rw [fxImage_status, ofBytes_wideBytes _ (by omega)]
  have hempty : (fxRestore y (fxImage x)).fpu.empty = x.fpu.empty := by
    have hfield : (fxRestore y (fxImage x)).fpu.empty =
        ~~~(ofBytes 8 (((fxImage x).drop 4).take 1)) := rfl
    have hbyte (b : U8) : ofBytes 8 [b] = b := by simp [ofBytes]
    rw [hfield, fxImage_tags, hbyte, BitVec.not_not]
  have hcw : (fxRestore y (fxImage x)).fpu.cw = normalizeCw x.fpu.cw := by
    have hfield : (fxRestore y (fxImage x)).fpu.cw =
        normalizeCw (ofBytes 16 ((fxImage x).take 2)) := rfl
    rw [hfield, fxImage_cw, ofBytes_wideBytes _ (by omega)]
  have hwords : EnvRestored x.fpu (fxRestore y (fxImage x)).fpu := by
    apply envRestored_of_words hempty _ _ hcw
    · rw [← hstatus]
      rfl
    · rw [← hstatus]
      rfl
  refine ⟨?_, hwords, ?_⟩
  · funext i
    have hfield : (fxRestore y (fxImage x)).fpu.fpr i = ofBytes 80 (((fxImage x).drop
        (32 + (i.val + 8 - (fxRestore y (fxImage x)).fpu.top.toNat) % 8 * 16)).take 10) := rfl
    rw [hfield, hwords.top, fxImage_st x (mod_lt _ (by omega)),
      ofBytes_wideBytes _ (by omega), slot_back]
  · intro i hi
    have hfield : (fxRestore y (fxImage x)).vec.xmm i =
        ofBytes 128 (((fxImage x).drop (160 + i.val * 16)).take 16) := if_pos hi
    have hreg : (⟨i.val % 32, mod_32_lt i.val⟩ : Fin 32) = i :=
      Fin.ext (mod_eq_of_lt i.isLt)
    rw [hfield, fxImage_xmm x hi, ofBytes_wideBytes _ (by omega), hreg]

variable (u v : Fpu)

theorem tag_eq_three_iff (i : Fin 8) : u.tag i = 3 ↔ u.isEmpty i = true := by
  unfold Fpu.tag
  by_cases hempty : u.isEmpty i = true
  · rw [if_pos hempty]
    exact iff_of_true rfl hempty
  · rw [if_neg hempty]
    refine iff_of_false ?_ hempty
    split
    · decide
    · split
      · decide
      · decide

theorem getLsbD_tag (i : Fin 8) {k : ℕ} (hk : 2 ≤ k) : (u.tag i).getLsbD k = false := by
  have hsmall : (u.tag i).toNat < 2 ^ 2 := by
    unfold Fpu.tag
    dsimp only
    split
    · decide
    · split
      · decide
      · split
        · decide
        · decide
  exact Nat.testBit_lt_two_pow (hsmall.trans_le (Nat.pow_le_pow_right (by omega) hk))

theorem tagWord_field (i : Fin 8) : (u.tagWord >>> (2 * i.val)) &&& 3 = u.tag i := by
  have hthree : ∀ k < 16, (3 : U16).getLsbD k = decide (k < 2) := by decide
  apply eq_of_getLsbD_eq
  intro k hk
  rw [getLsbD_and, hthree k hk, getLsbD_ushiftRight]
  by_cases hlow : k < 2
  · have hplace (j : Fin 8) : (u.tag j <<< (2 * j.val)).getLsbD (2 * i.val + k) =
        (decide (j = i) && (u.tag i).getLsbD k) := by
      rw [getLsbD_shiftLeft]
      by_cases hji : j = i
      · have hoff : 2 * i.val + k - 2 * i.val = k := by omega
        rw [hji, hoff, decide_eq_true (show 2 * i.val + k < 16 by omega),
          decide_eq_false (show ¬2 * i.val + k < 2 * i.val by omega), decide_eq_true rfl]
        simp
      · have hne : j.val ≠ i.val := fun h => hji (Fin.ext h)
        rw [decide_eq_false hji]
        by_cases hbefore : 2 * i.val + k < 2 * j.val
        · rw [decide_eq_true hbefore]
          simp
        · rw [getLsbD_tag u j (by omega)]
          simp
    have hfold : u.tagWord = (finRange 8).foldl
        (fun tw j => if True then tw ||| (u.tag j <<< (2 * j.val)) else tw) 0 := rfl
    rw [hfold, getLsbD_foldl_or]
    simp only [hplace, decide_true, Bool.true_and]
    rw [decide_eq_true hlow]
    have hany : ((finRange 8).any fun j => decide (j = i) && (u.tag i).getLsbD k) =
        (u.tag i).getLsbD k := by
      rw [Bool.eq_iff_iff]
      simp [mem_finRange]
    rw [hany]
    simp
  · rw [decide_eq_false hlow, getLsbD_tag u i (by omega), Bool.and_false]

theorem empty_bits (e : U8) : (range 8).foldl
    (fun (a : U8) i => if e.getLsbD i = true then a ||| (1 <<< i) else a) 0 = e := by
  revert e
  decide

theorem loadEnv28_env28 : EnvRestored u (v.loadEnv28 u.env28) := by
  have hstatus : ofBytes 16 ((u.env28.drop 4).take 2) = u.statusWord := by
    have hfield : (u.env28.drop 4).take 2 = wideBytes u.statusWord 2 := rfl
    rw [hfield, ofBytes_wideBytes _ (by omega)]
  have htags : ofBytes 16 ((u.env28.drop 8).take 2) = u.tagWord := by
    have hfield : (u.env28.drop 8).take 2 = wideBytes u.tagWord 2 := rfl
    rw [hfield, ofBytes_wideBytes _ (by omega)]
  have hempty : (v.loadEnv28 u.env28).empty = u.empty := by
    have hfield : (v.loadEnv28 u.env28).empty = (range 8).foldl (fun (e : U8) i =>
        if (ofBytes 16 ((u.env28.drop 8).take 2) >>> (2 * i)) &&& 3 = 3 then e ||| (1 <<< i)
        else e) 0 := rfl
    rw [hfield, htags]
    conv_rhs => rw [← empty_bits u.empty]
    apply foldl_ext
    intro e i hi
    have hlt : i < 8 := List.mem_range.mp hi
    have htest := tagWord_field u ⟨i, hlt⟩
    rw [htest]
    exact if_congr (tag_eq_three_iff u ⟨i, hlt⟩) rfl rfl
  have hcw : (v.loadEnv28 u.env28).cw = normalizeCw u.cw := by
    have hfield : (v.loadEnv28 u.env28).cw = normalizeCw (ofBytes 16 (u.env28.take 2)) := rfl
    have hword : u.env28.take 2 = wideBytes u.cw 2 := rfl
    rw [hfield, hword, ofBytes_wideBytes _ (by omega)]
  apply envRestored_of_words hempty _ _ hcw
  · rw [← hstatus]
    rfl
  · rw [← hstatus]
    rfl

/-- Memory that can be read back where it is writable. -/
class WritableMem (M : Type) [FpMem M] where
  writable : M → U64 → ℕ → Prop
  taken : ∀ {m : M} {addr bs}, writable m addr bs.length → (FpMem.store m addr bs).2 = true
  kept : ∀ {m : M} {addr bs}, writable m addr bs.length →
    FpMem.load (FpMem.store m addr bs).1 addr bs.length = some bs

theorem map_window (bs : List U8) (old : ℕ → U8) (o : ℕ) :
    ((range bs.length).map fun i =>
      if o ≤ o + i ∧ o + i < o + bs.length then bs.getD (o + i - o) 0 else old (o + i)) = bs := by
  apply ext_getElem
  · rw [length_map, length_range]
  · intro i hi hi'
    rw [getElem_map, getElem_range, if_pos (by omega), Nat.add_sub_cancel_left,
      List.getD_eq_getElem?_getD, List.getElem?_eq_getElem hi', Option.getD_some]

namespace Memory
variable {m : Memory} {addr : U64} {bs : List U8} {r : Region}

theorem writeRamGuest_ram (hr : m.regionFor addr.toNat bs.length = some r) (hk : r.kind = .ram) :
    m.writeRamGuest addr bs = some ((m.setBytes addr.toNat bs).noteWrite addr.toNat bs.length) := by
  unfold writeRamGuest
  rw [hr]
  dsimp only
  rw [hk]

theorem readRamGuest_back (hr : m.regionFor addr.toNat bs.length = some r) (hk : r.kind = .ram) :
    ((m.setBytes addr.toNat bs).noteWrite addr.toNat bs.length).readRamGuest addr bs.length =
      some bs := by
  have hnote := noteWrite_sameTags (m.setBytes addr.toNat bs) addr.toNat bs.length
  have hregion : ((m.setBytes addr.toNat bs).noteWrite addr.toNat bs.length).regionFor addr.toNat
      bs.length = some r := by
    unfold regionFor at hr ⊢
    rw [hnote.regions]
    exact hr
  unfold readRamGuest
  rw [hregion, hnote.bytes]
  dsimp only
  rw [hk]
  exact congrArg some (map_window bs m.bytes addr.toNat)

end Memory

/-- Of the regions the ram is writable; a rom takes the bytes and drops them. -/
instance : WritableMem Memory where
  writable m addr n := ∃ r, m.regionFor addr.toNat n = some r ∧ r.kind = .ram
  taken := by
    intro m addr bs h
    obtain ⟨r, hr, hk⟩ := h
    change ((m.writeRamGuest addr bs).elim (m, false) fun m' => (m', true)).2 = true
    rw [Memory.writeRamGuest_ram hr hk]
    rfl
  kept := by
    intro m addr bs h
    obtain ⟨r, hr, hk⟩ := h
    change Memory.readRamGuest ((m.writeRamGuest addr bs).elim (m, false) fun m' => (m', true)).1
      addr bs.length = some bs
    rw [Memory.writeRamGuest_ram hr hk]
    exact Memory.readRamGuest_back hr hk

namespace RawFpMem
variable {m : RawFpMem} {o : ℕ} {addr : U64} {bs : List U8}

def written (m : RawFpMem) (o : ℕ) (bs : List U8) : RawFpMem :=
  { m with bytes := fun a =>
      if o ≤ a ∧ a < o + bs.length then bs.getD (a - o) 0 else m.bytes a }

theorem store_some (h : m.off addr bs.length = some o) :
    FpMem.store m addr bs = (m.written o bs, true) := by
  unfold FpMem.store instFpMem
  dsimp only
  rw [h]
  rfl

theorem off_written (m : RawFpMem) (o : ℕ) (bs : List U8) (addr : U64) (n : ℕ) :
    (m.written o bs).off addr n = m.off addr n := rfl

end RawFpMem

instance : WritableMem RawFpMem where
  writable m addr n := (m.off addr n).isSome = true
  taken := by
    intro m addr bs h
    obtain ⟨o, ho⟩ := Option.isSome_iff_exists.mp h
    rw [RawFpMem.store_some ho]
  kept := by
    intro m addr bs h
    obtain ⟨o, ho⟩ := Option.isSome_iff_exists.mp h
    rw [RawFpMem.store_some ho]
    have hload (m : RawFpMem) : FpMem.load m addr bs.length =
      (m.off addr bs.length).map fun o => (range bs.length).map fun i => m.bytes (o + i) := rfl
    rw [hload, RawFpMem.off_written, ho]
    exact congrArg some (map_window bs m.bytes o)

namespace Fpu.Regular
variable {u : Fpu}

theorem or_sw (h : u.Regular) {w : U16} (hw : ∀ i, 11 ≤ i → i < 14 → w.getLsbD i = false) :
    ({ u with sw := u.sw ||| w } : Fpu).Regular := by
  refine ⟨h.top, ?_, h.cw⟩
  intro i hlow hhigh
  rw [getLsbD_or, h.sw i hlow hhigh, hw i hlow hhigh, Bool.or_false]

theorem and_sw (h : u.Regular) (w : U16) : ({ u with sw := u.sw &&& w } : Fpu).Regular := by
  refine ⟨h.top, ?_, h.cw⟩
  intro i hlow hhigh
  rw [getLsbD_and, h.sw i hlow hhigh, Bool.false_and]

theorem with_top (h : u.Regular) (t : U32) : ({ u with top := t &&& 7 } : Fpu).Regular := by
  refine ⟨?_, h.sw, h.cw⟩
  exact lt_succ_of_le and_le_right

theorem with_regs (h : u.Regular) (r : Fin 8 → BitVec 80) (e : U8) :
    ({ u with fpr := r, empty := e } : Fpu).Regular := ⟨h.top, h.sw, h.cw⟩

theorem raise (h : u.Regular) (e : Exc) : (u.raise e).1.Regular := by
  have hlow (i : ℕ) (_ : 11 ≤ i) (_ : i < 14) : (e &&& 0x7f).getLsbD i = false := by
    have hseven : ∀ i < 16, 11 ≤ i → (0x7f : U16).getLsbD i = false := by decide
    rw [getLsbD_and, hseven i (by omega) (by omega), Bool.and_false]
  have hsummary : ∀ i, 11 ≤ i → i < 14 → (0x8080 : U16).getLsbD i = false := by
    have hbits : ∀ i < 14, 11 ≤ i → (0x8080 : U16).getLsbD i = false := by decide
    exact fun i hi hi' => hbits i hi' hi
  unfold Fpu.raise
  split
  · exact h
  · dsimp only
    split
    · exact (h.or_sw hlow).or_sw hsummary
    · exact h.or_sw hlow

theorem pushRaw (h : u.Regular) (b : BitVec 80) : (u.pushRaw b).Regular := by
  have hc1 : ∀ i, 11 ≤ i → i < 14 → c1.getLsbD i = false := by
    have hbits : ∀ i < 14, 11 ≤ i → c1.getLsbD i = false := by decide
    exact fun i hi hi' => hbits i hi' hi
  unfold Fpu.pushRaw
  dsimp only
  split
  · exact (((h.with_top _).with_regs _ _).and_sw _)
  · split
    · exact (h.or_sw hc1).raise _
    · exact (((h.or_sw hc1).raise _).with_top _).with_regs _ _

theorem setCodes (h : u.Regular) (c : Bool × Bool × Bool) : (u.setCodes c).Regular := by
  have hbits : ∀ i < 14, 11 ≤ i → (0x0100 : U16).getLsbD i = false ∧
      (0x0400 : U16).getLsbD i = false ∧ (0x4000 : U16).getLsbD i = false := by decide
  have hcode (b : Bool) {w : U16} (hw : ∀ i, 11 ≤ i → i < 14 → w.getLsbD i = false) :
      ∀ i, 11 ≤ i → i < 14 → (if b then w else 0).getLsbD i = false := by
    intro i hi hi'
    cases b with
    | false => exact getLsbD_zero
    | true => exact hw i hi hi'
  exact (((h.and_sw _).or_sw (hcode _ fun i hi hi' => (hbits i hi' hi).1)).or_sw
    (hcode _ fun i hi hi' => (hbits i hi' hi).2.1)).or_sw
    (hcode _ fun i hi hi' => (hbits i hi' hi).2.2)

end Fpu.Regular

theorem normalizeCw_normalizeCw (w : U16) : normalizeCw (normalizeCw w) = normalizeCw w := by
  have hbool : ∀ a b m : Bool, ((((a || b) && m) || b) && m) = ((a || b) && m) := by decide
  unfold normalizeCw
  apply eq_of_getLsbD_eq
  intro i _
  simp only [getLsbD_and, getLsbD_or]
  exact hbool _ _ _

theorem normalizeCw_masked {w : U16} (h : normalizeCw w = w) :
    normalizeCw (w ||| 0x3f) = w ||| 0x3f := by
  have hbool : ∀ a b c m : Bool, ((a || b) && m) = a → (c = true → m = true) →
      (((a || c) || b) && m) = (a || c) := by decide
  have hmasks : ∀ i < 16, (0x3f : U16).getLsbD i = true →
      (0x1f7f : U16).getLsbD i = true := by decide
  apply eq_of_getLsbD_eq
  intro i hi
  have hbit := congrArg (fun v => v.getLsbD i) h
  unfold normalizeCw at hbit ⊢
  simp only [getLsbD_and, getLsbD_or] at hbit ⊢
  exact hbool _ _ _ _ hbit (hmasks i hi)

theorem regular_of_status (u : Fpu) (sw cw : U16) :
    ({ u with
        cw := normalizeCw cw
        top := ((sw >>> 11) &&& 7).setWidth 32
        sw := sw &&& ~~~0x3800 } : Fpu).Regular := by
  have hhole : ∀ i < 14, 11 ≤ i → (~~~(0x3800 : U16)).getLsbD i = false := by decide
  refine ⟨?_, ?_, normalizeCw_normalizeCw cw⟩
  · dsimp only
    rw [toNat_setWidth]
    exact (mod_le _ _).trans_lt (lt_succ_of_le and_le_right)
  · intro i hlow hhigh
    rw [getLsbD_and, hhole i hhigh hlow, Bool.and_false]

theorem loadEnv28_regular (u : Fpu) (buf : List U8) : (u.loadEnv28 buf).Regular := by
  have h := regular_of_status u (ofBytes 16 ((buf.drop 4).take 2)) (ofBytes 16 (buf.take 2))
  exact ⟨h.top, h.sw, h.cw⟩

theorem fxRestore_regular (x : Ext) (buf : List U8) : (fxRestore x buf).fpu.Regular := by
  have h := regular_of_status x.fpu (ofBytes 16 ((buf.drop 2).take 2)) (ofBytes 16 (buf.take 2))
  exact ⟨h.top, h.sw, h.cw⟩

theorem init_regular (u : Fpu) : u.init.Regular :=
  ⟨zero_lt_succ 7, fun _ _ _ => getLsbD_zero,
    show normalizeCw 0x037f = 0x037f from rfl⟩

variable {α β : Type}

def KeepsRegular (m : FpuM α) : Prop := ∀ u, u.Regular → (final (m u)).Regular

namespace KeepsRegular

theorem bind {m : FpuM α} {f : α → FpuM β} (hm : KeepsRegular m) (hf : ∀ a, KeepsRegular (f a)) :
    KeepsRegular (m >>= f) := by
  intro u hu
  have hfirst := hm u hu
  cases h : m u with
  | error e v =>
    rw [h] at hfirst
    rw [bind_of_error h]
    exact hfirst
  | ok a v =>
    rw [h] at hfirst
    rw [bind_of_ok h]
    exact hf a v hfirst

theorem ite {p : Prop} [Decidable p] {m n : FpuM α} (hm : KeepsRegular m) (hn : KeepsRegular n) :
    KeepsRegular (if p then m else n) := by
  split
  · exact hm
  · exact hn

theorem pure (a : α) : KeepsRegular (Pure.pure a : FpuM α) := fun _ h => h

theorem get : KeepsRegular (MonadState.get : FpuM Fpu) := fun _ h => h

theorem raising (e : Exc) : KeepsRegular (FpuM.raising e) := by
  intro u hu
  unfold FpuM.raising
  dsimp only
  split
  · exact hu.raise e
  · exact hu.raise e

theorem underflow : KeepsRegular FpuM.underflow := by
  apply bind
  · intro u hu
    exact hu.and_sw _
  · exact fun _ => raising _

theorem look (i : ℕ) (a : α) (f : BitVec 80 → α) : KeepsRegular (do
    let u ← MonadState.get
    if u.isEmpty (u.slot i) then
      FpuM.underflow
      return a
    return f (u.fpr (u.slot i)) : FpuM α) := by
  apply bind get
  intro u
  exact ite (bind underflow fun _ => pure _) (pure _)

theorem operand (i : ℕ) : KeepsRegular (FpuM.operand i) := look i F80.indefinite F80.fromBytes

theorem setSt (i : ℕ) (f : Fpu → F80) : KeepsRegular (modify fun u => u.setSt i (f u)) :=
  fun _ h => h.with_regs _ _

theorem push (f : Fpu → BitVec 80) : KeepsRegular (modify fun u => u.pushRaw (f u)) :=
  fun _ h => h.pushRaw _

theorem popIf (pops : Bool) : KeepsRegular (FpuM.popIf pops) := by
  intro u hu
  cases pops with
  | false => exact hu
  | true => exact (hu.with_top _).with_regs _ _

end KeepsRegular

def Arm.KeepsRegular : Arm → Prop
  | .quiet p => X86Jit.KeepsRegular p
  | .load _ p => ∀ b, X86Jit.KeepsRegular (p b)
  | .store p after => X86Jit.KeepsRegular p ∧ X86Jit.KeepsRegular after
  | .ax => True
  | .compare p => X86Jit.KeepsRegular p

variable {M : Type} [FpMem M] {s : X87State M} {addr : U64} {sti : U8}

theorem Arm.run_regular {arm : Arm} (harm : arm.KeepsRegular) (h : s.cpu.fpu.Regular) :
    (arm.run addr s).2.cpu.fpu.Regular := by
  cases arm with
  | quiet p => exact harm _ h
  | load n p =>
    unfold Arm.run
    dsimp only
    split
    · exact h
    · exact harm _ _ h
  | store p after =>
    have hp := harm.1 _ h
    unfold Arm.run
    dsimp only
    split
    · case h_1 hrun =>
      rw [hrun] at hp
      exact hp
    · case h_2 hrun =>
      rw [hrun] at hp
      split
      · exact harm.2 _ hp
      · exact hp
  | ax => exact h
  | compare p =>
    have hp := harm _ h
    unfold Arm.run
    dsimp only
    split
    · case h_1 hrun =>
      rw [hrun] at hp
      exact hp
    · case h_2 hrun =>
      rw [hrun] at hp
      exact hp

namespace KeepsRegular

variable (n : ℕ) (value : List U8 → F80) (pops : Bool)

theorem fldFloat : (Arm.fldFloat n value).KeepsRegular := by
  intro b
  apply ite
  · apply bind (raising _)
    intro _
    exact push _
  · exact push _

theorem fstConverted (bytes : Fpu → F80 → List U8) :
    (Arm.fstConverted pops bytes).KeepsRegular :=
  ⟨bind (operand 0) fun _ => bind get fun _ => pure _, popIf pops⟩

theorem arithMem (op : F80 → F80 → Ctl → F80 × Exc) : (Arm.arithMem n value op).KeepsRegular := by
  intro b
  apply bind (operand 0)
  intro a
  apply bind get
  intro u
  apply bind (raising _)
  intro _
  exact setSt 0 _

theorem ficom : (Arm.ficom n value pops).KeepsRegular := by
  intro b
  apply bind (operand 0)
  intro a
  have hcodes (c : Bool × Bool × Bool) :
      X86Jit.KeepsRegular (do modify fun u => u.setCodes c; FpuM.popIf pops) :=
    bind (fun u hu => hu.setCodes c) fun _ => popIf pops
  apply ite
  · exact bind (raising _) fun _ => hcodes _
  · exact hcodes _

theorem arithReg (dst : ℕ) (op : F80 → F80 → Ctl → F80 × Exc) :
    (Arm.arithReg sti dst op pops).KeepsRegular := by
  apply bind (operand 0)
  intro s0
  apply bind (operand sti.toNat)
  intro si
  apply bind get
  intro u
  apply bind (raising _)
  intro _
  exact bind (setSt dst _) fun _ => popIf pops

theorem fstSti : (Arm.fstSti sti pops).KeepsRegular :=
  bind (operand 0) fun _ => bind (setSt sti.toNat _) fun _ => popIf pops

theorem comi : (Arm.comi sti pops).KeepsRegular :=
  bind (operand 0) fun _ => bind (operand sti.toNat) fun _ => bind (popIf pops) fun _ => pure _

theorem unary (f : X87Precision → F80 → F80) : (Arm.unary f).KeepsRegular :=
  bind (operand 0) fun x => setSt 0 fun u => f u.precision x

theorem binaryPop (f : X87Precision → F80 → F80 → F80) : (Arm.binaryPop f).KeepsRegular :=
  bind (operand 1) fun y => bind (operand 0) fun x =>
    bind (setSt 1 fun u => f u.precision y x) fun _ => popIf true

theorem trig (f : X87Precision → F80 → F80) (second : Option (X87Precision → F80 → F80)) :
    (Arm.trig f second).KeepsRegular := by
  apply bind (operand 0)
  intro x
  apply ite
  · apply bind (setSt 0 fun u => f u.precision x)
    intro _
    cases second with
    | none => exact pure ()
    | some g => exact push fun u => (g u.precision x).toBytes
  · exact pure ()

end KeepsRegular

theorem KeepsRegular.of_armOf (H : Host) (kind : FpuKind) (sti : U8) :
    (armOf H kind sti).KeepsRegular := by
  have hword (f : Fpu → List U8) :
      KeepsRegular (do return f (← MonadState.get) : FpuM (List U8)) := fun _ h => h
  cases kind with
  | fldF64 | fldF32 => exact fldFloat _ _
  | fldF80 | fildI16 | fildI32 | fildI64 => exact fun _ => push _
  | fstpF64 | fstF64 | fstpF32 | fstF32 => exact fstConverted _ _
  | fistpI16 | fistpI32 | fistpI64 | fisttpI16 | fisttpI32 | fisttpI64 => exact fstConverted _ _
  | fstpF80 => exact ⟨look 0 _ fun r => wideBytes r 10, popIf true⟩
  | faddMemF64 | fsubMemF64 | fsubrMemF64 | fmulMemF64 | fdivMemF64 | fdivrMemF64
  | faddMemF32 | fsubMemF32 | fsubrMemF32 | fmulMemF32 | fdivMemF32 | fdivrMemF32
  | fiaddMemI16 | fisubMemI16 | fisubrMemI16 | fimulMemI16 | fidivMemI16 | fidivrMemI16
  | fiaddMemI32 | fisubMemI32 | fisubrMemI32 | fimulMemI32 | fidivMemI32 | fidivrMemI32 =>
    exact arithMem _ _ _
  | ficomI16 | ficomI32 | ficompI16 | ficompI32 => exact ficom _ _ _
  | fldSti => exact bind (operand sti.toNat) fun v => push fun _ => v.toBytes
  | fld1 | fldz => exact push _
  | faddP | fsubP | fsubrP | fmulP | fdivP | fdivrP
  | faddSti | fsubSti | fsubrSti | fmulSti | fdivSti | fdivrSti
  | faddToSti | fsubToSti | fsubrToSti | fmulToSti | fdivToSti | fdivrToSti => exact arithReg _ _ _
  | fstSti | fstpSti => exact fstSti _
  | fxch =>
    apply bind (operand 0)
    intro a
    apply bind (operand sti.toNat)
    intro b u hu
    exact (hu.with_regs _ _).with_regs _ _
  | fucomi | fcomi | fucomip | fcomip => exact comi _
  | fabs => exact unary fun _ v => v.abs
  | fchs => exact unary fun _ v => v.neg
  | f2xm1 => exact unary H.exp2m1
  | fldcw => exact fun _ u hu => ⟨hu.top, hu.sw, normalizeCw_normalizeCw _⟩
  | fnstcw | fnstswMem => exact ⟨hword _, pure ()⟩
  | fnstenv => exact ⟨hword _, fun u hu => ⟨hu.top, hu.sw, normalizeCw_masked hu.cw⟩⟩
  | fnstsw => trivial
  | fldenv => exact fun b u _ => loadEnv28_regular u b
  | fninit => exact fun u _ => init_regular u
  | fnclex => exact fun u hu => hu.and_sw _
  | fprem =>
    apply bind (operand 0)
    intro a
    apply bind (operand 1)
    intro b
    exact setSt 0 _
  | fsin => exact trig H.sin none
  | fcos => exact trig H.cos none
  | fptan => exact trig H.tan (some fun _ _ => F80.fromI64 1)
  | fsincos => exact trig H.sin (some H.cos)
  | fpatan => exact binaryPop H.atan2
  | fyl2x => exact binaryPop H.ylog2x
  | fyl2xp1 => exact binaryPop H.ylog2xp1

theorem execX87_regular (H : Host) (kind : FpuKind) (addr : U64) (sti : U8)
    (h : s.cpu.fpu.Regular) : (execX87 H kind addr sti s).2.cpu.fpu.Regular :=
  Arm.run_regular (KeepsRegular.of_armOf H kind sti) h

def runX87 (H : Host) (s : X87State M) (ops : List (FpuKind × U64 × U8)) : X87State M :=
  ops.foldl (fun s op => (execX87 H op.1 op.2.1 op.2.2 s).2) s

theorem runX87_regular (H : Host) (ops : List (FpuKind × U64 × U8))
    (h : s.cpu.fpu.Regular) : (runX87 H s ops).cpu.fpu.Regular := by
  induction ops generalizing s with
  | nil => exact h
  | cons op ops ih => exact ih (execX87_regular H op.1 op.2.1 op.2.2 h)

def execFxstate (x : Ext) (m : M) (addr : U64) (restore : Bool) : Option (U64 × Bool) × Ext × M :=
  if restore then
    match FpMem.load m addr 512 with
    | none => (some (addr, false), x, m)
    | some buf => (none, fxRestore x buf, m)
  else
    let r := FpMem.store m addr (fxImage x)
    if r.2 then (none, x, r.1) else (some (addr, true), x, r.1)

def fxOutcome (g : Guest Ext) : Option (U64 × Bool) × Ext × Memory → Outcome (Guest Ext)
  | (none, x, mem) => .ok { g with ext := x, mem }
  | (some (a, write), _, _) => .error (wideFault g a (if write then .write else .read))

theorem execFxState_eq (g : Guest Ext) (addr : Val) (restore : Bool) : execFxState g addr restore =
      fxOutcome g (execFxstate g.ext g.mem (g.readVal addr) restore) := by
  have hstore (m : Memory) (a : U64) (bs : List U8) : FpMem.store m a bs =
      (m.writeRamGuest a bs).elim (m, false) fun m' => (m', true) := rfl
  have hload (m : Memory) (a : U64) (n : ℕ) : FpMem.load m a n = m.readRamGuest a n := rfl
  unfold execFxState execFxstate
  cases restore with
  | true =>
    rw [if_pos rfl, hload]
    cases g.mem.readRamGuest (g.readVal addr) 512 with
    | none => rfl
    | some buf => rfl
  | false =>
    rw [if_neg Bool.false_ne_true, hstore]
    cases g.mem.writeRamGuest (g.readVal addr) (fxImage g.ext) with
    | none => rfl
    | some mem => rfl

variable [WritableMem M] {x : Ext} {m : M}

theorem fxsave_fxrstor (h : WritableMem.writable m addr 512) :
    (execFxstate x m addr false).1 = none ∧ (execFxstate x m addr false).2.1 = x ∧
      ∀ y, execFxstate y (execFxstate x m addr false).2.2 addr true =
        (none, fxRestore y (fxImage x), (execFxstate x m addr false).2.2) := by
  rw [← length_fxImage x] at h
  have hsave : execFxstate x m addr false = (none, x, (FpMem.store m addr (fxImage x)).1) := by
    exact if_pos (WritableMem.taken h)
  have hload := WritableMem.kept h
  rw [length_fxImage] at hload
  rw [hsave]
  refine ⟨rfl, rfl, ?_⟩
  intro y
  unfold execFxstate
  rw [if_pos rfl]
  rw [hload]

theorem fnstenv_fldenv (H : Host) (sti sti' : U8)
    (h : WritableMem.writable s.mem addr 28) : (execX87 H .fnstenv addr sti s).1 = none ∧
      ∀ u, execX87 H .fldenv addr sti' ((execX87 H .fnstenv addr sti s).2.setFpu u) =
        (none, (execX87 H .fnstenv addr sti s).2.setFpu (u.loadEnv28 s.cpu.fpu.env28)) := by
  rw [← length_env28 s.cpu.fpu] at h
  have hstore : execX87 H .fnstenv addr sti s = (none,
      ⟨{ s.cpu with fpu := { s.cpu.fpu with cw := s.cpu.fpu.cw ||| 0x3f } },
        (FpMem.store s.mem addr s.cpu.fpu.env28).1⟩) := if_pos (WritableMem.taken h)
  have hload := WritableMem.kept h
  rw [length_env28] at hload
  rw [hstore]
  refine ⟨rfl, ?_⟩
  intro u
  change Arm.run addr _ (.load 28 fun b => modify fun u => u.loadEnv28 b) = _
  unfold Arm.run X87State.setFpu
  dsimp only
  rw [hload]
  rfl

/-- What was saved is restored over whatever has been there since, for every state and top. -/
theorem images_restored (H : Host) (sti sti' : U8) (addr : U64) :
    (∀ (x : Ext) (m : M), WritableMem.writable m addr 512 →
      (execFxstate x m addr false).1 = none ∧ (execFxstate x m addr false).2.1 = x ∧
      ∀ y, (execFxstate y (execFxstate x m addr false).2.2 addr true).1 = none ∧
        Restored x (execFxstate y (execFxstate x m addr false).2.2 addr true).2.1) ∧
    ∀ s : X87State M, WritableMem.writable s.mem addr 28 →
      (execX87 H .fnstenv addr sti s).1 = none ∧
      ∀ u, (execX87 H .fldenv addr sti' ((execX87 H .fnstenv addr sti s).2.setFpu u)).1 = none ∧
        EnvRestored s.cpu.fpu (execX87 H .fldenv addr sti'
            ((execX87 H .fnstenv addr sti s).2.setFpu u)).2.cpu.fpu := by
  constructor
  · intro x m hm
    obtain ⟨hfault, hsame, hrestore⟩ := fxsave_fxrstor hm
    refine ⟨hfault, hsame, ?_⟩
    intro y
    rw [hrestore]
    exact ⟨rfl, fxRestore_fxImage x y⟩
  · intro s hs
    obtain ⟨hfault, hload⟩ := fnstenv_fldenv H sti sti' hs
    refine ⟨hfault, ?_⟩
    intro u
    rw [hload]
    exact ⟨rfl, loadEnv28_env28 s.cpu.fpu u⟩

def rawPage : RawFpMem := ⟨fun _ => 0, 0x1000, 0⟩

def extWith (cw : U16) : Ext :=
  { vec := ⟨fun _ => 0, fun _ => 0, fun _ => (0, 0), fun _ => 0⟩
    fpu := { Fpu.reset with cw, top := 3 }
    features := fun _ => false
    mmioParts := ⟨0, []⟩ }

def resetOnPage : X87State RawFpMem := ⟨resetState.cpu, rawPage⟩

theorem rawPage_writable : WritableMem.writable rawPage 0x40 512 ∧
    WritableMem.writable rawPage 0x40 28 := by
  change (rawPage.off 0x40 512).isSome = true ∧ (rawPage.off 0x40 28).isSome = true
  decide +kernel

theorem images_restored_at :
    WritableMem.writable rawPage 0x40 512 ∧ WritableMem.writable rawPage 0x40 28 ∧
      Restored (extWith 0x037f)
        (execFxstate (extWith 0) (execFxstate (extWith 0x037f) rawPage 0x40 false).2.2 0x40
          true).2.1 ∧ EnvRestored Fpu.reset (execX87 blankHost .fldenv 0x40 0
          ((execX87 blankHost .fnstenv 0x40 0 resetOnPage).2.setFpu (extWith 0).fpu)).2.cpu.fpu := by
  obtain ⟨h512, h28⟩ := rawPage_writable
  obtain ⟨hfx, henv⟩ := images_restored (M := RawFpMem) blankHost 0 0 0x40
  refine ⟨h512, h28, ?_, ?_⟩
  · exact ((hfx (extWith 0x037f) rawPage h512).2.2 (extWith 0)).2
  · exact ((henv resetOnPage h28).2 (extWith 0).fpu).2

/-- A control word that no load would leave is not restored: zero comes back with bit 6 set. -/
theorem zero_control_word_restored : WritableMem.writable rawPage 0x40 512 ∧
      (execFxstate (extWith 0) rawPage 0x40 false).1 = none ∧
      (execFxstate (extWith 0) (execFxstate (extWith 0) rawPage 0x40 false).2.2 0x40 true).1 =
        none ∧ (execFxstate (extWith 0) (execFxstate (extWith 0) rawPage 0x40 false).2.2 0x40
        true).2.1.fpu.cw = 0x0040 ∧ (extWith 0).fpu.cw = 0 := by
  obtain ⟨h512, -⟩ := rawPage_writable
  obtain ⟨hfault, -, hrestore⟩ := fxsave_fxrstor h512
  have hcw : normalizeCw (extWith 0).fpu.cw = 0x0040 := rfl
  refine ⟨h512, hfault, ?_, ?_, rfl⟩
  · rw [hrestore]
  · rw [hrestore, ← hcw]
    exact (fxRestore_fxImage (extWith 0) (extWith 0)).words.cw

theorem romRegions_le : ∀ r ∈ [Region.mk 0 0x1000 .rom], r.stop ≤ 0x10000 := by decide

/-- A save to ROM succeeds, and the restore takes the zeros that are there. -/
theorem rom_image_not_restored :
    let saved := execFxstate (extWith 0x037f) (Memory.small _ romRegions_le fun _ => 0) 0x40 false
    let restored := execFxstate (extWith 0) saved.2.2 0x40 true
    saved.1 = none ∧ restored.1 = none ∧ restored.2.1.fpu.cw = 0x0040 := by
  decide +kernel

/-- Whatever x87 program ran on a regular unit, an image saved after it gives back its registers,
tags and words, over whatever another program has left. -/
theorem run_saved_exactly (H : Host) (ops : List (FpuKind × U64 × U8)) (x y : Ext)
    (hs : s.cpu.fpu.Regular) (hx : x.fpu = (runX87 H s ops).cpu.fpu)
    (hm : WritableMem.writable m addr 512) :
    let u := (execFxstate y (execFxstate x m addr false).2.2 addr true).2.1.fpu
    u.Regular ∧ u.fpr = x.fpu.fpr ∧ u.empty = x.fpu.empty ∧ u.top = x.fpu.top ∧
      u.sw = x.fpu.sw ∧ u.cw = x.fpu.cw := by
  have hregular : x.fpu.Regular := hx ▸ runX87_regular H ops hs
  have hback := fxRestore_fxImage x y
  intro u
  have hu : u = (fxRestore y (fxImage x)).fpu :=
    congrArg (fun r => r.2.1.fpu) ((fxsave_fxrstor hm).2.2 y)
  rw [hu]
  exact ⟨fxRestore_regular y _, hback.fpr, hback.words.empty, hback.words.exact hregular⟩

theorem run_saved_exactly_fld1 :
    let x := { extWith 0 with
      fpu := (runX87 blankHost resetOnPage [(.fld1, 0, 0), (.fld1, 0, 0)]).cpu.fpu }
    let u := (execFxstate (extWith 0) (execFxstate x rawPage 0x40 false).2.2 0x40 true).2.1.fpu
    (x.fpu.top, x.fpu.empty) = (6, 0x3f) ∧ u.Regular ∧ u.fpr = x.fpu.fpr ∧
      u.empty = x.fpu.empty ∧ u.top = x.fpu.top ∧ u.sw = x.fpu.sw ∧ u.cw = x.fpu.cw :=
  ⟨by decide +kernel, run_saved_exactly blankHost _ _ (extWith 0) (init_regular Fpu.reset) rfl
    rawPage_writable.1⟩

end X86Jit
