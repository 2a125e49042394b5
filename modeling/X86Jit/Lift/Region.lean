import X86Jit.Lib.Search
import X86Jit.Lift.Block

/-! Superblock regions: the blocks a depth-first search finds from an entry along static edges, in
reverse post-order. -/
namespace X86Jit.Lift
open X86Jit.Lib List

structure RegionCaps where
  maxBlocks : ℕ
  maxIcount : ℕ
  deriving DecidableEq, Repr

structure IrRegion (X : Type) where
  entry : U64
  blocks : List (OpBlock X)
  hasLoop : Bool

variable {X : Type}

def icount (b : OpBlock X) : ℕ :=
  b.ops.countP fun op =>
    match op with
    | .plain (.insnStart _) => true
    | _ => false

def staticSuccs (b : OpBlock X) : List U64 :=
  match b.ops.getLast? with
  | some (.plain (.jump (.imm t))) => [t]
  | some (.branch _ taken fallthrough) => [taken, fallthrough]
  | _ => []

def starts (blocks : List (OpBlock X)) : List U64 := blocks.map OpBlock.guestStart

def regionIndex (ordered : List (OpBlock X)) (a : U64) : Option ℕ :=
  (starts ordered).zipIdx.reverse.lookup a

/-- Whether some static successor is in the region at an equal or earlier index. -/
def hasBackEdge (ordered : List (OpBlock X)) : Bool :=
  ordered.zipIdx.any fun p =>
    (staticSuccs p.1).any fun a => (regionIndex ordered a).any fun j => decide (j ≤ p.2)

namespace IrRegion

def Edge (r : IrRegion X) (a b : U64) : Prop :=
  ∃ x ∈ r.blocks, x.guestStart = a ∧ b ∈ staticSuccs x ∧ b ∈ starts r.blocks

end IrRegion

variable {Y : Type} (L : Lifter Y) (mode : CpuMode) (mem : Memory)

def regionFull (caps : RegionCaps) (k icount : ℕ) : Bool :=
  decide (caps.maxBlocks ≤ k) || decide (caps.maxIcount ≤ icount)

theorem regionFull_of_le {caps : RegionCaps} {k : ℕ} (n : ℕ) (hk : caps.maxBlocks ≤ k) :
    regionFull caps k n = true := by
  unfold regionFull
  rw [decide_eq_true hk, Bool.true_or]

/-- Blocks and static edges, as far as they can be lifted. The instructions are counted in 32 bits.
-/
def blockGraph (caps : RegionCaps) : Explorer U64 (OpBlock (OtherOp Y)) ℕ where
  look a := (liftBlock L mode mem (.flat a.toNat)).toOption
  succs := staticSuccs
  add n b := (n + icount b) % 2 ^ 32
  full := regionFull caps
  limit := caps.maxBlocks
  full_of_limit := regionFull_of_le

def searchRegion (caps : RegionCaps) (fuel : ℕ) (entry : U64) (first : OpBlock (OtherOp Y)) :
    Option (Search U64 (OpBlock (OtherOp Y)) ℕ) :=
  (blockGraph L mode mem caps).dfs fuel entry (.start entry first (icount first))

/-- An entry that cannot be lifted is an error; there is no region when the fuel of the search runs
out. -/
def liftRegion (entry : U64) (caps : RegionCaps) (fuel : ℕ) :
    Except LiftError (Option (IrRegion (OtherOp Y))) :=
  (liftBlock L mode mem (.flat entry.toNat)).map fun first =>
    (searchRegion L mode mem caps fuel entry first).bind fun s =>
      (takeAll (Explorer.order s) s.found).map fun ordered =>
        { entry, blocks := ordered, hasLoop := hasBackEdge ordered }

def regionTree (entry : U64) (caps : RegionCaps) : List (U64 × U64) :=
  ((liftBlock L mode mem (.flat entry.toNat)).toOption.bind fun first =>
    searchRegion L mode mem caps caps.maxBlocks entry first).elim [] Search.tree

variable {a : U64} {ordered : List (OpBlock X)}

theorem regionIndex_eq_some_iff (hnodup : (starts ordered).Nodup) {j : ℕ} :
    regionIndex ordered a = some j ↔ (starts ordered)[j]? = some a := by
  have hmem (i : ℕ) (h : regionIndex ordered a = some i) : (starts ordered)[i]? = some a := by
    obtain ⟨l₁, l₂, hl, -⟩ := lookup_eq_some_iff.mp h
    have hin : (a, i) ∈ (starts ordered).zipIdx := by
      rw [← mem_reverse, hl]
      exact mem_append_right _ mem_cons_self
    exact mem_zipIdx_iff_getElem?.mp hin
  constructor
  · exact hmem j
  · intro hj
    cases hi : regionIndex ordered a with
    | some i =>
      obtain ⟨hlt, -⟩ := List.getElem?_eq_some_iff.mp (hmem i hi)
      exact congrArg some ((List.getElem?_inj hlt hnodup).mp ((hmem i hi).trans hj.symm))
    | none =>
      -- the map was filled with every address
      have hin : (a, j) ∈ (starts ordered).zipIdx.reverse :=
        mem_reverse.mpr (mem_zipIdx_iff_getElem?.mpr hj)
      have hout := lookup_eq_none_iff.mp hi (a, j) hin
      exact absurd rfl (bne_iff_ne.mp hout)

theorem hasBackEdge_iff (hnodup : (starts ordered).Nodup) : hasBackEdge ordered = true ↔
    ∃ (i : ℕ) (x : OpBlock X), ordered[i]? = some x ∧ ∃ a ∈ staticSuccs x,
      ∃ j : ℕ, (starts ordered)[j]? = some a ∧ j ≤ i := by
  have hany (a : U64) (i : ℕ) : ((regionIndex ordered a).any fun j => decide (j ≤ i)) = true ↔
      ∃ j : ℕ, (starts ordered)[j]? = some a ∧ j ≤ i := by
    rw [Option.any_eq_true]
    simp only [regionIndex_eq_some_iff hnodup, decide_eq_true_eq]
  unfold hasBackEdge
  simp only [any_eq_true, hany]
  constructor
  · rintro ⟨⟨x, i⟩, hmem, hback⟩
    exact ⟨i, x, mem_zipIdx_iff_getElem?.mp hmem, hback⟩
  · rintro ⟨i, x, hi, hback⟩
    exact ⟨(x, i), mem_zipIdx_iff_getElem?.mpr hi, hback⟩

section Formed
variable {L : Lifter Y} {mode : CpuMode} {mem : Memory} {entry : U64} {caps : RegionCaps}

theorem guestStart_of_liftBlock {b : OpBlock (OtherOp Y)}
    (h : liftBlock L mode mem (.flat a.toNat) = .ok b) : b.guestStart = a := by
  unfold liftBlock at h
  split at h
  · cases h
  · simp only [Except.map] at h
    split at h
    · cases h
    · cases h
      exact (BitVec.ofNat_toNat 64 a).trans (BitVec.setWidth_eq a)

theorem look_eq_some_iff {b : OpBlock (OtherOp Y)} : (blockGraph L mode mem caps).look a = some b ↔
      liftBlock L mode mem (.flat a.toNat) = .ok b := by
  show (liftBlock L mode mem (.flat a.toNat)).toOption = some b ↔ _
  cases liftBlock L mode mem (.flat a.toNat) with
  | error e => exact iff_of_false nofun nofun
  | ok c => exact ⟨fun h => by cases h; rfl, fun h => by cases h; rfl⟩

/-- What a region from `entry` is, with the depth-first tree of its blocks. -/
structure IrRegion.Formed (L : Lifter Y) (mode : CpuMode) (mem : Memory) (entry : U64)
    (caps : RegionCaps) (tree : List (U64 × U64)) (r : IrRegion (OtherOp Y)) : Prop where
  entry_eq : r.entry = entry
  lifted : ∀ b ∈ r.blocks, liftBlock L mode mem (.flat b.guestStart.toNat) = .ok b
  distinct : (starts r.blocks).Nodup
  first : (starts r.blocks).head? = some entry
  capped : r.blocks.length ≤ caps.maxBlocks
  reachable : ∀ b ∈ r.blocks, Relation.ReflTransGen r.Edge entry b.guestStart
  spanning : ∀ {a}, a ∈ starts r.blocks ↔ a ∈ treeNodes entry tree
  grown : Grown entry tree
  forward : ∀ {i j : ℕ} {x y : OpBlock (OtherOp Y)}, r.blocks[i]? = some x → r.blocks[j]? = some y →
    y.guestStart ∈ staticSuccs x → (i < j ↔ ¬ Ancestor tree y.guestStart x.guestStart)
  loops : r.hasLoop = true ↔ ∃ a, Relation.TransGen r.Edge a a

structure TakenOut (s : Search U64 (OpBlock (OtherOp Y)) ℕ) (blocks : List (OpBlock (OtherOp Y))) :
    Prop where
  starts_eq : starts blocks = Explorer.order s
  lookup : ∀ x ∈ blocks, s.found.lookup x.guestStart = some x

section Finished
variable {s : Search U64 (OpBlock (OtherOp Y)) ℕ} {blocks : List (OpBlock (OtherOp Y))}
  (hinv : (blockGraph L mode mem caps).Inv entry [] s)
include hinv

theorem exists_takenOut : ∃ blocks, takeAll (Explorer.order s) s.found = some blocks ∧
    TakenOut s blocks := by
  obtain ⟨blocks, htake, hall⟩ := takeAll_spec hinv.nodup_order fun a ha => hinv.mem_order.mp ha
  have hstart (a : U64) (b : OpBlock (OtherOp Y)) (h : s.found.lookup a = some b) :
      b.guestStart = a :=
    guestStart_of_liftBlock (look_eq_some_iff.mp (hinv.held h))
  have hboth (l : List U64) (bs : List (OpBlock (OtherOp Y)))
      (hl : List.Forall₂ (fun a b => s.found.lookup a = some b) l bs) :
      starts bs = l ∧ ∀ x ∈ bs, s.found.lookup x.guestStart = some x := by
    induction hl with
    | nil => exact ⟨rfl, fun x hx => absurd hx not_mem_nil⟩
    | cons h _ ih =>
      exact ⟨congrArg₂ cons (hstart _ _ h) ih.1,
        forall_mem_cons.mpr ⟨(hstart _ _ h).symm ▸ h, ih.2⟩⟩
  exact ⟨blocks, htake, (hboth _ _ hall).1, (hboth _ _ hall).2⟩

theorem mem_starts (hord : TakenOut s blocks) : a ∈ starts blocks ↔ a ∈ s.found := by
  rw [hord.starts_eq, hinv.mem_order]

theorem edge_iff_inside (hord : TakenOut s blocks) (loop : Bool) (a b : U64) :
    IrRegion.Edge ⟨entry, blocks, loop⟩ a b ↔ (blockGraph L mode mem caps).Inside s a b := by
  constructor
  · rintro ⟨x, hx, rfl, hsucc, hb⟩
    have hlook := hinv.held (hord.lookup x hx)
    exact ⟨(mem_starts hinv hord).mp (mem_map_of_mem hx), (mem_starts hinv hord).mp hb,
      x, hlook, hsucc⟩
  · rintro ⟨ha, hb, x, hlook, hsucc⟩
    obtain ⟨y, hy, rfl⟩ := mem_map.mp ((mem_starts hinv hord).mpr ha)
    cases hlook.symm.trans (hinv.held (hord.lookup y hy))
    exact ⟨x, hy, rfl, hsucc, (mem_starts hinv hord).mpr hb⟩

theorem idxOf_eq (hord : TakenOut s blocks) {i : ℕ} (hi : (starts blocks)[i]? = some a) :
    (Explorer.order s).idxOf a = i := by
  rw [hord.starts_eq] at hi
  obtain ⟨hlt, rfl⟩ := List.getElem?_eq_some_iff.mp hi
  exact hinv.nodup_order.idxOf_getElem i hlt

theorem hasBackEdge_iff_cycle (hord : TakenOut s blocks) : hasBackEdge blocks = true ↔
    ∃ a, Relation.TransGen ((blockGraph L mode mem caps).Inside s) a a := by
  have hnodup : (starts blocks).Nodup := hord.starts_eq ▸ hinv.nodup_order
  rw [hasBackEdge_iff hnodup, hinv.cycle_iff]
  constructor
  · rintro ⟨i, x, hi, b, hsucc, j, hj, hle⟩
    have hx : x ∈ blocks := mem_of_getElem? hi
    have hstart : (starts blocks)[i]? = some x.guestStart := by
      rw [starts, List.getElem?_map, hi, Option.map_some]
    refine ⟨x.guestStart, b, ?_, ?_⟩
    · exact (edge_iff_inside hinv hord false _ _).mp ⟨x, hx, rfl, hsucc, mem_of_getElem? hj⟩
    · rw [idxOf_eq hinv hord hj, idxOf_eq hinv hord hstart]
      exact hle
  · rintro ⟨a, b, hab, hle⟩
    obtain ⟨x, hx, rfl, hsucc, hb⟩ := (edge_iff_inside hinv hord false a b).mpr hab
    obtain ⟨i, hi⟩ := mem_iff_getElem?.mp hx
    obtain ⟨j, hj⟩ := mem_iff_getElem?.mp hb
    have hstart : (starts blocks)[i]? = some x.guestStart := by
      rw [starts, List.getElem?_map, hi, Option.map_some]
    rw [idxOf_eq hinv hord hj, idxOf_eq hinv hord hstart] at hle
    exact ⟨i, x, hi, b, hsucc, j, hj, hle⟩

theorem formed_of_inv (hord : TakenOut s blocks) (hlast : s.post.getLast? = some entry) :
    IrRegion.Formed L mode mem entry caps s.tree ⟨entry, blocks, hasBackEdge blocks⟩ := by
  have hedge : IrRegion.Edge ⟨entry, blocks, hasBackEdge blocks⟩ =
      (blockGraph L mode mem caps).Inside s :=
    funext fun a => funext fun b => propext (edge_iff_inside hinv hord _ a b)
  have hstart {i : ℕ} {x : OpBlock (OtherOp Y)} (hi : blocks[i]? = some x) :
      (starts blocks)[i]? = some x.guestStart := by
    rw [starts, List.getElem?_map, hi, Option.map_some]
  refine
    { entry_eq := rfl
      lifted := fun b hb => look_eq_some_iff.mp (hinv.held (hord.lookup b hb))
      distinct := hord.starts_eq ▸ hinv.nodup_order
      first := ?_
      capped := ?_
      reachable := ?_
      spanning := (mem_starts hinv hord).trans hinv.nodes
      grown := hinv.grown
      forward := ?_
      loops := ?_ }
  · show (starts blocks).head? = some entry
    rw [hord.starts_eq, Explorer.order, head?_reverse, hlast]
  · calc
      blocks.length = (starts blocks).length := (length_map _).symm
      _ = s.size := by rw [hord.starts_eq, hinv.length_order]
      _ ≤ caps.maxBlocks := hinv.room
  · intro b hb
    rw [hedge]
    exact hinv.reachable ((mem_starts hinv hord).mp (mem_map_of_mem hb))
  · intro i j x y hi hj hsucc
    have hx : x ∈ blocks := mem_of_getElem? hi
    have hy : y ∈ blocks := mem_of_getElem? hj
    have hin := (edge_iff_inside hinv hord false _ _).mp
      ⟨x, hx, rfl, hsucc, mem_map_of_mem hy⟩
    rw [← hinv.idxOf_lt_iff hin, idxOf_eq hinv hord (hstart hi), idxOf_eq hinv hord (hstart hj)]
  · rw [hedge]
    exact hasBackEdge_iff_cycle hinv hord

end Finished

/-- If the entry can be lifted and the caps leave room for it, the search ends and the region is
what it should be. -/
theorem region_formed (L : Lifter Y) (mode : CpuMode) (mem : Memory) (entry : U64)
    (caps : RegionCaps) (hcaps : 1 ≤ caps.maxBlocks) {first : OpBlock (OtherOp Y)}
    (hfirst : liftBlock L mode mem (.flat entry.toNat) = .ok first) :
    ∃ r, (∀ fuel, caps.maxBlocks ≤ fuel → liftRegion L mode mem entry caps fuel = .ok (some r)) ∧
      r.Formed L mode mem entry caps (regionTree L mode mem entry caps) := by
  obtain ⟨s, hsearch, hinv, hlast⟩ := Explorer.search_spec (E := blockGraph L mode mem caps)
    (w := icount first) (look_eq_some_iff.mpr hfirst) hcaps
  obtain ⟨blocks, htake, hord⟩ := exists_takenOut hinv
  have htree : regionTree L mode mem entry caps = s.tree := by
    have hs : searchRegion L mode mem caps caps.maxBlocks entry first = some s :=
      hsearch _ le_rfl
    unfold regionTree
    rw [hfirst]
    show Option.elim (searchRegion L mode mem caps caps.maxBlocks entry first) _ _ = _
    rw [hs, Option.elim_some]
  refine ⟨⟨entry, blocks, hasBackEdge blocks⟩, ?_, ?_⟩
  · intro fuel hfuel
    have hs : searchRegion L mode mem caps fuel entry first = some s := hsearch fuel hfuel
    rw [liftRegion, hfirst]
    apply congrArg Except.ok
    beta_reduce
    rw [hs, Option.bind_some, htake, Option.map_some]
  · rw [htree]
    exact formed_of_inv hinv hord hlast

def jmpShort (ip : U64) (rel : U8) (codeSize : CodeSize) : Insn :=
  { ip, len := 2, codeSize, mnemonic := .jmp
    operands := [.nearBranch (ip + 2 + rel.signExtend 64)] }

/-- The decoder on the opcode `eb`. -/
def jmpDecoder : Decoder where
  decode mode code ip :=
    match code with
    | 0xeb :: rel :: _ => .insn (jmpShort ip rel (codeSizeOf mode))
    | _ => .invalid .invalidInstruction 1
  reports := by
    intro mode code ip insn h
    split at h
    · cases h
      exact ⟨rfl, Nat.two_pos, Nat.le_add_left 2 _, rfl⟩
    · cases h

def jmpLifter : Lifter Empty := ⟨jmpDecoder, fun _ _ => unsupportedInsn, false⟩

theorem jmpSpan_le : 0x4000 ≤ maxTrackedSpan := by decide

theorem jmpRegions_le : ∀ r ∈ [Region.mk 0x1000 4 .ram], r.stop ≤ 0x4000 := by decide

def jmpMemory : Memory :=
  { Memory.fresh 0x4000 0 jmpSpan_le with
    regions := [⟨0x1000, 4, .ram⟩]
    regions_le := jmpRegions_le
    bytes := fun a => [0xeb, 0x00, 0xeb, 0xfc].getD (a - 0x1000) 0 }

def jmpBlock : OpBlock (OtherOp Empty) :=
  ⟨0x1000, 2, [.plain (.insnStart 0x1000), .plain (.jump (.imm 0x1002))]⟩

theorem jumps_form_region : liftBlock jmpLifter .long64 jmpMemory (.flat 0x1000) = .ok jmpBlock ∧
    ∃ r, (∀ fuel, 2 ≤ fuel →
        liftRegion jmpLifter .long64 jmpMemory 0x1000 ⟨2, 10⟩ fuel = .ok (some r)) ∧
      r.Formed jmpLifter .long64 jmpMemory 0x1000 ⟨2, 10⟩ [(0x1000, 0x1002)] := by
  have hfirst : liftBlock jmpLifter .long64 jmpMemory ⟨0x1000, 0x1000⟩ = .ok jmpBlock := rfl
  have htree : regionTree jmpLifter .long64 jmpMemory 0x1000 ⟨2, 10⟩ = [(0x1000, 0x1002)] := by
    decide +kernel
  refine ⟨hfirst, ?_⟩
  rw [← htree]
  exact region_formed jmpLifter .long64 jmpMemory 0x1000 ⟨2, 10⟩ (Nat.le_succ 1) hfirst

end Formed

end X86Jit.Lift
