import Mathlib.Data.List.AList
import Mathlib.Data.List.Nodup
import Mathlib.Logic.Relation

/-! A depth-first search over a graph it finds out about as it goes. Every edge between two nodes
of the search leads to a node finished earlier or back to an ancestor in the tree. -/
namespace X86Jit.Lib
open List AList Option

section Trees
variable {α : Type}

def Ancestor (tree : List (α × α)) : α → α → Prop :=
  Relation.ReflTransGen fun a b => (a, b) ∈ tree

def treeNodes (root : α) (tree : List (α × α)) : List α := root :: tree.map Prod.snd

/-- Each edge, the newest first, leads from a node of the tree to a node that was not in it. -/
inductive Grown (root : α) : List (α × α) → Prop
  | nil : Grown root []
  | cons {u v : α} {tree : List (α × α)} (hrest : Grown root tree)
      (hparent : u ∈ treeNodes root tree) (hfresh : v ∉ treeNodes root tree) :
      Grown root ((u, v) :: tree)

theorem Ancestor.mono {tree tree' : List (α × α)} {a b : α} (h : Ancestor tree a b)
    (hsub : tree ⊆ tree') : Ancestor tree' a b :=
  Relation.ReflTransGen.mono (fun _ _ he => hsub he) _ _ h

theorem mem_treeNodes_cons {root u v a : α} {tree : List (α × α)} :
    a ∈ treeNodes root ((u, v) :: tree) ↔ a = v ∨ a ∈ treeNodes root tree := by
  simp only [treeNodes, map_cons, mem_cons]
  tauto

namespace Grown
variable {root : α} {tree : List (α × α)}

theorem parent_mem (h : Grown root tree) {a b : α} (hab : (a, b) ∈ tree) :
    a ∈ treeNodes root tree := by
  induction h with
  | nil => cases hab
  | cons hrest hparent hfresh ih =>
    apply mem_treeNodes_cons.mpr
    right
    rcases mem_cons.mp hab with heq | hold
    · cases heq
      exact hparent
    · exact ih hold

theorem child_mem {a b : α} (hab : (a, b) ∈ tree) : b ∈ treeNodes root tree :=
  mem_cons_of_mem _ (mem_map_of_mem hab)

theorem reach (h : Grown root tree) {a : α} (ha : a ∈ treeNodes root tree) :
    Ancestor tree root a := by
  induction h generalizing a with
  | nil =>
    rw [mem_singleton.mp ha]
    exact .refl
  | cons hrest hparent hfresh ih =>
    rcases mem_treeNodes_cons.mp ha with rfl | hold
    · exact ((ih hparent).mono (subset_cons_self _ _)).tail mem_cons_self
    · exact (ih hold).mono (subset_cons_self _ _)

/-- The newest node is a leaf: a way through the tree avoids it or ends there. -/
theorem ancestor_cons {u v : α} (hrest : Grown root tree) (hfresh : v ∉ treeNodes root tree)
    {a b : α} (h : Ancestor ((u, v) :: tree) a b) : Ancestor tree a b ∨ b = v := by
  induction h with
  | refl => exact .inl .refl
  | tail _ hstep ih =>
    rcases mem_cons.mp hstep with heq | hold
    · cases heq
      exact .inr rfl
    · rcases ih with hanc | rfl
      · exact .inl (hanc.tail hold)
      · exact absurd (hrest.parent_mem hold) hfresh

theorem not_ancestor_parent (h : Grown root tree) {a b : α} (hab : (a, b) ∈ tree) :
    ¬ Ancestor tree b a := by
  induction h with
  | nil => cases hab
  | @cons u v tree hrest hparent hfresh ih =>
    intro hanc
    have huv : u ≠ v := fun h => hfresh (h ▸ hparent)
    rcases mem_cons.mp hab with heq | hold
    · cases heq
      rcases ancestor_cons hrest hfresh hanc with hold | hend
      · -- a way that starts in the newest node would need it in the older tree
        rcases Relation.ReflTransGen.cases_head hold with heq | ⟨c, hstep, -⟩
        · exact huv heq.symm
        · exact hfresh (hrest.parent_mem hstep)
      · exact huv hend
    · rcases ancestor_cons hrest hfresh hanc with hanc | hend
      · exact ih hold hanc
      · exact hfresh (hend ▸ hrest.parent_mem hold)

end Grown
end Trees

/-- What is found at a node, the nodes that names, and when the search takes in no more. `limit`
bounds the number of nodes. -/
structure Explorer (α β ω : Type) where
  look : α → Option β
  succs : β → List α
  add : ω → β → ω
  full : ℕ → ω → Bool
  limit : ℕ
  full_of_limit : ∀ {k : ℕ} (w : ω), limit ≤ k → full k w = true

/-- The nodes found, the nodes finished in that order, a total of what was found, and the edges
along which nodes were found. -/
structure Search (α β ω : Type) where
  found : AList fun _ : α => β
  post : List α
  total : ω
  tree : List (α × α)

namespace Search
variable {α β ω : Type} [DecidableEq α]

def start (a : α) (b : β) (w : ω) : Search α β ω := ⟨singleton a b, [], w, []⟩

def finish (s : Search α β ω) (u : α) : Search α β ω := { s with post := s.post ++ [u] }

def size (s : Search α β ω) : ℕ := s.found.keys.length

end Search

namespace Explorer
variable {α β ω : Type} [DecidableEq α] (E : Explorer α β ω)

def enter (s : Search α β ω) (u v : α) (b : β) : Search α β ω :=
  { s with
    found := s.found.insert v b
    total := E.add s.total b
    tree := (u, v) :: s.tree }

def follow (visit : α → Search α β ω → Option (Search α β ω)) (u : α) (s : Search α β ω) (v : α) :
    Option (Search α β ω) :=
  if v ∈ s.found then some s
  else if E.full s.size s.total then some s
  else
    match E.look v with
    | none => some s
    | some b => visit v (E.enter s u v b)

/-- The search from a node already found. `fuel` bounds the depth, and there is no result when it
runs out. -/
def dfs : ℕ → α → Search α β ω → Option (Search α β ω)
  | 0, _, _ => none
  | fuel + 1, u, s =>
    (s.found.lookup u).bind fun b =>
      ((E.succs b).foldlM (E.follow (dfs fuel) u) s).map fun t => t.finish u

def Edge (u v : α) : Prop := ∃ b, E.look u = some b ∧ v ∈ E.succs b

/-- A node that the search leaves out: nothing is found there, or there is no room for it. -/
def Refuses (s : Search α β ω) (v : α) : Prop :=
  v ∉ s.found ∧ (E.full s.size s.total = true ∨ E.look v = none)

/-- What a search does with the remaining edges of a node, without a bound on its depth. -/
inductive Follows : α → List α → Search α β ω → Search α β ω → Prop
  | nil {u : α} {s : Search α β ω} : Follows u [] s s
  | skip {u v : α} {es : List α} {s s' : Search α β ω} (hskip : v ∈ s.found ∨ E.Refuses s v)
      (hrest : Follows u es s s') : Follows u (v :: es) s s'
  | enter {u v : α} {b : β} {es : List α} {s t s' : Search α β ω} (hnew : v ∉ s.found)
      (hroom : E.full s.size s.total = false) (hlook : E.look v = some b)
      (hinner : Follows v (E.succs b) (E.enter s u v b) t) (hrest : Follows u es (t.finish v) s') :
      Follows u (v :: es) s s'

variable {s t : Search α β ω} {u v : α} {fuel : ℕ} {b : β}

section Fuel

theorem size_enter (hnew : v ∉ s.found) : (E.enter s u v b).size = s.size + 1 := by
  have hkeys : v ∉ s.found.keys := fun h => hnew (AList.mem_keys.mpr h)
  simp only [Search.size, enter, keys_insert, erase_of_not_mem hkeys, length_cons]

theorem skip_or_enter (s : Search α β ω) (v : α) : (v ∈ s.found ∨ E.Refuses s v) ∨
    ∃ b, v ∉ s.found ∧ E.full s.size s.total = false ∧ E.look v = some b := by
  by_cases hold : v ∈ s.found
  · exact .inl (.inl hold)
  cases hfull : E.full s.size s.total with
  | true => exact .inl (.inr ⟨hold, .inl hfull⟩)
  | false =>
    cases hlook : E.look v with
    | none => exact .inl (.inr ⟨hold, .inr hlook⟩)
    | some b => exact .inr ⟨b, hold, rfl, rfl⟩

variable {E} in
theorem follow_of_skip (hskip : v ∈ s.found ∨ E.Refuses s v)
    (visit : α → Search α β ω → Option (Search α β ω)) (u : α) : E.follow visit u s v = some s := by
  unfold follow
  rcases hskip with hold | ⟨hnew, hfull | hnone⟩
  · rw [if_pos hold]
  · rw [if_neg hnew, if_pos hfull]
  · rw [if_neg hnew, hnone, ite_self]

variable {E} in
theorem follow_of_enter (hnew : v ∉ s.found)
    (hroom : E.full s.size s.total = false) (hlook : E.look v = some b)
    (visit : α → Search α β ω → Option (Search α β ω)) (u : α) :
    E.follow visit u s v = visit v (E.enter s u v b) := by
  unfold follow
  rw [if_neg hnew, hroom, if_neg Bool.false_ne_true, hlook]

theorem exists_dfs (hu : u ∈ s.found) (hsize : s.size ≤ E.limit) (hfuel : E.limit < fuel + s.size) :
    ∃ t, E.dfs fuel u s = some t ∧ s.size ≤ t.size ∧ t.size ≤ E.limit := by
  induction fuel generalizing u s with
  | zero => omega
  | succ fuel ih =>
    have hedges (es : List α) : ∀ s : Search α β ω, s.size ≤ E.limit →
        E.limit < fuel + 1 + s.size →
        ∃ t, es.foldlM (E.follow (E.dfs fuel) u) s = some t ∧ s.size ≤ t.size ∧
          t.size ≤ E.limit := by
      induction es with
      | nil => exact fun s hsize _ => ⟨s, rfl, le_rfl, hsize⟩
      | cons v es ihes =>
        intro s hsize hfuel
        rw [foldlM_cons]
        rcases E.skip_or_enter s v with hskip | ⟨b, hnew, hroom, hlook⟩
        · rw [follow_of_skip hskip]
          exact ihes s hsize hfuel
        · have hlt : s.size < E.limit := by
            by_contra hge
            rw [E.full_of_limit s.total (not_lt.mp hge)] at hroom
            cases hroom
          have hgrow := E.size_enter (u := u) (b := b) hnew
          obtain ⟨t, ht, hle, hlim⟩ := ih (s := E.enter s u v b)
            ((mem_insert _).mpr (.inl rfl)) (by omega) (by omega)
          obtain ⟨t', ht', hle', hlim'⟩ := ihes t hlim (by omega)
          refine ⟨t', ?_, by omega, hlim'⟩
          rw [follow_of_enter hnew hroom hlook, ht]
          exact ht'
    obtain ⟨b, hb⟩ := isSome_iff_exists.mp (lookup_isSome.mpr hu)
    obtain ⟨t, ht, hle, hlim⟩ := hedges (E.succs b) s hsize hfuel
    refine ⟨t.finish u, ?_, hle, hlim⟩
    rw [dfs, hb, bind_some, ht, map_some]

theorem foldlM_imp {ε σ : Type} {f g : σ → ε → Option σ}
    (himp : ∀ s a t, f s a = some t → g s a = some t) {l : List ε} {s t : σ}
    (h : l.foldlM f s = some t) : l.foldlM g s = some t := by
  induction l generalizing s with
  | nil => exact h
  | cons a l ih =>
    obtain ⟨r, hr, hrest⟩ := bind_eq_some_iff.mp h
    exact bind_eq_some_iff.mpr ⟨r, himp s a r hr, ih hrest⟩

theorem dfs_succ (h : E.dfs fuel u s = some t) : E.dfs (fuel + 1) u s = some t := by
  induction fuel generalizing u s t with
  | zero => cases h
  | succ fuel ih =>
    obtain ⟨b, hb, hmap⟩ := bind_eq_some_iff.mp h
    obtain ⟨r, hr, rfl⟩ := map_eq_some_iff.mp hmap
    apply bind_eq_some_iff.mpr
    refine ⟨b, hb, map_eq_some_iff.mpr ⟨r, foldlM_imp ?_ hr, rfl⟩⟩
    intro s v t hstep
    rcases E.skip_or_enter s v with hskip | ⟨c, hnew, hroom, hlook⟩
    · rw [follow_of_skip hskip] at hstep ⊢
      exact hstep
    · rw [follow_of_enter hnew hroom hlook] at hstep ⊢
      exact ih hstep

theorem dfs_of_le {fuel' : ℕ} (hle : fuel ≤ fuel')
    (h : E.dfs fuel u s = some t) : E.dfs fuel' u s = some t := by
  induction hle with
  | refl => exact h
  | step _ ih => exact E.dfs_succ ih

theorem follows_of_dfs (h : E.dfs fuel u s = some t) :
    ∃ b r, s.found.lookup u = some b ∧ E.Follows u (E.succs b) s r ∧ t = r.finish u := by
  induction fuel generalizing u s t with
  | zero => cases h
  | succ fuel ih =>
    have hedges (es : List α) : ∀ s r : Search α β ω,
        es.foldlM (E.follow (E.dfs fuel) u) s = some r → E.Follows u es s r := by
      induction es with
      | nil =>
        intro s r hr
        cases hr
        exact .nil
      | cons v es ihes =>
        intro s r hr
        obtain ⟨t, ht, hrest⟩ := bind_eq_some_iff.mp hr
        rcases E.skip_or_enter s v with hskip | ⟨b, hnew, hroom, hlook⟩
        · rw [follow_of_skip hskip] at ht
          cases ht
          exact .skip hskip (ihes s r hrest)
        · rw [follow_of_enter hnew hroom hlook] at ht
          obtain ⟨b', r', hb', hinner, rfl⟩ := ih ht
          cases hb'.symm.trans (lookup_insert s.found)
          exact .enter hnew hroom hlook hinner (ihes _ _ hrest)
    obtain ⟨b, hb, hmap⟩ := bind_eq_some_iff.mp h
    obtain ⟨r, hr, rfl⟩ := map_eq_some_iff.mp hmap
    exact ⟨b, r, hb, hedges _ _ _ hr, rfl⟩

end Fuel

section Invariant
variable {E} {root : α}

/-- What holds of a search from `root` whose open nodes are `path`, the innermost first. -/
structure Inv (E : Explorer α β ω) (root : α) (path : List α) (s : Search α β ω) : Prop where
  keys : s.found.keys.Perm (path ++ s.post)
  held : ∀ {a b}, s.found.lookup a = some b → E.look a = some b
  room : s.size ≤ E.limit
  chain : path.IsChain fun b a => (a, b) ∈ s.tree
  grown : Grown root s.tree
  nodes : ∀ {a}, a ∈ s.found ↔ a ∈ treeNodes root s.tree
  edges : ∀ {a b}, (a, b) ∈ s.tree → E.Edge a b
  done : ∀ {f v}, f ∈ s.post → E.Edge f v →
    E.Refuses s v ∨ [v, f].Sublist s.post ∨ Ancestor s.tree v f

structure Extends (E : Explorer α β ω) (s t : Search α β ω) : Prop where
  refuses : ∀ {v}, E.Refuses s v → E.Refuses t v
  lookup : ∀ {a b}, s.found.lookup a = some b → t.found.lookup a = some b
  post : s.post ⊆ t.post

def Handled (E : Explorer α β ω) (path : List α) (s : Search α β ω) (v : α) : Prop :=
  E.Refuses s v ∨ v ∈ s.post ∨ v ∈ path

namespace Extends
variable {s t r : Search α β ω}

theorem refl : Extends E s s := ⟨id, id, List.Subset.refl _⟩

theorem trans (hst : Extends E s t) (htr : Extends E t r) : Extends E s r :=
  ⟨fun h => htr.refuses (hst.refuses h), fun h => htr.lookup (hst.lookup h),
    List.Subset.trans hst.post htr.post⟩

theorem handled (h : Extends E s t) {path : List α} (hv : Handled E path s v) :
    Handled E path t v :=
  hv.imp h.refuses (Or.imp_left fun hpost => h.post hpost)

theorem finish : Extends E s (s.finish u) :=
  ⟨id, id, subset_append_left _ _⟩

/-- A node is taken in only while there is room, so what was refused until then holds nothing. -/
theorem enter (hnew : v ∉ s.found) (hroom : E.full s.size s.total = false)
    (hlook : E.look v = some b) : Extends E s (E.enter s u v b) where
  refuses := by
    rintro w ⟨hw, hfull | hnone⟩
    · rw [hroom] at hfull
      cases hfull
    · refine ⟨fun hmem => ?_, .inr hnone⟩
      rcases (mem_insert _).mp hmem with rfl | hold
      · rw [hlook] at hnone
        cases hnone
      · exact hw hold
  lookup := by
    intro a c ha
    have hne : a ≠ v := by
      rintro rfl
      rw [lookup_eq_none.mpr hnew] at ha
      cases ha
    exact (lookup_insert_ne hne).trans ha
  post := List.Subset.refl _

end Extends

namespace Inv
variable {path : List α} {s : Search α β ω}

theorem mem_found (h : Inv E root path s) {a : α} : a ∈ s.found ↔ a ∈ path ∨ a ∈ s.post := by
  rw [AList.mem_keys, h.keys.mem_iff, mem_append]

theorem ancestor_of_mem (h : Inv E root (u :: path) s) (hv : v ∈ u :: path) :
    Ancestor s.tree v u := by
  have hchain := h.chain
  clear h
  induction path generalizing u with
  | nil =>
    rw [mem_singleton.mp hv]
    exact .refl
  | cons w path ih =>
    rcases mem_cons.mp hv with rfl | hrest
    · exact .refl
    · rw [isChain_cons_cons] at hchain
      exact (ih hrest hchain.2).tail hchain.1

protected theorem start {b : β} {w : ω} (hlook : E.look root = some b) (hlimit : 0 < E.limit) :
    Inv E root [root] (Search.start root b w) where
  keys := .refl _
  held := by
    intro a c ha
    by_cases hroot : a = root
    · subst hroot
      cases ha.symm.trans (lookup_insert ∅)
      exact hlook
    · have hnone : (Search.start root b w).found.lookup a = none :=
        lookup_eq_none.mpr fun h => hroot (mem_singleton.mp h)
      cases ha.symm.trans hnone
  room := hlimit
  chain := .singleton _
  grown := .nil
  nodes := Iff.rfl
  edges := fun h => absurd h not_mem_nil
  done := fun h => absurd h not_mem_nil

protected theorem enter {u v : α} {b : β} (h : Inv E root (u :: path) s) (hedge : E.Edge u v)
    (hnew : v ∉ s.found) (hroom : E.full s.size s.total = false) (hlook : E.look v = some b) :
    Inv E root (v :: u :: path) (E.enter s u v b) where
  keys := by
    have hkeys : v ∉ s.found.keys := fun hmem => hnew (AList.mem_keys.mpr hmem)
    simp only [Explorer.enter, keys_insert, erase_of_not_mem hkeys]
    exact h.keys.cons v
  held := by
    intro a c ha
    by_cases hav : a = v
    · subst hav
      cases ha.symm.trans (lookup_insert s.found)
      exact hlook
    · exact h.held ((lookup_insert_ne hav).symm.trans ha)
  room := by
    rw [E.size_enter hnew]
    by_contra hge
    rw [E.full_of_limit s.total (Nat.le_of_lt_succ (not_le.mp hge))] at hroom
    cases hroom
  chain := by
    rw [isChain_cons_cons]
    exact ⟨mem_cons_self, h.chain.imp fun _ _ he => mem_cons_of_mem _ he⟩
  grown := by
    apply h.grown.cons
    · exact h.nodes.mp (h.mem_found.mpr (.inl mem_cons_self))
    · exact fun hv => hnew (h.nodes.mpr hv)
  nodes := by
    intro a
    show a ∈ s.found.insert v b ↔ a ∈ treeNodes root ((u, v) :: s.tree)
    rw [mem_insert, mem_treeNodes_cons, h.nodes]
  edges := by
    intro a c hmem
    rcases mem_cons.mp hmem with heq | hold
    · cases heq
      exact hedge
    · exact h.edges hold
  done := by
    intro f w hf hfw
    have hext : Extends E s (E.enter s u v b) := .enter hnew hroom hlook
    exact (h.done hf hfw).imp hext.refuses
      (Or.imp_right fun hanc => hanc.mono (subset_cons_self _ _))

protected theorem finish {u : α} (h : Inv E root (u :: path) s)
    (hall : ∀ {v}, E.Edge u v → Handled E (u :: path) s v) : Inv E root path (s.finish u) where
  keys := by
    apply h.keys.trans
    show (u :: (path ++ s.post)).Perm (path ++ (s.post ++ [u]))
    rw [← append_assoc]
    exact (perm_append_singleton u _).symm
  held := h.held
  room := h.room
  chain := h.chain.of_cons
  grown := h.grown
  nodes := h.nodes
  edges := h.edges
  done := by
    intro f v hf hfv
    rcases mem_append.mp hf with hold | hlast
    · exact (h.done hold hfv).imp_right
        (Or.imp_left fun hsub => hsub.trans (sublist_append_left _ _))
    · rw [mem_singleton.mp hlast] at hfv ⊢
      rcases hall hfv with hout | hpost | hopen
      · exact .inl hout
      · -- a node finished before this one
        exact .inr (.inl ((singleton_sublist.mpr hpost).append (List.Sublist.refl [u])))
      · exact .inr (.inr (h.ancestor_of_mem hopen))

end Inv

theorem Follows.inv {es : List α} {s' : Search α β ω} (h : E.Follows u es s s') :
    ∀ {path : List α}, Inv E root (u :: path) s → (∀ v ∈ es, E.Edge u v) →
      Inv E root (u :: path) s' ∧ Extends E s s' ∧ ∀ v ∈ es, Handled E (u :: path) s' v := by
  induction h with
  | nil => exact fun hinv _ => ⟨hinv, .refl, fun v hv => absurd hv not_mem_nil⟩
  | @skip u v es s s' hskip hrest ih =>
    intro path hinv hes
    obtain ⟨hinv', hext, hall⟩ := ih hinv fun w hw => hes w (mem_cons_of_mem _ hw)
    have hv : Handled E (u :: path) s v := by
      rcases hskip with hold | hout
      · exact .inr (hinv.mem_found.mp hold).symm
      · exact .inl hout
    exact ⟨hinv', hext, forall_mem_cons.mpr ⟨hext.handled hv, hall⟩⟩
  | @enter u v b es s t s' hnew hroom hlook hinner hrest ihinner ihrest =>
    intro path hinv hes
    have hin : Extends E s (E.enter s u v b) := .enter hnew hroom hlook
    have hentered := hinv.enter (hes v mem_cons_self) hnew hroom hlook
    obtain ⟨hinvt, hextt, hallt⟩ := ihinner hentered fun w hw => ⟨b, hlook, hw⟩
    -- the search of the new node is over: it is finished, and so is this edge
    have hfin : Inv E root (u :: path) (t.finish v) := by
      apply hinvt.finish
      rintro w ⟨c, hc, hw⟩
      cases hlook.symm.trans hc
      exact hallt w hw
    obtain ⟨hinv', hext, hall⟩ := ihrest hfin fun w hw => hes w (mem_cons_of_mem _ hw)
    have hv : Handled E (u :: path) (t.finish v) v :=
      .inr (.inl (mem_append_right _ (mem_singleton_self v)))
    exact ⟨hinv', (hin.trans hextt).trans (Extends.finish.trans hext),
      forall_mem_cons.mpr ⟨hext.handled hv, hall⟩⟩

/-- A whole search: it comes to an end, ends with the root, and keeps the invariant with no node
left open. -/
theorem search_spec {w : ω} (hlook : E.look root = some b) (hlimit : 0 < E.limit) :
    ∃ s, (∀ fuel, E.limit ≤ fuel → E.dfs fuel root (.start root b w) = some s) ∧
      Inv E root [] s ∧ s.post.getLast? = some root := by
  have hstart : Inv E root [root] (Search.start root b w) := .start hlook hlimit
  have hroot : (Search.start root b w).found.lookup root = some b := lookup_insert ∅
  have hmem : root ∈ (Search.start root b w).found := lookup_isSome.mp (by rw [hroot]; rfl)
  have hfuel : E.limit < E.limit + (Search.start root b w).size := Nat.lt_succ_self _
  obtain ⟨s, hs, -⟩ := E.exists_dfs hmem hstart.room hfuel
  refine ⟨s, fun fuel hle => E.dfs_of_le hle hs, ?_⟩
  obtain ⟨b', r, hb', hfollows, rfl⟩ := E.follows_of_dfs hs
  cases hroot.symm.trans hb'
  obtain ⟨hinv, -, hall⟩ := hfollows.inv hstart fun v hv => ⟨b, hlook, hv⟩
  constructor
  · apply hinv.finish
    rintro v ⟨c, hc, hv⟩
    cases hlook.symm.trans hc
    exact hall v hv
  · exact getLast?_concat

def Inside (E : Explorer α β ω) (s : Search α β ω) (a b : α) : Prop :=
  a ∈ s.found ∧ b ∈ s.found ∧ E.Edge a b

def order (s : Search α β ω) : List α := s.post.reverse

namespace Inv
variable {s : Search α β ω} (h : Inv E root [] s)
include h

theorem mem_order {a : α} : a ∈ order s ↔ a ∈ s.found := by
  rw [order, mem_reverse, h.mem_found, or_iff_right not_mem_nil]

theorem nodup_order : (order s).Nodup :=
  nodup_reverse.mpr (h.keys.nodup_iff.mp s.found.keys_nodup)

theorem length_order : (order s).length = s.size := by
  rw [order, length_reverse, Search.size, h.keys.length_eq, nil_append]

theorem inside_of_tree {a b : α} (hab : (a, b) ∈ s.tree) : E.Inside s a b :=
  ⟨h.nodes.mpr (h.grown.parent_mem hab), h.nodes.mpr (Grown.child_mem hab), h.edges hab⟩

theorem inside_of_ancestor {a b : α} (hab : Ancestor s.tree a b) :
    Relation.ReflTransGen (E.Inside s) a b :=
  Relation.ReflTransGen.mono (fun _ _ he => h.inside_of_tree he) _ _ hab

theorem reachable {a : α} (ha : a ∈ s.found) : Relation.ReflTransGen (E.Inside s) root a :=
  h.inside_of_ancestor (h.grown.reach (h.nodes.mp ha))

theorem idxOf_lt_of_sublist {a b : α} (hsub : [b, a].Sublist s.post) :
    (order s).idxOf a < (order s).idxOf b := by
  have hpair : (order s).Pairwise fun a b => (order s).idxOf a < (order s).idxOf b := by
    rw [pairwise_iff_getElem]
    intro i j hi hj hij
    rw [h.nodup_order.idxOf_getElem, h.nodup_order.idxOf_getElem]
    exact hij
  exact pairwise_iff_forall_sublist.mp hpair hsub.reverse

theorem idxOf_lt_or_ancestor {a b : α} (hab : E.Inside s a b) :
    (order s).idxOf a < (order s).idxOf b ∨ Ancestor s.tree b a := by
  obtain ⟨ha, hb, hedge⟩ := hab
  have hpost : a ∈ s.post := (h.mem_found.mp ha).resolve_left not_mem_nil
  rcases h.done hpost hedge with hout | hsub | hanc
  · exact absurd hb hout.1
  · exact .inl (h.idxOf_lt_of_sublist hsub)
  · exact .inr hanc

theorem idxOf_le_of_ancestor {a b : α} (hab : Ancestor s.tree a b) :
    (order s).idxOf a ≤ (order s).idxOf b := by
  induction hab with
  | refl => exact le_rfl
  | tail _ hstep ih =>
    rcases h.idxOf_lt_or_ancestor (h.inside_of_tree hstep) with hlt | hback
    · exact Nat.le_trans ih (Nat.le_of_lt hlt)
    · exact absurd hback (h.grown.not_ancestor_parent hstep)

theorem idxOf_lt_iff {a b : α} (hab : E.Inside s a b) :
    (order s).idxOf a < (order s).idxOf b ↔ ¬ Ancestor s.tree b a := by
  constructor
  · exact fun hlt hanc => absurd (h.idxOf_le_of_ancestor hanc) (not_le.mpr hlt)
  · exact (h.idxOf_lt_or_ancestor hab).resolve_right

theorem cycle_iff : (∃ a, Relation.TransGen (E.Inside s) a a) ↔
    ∃ a b, E.Inside s a b ∧ (order s).idxOf b ≤ (order s).idxOf a := by
  constructor
  · -- edges that all go on would take the order round a cycle and beyond
    rintro ⟨a, hcycle⟩
    by_contra hnone
    have hup (x y : α) (hxy : Relation.TransGen (E.Inside s) x y) :
        (order s).idxOf x < (order s).idxOf y := by
      induction hxy with
      | single hstep => exact not_le.mp fun hle => hnone ⟨_, _, hstep, hle⟩
      | tail _ hstep ih =>
        exact Nat.lt_trans ih (not_le.mp fun hle => hnone ⟨_, _, hstep, hle⟩)
    exact lt_irrefl _ (hup a a hcycle)
  · rintro ⟨a, b, hab, hle⟩
    have hanc := (h.idxOf_lt_or_ancestor hab).resolve_left (not_lt.mpr hle)
    exact ⟨a, .head' hab (h.inside_of_ancestor hanc)⟩

end Inv

end Invariant

end Explorer

section TakeAll
variable {α β : Type} [DecidableEq α]

def takeAll : List α → AList (fun _ : α => β) → Option (List β)
  | [], _ => some []
  | a :: l, m => (m.lookup a).bind fun b => (takeAll l (m.erase a)).map (b :: ·)

theorem takeAll_spec {l : List α} (hnodup : l.Nodup) {m : AList fun _ : α => β}
    (hmem : ∀ a ∈ l, a ∈ m) :
    ∃ bs, takeAll l m = some bs ∧ List.Forall₂ (fun a b => m.lookup a = some b) l bs := by
  induction l generalizing m with
  | nil => exact ⟨[], rfl, .nil⟩
  | cons a l ih =>
    obtain ⟨hout, hnodup⟩ := nodup_cons.mp hnodup
    have ha := hmem a mem_cons_self
    obtain ⟨b, hb⟩ := isSome_iff_exists.mp (lookup_isSome.mpr ha)
    have hrest : ∀ c ∈ l, c ∈ m.erase a := fun c hc =>
      mem_erase.mpr ⟨fun heq => hout (heq ▸ hc), hmem c (mem_cons_of_mem _ hc)⟩
    obtain ⟨bs, hbs, hall⟩ := ih hnodup hrest
    refine ⟨b :: bs, ?_, .cons hb (hall.imp ?_)⟩
    · rw [takeAll, hb, bind_some, hbs, map_some]
    · intro c d hcd
      have hne : c ≠ a := by
        rintro rfl
        cases hcd.symm.trans (lookup_erase c m)
      exact (lookup_erase_ne hne).symm.trans hcd

end TakeAll

end X86Jit.Lib
