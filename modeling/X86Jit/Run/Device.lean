import X86Jit.Lift.Arranged
import X86Jit.Lift.Restart
import X86Jit.Run.Vcpu

/-! Instructions that reach a device. `run` returns, the embedder hands over the device's answer,
and the instruction is executed once more from its start. -/
namespace X86Jit

def StepResult.isMmio : StepResult → Bool
  | .exit (.mmioRead _ _) | .exit (.mmioWrite _ _ _) => true
  | _ => false

def Memory.isDevice (m : Memory) (addr : U64) (n : ℕ) : Bool :=
  match m.regionFor addr.toNat n with
  | some r => r.kind == .trap
  | none => false

end X86Jit

namespace X86Jit.Run
open X86Jit.Lib X86Jit.Lift

variable {δ : Type}

structure Device (δ : Type) where
  read : δ → U64 → Size → U64 × δ
  write : δ → U64 → Size → U64 → δ

inductive Transfer
  | read (addr : U64) (size : Size)
  | write (addr : U64) (size : Size) (value : U64)
  deriving DecidableEq, Repr

structure Bus (δ : Type) where
  device : δ
  log : List Transfer

namespace Device
variable (D : Device δ) (b : Bus δ)

def readAt (addr : U64) (size : Size) : U64 × Bus δ :=
  let r := D.read b.device addr size
  (r.1, ⟨r.2, b.log ++ [.read addr size]⟩)

def writeAt (addr : U64) (size : Size) (value : U64) : Bus δ :=
  ⟨D.write b.device addr size value, b.log ++ [.write addr size value]⟩

end Device

section Direct
variable {K : Type} (u : X87 K)

def X87.reach (op : X87Op K) (x : Ext) : Option ℕ :=
  if u.waits op.kind x then none
  else
    match u.loads op.kind with
    | some n => some n
    | none => (u.stores op.kind op.sti x).map List.length

def asks {V : Type} : Outcome (WalkState V) → Bool
  | .ok _ => false
  | .error e => e.result.isMmio

/-- The op would reach a device. The wide accesses do so without asking for it. -/
def touches (blockEnd : U64) (op : IrOp (OtherOp (X87Op K))) (s : WalkState Ext) : Bool :=
  let g := s.guest
  match op with
  | .plain (.load _ addr size) => g.mem.isDevice (g.readVal addr) size.bytes
  | .plain (.store addr _ size) => g.mem.isDevice (g.readVal addr) size.bytes
  | .set (.other (.fxState addr _)) => g.mem.isDevice (g.readVal addr) 512
  | .set (.other (.foreign op)) =>
    match X87.reach u op g.ext with
    | some n => g.mem.isDevice (g.readVal op.addr) n
    | none => false
  | op => asks (exec (otherOps u.exec) blockEnd op s)

structure Live (δ : Type) where
  state : WalkState Ext
  bus : Bus δ

def beside (b : Bus δ) : Outcome (WalkState Ext) → Outcome (Live δ)
  | .ok s => .ok ⟨s, b⟩
  | .error e => .error ⟨⟨e.state, b⟩, e.result⟩

/-- What the other ops do when they reach a device is left open. -/
structure Attached (u : X87 K) (δ : Type) where
  other : U64 → IrOp (OtherOp (X87Op K)) → Live δ → Outcome (Live δ)
  agrees : ∀ {blockEnd op x}, touches u blockEnd op x.state = false →
    other blockEnd op x = beside x.bus (exec (otherOps u.exec) blockEnd op x.state)

variable {u} (A : Attached u δ) (D : Device δ)

def execLive (blockEnd : U64) (op : IrOp (OtherOp (X87Op K))) (x : Live δ) : Outcome (Live δ) :=
  let g := x.state.guest
  match op with
  | .plain (.load dst addr size) =>
    if g.mem.isDevice (g.readVal addr) size.bytes then
      let r := D.readAt x.bus (g.readVal addr) size
      .ok ⟨{ x.state with guest := g.setTemp dst (r.1 &&& mask size) }, r.2⟩
    else A.other blockEnd op x
  | .plain (.store addr src size) =>
    if g.mem.isDevice (g.readVal addr) size.bytes then
      .ok { x with bus := D.writeAt x.bus (g.readVal addr) size (g.readVal src) }
    else A.other blockEnd op x
  | op => A.other blockEnd op x

def endLive (blockEnd : U64) : Walked (Live δ) (Stop (Live δ)) → Stop (Live δ)
  | .fell x => ⟨⟨(goTo x.state blockEnd).state, x.bus⟩, (goTo x.state blockEnd).result⟩
  | .left _ e => e

def afterWalk {V : Type} (v : Vcpu V) (e : Stop (WalkState V)) : Vcpu V × Option RunExit :=
  let g := e.state.guest
  ({ v with state := e.state, stiShadow := g.stiShadow && (g.started && g.rip != g.curAddr) },
    returns e.result)

def quiet (blockEnd : U64) : List (IrOp (OtherOp (X87Op K))) → Live δ → Bool
  | [], _ => true
  | op :: l, x =>
    !touches u blockEnd op x.state &&
      match execLive A D blockEnd op x with
      | .ok x' => quiet blockEnd l x'
      | .error _ => true

def isLoad {X : Type} : IrOp X → Bool
  | .plain (.load _ _ _) => true
  | _ => false

def isStore {X : Type} : IrOp X → Bool
  | .plain (.store _ _ _) => true
  | _ => false

/-- The code reaches a device at most once: with a load before which there was none, or with
a store. -/
def orderly (blockEnd : U64) (loaded : Bool) : List (IrOp (OtherOp (X87Op K))) → Live δ → Bool
  | [], _ => true
  | op :: l, x =>
    let touched := touches u blockEnd op x.state
    (!touched || isLoad op && !loaded || isStore op) &&
      match execLive A D blockEnd op x with
      | .ok x' =>
        if touched then quiet A D blockEnd l x' else orderly blockEnd (loaded || isLoad op) l x'
      | .error _ => true

end Direct

variable {Y V : Type} (M : Machine Y V) (D : Device δ)

def answer (v : Vcpu V) (b : Bus δ) : Option RunExit → Option (Vcpu V × Bus δ)
  | some (.guest (.mmioRead addr size)) =>
    let r := D.readAt b addr size
    let state := { v.state with guest := { v.state.guest with pendingMmio := some r.1 } }
    some ({ v with state }, r.2)
  | some (.guest (.mmioWrite addr size value)) =>
    let state := { v.state with guest := { v.state.guest with pendingMmioWrite := true } }
    some ({ v with state }, D.writeAt b addr size value)
  | _ => none

/-- One try at the instruction. In `run` the first is made by the block at its address, which has
executed nothing else when the access leaves it; a single step is that much of the block. -/
def attempt (v : Vcpu V) : State V :=
  if v.mmioAnswered then resume M v else atHead (stepOne M v).1 (stepOne M v).2

/-- Attempts and answers in turn, until an attempt does not ask for the device. -/
def serve : ℕ → Vcpu V → Bus δ → Option (State V × Bus δ)
  | 0, _, _ => none
  | n + 1, v, b =>
    match answer D (attempt M v).vcpu b (attempt M v).returned with
    | some p => serve n p.1 p.2
    | none => some (attempt M v, b)

variable {size : Size} {m : Memory} {addr : Val} {dst : Temp}

variable {K : Type} {u : X87 K} {A : Attached u δ} {D : Device δ} {blockEnd : U64}
  {op : IrOp (OtherOp (X87Op K))} {l : List (IrOp (OtherOp (X87Op K)))}

theorem read_eq_error {addr : U64} {t : MemTrap}
    (hdev : m.isDevice addr size.bytes = false) (h : m.read addr size = .error t) :
    t = .unmapped := by
  unfold Memory.isDevice at hdev
  unfold Memory.read at h
  split at h
  · cases h
    rfl
  · rename_i r hr
    have hkind : (r.kind == .trap) = false := by
      rw [hr] at hdev
      exact hdev
    split at h
    · rename_i htrap
      rw [htrap] at hkind
      cases hkind
    · cases h

theorem write_eq_error {addr val : U64} {n : ℕ} {t : MemTrap}
    (hdev : m.isDevice addr n = false) (h : m.write addr.toNat val n = .error t) :
    t = .unmapped := by
  unfold Memory.isDevice at hdev
  unfold Memory.write at h
  split at h
  · cases h
    rfl
  · rename_i r hr
    have hkind : (r.kind == .trap) = false := by
      rw [hr] at hdev
      exact hdev
    split at h
    · rename_i htrap
      rw [htrap] at hkind
      cases hkind
    · cases h
    · cases h

theorem asks_wide (op : OtherOp (X87Op K)) (s : WalkState Ext) :
    asks (exec (otherOps u.exec) blockEnd (.set (.other op)) s) = false := by
  cases op with
  | cpuid | xgetbv => rfl
  | fxState addr restore =>
    change asks (withFlags _ (execFxState s.guest addr restore)) = false
    unfold execFxState
    dsimp only
    split
    · split <;> rfl
    · split <;> rfl
  | foreign op =>
    change asks (withFlags (s.flags.write (u.exec op s.guest).2) (u.exec op s.guest).1) = false
    unfold X87.exec
    dsimp only
    split
    · rfl
    · split
      · split <;> rfl
      · split
        · rfl
        · split <;> rfl

variable {s : WalkState Ext}

theorem asks_load (h : s.guest.mem.isDevice (s.guest.readVal addr) size.bytes = false) :
    asks (exec (otherOps u.exec) blockEnd (.plain (.load dst addr size)) s) = false := by
  change asks (withFlags s.flags (execLoad s.guest dst addr size)) = false
  unfold execLoad Guest.loadOr
  split
  · rfl
  · cases hread : s.guest.mem.read (s.guest.readVal addr) size with
    | ok v => rfl
    | error t =>
      rw [read_eq_error h hread]
      rfl

theorem asks_store {src : Val}
    (h : s.guest.mem.isDevice (s.guest.readVal addr) size.bytes = false) :
    asks (exec (otherOps u.exec) blockEnd (.plain (.store addr src size)) s) = false := by
  change asks (withFlags s.flags (execStore s.guest addr src size)) = false
  unfold execStore
  cases hwrite : s.guest.mem.write (s.guest.readVal addr).toNat (s.guest.readVal src)
      size.bytes with
  | ok mem => rfl
  | error t =>
    rw [write_eq_error h hwrite]
    rfl

theorem asks_of_untouched (h : touches u blockEnd op s = false) :
    asks (exec (otherOps u.exec) blockEnd op s) = false := by
  unfold touches at h
  split at h
  · exact asks_load h
  · exact asks_store h
  · exact asks_wide _ s
  · exact asks_wide _ s
  · exact h

variable {b : Bus δ}

theorem execLive_of_untouched (h : touches u blockEnd op s = false) :
    execLive A D blockEnd op ⟨s, b⟩ = beside b (exec (otherOps u.exec) blockEnd op s) := by
  have hother : A.other blockEnd op ⟨s, b⟩ =
      beside b (exec (otherOps u.exec) blockEnd op s) := A.agrees h
  unfold execLive
  split
  · exact (if_neg (Bool.eq_false_iff.mp h)).trans (hother)
  · exact (if_neg (Bool.eq_false_iff.mp h)).trans (hother)
  · exact hother

def stopBeside (b : Bus δ) (e : Stop (WalkState Ext)) : Stop (Live δ) := ⟨⟨e.state, b⟩, e.result⟩

/-- A walk and its counterpart against the device, when neither has anything to do with it. -/
structure Agrees (A : Attached u δ) (D : Device δ) (blockEnd : U64)
    (l : List (IrOp (OtherOp (X87Op K)))) (s : WalkState Ext) (b : Bus δ) : Prop where
  live : endLive blockEnd (walk (execLive A D blockEnd) l ⟨s, b⟩) =
    stopBeside b (endWalk blockEnd (walk (exec (otherOps u.exec) blockEnd) l s))
  silent :
    (endWalk blockEnd (walk (exec (otherOps u.exec) blockEnd) l s)).result.isMmio = false

theorem endLive_later (w : Walked (Live δ) (Stop (Live δ))) :
    endLive blockEnd w.later = endLive blockEnd w := by
  cases w <;> rfl

theorem Agrees.error (h : touches u blockEnd op s = false)
    {e : Stop (WalkState Ext)} (he : exec (otherOps u.exec) blockEnd op s = .error e) :
    Agrees A D blockEnd (op :: l) s b := by
  have hlive : execLive A D blockEnd op ⟨s, b⟩ = .error (stopBeside b e) := by
    rw [execLive_of_untouched h, he]
    rfl
  have hsilent := asks_of_untouched h
  rw [he] at hsilent
  constructor
  · rw [walk_cons_error he, walk_cons_error hlive]
    rfl
  · rw [walk_cons_error he]
    exact hsilent

theorem Agrees.cons {s' : WalkState Ext} (h : touches u blockEnd op s = false)
    (hok : exec (otherOps u.exec) blockEnd op s = .ok s') (hl : Agrees A D blockEnd l s' b) :
    Agrees A D blockEnd (op :: l) s b := by
  have hlive : execLive A D blockEnd op ⟨s, b⟩ = .ok ⟨s', b⟩ := by
    rw [execLive_of_untouched h, hok]
    rfl
  constructor
  · rw [walk_cons_ok hok, walk_cons_ok hlive, endWalk_later, endLive_later]
    exact hl.live
  · rw [walk_cons_ok hok, endWalk_later]
    exact hl.silent

theorem agrees_of_quiet (h : quiet A D blockEnd l ⟨s, b⟩ = true) : Agrees A D blockEnd l s b := by
  induction l generalizing s with
  | nil => exact ⟨rfl, rfl⟩
  | cons op l ih =>
    rw [quiet, Bool.and_eq_true, Bool.not_eq_true'] at h
    obtain ⟨htouch, hrest⟩ := h
    rw [execLive_of_untouched htouch] at hrest
    cases ho : exec (otherOps u.exec) blockEnd op s with
    | error e => exact .error htouch ho
    | ok s' =>
      rw [ho] at hrest
      exact .cons htouch ho (ih hrest)

variable {value : Option U64} {ack : Bool} {s' : WalkState Ext} {b b' : Bus δ} {loaded : Bool}

def amend (s : WalkState Ext) (rip : U64) (value : Option U64) (ack : Bool) : WalkState Ext :=
  { s with guest := { s.guest with rip, pendingMmio := value, pendingMmioWrite := ack } }

structure Idle (s : WalkState Ext) : Prop where
  value : s.guest.pendingMmio = none
  ack : s.guest.pendingMmioWrite = false

theorem amend_of_idle (h : Idle s) (rip : U64) : amend s rip none false = s.atRip rip := by
  unfold amend WalkState.atRip Guest.atRip
  rw [← h.value, ← h.ack]

theorem exec_load_iff (h : s.guest.pendingMmio = none) :
    exec (otherOps u.exec) blockEnd (.plain (.load dst addr size)) s = .ok s' ↔
      ∃ v, s.guest.mem.read (s.guest.readVal addr) size = .ok v ∧
        s' = { s with guest := s.guest.setTemp dst v } := by
  change withFlags s.flags (execLoad s.guest dst addr size) = .ok s' ↔ _
  unfold execLoad Guest.loadOr
  rw [h]
  cases s.guest.mem.read (s.guest.readVal addr) size with
  | error t => exact ⟨nofun, nofun⟩
  | ok v =>
    constructor
    · intro hok
      cases hok
      exact ⟨v, rfl, rfl⟩
    · rintro ⟨v', hv, rfl⟩
      cases hv
      rfl

theorem exec_check_iff {offset : Val} {vector : U8} {faultIp : U64} :
    exec (otherOps u.exec) blockEnd (.segLimitCheck offset size vector faultIp) s = .ok s' ↔
      ¬0x10000 < (s.guest.readVal offset &&& 0xffff).toNat + size.bytes ∧ s' = s := by
  unfold exec
  dsimp only
  split
  · rename_i hlimit
    exact ⟨nofun, fun h => absurd hlimit h.1⟩
  · rename_i hlimit
    constructor
    · intro hok
      cases hok
      exact ⟨hlimit, rfl⟩
    · rintro ⟨-, rfl⟩
      rfl

/-- What is early leaves only temps, and goes the same way again: only a load would take an
answer. -/
theorem early_again (hearly : isEarly true op = true) (hidle : Idle s)
    (hok : exec (otherOps u.exec) blockEnd op s = .ok s') :
    (∃ temps, s' = { s with guest := { s.guest with temps } }) ∧
      ∀ rip value ack, value = none ∨ isLoad op = false →
        exec (otherOps u.exec) blockEnd op (amend s rip value ack) =
          .ok (amend s' rip value ack) := by
  cases op with
  | plain op =>
    cases op with
    | load dst addr size =>
      obtain ⟨v, hread, rfl⟩ := (exec_load_iff hidle.value).mp hok
      refine ⟨⟨_, rfl⟩, ?_⟩
      -- a load would take the answer, so there must be none
      intro rip value ack hvalue
      have hnone : value = none := hvalue.resolve_right nofun
      subst hnone
      exact (exec_load_iff rfl).mpr ⟨v, hread, rfl⟩
    | readReg dst reg =>
      cases hok
      refine ⟨⟨_, rfl⟩, ?_⟩
      intro rip value ack _
      cases reg with
      | rip => cases hearly
      | _ => rfl
    | sext | bswap | crc32 =>
      cases hok
      exact ⟨⟨_, rfl⟩, fun _ _ _ _ => rfl⟩
    | _ => cases hearly
  | alu o =>
    have hnone : o.setFlags = .none := by simpa [isEarly, isRead, isCheck] using hearly
    have halu (s : WalkState Ext) : o.exec s = { s with
        guest := setTemps s.guest (o.dst.zip (execAlu o.kind o.size .none (s.guest.readVal o.a)
          (s.guest.readVal o.b) (s.guest.readVal o.count) s.flags).1) } := by
      unfold AluOp.exec
      dsimp only
      rw [hnone, execAlu_none_flags]
    change Except.ok (o.exec s) = _ at hok
    rw [halu, setTemps_eq] at hok
    cases hok
    refine ⟨⟨_, rfl⟩, ?_⟩
    intro rip value ack _
    change Except.ok (o.exec _) = _
    rw [halu, setTemps_eq]
    rfl
  | getCond dst cond =>
    cases hok
    exact ⟨⟨_, rfl⟩, fun _ _ _ _ => rfl⟩
  | segLimitCheck offset size vector faultIp =>
    obtain ⟨hlimit, rfl⟩ := exec_check_iff.mp hok
    exact ⟨⟨_, rfl⟩, fun _ _ _ _ => exec_check_iff.mpr ⟨hlimit, rfl⟩⟩
  | _ => cases hearly

inductive Asked (D : Device δ) (b : Bus δ) : Exit → Option U64 → Bool → Bus δ → Prop
  | read (addr : U64) (size : Size) :
      Asked D b (.mmioRead addr size) (some (D.readAt b addr size).1) false (D.readAt b addr size).2
  | write (addr : U64) (size : Size) (value : U64) :
      Asked D b (.mmioWrite addr size value) none true (D.writeAt b addr size value)

structure Again (A : Attached u δ) (D : Device δ) (blockEnd : U64)
    (l : List (IrOp (OtherOp (X87Op K)))) (s : WalkState Ext) (b : Bus δ) (rip : U64)
    (value : Option U64) (ack : Bool) (b' : Bus δ) : Prop where
  live : endLive blockEnd (walk (execLive A D blockEnd) l ⟨s, b⟩) =
    stopBeside b'
      (endWalk blockEnd (walk (exec (otherOps u.exec) blockEnd) l (amend s rip value ack)))
  silent : (endWalk blockEnd (walk (exec (otherOps u.exec) blockEnd) l
    (amend s rip value ack))).result.isMmio = false

/-- The instruction has nothing to do with the device, or asks once and is done the second time. -/
inductive Course (A : Attached u δ) (D : Device δ) (blockEnd : U64) (loaded : Bool)
    (l : List (IrOp (OtherOp (X87Op K)))) (s : WalkState Ext) (b : Bus δ) : Prop
  | agrees (h : Agrees A D blockEnd l s b)
  | asks (temps : Temp → U64) {e : Exit} {value : Option U64} {ack : Bool} {b' : Bus δ}
      (hasked : Asked D b e value ack b') (hfirst : value = none ∨ loaded = false)
      (hexit : endWalk blockEnd (walk (exec (otherOps u.exec) blockEnd) l s) =
        ⟨{ s with guest := { s.guest with temps, rip := s.guest.curAddr } }, .exit e⟩)
      (hagain : ∀ rip, Again A D blockEnd l s b rip value ack b')

theorem Again.cons {rip : U64} (hlive : execLive A D blockEnd op ⟨s, b⟩ = .ok ⟨s', b⟩)
    (hok : exec (otherOps u.exec) blockEnd op (amend s rip value ack) =
      .ok (amend s' rip value ack)) (h : Again A D blockEnd l s' b rip value ack b') :
    Again A D blockEnd (op :: l) s b rip value ack b' := by
  constructor
  · rw [walk_cons_ok hlive, walk_cons_ok hok, endLive_later, endWalk_later]
    exact h.live
  · rw [walk_cons_ok hok, endWalk_later]
    exact h.silent

theorem Again.answered {rip : U64} (hidle : Idle s')
    (hlive : execLive A D blockEnd op ⟨s, b⟩ = .ok ⟨s', b'⟩)
    (hok : exec (otherOps u.exec) blockEnd op (amend s rip value ack) =
      .ok (amend s' rip none false))
    (hnames : ∀ op ∈ l, namesRip op = false) (hrest : Agrees A D blockEnd l s' b') :
    Again A D blockEnd (op :: l) s b rip value ack b' := by
  have hsame : endWalk blockEnd (walk (exec (otherOps u.exec) blockEnd) l
      (amend s' rip none false)) =
      endWalk blockEnd (walk (exec (otherOps u.exec) blockEnd) l s') := by
    rw [amend_of_idle hidle]
    exact endWalk_atRip (otherOps_ripFree u.exec_ripFree) blockEnd hnames s' rip
  constructor
  · rw [walk_cons_ok hlive, walk_cons_ok hok, endLive_later, endWalk_later, hsame]
    exact hrest.live
  · rw [walk_cons_ok hok, endWalk_later, hsame]
    exact hrest.silent

theorem Course.cons (hearly : isEarly true op = true) (hidle : Idle s)
    (htouch : touches u blockEnd op s = false) (hok : exec (otherOps u.exec) blockEnd op s = .ok s')
    (h : Course A D blockEnd (loaded || isLoad op) l s' b) :
    Course A D blockEnd loaded (op :: l) s b := by
  obtain ⟨⟨temps, hs'⟩, hretry⟩ := early_again hearly hidle hok
  have hlive : execLive A D blockEnd op ⟨s, b⟩ = .ok ⟨s', b⟩ := by
    rw [execLive_of_untouched htouch, hok]
    rfl
  cases h with
  | agrees h => exact .agrees (h.cons htouch hok)
  | asks temps' hasked hfirst hexit hagain =>
    rw [Bool.or_eq_false_iff] at hfirst
    refine .asks temps' hasked (hfirst.imp_right And.left) ?_ ?_
    · rw [walk_cons_ok hok, endWalk_later, hexit, hs']
    · intro rip
      exact (hagain rip).cons hlive (hretry rip _ _ (hfirst.imp_right And.right))

theorem read_of_isDevice {addr : U64}
    (h : m.isDevice addr size.bytes = true) : m.read addr size = .error .mmio := by
  unfold Memory.isDevice at h
  unfold Memory.read
  split at h
  · rename_i r hr
    have hkind : r.kind = .trap := eq_of_beq h
    rw [hr]
    dsimp only
    rw [hkind]
  · cases h

theorem write_of_isDevice {addr val : U64} {n : ℕ} (h : m.isDevice addr n = true) :
    m.write addr.toNat val n = .error .mmio := by
  unfold Memory.isDevice at h
  unfold Memory.write
  split at h
  · rename_i r hr
    have hkind : r.kind = .trap := eq_of_beq h
    rw [hr]
    dsimp only
    rw [hkind]
  · cases h

theorem Course.load (hidle : Idle s)
    (hdev : s.guest.mem.isDevice (s.guest.readVal addr) size.bytes = true)
    (hloaded : loaded = false) (hnames : ∀ op ∈ l, namesRip op = false) {x : Live δ}
    (hx : execLive A D blockEnd (.plain (.load dst addr size)) ⟨s, b⟩ = .ok x)
    (hquiet : quiet A D blockEnd l x = true) :
    Course A D blockEnd loaded (.plain (.load dst addr size) :: l) s b := by
  let a := s.guest.readVal addr
  let v := (D.readAt b a size).1
  have hlive : execLive A D blockEnd (.plain (.load dst addr size)) ⟨s, b⟩ =
      .ok ⟨{ s with guest := s.guest.setTemp dst (v &&& mask size) }, (D.readAt b a size).2⟩ :=
    if_pos hdev
  have hfirst : exec (otherOps u.exec) blockEnd (.plain (.load dst addr size)) s =
      .error ⟨{ s with guest := { s.guest with rip := s.guest.curAddr } },
        .exit (.mmioRead a size)⟩ := by
    change withFlags s.flags (execLoad s.guest dst addr size) = _
    unfold execLoad Guest.loadOr
    rw [hidle.value, read_of_isDevice hdev]
    rfl
  have hidle' : Idle { s with guest := s.guest.setTemp dst (v &&& mask size) } :=
    ⟨hidle.value, hidle.ack⟩
  cases hx.symm.trans hlive
  refine .asks s.guest.temps (.read a size) (.inr hloaded) ?_ ?_
  · rw [walk_cons_error hfirst]
    rfl
  · intro rip
    exact .answered hidle' hlive rfl hnames (agrees_of_quiet hquiet)

theorem Course.store {src : Val} (hidle : Idle s)
    (hdev : s.guest.mem.isDevice (s.guest.readVal addr) size.bytes = true)
    (hnames : ∀ op ∈ l, namesRip op = false) {x : Live δ}
    (hx : execLive A D blockEnd (.plain (.store addr src size)) ⟨s, b⟩ = .ok x)
    (hquiet : quiet A D blockEnd l x = true) :
    Course A D blockEnd loaded (.plain (.store addr src size) :: l) s b := by
  let a := s.guest.readVal addr
  let v := s.guest.readVal src
  have hlive : execLive A D blockEnd (.plain (.store addr src size)) ⟨s, b⟩ =
      .ok ⟨s, D.writeAt b a size v⟩ := if_pos hdev
  have hfirst : exec (otherOps u.exec) blockEnd (.plain (.store addr src size)) s =
      .error ⟨{ s with guest := { s.guest with rip := s.guest.curAddr } },
        .exit (.mmioWrite a size v)⟩ := by
    change withFlags s.flags (execStore s.guest addr src size) = _
    unfold execStore
    rw [write_of_isDevice hdev, hidle.ack]
    rfl
  -- the write was made by the embedder; the store only takes the acknowledgement
  have hsecond (rip : U64) :
      exec (otherOps u.exec) blockEnd (.plain (.store addr src size)) (amend s rip none true) =
        .ok (amend s rip none false) := by
    have hmem : (amend s rip none true).guest.mem.write
        ((amend s rip none true).guest.readVal addr).toNat
        ((amend s rip none true).guest.readVal src) size.bytes = .error .mmio :=
      write_of_isDevice hdev
    change withFlags s.flags (execStore (amend s rip none true).guest addr src size) = _
    unfold execStore
    rw [hmem]
    rfl
  cases hx.symm.trans hlive
  refine .asks s.guest.temps (.write a size v) (.inl rfl) ?_ ?_
  · rw [walk_cons_error hfirst]
    rfl
  · intro rip
    exact .answered hidle hlive (hsecond rip) hnames (agrees_of_quiet hquiet)

theorem agrees_of_steady (hsteady : l.all isSteady = true)
    (h : orderly A D blockEnd loaded l ⟨s, b⟩ = true) : Agrees A D blockEnd l s b := by
  induction l generalizing s loaded with
  | nil => exact ⟨rfl, rfl⟩
  | cons op l ih =>
    rw [List.all_cons, Bool.and_eq_true] at hsteady
    have hload : isLoad op = false := by
      cases op with
      | plain op => cases op <;> first | rfl | cases hsteady.1
      | _ => rfl
    have hstore : isStore op = false := by
      cases op with
      | plain op => cases op <;> first | rfl | cases hsteady.1
      | _ => rfl
    rw [orderly, hload, hstore, Bool.false_and, Bool.or_false, Bool.or_false, Bool.and_eq_true,
      Bool.not_eq_true'] at h
    obtain ⟨htouch, hrest⟩ := h
    rw [execLive_of_untouched htouch] at hrest
    cases ho : exec (otherOps u.exec) blockEnd op s with
    | error e => exact .error htouch ho
    | ok s' =>
      rw [ho, htouch] at hrest
      exact .cons htouch ho (ih hsteady.2 hrest)

theorem namesRip_of_isEarly (h : isEarly true op = true) : namesRip op = false := by
  unfold namesRip
  split
  · simpa [isEarly, isRead, isCheck] using h
  · cases h
  · rfl

theorem namesRip_of_ordered (h : ordered true (fun op => !namesRip op) l = true) :
    ∀ op ∈ l, namesRip op = false := by
  induction l with
  | nil => exact fun _ hmem => absurd hmem List.not_mem_nil
  | cons op l ih =>
    unfold ordered at h
    intro op' hmem
    split at h
    · rename_i hearly
      rcases List.mem_cons.mp hmem with rfl | hmem
      · exact namesRip_of_isEarly hearly
      · exact ih h op' hmem
    · rw [Bool.and_eq_true, List.all_eq_true, Bool.not_eq_true'] at h
      rcases List.mem_cons.mp hmem with rfl | hmem
      · exact h.1
      · have hwhole := namesRip_of_isWhole (isWhole_of_isSteady (h.2 op' hmem))
        rwa [Bool.not_eq_true'] at hwhole

theorem course_of_orderly (hord : ordered true (fun op => !namesRip op) l = true) (hidle : Idle s)
    (h : orderly A D blockEnd loaded l ⟨s, b⟩ = true) : Course A D blockEnd loaded l s b := by
  induction l generalizing s loaded with
  | nil => exact .agrees ⟨rfl, rfl⟩
  | cons op l ih =>
    have hnames : ∀ op' ∈ l, namesRip op' = false :=
      fun op' h' => namesRip_of_ordered hord op' (List.mem_cons_of_mem _ h')
    rw [orderly, Bool.and_eq_true] at h
    obtain ⟨hkind, hrest⟩ := h
    cases htouch : touches u blockEnd op s with
    | false =>
      rw [execLive_of_untouched htouch] at hrest
      cases ho : exec (otherOps u.exec) blockEnd op s with
      | error e => exact .agrees (.error htouch ho)
      | ok s' =>
        rw [ho, htouch] at hrest
        unfold ordered at hord
        split at hord
        · -- an early op leaves nothing but temps, so the walk is as idle as before
          rename_i hearly
          obtain ⟨⟨temps, hs'⟩, -⟩ := early_again hearly hidle ho
          have hidle' : Idle s' := by
            rw [hs']
            exact ⟨hidle.value, hidle.ack⟩
          exact .cons hearly hidle htouch ho (ih hord hidle' hrest)
        · -- what follows the late op makes no access at all
          rw [Bool.and_eq_true] at hord
          exact .agrees (.cons htouch ho (agrees_of_steady hord.2 hrest))
    | true =>
      rw [htouch] at hkind
      cases op with
      | plain op =>
        cases op with
        | load dst addr size =>
          have hloaded : loaded = false := by simpa [isLoad, isStore] using hkind
          cases hx : execLive A D blockEnd (.plain (.load dst addr size)) ⟨s, b⟩ with
          | ok x =>
            rw [hx, htouch] at hrest
            exact .load hidle htouch hloaded hnames hx hrest
          | error e => cases (if_pos htouch).symm.trans hx
        | store addr src size =>
          cases hx : execLive A D blockEnd (.plain (.store addr src size)) ⟨s, b⟩ with
          | ok x =>
            rw [hx, htouch] at hrest
            exact .store hidle htouch hnames hx hrest
          | error e => cases (if_pos htouch).symm.trans hx
        | _ => cases hkind
      | _ => cases hkind

/-- The answered parts of a vector access are dropped once the instruction is done. -/
def clearMmioParts (x : Ext) : Ext := { x with mmioParts := ⟨0, []⟩ }

def scalarMachine {K : Type} (u : X87 K) (decoder : Decoder) (keepFlags : Bool) :
    Machine (X87Op K) Ext :=
  ⟨⟨decoder, u.lift, keepFlags⟩, otherOps u.exec, clearMmioParts⟩

variable {decoder : Decoder} {keepFlags : Bool} {mode : CpuMode} {fa : FetchAddr} {insn : Insn}
  {ir : OpBlock (OtherOp (X87Op K))}

/-- The block of one instruction: its start, and then arranged code unless it updates memory
in place. -/
structure CodeOf (insn : Insn) (ir : OpBlock (OtherOp (X87Op K)))
    (l : List (IrOp (OtherOp (X87Op K)))) : Prop where
  ops : ir.ops = .plain (.insnStart insn.ip) :: l
  arranged : insn.updatesMemory = none → ordered true (fun op => !namesRip op) l = true

theorem steady_namesRip (op : IrOp (OtherOp (X87Op K))) (h : isSteady op = true) :
    (!namesRip op) = true := namesRip_of_isWhole (isWhole_of_isSteady h)

theorem code_of_liftOne (hinsn : insnAt (scalarMachine u decoder keepFlags).lifter mode m fa =
      some insn) (henc : insn.Encoded)
    (h : liftOne (scalarMachine u decoder keepFlags).lifter mode m fa = .ok ir) :
    insn.ip = BitVec.ofNat 64 fa.ip ∧ ∃ l, CodeOf insn ir l := by
  obtain ⟨hip, -, hops⟩ := liftOne_ok hinsn h
  refine ⟨hip, ?_⟩
  simp only [elideDeadFlags_cons] at hops
  rcases hops with ⟨-, hops⟩ | ⟨-, r, hr, hops⟩
  · refine ⟨_, hops, ?_⟩
    intro _
    apply ordered_elideDeadFlags steady_namesRip
    rfl
  · refine ⟨_, hops, ?_⟩
    intro hrmw
    apply ordered_elideDeadFlags steady_namesRip
    exact liftInsn_arranged u henc hrmw mode 0 r hr

variable {v : Vcpu Ext}

def stepLive (A : Attached u δ) (D : Device δ) (decoder : Decoder) (keepFlags : Bool) (v : Vcpu Ext)
    (b : Bus δ) : (Vcpu Ext × Option RunExit) × Bus δ :=
  match liftOne (scalarMachine u decoder keepFlags).lifter v.mode v.mem v.fetch with
  | .error e => (({ v with stiShadow := false }, some (liftExit e)), b)
  | .ok ir =>
    let e := endLive ir.blockEnd (walk (execLive A D ir.blockEnd) ir.ops ⟨enterBlock ir v.state, b⟩)
    (afterWalk v ⟨e.state.state, e.result⟩, e.state.bus)

def withoutParts (v : Vcpu Ext) : Vcpu Ext :=
  let g := v.state.guest
  { v with state := { v.state with guest := { g with ext := clearMmioParts g.ext } } }

/-- Registers, flags and memory are the same, and the device was asked for the same. -/
structure Settled (out : State Ext × Bus δ) (live : (Vcpu Ext × Option RunExit) × Bus δ) :
    Prop where
  vcpu : withoutParts out.1.vcpu = withoutParts live.1.1
  returned : out.1.returned = live.1.2
  bus : out.2 = live.2

theorem stepOne_of_lift (hlift : liftOne (scalarMachine u decoder keepFlags).lifter v.mode v.mem
      v.fetch = .ok ir) :
    stepOne (scalarMachine u decoder keepFlags) v = afterWalk v (endWalk ir.blockEnd
      (walk (exec (otherOps u.exec) ir.blockEnd) ir.ops (enterBlock ir v.state))) := by
  unfold stepOne
  rw [hlift]
  rfl

theorem answer_of_silent {e : StepResult} (h : e.isMmio = false) :
    answer D v b (returns e) = none := by
  cases e with
  | «continue» => rfl
  | exit e => cases e <;> first | rfl | cases h

theorem answer_of_asked {e : Exit} (hidle : Idle v.state) (h : Asked D b e value ack b') :
    answer D v b (some (.guest e)) =
      some ({ v with state := amend v.state v.state.guest.rip value ack }, b') := by
  cases h with
  | read addr size =>
    rw [← hidle.ack]
    rfl
  | write addr size value =>
    rw [← hidle.value]
    rfl

theorem forMode_ip (mode : CpuMode) (rip : U64) (cs : ℕ) :
    FetchAddr.forMode mode (BitVec.ofNat 64 (FetchAddr.forMode mode rip.toNat cs).ip).toNat cs =
      FetchAddr.forMode mode rip.toNat cs := by
  have hflat : (BitVec.ofNat 64 rip.toNat).toNat = rip.toNat := by
    rw [BitVec.ofNat_toNat, BitVec.setWidth_eq]
  have hreal : (BitVec.ofNat 64 (rip.toNat % 2 ^ 16)).toNat % 2 ^ 16 = rip.toNat % 2 ^ 16 := by
    rw [BitVec.toNat_ofNat]
    omega
  cases mode with
  | real16 => exact congrArg (FetchAddr.real16 cs) hreal
  | long64 | compat32 => exact congrArg FetchAddr.flat hflat

theorem settled_resume {out : Stop (WalkState Ext)} {live : (Vcpu Ext × Option RunExit) × Bus δ}
    (hstep : stepOne (scalarMachine u decoder keepFlags) v = afterWalk v out)
    (hvcpu : (afterWalk v out).1 = live.1.1) (hreturned : returns out.result = live.1.2)
    (hbus : b = live.2) : Settled (resume (scalarMachine u decoder keepFlags) v, b) live := by
  unfold resume
  rw [hstep]
  cases hresult : returns out.result with
  | some e =>
    have hafter : (afterWalk v out).2 = some e := hresult
    simp only [hafter]
    exact ⟨congrArg withoutParts hvcpu, hresult.symm.trans hreturned, hbus⟩
  | none =>
    have hafter : (afterWalk v out).2 = none := hresult
    simp only [hafter]
    refine ⟨?_, hresult.symm.trans hreturned, hbus⟩
    rw [hvcpu]
    rfl

theorem returned_resume (M : Machine Y V) (v : Vcpu V) :
    (resume M v).returned = (stepOne M v).2 := by
  unfold resume
  dsimp only
  cases (stepOne M v).2 <;> rfl

variable {M : Machine Y V} {v : Vcpu V}

theorem serve_done (h : answer D (attempt M v).vcpu b (attempt M v).returned = none) :
    serve M D 1 v b = some (attempt M v, b) := by
  simp only [serve, h]

theorem serve_again {v' : Vcpu V} (n : ℕ)
    (h : answer D (attempt M v).vcpu b (attempt M v).returned = some (v', b')) :
    serve M D (n + 1) v b = serve M D n v' b' := by
  rw [serve, h]

theorem endLive_insnStart (hops : ir.ops = .plain (.insnStart insn.ip) :: l) (s : WalkState Ext) :
    endLive ir.blockEnd (walk (execLive A D ir.blockEnd) ir.ops ⟨enterBlock ir s, b⟩) =
      endLive ir.blockEnd (walk (execLive A D ir.blockEnd) l ⟨startInsn ir insn.ip s, b⟩) := by
  have hstart : execLive A D ir.blockEnd (.plain (.insnStart insn.ip)) ⟨enterBlock ir s, b⟩ =
      .ok ⟨startInsn ir insn.ip s, b⟩ := A.agrees rfl
  rw [hops, walk_cons_ok hstart, endLive_later]

theorem endWalk_insnStart (hops : ir.ops = .plain (.insnStart insn.ip) :: l) (s : WalkState Ext) :
    endWalk ir.blockEnd (walk (exec (otherOps u.exec) ir.blockEnd) ir.ops (enterBlock ir s)) =
      endWalk ir.blockEnd
        (walk (exec (otherOps u.exec) ir.blockEnd) l (startInsn ir insn.ip s)) := by
  have hstart : exec (otherOps u.exec) ir.blockEnd (.plain (.insnStart insn.ip))
      (enterBlock ir s) = .ok (startInsn ir insn.ip s) := rfl
  rw [hops, walk_cons_ok hstart, endWalk_later]

/-- An instruction that reaches a device at most once, with its first load or with a store, is done
after at most one exit: the device is asked once, and registers and memory are those of an execution
without interruption. -/
theorem served_of_orderly (u : X87 K) (decoder : Decoder) (keepFlags : Bool) (A : Attached u δ)
    (D : Device δ) (v : Vcpu Ext) (b : Bus δ) {insn : Insn}
    (hinsn : insnAt (scalarMachine u decoder keepFlags).lifter v.mode v.mem v.fetch = some insn)
    (henc : insn.Encoded) {ir : OpBlock (OtherOp (X87Op K))}
    (hlift : liftOne (scalarMachine u decoder keepFlags).lifter v.mode v.mem v.fetch = .ok ir)
    (hidle : Idle v.state) (hrmw : insn.updatesMemory = none ∨
      quiet A D ir.blockEnd ir.ops ⟨enterBlock ir v.state, b⟩ = true)
    (h : orderly A D ir.blockEnd false ir.ops ⟨enterBlock ir v.state, b⟩ = true) :
    ∃ n out, serve (scalarMachine u decoder keepFlags) D n v b = some out ∧
      Settled out (stepLive A D decoder keepFlags v b) := by
  obtain ⟨hip, l, hcode⟩ := code_of_liftOne hinsn henc hlift
  have hidle' : Idle (startInsn ir insn.ip v.state) := ⟨hidle.value, hidle.ack⟩
  have hstart : execLive A D ir.blockEnd (.plain (.insnStart insn.ip))
      ⟨enterBlock ir v.state, b⟩ = .ok ⟨startInsn ir insn.ip v.state, b⟩ := A.agrees rfl
  have hlive : stepLive A D decoder keepFlags v b =
      let e := endLive ir.blockEnd (walk (execLive A D ir.blockEnd) l
        ⟨startInsn ir insn.ip v.state, b⟩)
      (afterWalk v ⟨e.state.state, e.result⟩, e.state.bus) := by
    unfold stepLive
    rw [hlift]
    dsimp only
    rw [endLive_insnStart hcode.ops]
  have hfirst := stepOne_of_lift hlift
  rw [endWalk_insnStart hcode.ops] at hfirst
  have hattempt : attempt (scalarMachine u decoder keepFlags) v =
      atHead (stepOne (scalarMachine u decoder keepFlags) v).1
        (stepOne (scalarMachine u decoder keepFlags) v).2 := by
    apply if_neg
    rw [Vcpu.mmioAnswered, hidle.value, hidle.ack]
    decide
  rw [hfirst] at hattempt
  have hcourse : Course A D ir.blockEnd false l (startInsn ir insn.ip v.state) b := by
    rw [hcode.ops] at h hrmw
    rcases hrmw with hrmw | hquiet
    · apply course_of_orderly (hcode.arranged hrmw) hidle'
      rw [orderly, hstart, Bool.and_eq_true] at h
      exact h.2
    · apply Course.agrees
      apply agrees_of_quiet
      rw [quiet, hstart, Bool.and_eq_true] at hquiet
      exact hquiet.2
  rw [hlive]
  cases hcourse with
  | agrees hagrees =>
    refine ⟨1, _, serve_done ?_, ?_⟩
    · rw [hattempt]
      exact answer_of_silent hagrees.silent
    · rw [hattempt, hagrees.live]
      exact ⟨rfl, rfl, rfl⟩
  | @asks temps e value ack b' hasked _ hexit hagain =>
    -- the vcpu after the exit, and with the answer
    let v₁ : Vcpu Ext := (afterWalk v ⟨{ startInsn ir insn.ip v.state with
      guest := { (startInsn ir insn.ip v.state).guest with temps, rip := insn.ip } }, .exit e⟩).1
    let v₂ : Vcpu Ext := { v₁ with state := amend v₁.state insn.ip value ack }
    have hans : answer D (attempt (scalarMachine u decoder keepFlags) v).vcpu b
        (attempt (scalarMachine u decoder keepFlags) v).returned = some (v₂, b') := by
      rw [hattempt, hexit]
      have hidle₁ : Idle v₁.state := ⟨hidle.value, hidle.ack⟩
      exact answer_of_asked hidle₁ hasked
    have hfetch : v₂.fetch = v.fetch := by
      change FetchAddr.forMode v.mode insn.ip.toNat v.state.guest.cs.toNat = _
      rw [hip]
      exact forMode_ip v.mode v.state.guest.rip v.state.guest.cs.toNat
    have hlift₂ : liftOne (scalarMachine u decoder keepFlags).lifter v₂.mode v₂.mem v₂.fetch =
        .ok ir := by
      rw [hfetch]
      exact hlift
    have hsecond := stepOne_of_lift hlift₂
    rw [endWalk_insnStart hcode.ops] at hsecond
    have hanswered : v₂.mmioAnswered = true := by
      cases hasked <;> rfl
    have hattempt₂ : attempt (scalarMachine u decoder keepFlags) v₂ =
        resume (scalarMachine u decoder keepFlags) v₂ := if_pos hanswered
    refine ⟨2, _, (serve_again 1 hans).trans (serve_done ?_), ?_⟩
    · rw [hattempt₂, returned_resume, hsecond]
      exact answer_of_silent (hagain insn.ip).silent
    · rw [hattempt₂, (hagain insn.ip).live]
      exact settled_resume hsecond rfl rfl rfl

/-- `mov eax, [rbx]` in 64-bit code. -/
def movLoad (ip : U64) : Insn :=
  { ip, len := 2, codeSize := .code64, mnemonic := .mov
    operands := [.register (.gpr rax .b4), .memory]
    mem := { base := .gpr rbx .b8, size := 4 } }

/-- `call` of the next instruction in 64-bit code. -/
def callNext (ip : U64) : Insn :=
  { ip, len := 5, codeSize := .code64, mnemonic := .call
    operands := [.nearBranch (ip + 5)] }

/-- The decoder on the bytes `8b 03` and `e8 00 00 00 00` in 64-bit code. -/
def portDecoder : Decoder where
  decode mode code ip :=
    match mode, code with
    | .long64, 0x8b :: 0x03 :: _ => .insn (movLoad ip)
    | .long64, 0xe8 :: 0 :: 0 :: 0 :: 0 :: _ => .insn (callNext ip)
    | _, _ => .invalid .invalidInstruction 1
  reports := by
    intro mode code ip insn h
    split at h
    · cases h
      exact ⟨rfl, Nat.two_pos, Nat.le_add_left 2 _, rfl⟩
    · cases h
      exact ⟨rfl, Nat.succ_pos 4, Nat.le_add_left 5 _, rfl⟩
    · cases h

def noX87 : X87 Empty where
  kindOf _ := none
  stiOf _ := 0
  waits k := k.elim
  loads k := k.elim
  stores k := k.elim
  refused k := k.elim
  commit k := k.elim

def plainlyAttached : Attached noX87 Unit where
  other blockEnd op x := beside x.bus (exec (otherOps noX87.exec) blockEnd op x.state)
  agrees _ := rfl

def port : Device Unit := ⟨fun _ _ _ => (42, ()), fun _ _ _ _ => ()⟩

theorem portRegions_le :
    ∀ r ∈ [Region.mk 0x1000 5 .ram, Region.mk 0x4000 0x100 .trap], r.stop ≤ 0x10000 := by decide

def portMemory (code : List U8) : Memory :=
  .small _ portRegions_le fun a => code.getD (a - 0x1000) 0

def portVcpu (code : List U8) : Vcpu Ext :=
  let s := WalkState.zero Ext.zero (portMemory code)
  { state := { s with guest :=
      { (s.guest.setGpr rbx 0x4000).setGpr rsp 0x4010 with rip := 0x1000 } }
    mode := .long64 }

def movBlock : OpBlock (OtherOp (X87Op Empty)) :=
  { guestStart := 0x1000
    guestLen := 2
    ops := [.plain (.insnStart 0x1000), .plain (.readReg 0 .rbx), .plain (.load 1 (.temp 0) .b4),
      .plain (.writeReg .rax (.temp 1) .b4)] }

theorem movLoad_encoded : (movLoad 0x1000).Encoded := by
  have hone (i : ℕ) (h : (movLoad 0x1000).isMemory i = true) : i = 1 := by
    match i, h with
    | 0, h => cases h
    | 1, _ => rfl
    | _ + 2, h => cases h
  exact
    { oneMemory := fun i j hi hj => (hone i hi).trans (hone j hj).symm
      dest := nofun
      imul := nofun
      second := by decide
      scale := by decide }

theorem movLoad_insnAt : insnAt (scalarMachine noX87 portDecoder false).lifter .long64
    (portMemory [0x8b, 0x03]) ⟨0x1000, 0x1000⟩ = some (movLoad 0x1000) := rfl

theorem movLoad_lift : liftOne (scalarMachine noX87 portDecoder false).lifter .long64
    (portMemory [0x8b, 0x03]) ⟨0x1000, 0x1000⟩ = .ok movBlock := rfl

theorem movLoad_orderly : orderly plainlyAttached port movBlock.blockEnd false movBlock.ops
    ⟨enterBlock movBlock (portVcpu [0x8b, 0x03]).state, ⟨(), []⟩⟩ = true := rfl

theorem movLoad_served :
    ∃ n out, serve (scalarMachine noX87 portDecoder false) port n (portVcpu [0x8b, 0x03])
        ⟨(), []⟩ = some out ∧
      Settled out (stepLive plainlyAttached port portDecoder false (portVcpu [0x8b, 0x03])
        ⟨(), []⟩) :=
  served_of_orderly noX87 portDecoder false plainlyAttached port (portVcpu [0x8b, 0x03]) ⟨(), []⟩
    movLoad_insnAt movLoad_encoded movLoad_lift ⟨rfl, rfl⟩ (.inl rfl) movLoad_orderly

def callAnswered : Vcpu Ext :=
  let v := portVcpu [0xe8, 0, 0, 0, 0]
  let g := v.state.guest
  { v with state := { v.state with guest :=
    { g with curAddr := 0x1000, started := true, pendingMmioWrite := true } } }

def callBlock : OpBlock (OtherOp (X87Op Empty)) :=
  { guestStart := 0x1000
    guestLen := 5
    ops := [.plain (.insnStart 0x1000), .plain (.call (.imm 0x1005) 0x1005 .b8 false)] }

theorem call_lift : liftOne (scalarMachine noX87 portDecoder false).lifter .long64
    (portMemory [0xe8, 0, 0, 0, 0]) ⟨0x1000, 0x1000⟩ = .ok callBlock := rfl

theorem serve_stuck
    (h : ∀ b, ∃ b', answer D (attempt M v).vcpu b (attempt M v).returned = some (v, b'))
    (n : ℕ) (b : Bus δ) : serve M D n v b = none := by
  induction n generalizing b with
  | zero => rfl
  | succ n ih =>
    obtain ⟨b', hans⟩ := h b
    rw [serve_again n hans]
    exact ih b'

/-- A call with its stack in the port is never done: its store does not take the acknowledgement. -/
theorem call_never_done :
    insnAt (scalarMachine noX87 portDecoder false).lifter .long64 (portMemory [0xe8, 0, 0, 0, 0])
        ⟨0x1000, 0x1000⟩ = some (callNext 0x1000) ∧ (callNext 0x1000).updatesMemory = none ∧
      ∀ n, serve (scalarMachine noX87 portDecoder false) port n (portVcpu [0xe8, 0, 0, 0, 0])
        ⟨(), []⟩ = none := by
  refine ⟨rfl, rfl, ?_⟩
  intro n
  -- the first exit, and every later one
  have hfirst := stepOne_of_lift (v := portVcpu [0xe8, 0, 0, 0, 0]) call_lift
  have hlater := stepOne_of_lift (v := callAnswered) call_lift
  cases n with
  | zero => rfl
  | succ n =>
    have hans : answer port
        (attempt (scalarMachine noX87 portDecoder false) (portVcpu [0xe8, 0, 0, 0, 0])).vcpu ⟨(), []⟩
        (attempt (scalarMachine noX87 portDecoder false) (portVcpu [0xe8, 0, 0, 0, 0])).returned =
        some (callAnswered, ⟨(), [.write 0x4008 .b8 0x1005]⟩) := by
      have hattempt : attempt (scalarMachine noX87 portDecoder false)
          (portVcpu [0xe8, 0, 0, 0, 0]) = atHead _ _ := if_neg nofun
      rw [hattempt, hfirst]
      rfl
    rw [serve_again n hans]
    apply serve_stuck
    intro b
    refine ⟨⟨(), b.log ++ [.write 0x4008 .b8 0x1005]⟩, ?_⟩
    have hattempt : attempt (scalarMachine noX87 portDecoder false) callAnswered =
        resume (scalarMachine noX87 portDecoder false) callAnswered := if_pos rfl
    rw [hattempt]
    unfold resume
    rw [hlater]
    rfl

end X86Jit.Run
