import X86Jit.Core.Vm
import X86Jit.Lift.Dispatch
import X86Jit.Lift.Elide

/-! The lift of a basic block: decode and lift in a straight line until an instruction ends
the block, the fetch window is used up, or something cannot be lifted. -/
namespace X86Jit.Lift
open X86Jit.Lib List

inductive DecoderError
  | noMoreBytes
  | invalidInstruction
  deriving DecidableEq, Repr

inductive Decoded
  | insn (insn : Insn)
  | invalid (err : DecoderError) (len : ℕ)
  deriving DecidableEq, Repr

/-- An instruction the decoder reports lies in the bytes it was given and carries the address and
the code size it was asked for. -/
structure Decoder where
  decode : CpuMode → List U8 → U64 → Decoded
  reports : ∀ {mode code ip insn}, decode mode code ip = .insn insn →
    insn.ip = ip ∧ 0 < insn.len ∧ insn.len ≤ code.length ∧ insn.codeSize = codeSizeOf mode

/-- A decoder that knows one opcode of two bytes. -/
def Decoder.ofOpcode (mode : CpuMode) (b b' : U8) (insn : U64 → Insn) (h : ∀ ip,
    (insn ip).ip = ip ∧ (insn ip).len = 2 ∧ (insn ip).codeSize = codeSizeOf mode) : Decoder where
  decode mode' code ip :=
    if mode' = mode ∧ code.take 2 = [b, b'] then .insn (insn ip) else .invalid .invalidInstruction 1
  reports := by
    intro mode' code ip insn' hdecode
    split at hdecode
    · rename_i hcode
      obtain ⟨rfl, htake⟩ := hcode
      cases hdecode
      obtain ⟨hip, hlen, hsize⟩ := h ip
      have htwo := congrArg List.length htake
      rw [List.length_take, List.length_cons, List.length_singleton] at htwo
      exact ⟨hip, by omega, by omega, hsize⟩
    · cases hdecode

/-- The decoder, the lift of the vector and x87 instructions, and whether the flag pass is turned
off. -/
structure Lifter (Y : Type) where
  decoder : Decoder
  foreign : Insn → CpuMode → LiftM (OtherOp Y) Bool
  keepFlags : Bool

structure Draft (X : Type) where
  ops : List (IrOp X)
  next : Temp
  guestLen : ℕ

namespace Draft
variable {X : Type}

def empty : Draft X := ⟨[], 0, 0⟩

def real16Fault (d : Draft X) (ip : U64) (len : ℕ) (vector : U8) : Draft X :=
  { d with
    ops := d.ops ++ [.plain (.insnStart ip), .intGate vector (maskPc ip .real16)]
    guestLen := d.guestLen + len }

def add (d : Draft X) (insn : Insn) (r : Emitted (IrOp X) Bool) : Draft X :=
  { ops := d.ops ++ .plain (.insnStart insn.ip) :: r.ops
    next := r.next
    guestLen := d.guestLen + insn.len }

end Draft

def maxInsnLen286 : ℕ := 10

variable {Y : Type} (L : Lifter Y) (mode : CpuMode)

inductive Advance (X : Type)
  | done (d : Draft X)
  | more (insn : Insn) (d : Draft X)
  | fail (e : LiftError)

/-- One pass of the loop. `full` tells that the window, not the region, ends the code. -/
def advance (full : Bool) (code : List U8) (ip : U64) (d : Draft (OtherOp Y)) :
    Advance (OtherOp Y) :=
  match L.decoder.decode mode code ip with
  | .invalid err len =>
    -- an instruction cut off by the window starts the next block
    if err = .noMoreBytes ∧ full = true ∧ 0 < d.guestLen then .done d
    else if mode = .real16 ∧ err = .invalidInstruction then .done (d.real16Fault ip len 6)
    else .fail (.decodeFault ip)
  | .insn insn =>
    if mode = .real16 ∧ maxInsnLen286 < insn.len then .done (d.real16Fault ip insn.len 13)
    else
      match liftInsn L.foreign insn mode d.next with
      | .error e => .fail (e.error insn)
      | .ok r => if r.val then .done (d.add insn r) else .more insn (d.add insn r)

def liftLoop (full : Bool) :
    ℕ → List U8 → U64 → Draft (OtherOp Y) → Except LiftError (Draft (OtherOp Y))
  | 0, _, _, d => .ok d
  | _, [], _, d => .ok d
  | fuel + 1, code, ip, d =>
    match advance L mode full code ip d with
    | .done d => .ok d
    | .fail e => .error e
    | .more insn d => liftLoop full fuel (code.drop insn.len) (ip + BitVec.ofNat 64 insn.len) d

def finish (start : U64) (d : Draft (OtherOp Y)) : OpBlock (OtherOp Y) :=
  { guestStart := start, guestLen := d.guestLen, ops := elideDeadFlags L.keepFlags d.ops }

/-- Every instruction has at least one byte, so the number of bytes bounds the passes. -/
def liftBlock (mem : Memory) (fa : FetchAddr) : Except LiftError (OpBlock (OtherOp Y)) :=
  let start := BitVec.ofNat 64 fa.ip
  match mem.codeSlice fa.pa blockFetchWindow with
  | none => .error (.decodeFault start)
  | some code =>
    (liftLoop L mode (code.length == blockFetchWindow) code.length code start .empty).map
      (finish L start)

def liftOne (mem : Memory) (fa : FetchAddr) : Except LiftError (OpBlock (OtherOp Y)) :=
  let start := BitVec.ofNat 64 fa.ip
  match mem.codeSlice fa.pa blockFetchWindow with
  | none => .error (.decodeFault start)
  | some [] => .error (.decodeFault start)
  | some code =>
    match advance L mode false code start .empty with
    | .done d => .ok (finish L start d)
    | .more _ d => .ok (finish L start d)
    | .fail e => .error e

def LiftError.addr : LiftError → U64
  | .unsupported addr _ => addr
  | .decodeFault addr => addr

variable {L : Lifter Y} {mode : CpuMode}

variable {full : Bool} {code : List U8} {d : Draft (OtherOp Y)} {e : LiftError}

theorem addr_of_advance_fail {ip : U64} (h : advance L mode full code ip d = .fail e) :
    e.addr = ip := by
  unfold advance at h
  split at h
  · split at h
    · cases h
    · split at h
      · cases h
      · cases h
        rfl
  · rename_i insn hdec
    split at h
    · cases h
    · split at h
      · rename_i err _
        cases h
        cases err
        exact (L.decoder.reports hdec).1
      · split at h <;> cases h

variable {d' : Draft (OtherOp Y)}

theorem insn_of_advance_more {ip : U64} {insn : Insn}
    (h : advance L mode full code ip d = .more insn d') :
    L.decoder.decode mode code ip = .insn insn ∧ 0 < insn.len ∧ insn.len ≤ code.length := by
  unfold advance at h
  split at h
  · split at h
    · cases h
    · split at h <;> cases h
  · rename_i insn' hdec
    split at h
    · cases h
    · split at h
      · cases h
      · split at h
        · cases h
        · cases h
          exact ⟨hdec, (L.decoder.reports hdec).2.1, (L.decoder.reports hdec).2.2.1⟩

/-- The instructions a block takes in, one after the other, from the first address to the last. -/
inductive Line (L : Lifter Y) (mode : CpuMode) (full : Bool) :
    List U8 → U64 → Draft (OtherOp Y) → List Insn → List U8 → U64 →
      Draft (OtherOp Y) → Prop
  | nil {code ip d} : Line L mode full code ip d [] code ip d
  | cons {code ip d insn d' l code' ip' d''} (hcode : code ≠ [])
      (hfirst : advance L mode full code ip d = .more insn d')
      (hrest : Line L mode full (code.drop insn.len) (ip + BitVec.ofNat 64 insn.len) d' l
        code' ip' d'') :
      Line L mode full code ip d (insn :: l) code' ip' d''

theorem Line.ip_eq {code' : List U8} {ip ip' : U64} {l : List Insn}
    (h : Line L mode full code ip d l code' ip' d') :
    ip' = ip + BitVec.ofNat 64 (l.map Insn.len).sum ∧
      (l.map Insn.len).sum + code'.length = code.length ∧ l.length ≤ (l.map Insn.len).sum := by
  induction h with
  | nil => exact ⟨(BitVec.add_zero _).symm, Nat.zero_add _, le_rfl⟩
  | cons hcode hfirst hrest ih =>
    obtain ⟨-, hpos, hle⟩ := insn_of_advance_more hfirst
    obtain ⟨hip, hlen, hcount⟩ := ih
    rw [length_drop] at hlen
    refine ⟨?_, ?_, ?_⟩
    · rw [hip, map_cons, sum_cons, BitVec.ofNat_add, BitVec.add_assoc]
    · rw [map_cons, sum_cons]
      omega
    · rw [map_cons, sum_cons, length_cons]
      omega

theorem line_of_liftLoop_error {fuel : ℕ} {ip : U64}
    (h : liftLoop L mode full fuel code ip d = .error e) :
    ∃ l code' ip' d', Line L mode full code ip d l code' ip' d' ∧ code' ≠ [] ∧
      advance L mode full code' ip' d' = .fail e := by
  induction fuel generalizing code ip d with
  | zero => cases h
  | succ fuel ih =>
    cases code with
    | nil => cases h
    | cons b code =>
      unfold liftLoop at h
      split at h
      · cases h
      · rename_i e' hadv
        cases h
        exact ⟨[], _, _, _, .nil, cons_ne_nil _ _, hadv⟩
      · rename_i insn d' hadv
        obtain ⟨l, code', ip', d'', hline, hne, hfail⟩ := ih h
        exact ⟨insn :: l, code', ip', d'', .cons (cons_ne_nil _ _) hadv hline, hne, hfail⟩

theorem liftLoop_error_of_line {fuel : ℕ} {code' : List U8} {ip ip' : U64} {l : List Insn}
    (hline : Line L mode full code ip d l code' ip' d') (hne : code' ≠ [])
    (hfail : advance L mode full code' ip' d' = .fail e) (hfuel : code.length ≤ fuel) :
    liftLoop L mode full fuel code ip d = .error e := by
  induction hline generalizing fuel with
  | @nil code ip d =>
    obtain ⟨b, code, rfl⟩ := exists_cons_of_ne_nil hne
    obtain ⟨fuel, rfl⟩ := Nat.exists_eq_add_one_of_ne_zero (Nat.ne_of_gt (lt_of_lt_of_le
      (Nat.succ_pos _) hfuel))
    unfold liftLoop
    rw [hfail]
  | @cons code ip d insn d' l code' ip' d'' hcode hfirst hrest ih =>
    obtain ⟨b, code, rfl⟩ := exists_cons_of_ne_nil hcode
    obtain ⟨fuel, rfl⟩ := Nat.exists_eq_add_one_of_ne_zero (Nat.ne_of_gt (lt_of_lt_of_le
      (Nat.succ_pos _) hfuel))
    obtain ⟨-, hpos, hle⟩ := insn_of_advance_more hfirst
    unfold liftLoop
    rw [hfirst]
    apply ih hne hfail
    rw [length_drop] at *
    omega

end X86Jit.Lift
