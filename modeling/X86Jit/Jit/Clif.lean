import X86Jit.Core.Flags

/-! The Cranelift integer instructions the code generator emits, with their documented meaning. -/
namespace X86Jit.Clif

def flagByte (v : Bool) : U8 := if v then 1 else 0

variable {w : ℕ}

def ishl (x : BitVec w) (amount : U64) : BitVec w := x <<< (amount.toNat % w)
def ushr (x : BitVec w) (amount : U64) : BitVec w := x >>> (amount.toNat % w)
def sshr (x : BitVec w) (amount : U64) : BitVec w := x.sshiftRight (amount.toNat % w)
def rotl (x : BitVec w) (amount : U64) : BitVec w := x.rotateLeft (amount.toNat % w)
def rotr (x : BitVec w) (amount : U64) : BitVec w := x.rotateRight (amount.toNat % w)
def ireduce (n : ℕ) (x : BitVec w) : BitVec n := x.setWidth n
def uextend (n : ℕ) (x : BitVec w) : BitVec n := x.setWidth n
def icmpUlt (x y : BitVec w) : U8 := flagByte (x.ult y)
def icmpUle (x y : BitVec w) : U8 := flagByte (x.ule y)
def icmpEq (x y : BitVec w) : U8 := flagByte (x == y)
def icmpNe (x y : BitVec w) : U8 := flagByte (x != y)
def irsub (x n : BitVec w) : BitVec w := n - x
def select {α : Type} (c : U8) (x y : α) : α := if c != 0 then x else y
def umulhi (x y : BitVec w) : BitVec w := BitVec.ofNat w ((x.toNat * y.toNat) >>> w)
def smulhi (x y : BitVec w) : BitVec w := BitVec.ofInt w ((x.toInt * y.toInt) >>> w)

@[simp] theorem flagByte_ne_zero (v : Bool) : (flagByte v != 0) = v := by
  cases v <;> decide

theorem flagByte_inj {u v : Bool} : flagByte u = flagByte v ↔ u = v := by
  cases u <;> cases v <;> decide

theorem flagByte_xor (u v : Bool) : flagByte u ^^^ flagByte v = flagByte (u ^^ v) := by
  cases u <;> cases v <;> decide

theorem flagByte_or (u v : Bool) : flagByte u ||| flagByte v = flagByte (u || v) := by
  cases u <;> cases v <;> decide

@[simp] theorem flagByte_false : flagByte false = 0 := rfl
@[simp] theorem flagByte_true : flagByte true = 1 := rfl

@[simp] theorem select_flagByte {α : Type} (v : Bool) (x y : α) :
    select (flagByte v) x y = if v then x else y := by
  rw [select, flagByte_ne_zero]

end X86Jit.Clif
