import Temari.Relational

/-! The machine the generated round chain runs on: 32-bit words, the table
bytes `ctx`, and the mutable state `st` of ST_SIZE words. A step that the
program would panic on, or an unchecked read past the end, has no result. -/
namespace Temari.RoundMachine

abbrev Word := BitVec 32
abbrev Bytes := List UInt8

def stSize : Nat := 2048
abbrev St := Vector Word stSize

abbrev Round := StateT St Option

def byteWord (b : UInt8) : Word := b.toBitVec.setWidth 32
def wordByte (w : Word) : UInt8 := ⟨w.setWidth 8⟩

/-- `u32::from_le_bytes`. -/
def fromLeBytes (b0 b1 b2 b3 : UInt8) : Word :=
  byteWord b0 ||| byteWord b1 <<< 8 ||| byteWord b2 <<< 16 ||| byteWord b3 <<< 24

/-- `st[k]` and `st[k] = v`. -/
abbrev load (k : Nat) : Round Word := Relational.readCell k
abbrev store (k : Nat) (v : Word) : Round Unit := Relational.writeCell k v

def t4 (ctx : Bytes) (off : Nat) (idx : Word) : Round Word := do
  let i := (idx &&& 0xFF).toNat <<< 2
  return fromLeBytes (← ctx[off + i]?) (← ctx[off + i + 1]?) (← ctx[off + i + 2]?)
    (← ctx[off + i + 3]?)

def ctxb (ctx : Bytes) (off : Nat) : Round Word := do
  return byteWord (← ctx[off]?)

/-- `a + b` on u32 where the source does not wrap. -/
def addU32 (a b : Word) : Option Word :=
  if a.toNat + b.toNat < 2 ^ 32 then some (a + b) else none

/-- The ciphertext read `ct[((x & 0xFFF) + (rsi & !0xFFF)) as usize]` of round 1. -/
def ctPage (ct : Bytes) (rsi x : Word) : Round Word := do
  let i ← addU32 (x &&& 0xFFF) (rsi &&& ~~~0xFFF)
  return byteWord (← ct[i.toNat]?)

end Temari.RoundMachine
