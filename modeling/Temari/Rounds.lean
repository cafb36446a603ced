import Temari.Round1
import Temari.Round2
import Temari.Round3

/-! The core decryption: the template, one block through the three rounds, and the
per-sample loops that thread the state through the blocks of a sample. -/
namespace Temari.Rounds
open RoundMachine Round1 Round2 Round3

structure R1Entry where
  rdx : Word
  rcx : Word
  rax : Word
  r9 : Word
  rbp : Word

structure Template where
  ctx : Bytes
  stInit : St
  r1Entry : R1Entry

/-- A template whose counter slot is in step. -/
def eightTemplate : Template where
  ctx := List.replicate 0x8000 0
  stInit := Vector.replicate stSize 8
  r1Entry := ⟨0, 0, 0, 0, 0⟩

/-- `a - b` on u32 where the source does not wrap. -/
def subU32 (a b : Word) : Option Word := if b ≤ a then some (a - b) else none

/-- `blk[idx] = b`. -/
def writeAt (blk : Bytes) (idx : Nat) (b : UInt8) : Option Bytes :=
  if idx < blk.length then some (blk.set idx b) else none

/-- `&b[lo..hi]`. -/
def slice (b : Bytes) (lo hi : Nat) : Option Bytes :=
  if lo ≤ hi ∧ hi ≤ b.length then some ((b.take hi).drop lo) else none

/-- What the owner of `out` sees once the slice from `lo` on holds `part`. -/
def splice (out : Bytes) (lo : Nat) (part : Bytes) : Bytes :=
  out.take lo ++ part ++ out.drop (lo + part.length)

/-- `out[lo..].copy_from_slice(src)`, which panics unless the lengths agree. -/
def copyTail (out : Bytes) (lo : Nat) (src : Bytes) : Option Bytes :=
  if lo ≤ out.length ∧ out.length - lo = src.length then some (out.take lo ++ src) else none

/-- The least offset of the pairs. -/
def ptBase (pt : Vector (Word × UInt8) 16) : Word :=
  pt.toList.foldl (fun base p => if p.1 < base then p.1 else base) pt[0].1

def reconstructBlock (pt : Vector (Word × UInt8) 16) (blk : Bytes) : Option Bytes :=
  pt.toList.foldlM (fun blk (o, b) => do
    let idx := (← subU32 o (ptBase pt)).toNat
    if idx < 16 then writeAt blk idx b else some blk) blk

/-- The arguments process_block calls round3_sub8000 with. -/
structure Round3Args where
  a2 : Word
  a3 : Word
  a4 : Word
  a5 : Word
  a6 : Word
  v6 : Word
  v8 : Word
  v9 : Word
  v10 : Word
  v11 : Word
  v12 : Word

/-- process_block as far as the call of round3_sub8000. -/
def beforeRound3 (tmpl : Template) (ct : Bytes) (bi : Nat) : Round Round3Args := do
  let rdi := 0x1EB2C6B4 ^^^ (BitVec.ofNat 32 bi <<< 4)
  let rsi ← addU32 0x8 (BitVec.ofNat 32 bi <<< 4)
  let e := tmpl.r1Entry
  let regs : Round1Regs :=
    { rdi, rsi, rdx := e.rdx, rcx := e.rcx, r8 := 0, r9 := e.r9, rax := e.rax, rbx := 0,
      r10 := 0, r11 := 0, r12 := 0, r13 := 0, r14 := 0, r15 := 0, rbp := e.rbp }
  let ctx := tmpl.ctx
  let mid ← round1Mid ctx ct regs
  let r2 ← round1Tail ctx mid.rax (mid.r13 &&& 0xFF) (mid.r15 &&& 0xFF) (mid.r8 &&& 0xFF)
    (mid.r14 &&& 0xFF)
  let r2v ← round2Sub6400 ctx r2.rdi r2.rsi r2.rdx r2.rcx r2.r8 r2.r9 r2.rax r2.rbx r2.r10 r2.r11
    r2.r13 r2.r14 r2.r15 0
  let cp12 := r2v.cp12
  let r8p := cp12[2] ^^^ (← load 0x5B8) ^^^ cp12[1]
  let v6 := (← t4 ctx 0x46a0 ((← load 0x390) ^^^ 0x2B)) ^^^ (← load 0x5F0)
    ^^^ (← t4 ctx 0x4ac0 (((r8p >>> 24) &&& 0xFF) ^^^ 0x29))
    ^^^ (← t4 ctx 0x2ff0 ((((← load 0x298) >>> 16) &&& 0xFF) ^^^ 0xD6))
  let v9 := (← t4 ctx 0x4ac0 cp12[0]) ^^^ (← load 0x540)
    ^^^ (← t4 ctx 0x2ff0 (((r2v.v171 >>> 16) &&& 0xFF) ^^^ 0x69))
  let v11 := (← t4 ctx 0x3950 (((← load 0x298) &&& 0xFF) ^^^ 0x57)) ^^^ (← load 0x538)
    ^^^ (← t4 ctx 0x46a0 (((r8p >>> 8) &&& 0xFF) ^^^ 0x2F))
  let a2 ← load 0x270
  let a6 ← load 0x280
  return ⟨a2, r2v.v189, r8p &&& 0xFF, (r8p >>> 16) &&& 0xFFFF, a6, v6, (r8p >>> 16) &&& 0xFF, v9,
    r2v.v187 &&& 0xFF, v11, r2v.v189⟩

def runRound3 (ctx : Bytes) (a : Round3Args) : Round Round3Vals :=
  round3Sub8000 ctx a.a2 a.a3 a.a4 a.a5 a.a6 a.v6 a.v8 a.v9 a.v10 a.v11 a.v12

/-- process_block as far as the pairs that round3_sub8000 returns. -/
def blockPairs (tmpl : Template) (ct : Bytes) (bi : Nat) : Round (Vector (Word × UInt8) 16) := do
  let r3v ← runRound3 tmpl.ctx (← beforeRound3 tmpl ct bi)
  return r3v.pt

def processBlock (tmpl : Template) (ct : Bytes) (bi : Nat) (out16 : Bytes) : Round Bytes := do
  let pt ← blockPairs tmpl ct bi
  let out16 ← reconstructBlock pt out16
  store 0x108 (← load 0x180)
  store 0x220 ((← load 0x220) + 0x10)
  return out16

/-- One turn of the block loop, with the state and the output so far. -/
def blockStep (tmpl : Template) (ct : Bytes) (acc : St × Bytes) (bi : Nat) :
    Option (St × Bytes) := do
  let blk ← slice acc.2 (bi * 16) (bi * 16 + 16)
  let (blk, st) ← processBlock tmpl ct bi blk acc.1
  return (st, splice acc.2 (bi * 16) blk)

def decryptBlocksInto (tmpl : Template) (ct out : Bytes) : Option Bytes := do
  let acc ← (List.range (ct.length / 16)).foldlM (blockStep tmpl ct) (tmpl.stInit, out)
  return acc.2

/-- The two-lane loop: each lane has its own state and its own output. -/
def decryptBlocksPairInto (tmpl : Template) (ct1 ct2 out1 out2 : Bytes) :
    Option (Bytes × Bytes) := do
  let n1 := ct1.length / 16
  let n2 := ct2.length / 16
  let acc ← (List.range (max n1 n2)).foldlM (fun (acc : (St × Bytes) × St × Bytes) bi => do
      let l1 ← if bi < n1 then blockStep tmpl ct1 acc.1 bi else some acc.1
      let l2 ← if bi < n2 then blockStep tmpl ct2 acc.2 bi else some acc.2
      return (l1, l2))
    ((tmpl.stInit, out1), (tmpl.stInit, out2))
  return (acc.1.2, acc.2.2)

/-- Decrypt the aligned prefix into a reusable buffer; what the buffer held is cleared. -/
def decryptSampleInto (tmpl : Template) (ciphertext _out : Bytes) : Option Bytes :=
  let nblocks := ciphertext.length / 16
  if nblocks = 0 then some []
  else decryptBlocksInto tmpl ciphertext (List.replicate (nblocks * 16) 0)

def decryptRegionPairInto (tmpl : Template) (s1 s2 out1 out2 : Bytes) :
    Option (Bytes × Bytes) := do
  let h1 := s1.length / 16 * 16
  let h2 := s2.length / 16 * 16
  let (out1, out2) ← if h1 > 0 ∨ h2 > 0 then do
      let (o1, o2) ← decryptBlocksPairInto tmpl (← slice s1 0 h1) (← slice s2 0 h2)
        (← slice out1 0 h1) (← slice out2 0 h2)
      pure (splice out1 0 o1, splice out2 0 o2)
    else pure (out1, out2)
  return (← copyTail out1 h1 (s1.drop h1), ← copyTail out2 h2 (s2.drop h2))

def decryptRegionInto (tmpl : Template) (sample out : Bytes) : Option Bytes := do
  let head := sample.length / 16 * 16
  let out ← if head > 0 then do
      let o ← decryptBlocksInto tmpl (← slice sample 0 head) (← slice out 0 head)
      pure (splice out 0 o)
    else pure out
  copyTail out head (sample.drop head)

def decryptInto (tmpl : Template) (sample out : Bytes) : Option Bytes := do
  let headLen := sample.length / 16 * 16
  let out ← decryptSampleInto tmpl (← slice sample 0 headLen) out
  return out ++ sample.drop headLen

def decrypt (tmpl : Template) (sample : Bytes) : Option Bytes := decryptInto tmpl sample []

end Temari.Rounds
