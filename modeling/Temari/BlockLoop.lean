import Temari.BlockSim

/-! The loop over the blocks of a sample. Two runs of the loop are compared block by
block; a run compared with itself shows that the loop does not fail. -/
namespace Temari.BlockLoop
open RoundMachine Relational RoundRules RoundWindow Rounds BlockSim Round3Sim
variable {T T' : Template} {ct ct' out out' : Bytes}

/-- Block i of a byte string. -/
def block (b : Bytes) (i : Nat) : Bytes := (b.drop (i * 16)).take 16

section Slices

theorem block_length {b : Bytes} {i : Nat} (h : i * 16 + 16 ≤ b.length) :
    (block b i).length = 16 := by
  simp only [block, List.length_take, List.length_drop]
  omega

theorem slice_block {b : Bytes} {i : Nat} (h : i * 16 + 16 ≤ b.length) :
    slice b (i * 16) (i * 16 + 16) = some (block b i) := by
  rw [slice, if_pos ⟨by omega, h⟩, block, List.drop_take]
  simp

theorem splice_length {b a : Bytes} {lo : Nat} (h : lo + a.length ≤ b.length) :
    (splice b lo a).length = b.length := by
  simp only [splice, List.length_append, List.length_take, List.length_drop]
  omega

theorem block_getElem? (b : Bytes) (i : Nat) {k : Nat} (hk : k < 16) :
    (block b i)[k]? = b[i * 16 + k]? := by
  rw [block, List.getElem?_take_of_lt hk, List.getElem?_drop]

theorem splice_getElem? {b a : Bytes} {lo : Nat} (h : lo + a.length ≤ b.length) (k : Nat) :
    (splice b lo a)[k]? = if lo ≤ k ∧ k < lo + a.length then a[k - lo]? else b[k]? := by
  have hlo : (b.take lo).length = lo := by
    rw [List.length_take]
    omega
  rw [splice, List.append_assoc]
  by_cases h1 : k < lo
  · rw [List.getElem?_append_left (by omega), List.getElem?_take_of_lt h1, if_neg (by omega)]
  · rw [List.getElem?_append_right (by omega), hlo]
    by_cases h2 : k < lo + a.length
    · rw [List.getElem?_append_left (by omega), if_pos ⟨by omega, h2⟩]
    · rw [List.getElem?_append_right (by omega), List.getElem?_drop, if_neg (by omega)]
      congr 1
      omega

theorem block_ext {a b : Bytes} (ha : a.length = 16) (hb : b.length = 16)
    (h : ∀ k < 16, a[k]? = b[k]?) : a = b := by
  refine List.ext_getElem? fun k => ?_
  by_cases hk : k < 16
  · exact h k hk
  · rw [List.getElem?_eq_none (by omega), List.getElem?_eq_none (by omega)]

theorem block_splice_self {b a : Bytes} {i : Nat} (ha : a.length = 16)
    (h : i * 16 + 16 ≤ b.length) : block (splice b (i * 16) a) i = a := by
  refine block_ext (block_length (by rw [splice_length (by omega)]; exact h)) ha fun k hk => ?_
  rw [block_getElem? _ _ hk, splice_getElem? (by omega), if_pos (by omega)]
  congr 1
  omega

theorem block_splice_ne {b a : Bytes} {i j : Nat} (ha : a.length = 16) (hij : i ≠ j)
    (h : j * 16 + 16 ≤ b.length) : block (splice b (j * 16) a) i = block b i := by
  refine List.ext_getElem? fun k => ?_
  by_cases hk : k < 16
  · rw [block_getElem? _ _ hk, block_getElem? _ _ hk, splice_getElem? (by omega), if_neg (by omega)]
  · rw [List.getElem?_eq_none (by simp [block]; omega),
      List.getElem?_eq_none (by simp [block]; omega)]

end Slices

section Windows

theorem sameWindow_self {i : Nat} (hi : i < ct.length / 16) :
    SameWindow ct ct (blockPos i) (blockPos i) := by
  intro k hk
  have hlt : (blockPos i).toNat + k < ct.length := by
    have h := Nat.mod_le (i * 16) (2 ^ 32)
    rw [blockPos_toNat]
    omega
  exact ⟨ct[(blockPos i).toNat + k], List.getElem?_eq_getElem hlt, List.getElem?_eq_getElem hlt⟩

theorem sameWindow_of_block {i j : Nat} (hi : i < ct.length / 16) (hi' : i * 16 < 2 ^ 32)
    (hj' : j * 16 < 2 ^ 32) (h : block ct i = block ct' j) :
    SameWindow ct ct' (blockPos i) (blockPos j) := by
  intro k hk
  rw [blockPos_toNat, blockPos_toNat, Nat.mod_eq_of_lt hi', Nat.mod_eq_of_lt hj',
    ← block_getElem? ct i hk, ← block_getElem? ct' j hk, ← h, block_getElem? ct i hk]
  have hlt : i * 16 + k < ct.length := by omega
  exact ⟨_, List.getElem?_eq_getElem hlt, List.getElem?_eq_getElem hlt⟩

end Windows

section Entry

def constOf (T : Template) (k : Nat) : Word := if h : k < stSize then T.stInit[k] else 0

/-- The counter slot at the start of block i. -/
def counterAt (T : Template) (i : Nat) : Word := constOf T 0x220 + BitVec.ofNat 32 (i * 16)

/-- A run of T at block i beside a run at block j. -/
def runsAt (T : Template) (chained : Prop) (i j : Nat) : Runs where
  const := constOf T
  chained := chained
  counter := counterAt T i
  counter' := counterAt T j
  pos := blockPos i
  pos' := blockPos j

/-- Both states may start their blocks. -/
abbrev Entry (T : Template) (chained : Prop) (i j : Nat) (s t : St) : Prop :=
  Holds (SlotFact.den (runsAt T chained i j)) entryFacts s t

theorem counterAt_succ (T : Template) (i : Nat) : counterAt T (i + 1) = counterAt T i + 0x10 := by
  rw [counterAt, counterAt, BitVec.add_assoc]
  congr 1
  apply BitVec.eq_of_toNat_eq
  rw [BitVec.toNat_add, BitVec.toNat_ofNat, BitVec.toNat_ofNat,
    show (16 : Word).toNat = 16 from rfl]
  omega

/-- The slots read in a block before they are written there. -/
def exposedSlots : List Nat := entryFacts.map Prod.fst

theorem Entry.start (h : ∀ k ∈ exposedSlots, T.stInit[k]? = T'.stInit[k]?) (chained : Prop) :
    Entry T chained 0 0 T.stInit T'.stInit := by
  intro k e hk hlt
  have hmem : (k, e) ∈ entryFacts := by
    obtain ⟨l, l', hl, -⟩ := List.lookup_eq_some_iff.mp hk
    rw [hl]
    simp
  have heq : T.stInit[k] = T'.stInit[k] := by
    have := h k (List.mem_map.mpr ⟨_, hmem, rfl⟩)
    rwa [Vector.getElem?_eq_getElem hlt, Vector.getElem?_eq_getElem hlt, Option.some.injEq] at this
  have hc : constOf T k = T.stInit[k] := dif_pos hlt
  have htag : ∀ f ∈ entryFacts, f.2 = .const ∨ f.2 = .chain ∨ f.2 = .counter ∧ f.1 = 0x220 := by
    decide +kernel
  obtain rfl | rfl | ⟨rfl, hk'⟩ := htag _ hmem
  · exact ⟨hc.symm, heq ▸ hc.symm⟩
  · exact fun _ => heq ▸ rfl
  · have h0 : counterAt T 0 = T.stInit[k] := by
      rw [counterAt, ← show k = 0x220 from hk', hc]
      simp
    exact ⟨h0.symm, heq ▸ h0.symm⟩

/-- Two runs of the same template may be put side by side, unchained. -/
theorem Entry.pair {i j : Nat} {s t : St} (hs : Entry T False i i s s)
    (ht : Entry T False j j t t) : Entry T False i j s t := by
  intro k e hk hlt
  have h1 := hs k e hk hlt
  have h2 := ht k e hk hlt
  have htag : ∀ f ∈ entryFacts, f.2 = .const ∨ f.2 = .chain ∨ f.2 = .counter := by decide +kernel
  have hmem : (k, e) ∈ entryFacts := by
    obtain ⟨l, l', hl, -⟩ := List.lookup_eq_some_iff.mp hk
    rw [hl]
    simp
  obtain rfl | rfl | rfl := htag _ hmem
  · exact ⟨h1.1, h2.1⟩
  · exact fun h => h.elim
  · exact ⟨h1.1, h2.1⟩

end Entry

/-- One turn of the loop in two runs. -/
theorem blockStep_sim (hT : SameKeys T T') {chained : Prop} {i j : Nat}
    (hw : SameWindow ct ct' (blockPos i) (blockPos j)) (ho : i * 16 + 16 ≤ out.length)
    (ho' : j * 16 + 16 ≤ out'.length) {s t : St} (h : Entry T chained i j s t) :
    ∃ s' a t' b, blockStep T ct (s, out) i = some (s', splice out (i * 16) a) ∧
      blockStep T' ct' (t, out') j = some (t', splice out' (j * 16) b) ∧
      BlockRel (runsAt T chained i j) (block out i) (block out' j) a b ∧
      ∀ chained', Entry T chained' (i + 1) (j + 1) s' t' := by
  obtain ⟨a, s', b, t', ha, hb, hrel, hexit⟩ :=
    processBlock_sim (r := runsAt T chained i j) hT rfl rfl hw (block_length ho)
    (block_length ho') s t h
  refine ⟨s', a, t', b, ?_, ?_, hrel, fun chained' =>
    RoundRules.Holds.next_block hexit rfl (counterAt_succ T i) (counterAt_succ T j)⟩
  · simp only [blockStep, slice_block ho, Option.bind_eq_bind, Option.bind_some, ha]
    rfl
  · simp only [blockStep, slice_block ho', Option.bind_eq_bind, Option.bind_some, hb]
    rfl

theorem blockRel_length {r : Runs} {blk blk' a b : Bytes} (h : BlockRel r blk blk' a b)
    (hb : blk.length = 16) (hb' : blk'.length = 16) : a.length = 16 ∧ b.length = 16 := by
  obtain ⟨p, q, -, hp, hq⟩ := h
  obtain ⟨a', ha, hla⟩ := reconstructBlock_isSome p hb
  obtain ⟨b', hb, hlb⟩ := reconstructBlock_isSome q hb'
  rw [hp, Option.some.injEq] at ha
  rw [hq, Option.some.injEq] at hb
  exact ⟨ha ▸ hla, hb ▸ hlb⟩

theorem sameKeys_self (h : 0x8000 ≤ T.ctx.length) : SameKeys T T where
  ctx := ⟨h, h, fun _ _ => rfl⟩
  rcx := rfl
  rax := rfl

/-- The pairs of a block do not depend on the output, and their offsets are known. -/
theorem blockPairs_offsets (hctx : 0x8000 ≤ T.ctx.length) {i : Nat}
    (hi : i < ct.length / 16) {st : St} (hst : Entry T False i i st st) :
    ∃ pt st', blockPairs T ct i st = some (pt, st') ∧
      pt.toList.map Prod.fst = offsets (blockPos i) (counterAt T i) := by
  obtain ⟨pt, st', _, _, hpt, -, hrel, -⟩ := blockPairs_sim (r := runsAt T False i i)
    (sameKeys_self hctx) rfl rfl (sameWindow_self hi) st st hst
  exact ⟨pt, st', hpt, hrel.fst⟩

/-- A turn of the loop puts the reconstruction of the pairs in the place of the block. -/
theorem blockStep_of_pairs {i : Nat} {st st' : St} {pt : Vector (Word × UInt8) 16}
    (hpt : blockPairs T ct i st = some (pt, st')) :
    ∃ st'', ∀ (out a : Bytes), i * 16 + 16 ≤ out.length →
      reconstructBlock pt (block out i) = some a →
        blockStep T ct (st, out) i = some (st'', splice out (i * 16) a) := by
  obtain ⟨st'', hstep⟩ := processBlock_of_pairs hpt
  refine ⟨st'', fun out a hout ha => ?_⟩
  simp only [blockStep, slice_block hout, Option.bind_eq_bind, Option.bind_some, hstep _ _ ha]
  rfl

/-- The loop over the first n blocks. -/
def blocksUpTo (T : Template) (ct out : Bytes) (n : Nat) : Option (St × Bytes) :=
  (List.range n).foldlM (blockStep T ct) (T.stInit, out)

theorem blocksUpTo_succ (T : Template) (ct out : Bytes) (n : Nat) :
    blocksUpTo T ct out (n + 1) = blocksUpTo T ct out n >>= fun acc => blockStep T ct acc n := by
  simp [blocksUpTo, List.range_succ, List.foldlM_append]

/-- The loop does not fail, and every block is written in its own turn only. -/
theorem blocksUpTo_isSome (hctx : 0x8000 ≤ T.ctx.length) (ct out : Bytes) {n : Nat}
    (hn : n ≤ ct.length / 16) (ho : n * 16 ≤ out.length) :
    ∃ st out', blocksUpTo T ct out n = some (st, out') ∧ out'.length = out.length ∧
      Entry T False n n st st ∧
      ∀ i < n, ∃ sti outi st' a, blocksUpTo T ct out i = some (sti, outi) ∧
        outi.length = out.length ∧ a.length = 16 ∧ Entry T False i i sti sti ∧
        blockStep T ct (sti, outi) i = some (st', splice outi (i * 16) a) ∧ block out' i = a := by
  induction n with
  | zero => exact ⟨T.stInit, out, rfl, rfl, Entry.start (fun _ _ => rfl) _, by simp⟩
  | succ n ih =>
    obtain ⟨st, out1, hrun, hlen, hentry, htrace⟩ := ih (by omega) (by omega)
    obtain ⟨s', a, t', b, hs, ht, hrel, hnext⟩ := blockStep_sim (sameKeys_self hctx)
      (sameWindow_self (by omega : n < ct.length / 16)) (by omega : n * 16 + 16 ≤ out1.length)
      (by omega : n * 16 + 16 ≤ out1.length) hentry
    rw [hs, Option.some.injEq, Prod.mk.injEq] at ht
    obtain ⟨ha, -⟩ := blockRel_length hrel (block_length (by omega)) (block_length (by omega))
    refine ⟨s', splice out1 (n * 16) a, ?_, ?_, ht.1 ▸ hnext False, ?_⟩
    · rw [blocksUpTo_succ, hrun]
      exact hs
    · rw [splice_length (by omega), hlen]
    · intro i hi
      by_cases hin : i = n
      · subst i
        exact ⟨st, out1, s', a, hrun, hlen, ha, hentry, hs, block_splice_self ha (by omega)⟩
      · obtain ⟨sti, outi, st', ai, h1, h2, h3, h4, h5, h6⟩ := htrace i (by omega)
        exact ⟨sti, outi, st', ai, h1, h2, h3, h4, h5, by
          rw [block_splice_ne ha hin (by omega), h6]⟩

/-- Decryption of an aligned prefix succeeds and keeps the length of the output. -/
theorem decryptBlocksInto_isSome (hctx : 0x8000 ≤ T.ctx.length) (ct out : Bytes)
    (ho : ct.length / 16 * 16 ≤ out.length) :
    ∃ st out', blocksUpTo T ct out (ct.length / 16) = some (st, out') ∧
      decryptBlocksInto T ct out = some out' ∧ out'.length = out.length := by
  obtain ⟨st, out', hrun, hlen, -⟩ := blocksUpTo_isSome hctx ct out (Nat.le_refl _) ho
  refine ⟨st, out', hrun, ?_, hlen⟩
  rw [decryptBlocksInto]
  change (blocksUpTo T ct out _).bind _ = _
  rw [hrun]
  rfl

section Decrypt

/-- The aligned prefix of a sample. -/
def headOf (sample : Bytes) : Bytes := sample.take (sample.length / 16 * 16)

def tailOf (sample : Bytes) : Bytes := sample.drop (sample.length / 16 * 16)

theorem headOf_length (sample : Bytes) : (headOf sample).length = sample.length / 16 * 16 := by
  rw [headOf, List.length_take]
  omega

theorem headOf_blocks (sample : Bytes) : (headOf sample).length / 16 = sample.length / 16 := by
  rw [headOf_length]
  omega

/-- decrypt is the block loop on the aligned prefix over zeros, then the tail. -/
theorem decrypt_eq (T : Template) (sample : Bytes) : decrypt T sample =
    (blocksUpTo T (headOf sample) (List.replicate (sample.length / 16 * 16) 0)
      (sample.length / 16)).map fun acc => acc.2 ++ tailOf sample := by
  have hslice : slice sample 0 (sample.length / 16 * 16) = some (headOf sample) := by
    rw [slice, if_pos ⟨by omega, by omega⟩, List.drop_zero]
    rfl
  simp only [decrypt, decryptInto, hslice, decryptSampleInto, decryptBlocksInto, headOf_blocks,
    Option.bind_eq_bind, Option.bind_some]
  by_cases h0 : sample.length / 16 = 0
  · simp [h0, blocksUpTo, tailOf]
  · rw [if_neg h0]
    change ((blocksUpTo T (headOf sample) _ _).bind _).bind _ = _
    cases blocksUpTo T (headOf sample) (List.replicate (sample.length / 16 * 16) 0)
      (sample.length / 16) <;> rfl

theorem decrypt_isSome (hctx : 0x8000 ≤ T.ctx.length) (sample : Bytes) :
    ∃ out, decrypt T sample = some out ∧ out.length = sample.length := by
  obtain ⟨st, out, hrun, hlen, -⟩ := blocksUpTo_isSome hctx (headOf sample)
    (List.replicate (sample.length / 16 * 16) 0)
    (Nat.le_of_eq (headOf_blocks sample).symm) (by simp)
  refine ⟨out ++ tailOf sample, ?_, ?_⟩
  · rw [decrypt_eq, hrun]
    rfl
  · rw [List.length_append, hlen, List.length_replicate, tailOf, List.length_drop]
    omega

end Decrypt
end Temari.BlockLoop
