import Temari.RegionPaths
import Temari.Cbc

/-! What an in-place path leaves of the buffer it was given. With the counter slot at 8 every
byte of the region is overwritten; with any other value byte 8 of the first block is not. -/
namespace Temari.BufferResidue
open RoundMachine Relational RoundRules RoundWindow Rounds BlockSim Round3Sim BlockLoop Cbc
  RegionPaths
variable {T : Template} {ct sample out out' : Bytes}

section Overwritten

/-- The same blocks are written over any output, and the rest of it stays. -/
theorem blocks_overwrite (hctx : 0x8000 ≤ T.ctx.length) (h8 : constOf T 0x220 = 8) {n : Nat}
    (hn : n ≤ ct.length / 16) : ∃ st plain, plain.length = n * 16 ∧ Entry T False n n st st ∧
      ∀ out : Bytes, n * 16 ≤ out.length →
        blocksUpTo T ct out n = some (st, plain ++ out.drop (n * 16)) := by
  induction n with
  | zero => exact ⟨T.stInit, [], rfl, Entry.start (fun _ _ => rfl) _,
      fun out _ => by simp [blocksUpTo]⟩
  | succ n ih =>
    obtain ⟨st, plain, hlen, hentry, hrun⟩ := ih (by omega)
    obtain ⟨pt, st', hpt, hfst⟩ := blockPairs_offsets hctx (by omega : n < ct.length / 16) hentry
    rw [counterAt_eq h8] at hfst
    obtain ⟨st'', hstep⟩ := blockStep_of_pairs hpt
    have hturn (out : Bytes) (hout : (n + 1) * 16 ≤ out.length) : blocksUpTo T ct out (n + 1) =
        some (st'', plain ++ pt.toList.map Prod.snd ++ out.drop ((n + 1) * 16)) := by
      have hroom : n * 16 + 16 ≤ (plain ++ out.drop (n * 16)).length := by
        rw [List.length_append, List.length_drop]
        omega
      rw [blocksUpTo_succ, hrun out (by omega)]
      refine (hstep _ _ hroom (reconstructBlock_aligned (blockPos_and n) hfst
        (block_length hroom))).trans ?_
      rw [splice, List.take_left' hlen, ← hlen, List.drop_append, List.drop_drop]
      simp [Nat.succ_mul, hlen]
    obtain ⟨sn, outn, hnext, -, hentry', -⟩ := blocksUpTo_isSome hctx ct
      (List.replicate ((n + 1) * 16) 0) hn (by simp)
    rw [hturn _ (by simp), Option.some.injEq, Prod.mk.injEq] at hnext
    refine ⟨st'', plain ++ pt.toList.map Prod.snd, ?_, hnext.1 ▸ hentry', hturn⟩
    rw [List.length_append, hlen, List.length_map, Vector.length_toList, Nat.succ_mul]

theorem decryptRegionInto_aligned (hctx : 0x8000 ≤ T.ctx.length) (h8 : constOf T 0x220 = 8)
    (hout : out.length = sample.length) : decryptRegionInto T sample out = decrypt T sample := by
  obtain ⟨st, plain, hlen, -, hrun⟩ :=
    blocks_overwrite hctx h8 (Nat.le_of_eq (headOf_blocks sample).symm)
  have hrun' (o : Bytes) (ho : o.length = sample.length / 16 * 16) :
      decryptBlocksInto T (headOf sample) o = some plain := by
    rw [decryptBlocksInto, headOf_blocks]
    change (blocksUpTo T (headOf sample) o _).bind _ = _
    rw [hrun o (Nat.le_of_eq ho.symm), List.drop_of_length_le (Nat.le_of_eq ho), List.append_nil]
    rfl
  have hregion (o : Bytes) (ho : o.length = sample.length) :
      decryptRegionInto T sample o = some (plain ++ tailOf sample) := by
    rw [decryptRegionInto_eq, slice_zero, if_pos (by omega)]
    simp only [Option.bind_eq_bind, Option.bind_some]
    rw [hrun' _ (by rw [List.length_take]; omega)]
    exact copyTail_splice hlen (by rw [tailOf, List.length_drop]; omega)
  rw [hregion out hout, ← decryptRegionInto_zeros hctx, hregion _ (List.length_replicate ..)]

theorem decryptRegionInto_short (h : sample.length < 16) (hout : out.length = sample.length) :
    decryptRegionInto T sample out = some sample := by
  have hzero : sample.length / 16 * 16 = 0 := by omega
  simp [decryptRegionInto, hzero, copyTail, hout]

end Overwritten

section Kept

/-- A place none of the pairs names keeps its byte. -/
theorem writePairs_keep {base : Word} {k : Nat} (l : List (Word × UInt8))
    (hl : ∀ p ∈ l, (p.1 - base).toNat ≠ k) {blk a : Bytes}
    (h : l.foldlM (writePair base) blk = some a) : a[k]? = blk[k]? := by
  induction l generalizing blk with
  | nil =>
    cases h
    rfl
  | cons p l ih =>
    rw [List.foldlM_cons] at h
    obtain ⟨b, hb, hrest⟩ := Option.bind_eq_some_iff.mp h
    refine (ih (fun q hq => hl q (List.mem_cons_of_mem _ hq)) hrest).trans ?_
    have hp := hl p List.mem_cons_self
    simp only [writePair, subU32] at hb
    split at hb
    next hle =>
      simp only [Option.bind_eq_bind, Option.bind_some, writeAt] at hb
      split at hb
      next =>
        split at hb
        next =>
          cases hb
          exact List.getElem?_set_ne hp
        next => cases hb
      next =>
        cases hb
        rfl
    next => cases hb

/-- In the first block of a sample the ninth pair goes where the counter says. -/
theorem reconstructBlock_keeps {c : Word} (hc : c ≠ 8) {pt : Vector (Word × UInt8) 16}
    (hpt : pt.toList.map Prod.fst = offsets 0 c) {blk a : Bytes}
    (h : reconstructBlock pt blk = some a) : a[8]? = blk[8]? := by
  have h0 : pt[0].1 = 0 := by
    have h := congrArg (fun l => l[0]?) hpt
    simpa [offsets] using h
  have hbase : ptBase pt = 0 := by
    rw [ptBase, h0]
    exact foldl_min_eq _ _ fun p _ => by simp [BitVec.le_def]
  rw [reconstructBlock_eq, hbase] at h
  refine writePairs_keep _ (fun p hp heq => ?_) h
  have hmem := List.mem_map_of_mem (f := Prod.fst) hp
  rw [hpt] at hmem
  have hfst : p.1 = 8 := by
    have hsub : p.1 - 0 = p.1 := BitVec.sub_zero p.1
    rw [hsub] at heq
    exact BitVec.eq_of_toNat_eq heq
  rw [hfst] at hmem
  simp only [offsets, List.mem_cons, List.not_mem_nil, or_false] at hmem
  revert hmem
  simpa using Ne.symm hc

theorem firstStep_keeps (hctx : 0x8000 ≤ T.ctx.length) (h8 : constOf T 0x220 ≠ 8)
    (hct : 0 < ct.length / 16) (hout : 16 ≤ out.length) {st : St} {a : Bytes} (ha : a.length = 16)
    (h : blockStep T ct (T.stInit, out) 0 = some (st, splice out (0 * 16) a)) :
    a[8]? = out[8]? := by
  obtain ⟨pt, _, hpt, hfst⟩ := blockPairs_offsets hctx hct (Entry.start (fun _ _ => rfl) _)
  obtain ⟨_, hstep⟩ := blockStep_of_pairs hpt
  have hroom : 0 * 16 + 16 ≤ out.length := by omega
  obtain ⟨b, hb, hbl⟩ := reconstructBlock_isSome pt (block_length hroom)
  have hab : a = b := by
    have heq := h.symm.trans (hstep out b hroom hb)
    rw [Option.some.injEq, Prod.mk.injEq] at heq
    have hblock := congrArg (fun x => block x 0) heq.2
    rwa [block_splice_self ha hroom, block_splice_self hbl hroom] at hblock
  have hc : counterAt T 0 ≠ 8 := by simpa [counterAt] using h8
  have hkeep := reconstructBlock_keeps hc hfst hb
  rwa [← hab, block_getElem? _ _ (by decide)] at hkeep

/-- The loop never writes byte 8 of the first block. -/
theorem decryptBlocksInto_keeps (hctx : 0x8000 ≤ T.ctx.length) (h8 : constOf T 0x220 ≠ 8)
    (hct : 0 < ct.length / 16) (hout : ct.length / 16 * 16 ≤ out.length) {o : Bytes}
    (h : decryptBlocksInto T ct out = some o) : o[8]? = out[8]? := by
  obtain ⟨st, o', hrun, -, -, htrace⟩ := blocksUpTo_isSome hctx ct out (Nat.le_refl _) hout
  obtain ⟨_, _, _, a, hrun0, -, ha, -, hstep, hblock⟩ := htrace 0 hct
  cases hrun0
  have ho : o = o' := by
    rw [decryptBlocksInto] at h
    change (blocksUpTo T ct out _).bind _ = _ at h
    rw [hrun] at h
    exact (Option.some.inj h).symm
  have hfirst := firstStep_keeps hctx h8 hct (by omega) ha hstep
  rwa [← hblock, block_getElem? _ _ (by decide), Nat.zero_mul, Nat.zero_add, ← ho] at hfirst

theorem decryptRegionInto_keeps (hctx : 0x8000 ≤ T.ctx.length) (h8 : constOf T 0x220 ≠ 8)
    (hlong : 16 ≤ sample.length) (hout : out.length = sample.length) {o : Bytes}
    (h : decryptRegionInto T sample out = some o) : o[8]? = out[8]? := by
  have hhead : (out.take (sample.length / 16 * 16)).length = sample.length / 16 * 16 := by
    rw [List.length_take]
    omega
  obtain ⟨_, p, -, hp, hlen⟩ := decryptBlocksInto_isSome hctx (headOf sample)
    (out.take (sample.length / 16 * 16)) (by rw [headOf_blocks, hhead])
  have hkeep := decryptBlocksInto_keeps hctx h8 (by rw [headOf_blocks]; omega)
    (by rw [headOf_blocks, hhead]) hp
  rw [decryptRegionInto_eq, slice_zero, if_pos (by omega)] at h
  simp only [Option.bind_eq_bind, Option.bind_some, hp] at h
  rw [copyTail_splice (hlen.trans hhead) (by rw [tailOf, List.length_drop]; omega)] at h
  cases h
  rw [List.getElem?_append_left (by omega), hkeep, List.getElem?_take_of_lt (by omega)]

end Kept

end Temari.BufferResidue
