import Temari.Round1Reads
import Temari.Cbc

/-! The window of a block and the place of its bytes: round 1 reads the block's own sixteen bytes,
and the pairs of round 3 put sixteen bytes back at the same sixteen positions. -/
namespace Temari.BlockPlacement
open RoundMachine Relational RoundRules RoundWindow Rounds Round1 BlockSim Round3Sim BlockLoop Cbc
  InputReads Round1Reads
variable {T : Template} {sample : Bytes} {i : Nat}

theorem blockPos_of_lt (hlen : sample.length < 2 ^ 32) (hi : i < sample.length / 16) :
    (blockPos i).toNat = 16 * i := by
  rw [blockPos_toNat, Nat.mod_eq_of_lt (by omega), Nat.mul_comm]

theorem readOrder_perm (lo : Nat) :
    (readOrder.map fun k => lo + k.toNat).Perm (List.range' lo 16) := by
  have hrange : List.range' lo 16 = (List.range' 0 16).map fun k => lo + k := by
    rw [List.range'_eq_map_range, List.range'_eq_map_range, List.map_map]
    simp
  have horder : (readOrder.map BitVec.toNat).Perm (List.range' 0 16) := by decide
  rw [hrange, ← Function.comp_def (fun k => lo + k) BitVec.toNat, ← List.map_map]
  exact horder.map _

/-- The reads of round 1, with the registers process_block enters it with. -/
theorem window_reads (hctx : 0x8000 ≤ T.ctx.length) (hlen : sample.length < 2 ^ 32)
    (hi : i < sample.length / 16) (s : St) {regs : Round1Regs}
    (hrdi : regs.rdi = 0x1EB2C6B4 ^^^ (BitVec.ofNat 32 i <<< 4))
    (hrsi : addU32 0x8 (BitVec.ofNat 32 i <<< 4) = some regs.rsi) :
    ∃ l mid t, Reads readByte (headOf sample) (fun c => round1Mid T.ctx c regs) s l mid t ∧
      l.Perm (List.range' (16 * i) 16) := by
  have hpos := blockPos_of_lt hlen hi
  have hlast : (blockPos i).toNat + 15 < (headOf sample).length := by
    rw [headOf_length]
    omega
  rw [addU32_blockPos, Option.some.injEq] at hrsi
  obtain ⟨mid, t, hreads⟩ := round1Mid_traced hctx (blockPos_and i) hlast hrdi hrsi.symm s nofun
  refine ⟨_, mid, t, hreads, ?_⟩
  rw [hpos]
  exact readOrder_perm _

/-- So the run depends on those bytes alone, and a ciphertext that ends before the last of them
makes it fail. -/
theorem window_decides (hctx : 0x8000 ≤ T.ctx.length) (hlen : sample.length < 2 ^ 32)
    (hi : i < sample.length / 16) (s : St) {regs : Round1Regs}
    (hrdi : regs.rdi = 0x1EB2C6B4 ^^^ (BitVec.ofNat 32 i <<< 4))
    (hrsi : addU32 0x8 (BitVec.ofNat 32 i <<< 4) = some regs.rsi) (c : Bytes) :
    (block c i = block sample i →
      round1Mid T.ctx c regs s = round1Mid T.ctx (headOf sample) regs s) ∧
    (c <+: headOf sample → c.length < 16 * i + 16 → round1Mid T.ctx c regs s = none) := by
  obtain ⟨l, mid, t, hreads, hperm⟩ := window_reads hctx hlen hi s hrdi hrsi
  have hmem (k : Nat) (hk : k ∈ l) : 16 * i ≤ k ∧ k < 16 * i + 16 :=
    List.mem_range'_1.mp (hperm.mem_iff.mp hk)
  refine ⟨fun hblock => (hreads.agree fun k hk => ?_).trans hreads.result.symm, fun hc hshort => ?_⟩
  · obtain ⟨hlo, hhi⟩ := hmem k hk
    have hbyte := block_getElem? c i (k := k - 16 * i) (by omega)
    rw [hblock, block_getElem? sample i (by omega),
      show i * 16 + (k - 16 * i) = k by omega] at hbyte
    rw [readByte, readByte, ← hbyte, headOf, List.getElem?_take_of_lt (by omega)]
  · refine hreads.need (fun k hk => ?_) ⟨16 * i + 15, ?_, ?_⟩
    · by_cases hkc : k < c.length
      · right
        rw [readByte, readByte, List.getElem?_eq_getElem hkc]
        exact (List.prefix_iff_getElem?.mp hc k hkc).symm
      · exact Or.inl (List.getElem?_eq_none (by omega))
    · exact hperm.mem_iff.mpr (List.mem_range'_1.mpr ⟨by omega, by omega⟩)
    · exact List.getElem?_eq_none (by omega)

end Temari.BlockPlacement
