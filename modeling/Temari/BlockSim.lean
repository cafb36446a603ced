import Temari.Rounds
import Temari.Round1Sim
import Temari.Round2Sim
import Temari.Round3Sim

/-! One block in two runs: the rounds, the reconstruction of the plaintext bytes and
the pass of the chaining slots to the next block. -/
namespace Temari.BlockSim
open RoundMachine Relational RoundRules RoundWindow Rounds Round1 Round2 Round3 Round1Sim Round2Sim
  Round3Sim
variable {r : Runs}

/-- The block position as the rounds see it. -/
def blockPos (bi : Nat) : Word := BitVec.ofNat 32 bi <<< 4

theorem blockPos_toNat (bi : Nat) : (blockPos bi).toNat = bi * 16 % 2 ^ 32 := by
  simp only [blockPos, BitVec.toNat_shiftLeft, BitVec.toNat_ofNat, Nat.shiftLeft_eq]
  omega

theorem blockPos_and (bi : Nat) : blockPos bi &&& 15 = 0 := by
  apply BitVec.eq_of_toNat_eq
  rw [toNat_and_fifteen, blockPos_toNat]
  show _ = 0
  omega

theorem addU32_blockPos (bi : Nat) :
    addU32 0x8 (BitVec.ofNat 32 bi <<< 4) = some (8 + blockPos bi) := by
  have h := blockPos_toNat bi
  rw [addU32, if_pos]
  · rfl
  · rw [show (8 : Word).toNat = 8 from rfl]
    show 8 + (blockPos bi).toNat < 2 ^ 32
    omega

/-! The reconstruction of a block. -/
section Reconstruct

theorem foldl_min_le (l : List (Word × UInt8)) (b : Word) :
    l.foldl (fun base p => if p.1 < base then p.1 else base) b ≤ b ∧
      ∀ p ∈ l, l.foldl (fun base p => if p.1 < base then p.1 else base) b ≤ p.1 := by
  induction l generalizing b with
  | nil => simp
  | cons q l ih =>
    obtain ⟨h1, h2⟩ := ih (if q.1 < b then q.1 else b)
    have hb : (if q.1 < b then q.1 else b) ≤ b := by
      split
      · exact BitVec.le_of_lt ‹_›
      · exact BitVec.le_refl b
    have hq : (if q.1 < b then q.1 else b) ≤ q.1 := by
      split
      · exact BitVec.le_refl _
      · exact BitVec.not_lt.mp ‹_›
    refine ⟨BitVec.le_trans h1 hb, ?_⟩
    intro p hp
    obtain rfl | hp := List.mem_cons.mp hp
    · exact BitVec.le_trans h1 hq
    · exact h2 p hp

theorem foldl_min_eq (l : List (Word × UInt8)) (b : Word) (h : ∀ p ∈ l, b ≤ p.1) :
    l.foldl (fun base p => if p.1 < base then p.1 else base) b = b := by
  induction l with
  | nil => rfl
  | cons q l ih =>
    have hq : ¬ q.1 < b := BitVec.not_lt.mpr (h q (by simp))
    rw [List.foldl_cons, if_neg hq]
    exact ih fun p hp => h p (List.mem_cons_of_mem _ hp)

/-- Writing a pair: the checked difference to the base, then the bounded write. -/
def writePair (base : Word) (blk : Bytes) (p : Word × UInt8) : Option Bytes := do
  let idx := (← subU32 p.1 base).toNat
  if idx < 16 then writeAt blk idx p.2 else some blk

theorem reconstructBlock_eq (pt : Vector (Word × UInt8) 16) (blk : Bytes) :
    reconstructBlock pt blk = pt.toList.foldlM (writePair (ptBase pt)) blk := rfl

theorem writePair_isSome {base : Word} {blk : Bytes} {p : Word × UInt8} (hb : base ≤ p.1)
    (hl : blk.length = 16) : ∃ blk', writePair base blk p = some blk' ∧ blk'.length = 16 := by
  simp only [writePair, subU32, if_pos hb, Option.bind_eq_bind, Option.bind_some]
  split
  · rw [writeAt, if_pos (by omega)]
    exact ⟨_, rfl, by rw [List.length_set, hl]⟩
  · exact ⟨blk, rfl, hl⟩

theorem writePairs_isSome {base : Word} (l : List (Word × UInt8)) (hb : ∀ p ∈ l, base ≤ p.1)
    {blk : Bytes} (hl : blk.length = 16) :
    ∃ blk', l.foldlM (writePair base) blk = some blk' ∧ blk'.length = 16 := by
  induction l generalizing blk with
  | nil => exact ⟨blk, rfl, hl⟩
  | cons p l ih =>
    obtain ⟨blk1, h1, hl1⟩ := writePair_isSome (hb p (by simp)) hl
    obtain ⟨blk2, h2, hl2⟩ := ih (fun q hq => hb q (List.mem_cons_of_mem _ hq)) hl1
    refine ⟨blk2, ?_, hl2⟩
    rw [List.foldlM_cons, h1]
    exact h2

/-- The reconstruction never fails on a block of sixteen bytes. -/
theorem reconstructBlock_isSome (pt : Vector (Word × UInt8) 16) {blk : Bytes}
    (hl : blk.length = 16) : ∃ a, reconstructBlock pt blk = some a ∧ a.length = 16 :=
  writePairs_isSome _ (foldl_min_le _ _).2 hl

theorem offset_low {k : Nat} (hk : k < 16) : BitVec.ofNat 32 k &&& 15 = BitVec.ofNat 32 k := by
  apply BitVec.eq_of_toNat_eq
  rw [toNat_and_fifteen, BitVec.toNat_ofNat]
  omega

theorem position_toNat {pos : Word} (hp : pos &&& 15 = 0) {k : Nat} (hk : k < 16) :
    (pos + BitVec.ofNat 32 k).toNat = pos.toNat + k := by
  rw [offset_toNat hp (offset_low hk), BitVec.toNat_ofNat, Nat.mod_eq_of_lt (by omega)]

/-- A pair with offset k is written at k. -/
theorem writePair_at {pos : Word} (hp : pos &&& 15 = 0) {p : Word × UInt8} {k : Nat} (hk : k < 16)
    (hfst : p.1 = pos + BitVec.ofNat 32 k) {blk : Bytes} (hb : blk.length = 16) :
    writePair pos blk p = some (blk.set k p.2) := by
  have hle : pos ≤ p.1 := by
    rw [hfst, BitVec.le_def, position_toNat hp hk]
    omega
  have hidx : (p.1 - pos).toNat = k := by
    rw [hfst, BitVec.add_comm, BitVec.add_sub_cancel, BitVec.toNat_ofNat]
    omega
  simp only [writePair, subU32, if_pos hle, Option.bind_eq_bind, Option.bind_some, hidx]
  rw [if_pos hk, writeAt, if_pos (by omega)]

theorem writePairs_aligned {pos : Word} (hp : pos &&& 15 = 0) (l : List (Word × UInt8)) (k : Nat)
    (hl : l.map Prod.fst = (List.range' k l.length).map fun i => pos + BitVec.ofNat 32 i)
    (hk : k + l.length ≤ 16) {blk : Bytes} (hb : blk.length = 16) :
    l.foldlM (writePair pos) blk =
      some (blk.take k ++ l.map Prod.snd ++ blk.drop (k + l.length)) := by
  induction l generalizing k blk with
  | nil => simp
  | cons p l ih =>
    simp only [List.length_cons, List.range'_succ, List.map_cons, List.cons.injEq] at hl hk
    rw [List.foldlM_cons, writePair_at hp (by omega) hl.1 hb]
    show l.foldlM (writePair pos) (blk.set k p.2) = _
    rw [ih (k + 1) hl.2 (by omega) (by rw [List.length_set, hb])]
    have hset : (blk.set k p.2).take (k + 1) = blk.take k ++ [p.2] := by
      rw [List.take_set, List.take_succ_eq_append_getElem (by omega)]
      rw [List.set_append_right _ _ (by simp)]
      simp [Nat.min_eq_left (show k ≤ blk.length by omega)]
    rw [hset, List.drop_set_of_lt (by omega)]
    simp [Nat.add_assoc, Nat.add_comm 1]

theorem offsets_eq_range (pos : Word) : offsets pos (pos + 8) =
    (List.range' 0 16).map fun i => pos + BitVec.ofNat 32 i := rfl

/-- With the counter in step, the position is the least offset. -/
theorem ptBase_aligned {pos : Word} (hp : pos &&& 15 = 0) {pt : Vector (Word × UInt8) 16}
    (hpt : pt.toList.map Prod.fst = offsets pos (pos + 8)) : ptBase pt = pos := by
  have h0 : pt[0].1 = pos := by
    have h := congrArg (fun l => l[0]?) hpt
    simpa [offsets] using h
  rw [ptBase, h0]
  refine foldl_min_eq _ _ fun p hmem => ?_
  have hm := List.mem_map_of_mem (f := Prod.fst) hmem
  rw [hpt, offsets_eq_range] at hm
  obtain ⟨i, hi, hpi⟩ := List.mem_map.mp hm
  rw [List.mem_range'_1] at hi
  rw [← hpi, BitVec.le_def, position_toNat hp (by omega)]
  omega

/-- With the counter in step, the sixteen bytes of the pairs are the block. -/
theorem reconstructBlock_aligned {pos : Word} (hp : pos &&& 15 = 0) {pt : Vector (Word × UInt8) 16}
    (hpt : pt.toList.map Prod.fst = offsets pos (pos + 8)) {blk : Bytes} (hb : blk.length = 16) :
    reconstructBlock pt blk = some (pt.toList.map Prod.snd) := by
  have hlen : pt.toList.length = 16 := by simp
  rw [reconstructBlock_eq, ptBase_aligned hp hpt,
    writePairs_aligned hp _ 0 (by rw [hpt, hlen, offsets_eq_range]) (by omega) hb]
  simp [hlen, hb]

end Reconstruct

/-- The templates agree on what the rounds read of them besides the state. -/
structure SameKeys (T T' : Template) : Prop where
  ctx : SameTable T.ctx T'.ctx
  rcx : T.r1Entry.rcx &&& 0xFF = T'.r1Entry.rcx &&& 0xFF
  rax : T.r1Entry.rax &&& 0xFFFFFF = T'.r1Entry.rax &&& 0xFFFFFF

/-- The state after a block does not depend on what the block held. -/
theorem processBlock_of_pairs {T : Template} {ct : Bytes} {bi : Nat} {st st' : St}
    {pt : Vector (Word × UInt8) 16} (hpt : blockPairs T ct bi st = some (pt, st')) :
    ∃ st'', ∀ blk a, reconstructBlock pt blk = some a →
      processBlock T ct bi blk st = some (a, st'') := by
  have hread (k : Nat) (hk : k < stSize) (s : St) : ∃ v, load k s = some (v, s) :=
    ⟨s[k], dif_pos hk⟩
  have hwrite (k : Nat) (hk : k < stSize) (v : Word) (s : St) : ∃ s', store k v s = some ((), s') :=
    ⟨s.set k v, dif_pos hk⟩
  obtain ⟨v1, h1⟩ := hread 0x180 (by decide) st'
  obtain ⟨s2, h2⟩ := hwrite 0x108 (by decide) v1 st'
  obtain ⟨v3, h3⟩ := hread 0x220 (by decide) s2
  obtain ⟨s4, h4⟩ := hwrite 0x220 (by decide) (v3 + 0x10) s2
  refine ⟨s4, fun blk a ha => ?_⟩
  have hlift : (liftM (reconstructBlock pt blk) : Round Bytes) st' = some (a, st') := by
    rw [ha]
    rfl
  rw [processBlock, bind_run hpt, bind_run hlift, bind_run h1, bind_run h2, bind_run h3,
    bind_run h4]
  rfl

set_option maxRecDepth 4000 in
theorem beforeRound3_sim {T T' : Template} (hT : SameKeys T T') {ct ct' : Bytes} {bi bi' : Nat}
    (hpos : r.pos = blockPos bi) (hpos' : r.pos' = blockPos bi')
    (hct : SameWindow ct ct' r.pos r.pos') :
    Sim (Holds (SlotFact.den r) entryFacts) (beforeRound3 T ct bi) (beforeRound3 T' ct' bi')
      (fun a b s t => a = b ∧ Holds (SlotFact.den r) round2Facts s t) := by
  unfold beforeRound3
  extract_lets rdi e ctx rdi' e' ctx'
  refine Sim.lift (addU32_blockPos bi) (addU32_blockPos bi') ?_
  extract_lets regs regs'
  refine Sim.bind (round1Mid_sim hT.ctx hct (hpos ▸ blockPos_and bi) (hpos' ▸ blockPos_and bi')
    (hpos ▸ rfl) (hpos' ▸ rfl) (hpos ▸ rfl) (hpos' ▸ rfl) hT.rcx hT.rax) fun mid mid' =>
      Sim.assume ?_
  rintro ⟨hrax, hr13, hr15, hr8, hr14⟩
  rw [hrax, hr13, hr15, hr8, hr14]
  refine Sim.bind (round1Tail_sim hT.ctx _ _ _ _ _) fun r2 r2' => Sim.assume ?_
  rintro rfl
  refine Sim.bind (round2Sub6400_sim hT.ctx _ _ _ _ _ _ _ _ _ _ _ _ _ _) fun v v' => Sim.assume ?_
  rintro rfl
  repeat
    (try extract_lets)
    first
    | with_reducible refine Sim.lookup hT.ctx fun _ => ?_
    | with_reducible refine Sim.load_same fun _ => ?_
  exact Sim.pure fun s t h => ⟨rfl, h⟩

theorem blockPairs_sim {T T' : Template} (hT : SameKeys T T') {ct ct' : Bytes} {bi bi' : Nat}
    (hpos : r.pos = blockPos bi) (hpos' : r.pos' = blockPos bi')
    (hct : SameWindow ct ct' r.pos r.pos') :
    Sim (Holds (SlotFact.den r) entryFacts) (blockPairs T ct bi) (blockPairs T' ct' bi')
      (fun p q s t => PtRel r p q ∧ Holds (SlotFact.den r) round3Facts s t) := by
  rw [blockPairs, blockPairs]
  refine Sim.bind (beforeRound3_sim hT hpos hpos' hct) fun a a' => Sim.assume ?_
  rintro rfl
  refine Sim.bind (round3Sub8000_sim hT.ctx _ _ _ _ _ _ _ _ _ _ _) fun v v' =>
    Sim.assume fun hpt => ?_
  exact Sim.pure fun s t h => ⟨hpt, h⟩

/-- What one block leaves in the two outputs. -/
def BlockRel (r : Runs) (blk blk' a b : Bytes) : Prop :=
  ∃ p q, PtRel r p q ∧ reconstructBlock p blk = some a ∧ reconstructBlock q blk' = some b

theorem processBlock_sim {T T' : Template} (hT : SameKeys T T') {ct ct' : Bytes} {bi bi' : Nat}
    (hpos : r.pos = blockPos bi) (hpos' : r.pos' = blockPos bi')
    (hct : SameWindow ct ct' r.pos r.pos') {blk blk' : Bytes} (hb : blk.length = 16)
    (hb' : blk'.length = 16) :
    Sim (Holds (SlotFact.den r) entryFacts) (processBlock T ct bi blk)
      (processBlock T' ct' bi' blk')
      (fun a b s t => BlockRel r blk blk' a b ∧ Holds (SlotFact.den r) exitFacts s t) := by
  rw [processBlock, processBlock]
  refine Sim.bind (blockPairs_sim hT hpos hpos' hct) fun p q => Sim.assume fun hpq => ?_
  obtain ⟨a, ha, -⟩ := reconstructBlock_isSome p hb
  obtain ⟨b, hb, -⟩ := reconstructBlock_isSome q hb'
  refine Sim.lift ha hb ?_
  refine Sim.load_same fun _ => Sim.store_eq ?_
  refine Sim.load_counter (Sim.store_advanced ?_)
  refine Sim.pure fun s t h => ⟨⟨p, q, hpq, ha, hb⟩, h.restrict ?_⟩
  decide +kernel

end Temari.BlockSim
