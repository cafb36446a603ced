import Temari.Cbc
import Temari.LaneRounds
import Temari.Round3Lanes

/-! The CBC form of the decryptor, byte by byte: plaintext byte k of a block is one lookup of byte k
of the previous ciphertext block, itself looked up, mixed with a byte that only the block's own
ciphertext decides. -/
namespace Temari.CbcLanes
open RoundMachine Relational RoundRules RoundWindow Rounds BlockSim Round3Sim BlockLoop Cbc
open Round1 Round2 Round3 Round1Sim Round2Sim StoreTriples Lanes LaneRounds Round3Lanes
variable {T : Template} {ct : Bytes}

theorem beforeRound3_lanes {r : LaneRun} {bi : Nat} (hr : r.ctx = T.ctx)
    (hpos : r.pos = blockPos bi) (hw : Window r ct) :
    Triple (Seen r laneFacts) (beforeRound3 T ct bi) fun _ => Seen r byteFacts := by
  unfold beforeRound3
  extract_lets rdi e ctx
  refine Triple.lift (addU32_blockPos bi) ?_
  extract_lets regs
  have hmid : Triple (Seen r laneFacts) (round1Mid r.ctx ct regs) fun _ => Seen r byteFacts :=
    round1Mid_lanes hw (hpos ▸ blockPos_and bi) (hpos ▸ rfl) (hpos ▸ rfl)
  rw [hr] at hmid
  refine Triple.bind hmid fun mid => Triple.bind (round1Tail_lanes _ _ _ _ _ _) fun r2 => ?_
  refine Triple.bind (round2Sub6400_lanes _ _ _ _ _ _ _ _ _ _ _ _ _ _ _) fun v => ?_
  repeat
    (try extract_lets)
    with_reducible refine Triple.still fun _ => ?_
  exact Triple.pure fun _ h => h

theorem blockPairs_lanes {r : LaneRun} {bi : Nat} (hr : r.ctx = T.ctx) (hpos : r.pos = blockPos bi)
    (hw : Window r ct) :
    Triple (Seen r laneFacts) (blockPairs T ct bi) fun _ => Seen r copiedFacts := by
  rw [blockPairs]
  refine Triple.bind (beforeRound3_lanes hr hpos hw) fun a => ?_
  refine Triple.bind (round3Sub8000_lanes _ _ _ _ _ _ _ _ _ _ _ _) fun v => ?_
  exact Triple.pure fun _ h => h

/-- A block is chained with the one before it: afterwards each lane holds its byte. -/
theorem processBlock_lanes {r : LaneRun} {bi : Nat} (hr : r.ctx = T.ctx)
    (hpos : r.pos = blockPos bi) (hw : Window r ct) (blk : Bytes) :
    Triple (Seen r laneFacts) (processBlock T ct bi blk) fun _ => Seen r chainedFacts := by
  rw [processBlock]
  refine Triple.bind (blockPairs_lanes hr hpos hw) fun pt => ?_
  refine Triple.quiet lift_quiet fun blk' => ?_
  refine Triple.read_tag .byte (by decide) fun a ha => ?_
  refine Triple.write LaneFact.byte (show LaneFact.den r .byte 0x108 a a from ha) ?_
  refine Triple.read_any fun b => Triple.store_other ?_
  exact Triple.pure fun _ h => h.restrict (by decide +kernel)

/-- A run at the start of block bi, whose ciphertext is C. -/
structure BlockRun (T : Template) (C : Bytes) where
  ct : Bytes
  bi : Nat
  st : St
  entry : Entry T False bi bi st st
  window : ∀ k < 16, ∃ b, ct[(blockPos bi).toNat + k]? = some b ∧ C[k]? = some b

variable {C : Bytes}

/-- The byte the block is chained with in the lane of a slot. -/
def BlockRun.lane (x : BlockRun T C) (k : Nat) : UInt8 :=
  if h : k < stSize then wordByte x.st[k] else 0

def BlockRun.run (x : BlockRun T C) : LaneRun where
  ctx := T.ctx
  pos := blockPos x.bi
  window := fun k => C.getD k 0
  lane := x.lane

theorem BlockRun.seen (x : BlockRun T C) : Seen x.run laneFacts x.st := by
  intro k e hk hlt
  have hmem : (k, e) ∈ laneFacts := by
    obtain ⟨l, l', hl, -⟩ := List.lookup_eq_some_iff.mp hk
    rw [hl]
    simp
  obtain ⟨k', -, heq⟩ := List.mem_map.mp hmem
  cases heq
  show x.st[k] &&& 0xFF = byteWord (x.lane k)
  rw [BlockRun.lane, dif_pos hlt, low_eq_byteWord]

theorem BlockRun.seenWindow (x : BlockRun T C) : Window x.run x.ct := by
  intro k hk
  obtain ⟨b, hct, hC⟩ := x.window k hk
  show x.ct[(blockPos x.bi).toNat + k]? = some (C.getD k 0)
  rw [hct, List.getD_eq_getElem?_getD, hC]
  rfl

theorem BlockRun.sameWindow (x y : BlockRun T C) :
    SameWindow x.ct y.ct (blockPos x.bi) (blockPos y.bi) := by
  intro k hk
  obtain ⟨b, hx, hC⟩ := x.window k hk
  obtain ⟨b', hy, hC'⟩ := y.window k hk
  cases hC.symm.trans hC'
  exact ⟨b, hx, hy⟩

/-- All runs at a block with the same ciphertext come to round 3 with the same arguments and, but
for the bytes they are chained with, the same slots. -/
theorem beforeRound3_family (hctx : 0x8000 ≤ T.ctx.length) (x : BlockRun T C) :
    ∃ args v, ∀ y : BlockRun T C, ∃ u, beforeRound3 T y.ct y.bi y.st = some (args, u) ∧
      Seen y.run byteFacts u ∧ Holds (SlotFact.den (runsAt T False y.bi x.bi)) round2Facts u v := by
  have hboth (y : BlockRun T C) := beforeRound3_sim (r := runsAt T False y.bi x.bi)
    (sameKeys_self hctx) rfl rfl (y.sameWindow x) y.st x.st (y.entry.pair x.entry)
  obtain ⟨args, v, -, -, hx, -⟩ := hboth x
  refine ⟨args, v, fun y => ?_⟩
  obtain ⟨a, u, b, w, hu, hw, rfl, hsame⟩ := hboth y
  obtain ⟨rfl, rfl⟩ := Prod.mk.inj (Option.some.inj (hx.symm.trans hw))
  exact ⟨u, hu, beforeRound3_lanes rfl rfl y.seenWindow _ _ _ y.seen hu, hsame⟩

/-- What the runs have in common at the start of round 3 follows from what each has. -/
def RunFact.known (k : Nat) : RunFact → Bool
  | .eq => (round2Facts.lookup k).any fun e => decide (e = .eq ∨ e = .const)
  | .lane => decide (byteFacts.lookup k = some .lane)

theorem holdsAll_start {x : BlockRun T C} {u : BlockRun T C → St} {v : St}
    (hseen : ∀ y, Seen y.run byteFacts (u y))
    (hsame : ∀ y, Holds (SlotFact.den (runsAt T False y.bi x.bi)) round2Facts (u y) v) :
    HoldsAll (RunFact.den BlockRun.lane) startFacts u := by
  intro k e hk hlt
  have hmem : (k, e) ∈ startFacts := by
    obtain ⟨l, l', hl, -⟩ := List.lookup_eq_some_iff.mp hk
    rw [hl]
    simp
  have hknown : ∀ f ∈ startFacts, RunFact.known f.1 f.2 = true := by decide +kernel
  have htag := hknown _ hmem
  cases e with
  | eq =>
    obtain ⟨e, he, hor⟩ := (Option.any_eq_true _ _).mp htag
    have hden (y : BlockRun T C) := hsame y k e he hlt
    refine ⟨v[k], fun y => ?_⟩
    obtain rfl | rfl := of_decide_eq_true hor
    · exact hden y
    · exact (hden y).1.trans (hden y).2.symm
  | lane => exact fun y => hseen y k _ (of_decide_eq_true htag) hlt

/-- The bytes that the ciphertext of a block mixes into its lanes. -/
theorem block_mixes (hctx : 0x8000 ≤ T.ctx.length) (C : Bytes) :
    ∃ gs : Bytes, gs.length = 16 ∧ ∀ y : BlockRun T C, ∃ pt st,
      blockPairs T y.ct y.bi y.st = some (pt, st) ∧ pt.toList.map Prod.snd =
        List.zipWith (fun k g => outTable T.ctx (y.lane k ^^^ g)) chainOrder gs := by
  obtain hnone | ⟨⟨x⟩⟩ := isEmpty_or_nonempty (BlockRun T C)
  · exact ⟨List.replicate 16 0, rfl, fun y => (hnone.false y).elim⟩
  obtain ⟨args, v, hall⟩ := beforeRound3_family hctx x
  choose u hu hseen hsame using hall
  obtain ⟨r, w, hrun, gs, hlen, hgs⟩ := round3Sub8000_mixes hctx BlockRun.lane args.a2 args.a3
    args.a4 args.a5 args.a6 args.v6 args.v8 args.v9 args.v10 args.v11 args.v12 u
    (holdsAll_start hseen hsame)
  refine ⟨gs, hlen, fun y => ⟨(r y).pt, w y, ?_, hgs y⟩⟩
  rw [blockPairs, bind_run (hu y)]
  exact bind_run (hrun y)

section Turns
variable {s : Bytes} {k : Nat} {u u' v v' : St} {a b outk outl : Bytes}

theorem block_window (hk : k < s.length / 16) (hs : s.length < 2 ^ 32) :
    ∀ j < 16, ∃ b, (headOf s)[(blockPos k).toNat + j]? = some b ∧ (block s k)[j]? = some b := by
  intro j hj
  have hlt : k * 16 + j < s.length := by omega
  refine ⟨s[k * 16 + j], ?_, ?_⟩
  · rw [blockPos_toNat, Nat.mod_eq_of_lt (by omega), ← block_getElem? _ _ hj, block_headOf hk,
      block_getElem? _ _ hj, List.getElem?_eq_getElem hlt]
  · rw [block_getElem? _ _ hj, List.getElem?_eq_getElem hlt]

def blockRun (h : Turn T s k u u' a outk) (hk : k < s.length / 16) (hs : s.length < 2 ^ 32) :
    BlockRun T (block s k) :=
  ⟨headOf s, k, u, h.entry, block_window hk hs⟩

/-- What a turn writes are the bytes of the pairs, in their order. -/
theorem turn_bytes (hctx : 0x8000 ≤ T.ctx.length) (h8 : constOf T 0x220 = 8)
    (h : Turn T s k u u' a outk) (hk : k < s.length / 16) {pt : Vector (Word × UInt8) 16} {w : St}
    (hpt : blockPairs T (headOf s) k u = some (pt, w)) : a = pt.toList.map Prod.snd := by
  obtain ⟨p, x, hp, hoff⟩ := blockPairs_offsets hctx (by rw [headOf_blocks]; exact hk) h.entry
  obtain ⟨rfl, rfl⟩ := Prod.mk.inj (Option.some.inj (hpt.symm.trans hp))
  rw [counterAt_eq h8] at hoff
  obtain ⟨x', hstep⟩ := blockStep_of_pairs hpt
  have hrec := reconstructBlock_aligned (blockPos_and k) hoff (block_length h.room)
  have hsame := (hstep outk _ h.room hrec).symm.trans h.step
  rw [Option.some.injEq, Prod.mk.injEq] at hsame
  have hlen : (pt.toList.map Prod.snd).length = 16 := by simp
  calc a = block (splice outk (k * 16) a) k := (block_splice_self h.length h.room).symm
    _ = pt.toList.map Prod.snd := by rw [← hsame.2, block_splice_self hlen h.room]

/-- After a turn each lane holds its byte of the block. -/
theorem turn_chain (h : Turn T s k u u' a outk) (hk : k < s.length / 16) (hs : s.length < 2 ^ 32) :
    Seen (blockRun h hk hs).run chainedFacts u' := by
  have hstep := h.step
  simp only [blockStep, slice_block h.room, Option.bind_eq_bind, Option.bind_some] at hstep
  obtain ⟨⟨blk, w⟩, hrun, hpure⟩ := Option.bind_eq_some_iff.mp hstep
  obtain rfl : w = u' := congrArg Prod.fst (Option.some.inj hpure)
  exact processBlock_lanes rfl rfl (blockRun h hk hs).seenWindow _ _ _ _
    (blockRun h hk hs).seen hrun

/-- What byte k of block i is chained with: the block before it, or the state of the template. -/
def chainByte (T : Template) (s : Bytes) : Nat → Nat → UInt8
  | 0, k => wordByte (constOf T (chainOrder.getD k 0))
  | i + 1, k => inTable T.ctx (s.getD (i * 16 + k) 0)

theorem lane_first (h : Turn T s 0 u u' a outk) (hk : 0 < s.length / 16) (hs : s.length < 2 ^ 32)
    {j : Nat} (hj : j < 16) :
    (blockRun h hk hs).lane (chainOrder.getD j 0) = chainByte T s 0 j := by
  have hslots : ∀ j < 16, chainOrder.getD j 0 < stSize := by decide
  simp only [BlockRun.lane, chainByte, constOf, dif_pos (hslots j hj)]
  rw [show (blockRun h hk hs).st = T.stInit from h.start]

theorem lane_next (h : Turn T s k u u' a outk) (h' : Turn T s (k + 1) v v' b outl)
    (hk : k + 1 < s.length / 16) (hs : s.length < 2 ^ 32) {j : Nat} (hj : j < 16) :
    (blockRun h' hk hs).lane (chainOrder.getD j 0) = chainByte T s (k + 1) j := by
  have hslots : ∀ j < 16, chainOrder.getD j 0 < stSize ∧ laneOf (chainOrder.getD j 0) = j ∧
      chainedFacts.lookup (chainOrder.getD j 0) = some .byte := by decide +kernel
  obtain ⟨hlt, hlane, hfact⟩ := hslots j hj
  have hbyte := turn_chain h (by omega) hs _ _ hfact hlt
  have hv : (blockRun h' hk hs).st = u' := h.next h'
  have hat : (block s k).getD j 0 = s.getD (k * 16 + j) 0 := by
    rw [List.getD_eq_getElem?_getD, List.getD_eq_getElem?_getD, block_getElem? _ _ hj]
  simp only [BlockRun.lane, dif_pos hlt, hv]
  calc wordByte u'[chainOrder.getD j 0]
      = inTable T.ctx ((block s k).getD (laneOf (chainOrder.getD j 0)) 0) := wordByte_of_low hbyte
    _ = chainByte T s (k + 1) j := by rw [hlane, hat, chainByte]

end Turns

/-- Where a block has ciphertext C, the same bytes are mixed in, in every sample. -/
theorem mixed_bytes (hctx : 0x8000 ≤ T.ctx.length) (h8 : constOf T 0x220 = 8) (C : Bytes) :
    ∃ g : Nat → UInt8, ∀ sample out, sample.length < 2 ^ 32 → decrypt T sample = some out →
      ∀ i < sample.length / 16, block sample i = C → ∀ k < 16,
        out[i * 16 + k]? = some (outTable T.ctx (chainByte T sample i k ^^^ g k)) := by
  obtain ⟨gs, hlen, hgs⟩ := block_mixes hctx C
  refine ⟨fun k => gs.getD k 0, fun sample out hs ho i hi hC k hk => ?_⟩
  subst hC
  obtain ⟨o, hd, hturn⟩ := decrypt_turn hctx sample
  cases ho.symm.trans hd
  obtain ⟨u, u', outk, h⟩ := hturn i hi
  have hlane : (blockRun h hi hs).lane (chainOrder.getD k 0) = chainByte T sample i k := by
    cases i with
    | zero => exact lane_first h hi hs hk
    | succ i =>
      obtain ⟨w, w', outj, h0⟩ := hturn i (by omega)
      exact lane_next h0 h hi hs hk
  obtain ⟨pt, st, hpt, hbytes⟩ := hgs (blockRun h hi hs)
  have hmix : k < gs.length := by rw [hlen]; exact hk
  have hord : k < chainOrder.length := hk
  beta_reduce
  rw [← block_getElem? out i hk, turn_bytes hctx h8 h hi hpt, hbytes, ← hlane,
    List.getD_eq_getElem _ _ hord, List.getD_eq_getElem _ _ hmix,
    List.getElem?_eq_getElem (by rw [List.length_zipWith]; omega), List.getElem_zipWith]

/-- The decryptor in CBC form. Byte k of plaintext block i is one table lookup; its index is byte k
of the ciphertext block before it, looked up in a first table, with a byte mixed in that the
block's own ciphertext decides. The first block is chained with bytes of the template. -/
theorem decrypt_bytewise (T : Template) (hctx : 0x8000 ≤ T.ctx.length) (h8 : T.stInit[0x220] = 8) :
    ∃ G : Bytes → Nat → UInt8, ∀ sample, sample.length < 2 ^ 32 →
      ∃ out, decrypt T sample = some out ∧ ∀ i < sample.length / 16, ∀ k < 16,
        out[i * 16 + k]? =
          some (outTable T.ctx (chainByte T sample i k ^^^ G (block sample i) k)) := by
  choose G hG using fun C => mixed_bytes (T := T) hctx h8 C
  refine ⟨G, fun sample hs => ?_⟩
  obtain ⟨out, ho, -⟩ := decrypt_isSome hctx sample
  exact ⟨out, ho, fun i hi k hk => hG _ sample out hs ho i hi rfl k hk⟩

theorem decrypt_bytewise_zeros : ∃ (G : Bytes → Nat → UInt8) (out : Bytes),
    decrypt eightTemplate (List.replicate 40 7) = some out ∧ out[21]? =
      some (outTable eightTemplate.ctx
        (inTable eightTemplate.ctx 7 ^^^ G (List.replicate 16 7) 5)) := by
  obtain ⟨G, h⟩ := decrypt_bytewise eightTemplate List.length_replicate.ge
    (Vector.getElem_replicate _)
  obtain ⟨out, ho, hb⟩ := h (List.replicate 40 7) (by simp)
  exact ⟨G, out, ho, hb 1 (by simp) 5 (by decide)⟩

end Temari.CbcLanes
