import Temari.BlockLoop

/-! The CBC shape: each plaintext block is a function of its own ciphertext block and
the one before it, wherever the two stand in a sample. -/
namespace Temari.Cbc
open RoundMachine Relational RoundRules RoundWindow Rounds BlockSim Round3Sim BlockLoop
variable {T : Template}

theorem ptRel_bytes {r : Runs} {p q : Vector (Word × UInt8) 16} (h : PtRel r p q)
    (hc : r.chained) : p.toList.map Prod.snd = q.toList.map Prod.snd := by
  have hf := h.snd
  generalize p.toList = l at hf
  generalize q.toList = l' at hf
  induction hf with
  | nil => rfl
  | cons hxy _ ih => rw [List.map_cons, List.map_cons, hxy hc, ih]

/-- With both counters in step, chained runs write the same block. -/
theorem blockRel_aligned {r : Runs} {blk blk' a b : Bytes} (h : BlockRel r blk blk' a b)
    (hc : r.chained) (hp : r.pos &&& 15 = 0) (hp' : r.pos' &&& 15 = 0)
    (hn : r.counter = r.pos + 8) (hn' : r.counter' = r.pos' + 8) (hb : blk.length = 16)
    (hb' : blk'.length = 16) : a = b := by
  obtain ⟨p, q, hpq, ha, hb1⟩ := h
  rw [reconstructBlock_aligned hp (hn ▸ hpq.fst) hb, Option.some.injEq] at ha
  rw [reconstructBlock_aligned hp' (hn' ▸ hpq.fst') hb', Option.some.injEq] at hb1
  rw [← ha, ← hb1, ptRel_bytes hpq hc]

theorem counterAt_eq (h8 : constOf T 0x220 = 8) (i : Nat) : counterAt T i = blockPos i + 8 := by
  rw [counterAt, h8, BitVec.add_comm]
  congr 1
  apply BitVec.eq_of_toNat_eq
  rw [BitVec.toNat_ofNat, blockPos_toNat]

/-- Turn k of the loop that decrypts s takes the state from st to st' and writes a. -/
structure Turn (T : Template) (s : Bytes) (k : Nat) (st st' : St) (a out : Bytes) : Prop where
  run : blocksUpTo T (headOf s) (List.replicate (s.length / 16 * 16) 0) k = some (st, out)
  room : k * 16 + 16 ≤ out.length
  length : a.length = 16
  step : blockStep T (headOf s) (st, out) k = some (st', splice out (k * 16) a)
  entry : Entry T False k k st st

/-- Block k of the plaintext is what turn k writes. -/
theorem decrypt_turn (hctx : 0x8000 ≤ T.ctx.length) (s : Bytes) :
    ∃ out, decrypt T s = some out ∧
      ∀ k < s.length / 16, ∃ st st' outk, Turn T s k st st' (block out k) outk := by
  obtain ⟨st, out, hrun, hlen, -, htrace⟩ := blocksUpTo_isSome hctx (headOf s)
    (List.replicate (s.length / 16 * 16) 0) (Nat.le_of_eq (headOf_blocks s).symm)
    (by simp)
  rw [List.length_replicate] at hlen htrace
  refine ⟨out ++ tailOf s, by rw [decrypt_eq, hrun]; rfl, fun k hk => ?_⟩
  obtain ⟨stk, outk, st', a, h1, h2, h3, h4, h5, h6⟩ := htrace k hk
  have hblock : block (out ++ tailOf s) k = a := by
    rw [← h6]
    refine block_ext (block_length (by rw [List.length_append]; omega))
      (block_length (by omega)) fun j hj => ?_
    rw [block_getElem? _ _ hj, block_getElem? _ _ hj, List.getElem?_append_left (by omega)]
  exact ⟨stk, st', outk, h1, by omega, hblock ▸ h3, hblock ▸ h5, h4⟩

section Turns
variable {s t : Bytes} {k l : Nat} {u u' v v' : St} {a b outk outl : Bytes}

theorem Turn.start (h : Turn T s 0 u u' a outk) : u = T.stInit := by
  have hrun := h.run
  simp only [blocksUpTo, List.range_zero, List.foldlM_nil] at hrun
  cases hrun
  rfl

theorem Turn.next (h : Turn T s k u u' a outk) (h' : Turn T s (k + 1) v v' b outl) : v = u' := by
  have hrun := h'.run
  rw [blocksUpTo_succ, h.run] at hrun
  change blockStep _ _ _ _ = _ at hrun
  rw [h.step, Option.some.injEq, Prod.mk.injEq] at hrun
  exact hrun.1.symm

theorem block_headOf (hk : k < s.length / 16) : block (headOf s) k = block s k := by
  have hlen := headOf_length s
  refine block_ext (block_length (by omega)) (block_length (by omega)) fun j hj => ?_
  rw [block_getElem? _ _ hj, block_getElem? _ _ hj, headOf, List.getElem?_take_of_lt (by omega)]

theorem headOf_window (hk : k < s.length / 16) (hl : l < t.length / 16) (hs : s.length < 2 ^ 32)
    (ht : t.length < 2 ^ 32) (h : block s k = block t l) :
    SameWindow (headOf s) (headOf t) (blockPos k) (blockPos l) :=
  sameWindow_of_block (by rw [headOf_blocks]; exact hk) (by omega) (by omega)
    (by rw [block_headOf hk, block_headOf hl, h])

/-- The same block in two places leaves the same chaining bytes behind. -/
theorem Turn.chained (hctx : 0x8000 ≤ T.ctx.length) (h : Turn T s k u u' a outk)
    (h' : Turn T t l v v' b outl)
    (hw : SameWindow (headOf s) (headOf t) (blockPos k) (blockPos l)) :
    Entry T True (k + 1) (l + 1) u' v' := by
  obtain ⟨u1, a1, v1, b1, ha, hb, -, hnext⟩ :=
    blockStep_sim (sameKeys_self hctx) hw h.room h'.room (h.entry.pair h'.entry)
  rw [h.step, Option.some.injEq, Prod.mk.injEq] at ha
  rw [h'.step, Option.some.injEq, Prod.mk.injEq] at hb
  rw [ha.1, hb.1]
  exact hnext True

/-- From chained states the same block decrypts to the same bytes. -/
theorem Turn.same (hctx : 0x8000 ≤ T.ctx.length) (h8 : constOf T 0x220 = 8)
    (h : Turn T s k u u' a outk) (h' : Turn T t l v v' b outl)
    (hw : SameWindow (headOf s) (headOf t) (blockPos k) (blockPos l)) (he : Entry T True k l u v) :
    a = b := by
  obtain ⟨u1, a1, v1, b1, ha, hb, hrel, -⟩ :=
    blockStep_sim (sameKeys_self hctx) hw h.room h'.room he
  have hlen := blockRel_length hrel (block_length h.room) (block_length h'.room)
  rw [h.step, Option.some.injEq, Prod.mk.injEq] at ha
  rw [h'.step, Option.some.injEq, Prod.mk.injEq] at hb
  calc a = block (splice outk (k * 16) a) k := (block_splice_self h.length h.room).symm
    _ = a1 := by rw [ha.2, block_splice_self hlen.1 h.room]
    _ = b1 := blockRel_aligned hrel trivial (blockPos_and k) (blockPos_and l) (counterAt_eq h8 k)
      (counterAt_eq h8 l) (block_length h.room) (block_length h'.room)
    _ = block (splice outl (l * 16) b) l := by rw [hb.2, block_splice_self hlen.2 h'.room]
    _ = b := block_splice_self h'.length h'.room

end Turns

section Shape
variable {s t out out' : Bytes}

theorem first_block (hctx : 0x8000 ≤ T.ctx.length) (h8 : constOf T 0x220 = 8)
    (hs : s.length < 2 ^ 32) (ht : t.length < 2 ^ 32) (hs0 : 0 < s.length / 16)
    (ht0 : 0 < t.length / 16) (h : block s 0 = block t 0) (ho : decrypt T s = some out)
    (ho' : decrypt T t = some out') : block out 0 = block out' 0 := by
  obtain ⟨o, hd, hturn⟩ := decrypt_turn hctx s
  obtain ⟨o', hd', hturn'⟩ := decrypt_turn hctx t
  cases ho.symm.trans hd
  cases ho'.symm.trans hd'
  obtain ⟨u, u', outk, h0⟩ := hturn 0 hs0
  obtain ⟨v, v', outl, h0'⟩ := hturn' 0 ht0
  refine h0.same hctx h8 h0' (headOf_window hs0 ht0 hs ht h) ?_
  rw [h0.start, h0'.start]
  exact Entry.start (fun _ _ => rfl) True

theorem next_block (hctx : 0x8000 ≤ T.ctx.length) (h8 : constOf T 0x220 = 8)
    (hs : s.length < 2 ^ 32) (ht : t.length < 2 ^ 32) {i j : Nat} (hi : i + 1 < s.length / 16)
    (hj : j + 1 < t.length / 16) (hprev : block s i = block t j)
    (h : block s (i + 1) = block t (j + 1)) (ho : decrypt T s = some out)
    (ho' : decrypt T t = some out') : block out (i + 1) = block out' (j + 1) := by
  obtain ⟨o, hd, hturn⟩ := decrypt_turn hctx s
  obtain ⟨o', hd', hturn'⟩ := decrypt_turn hctx t
  cases ho.symm.trans hd
  cases ho'.symm.trans hd'
  obtain ⟨u, u', outk, h0⟩ := hturn i (by omega)
  obtain ⟨v, v', outl, h0'⟩ := hturn' j (by omega)
  obtain ⟨u1, u1', outk1, h1⟩ := hturn (i + 1) hi
  obtain ⟨v1, v1', outl1, h1'⟩ := hturn' (j + 1) hj
  refine h1.same hctx h8 h1' (headOf_window hi hj hs ht h) ?_
  rw [h0.next h1, h0'.next h1']
  exact h0.chained hctx h0' (headOf_window (by omega) (by omega) hs ht hprev)

end Shape

theorem block_append_left {p c : Bytes} (hp : p.length = 16) : block (p ++ c) 0 = p := by
  simp [block, ← hp]

theorem block_append_right {p c : Bytes} (hp : p.length = 16) (hc : c.length = 16) :
    block (p ++ c) 1 = c := by
  simp [block, ← hp, hc]

theorem block_self {c : Bytes} (hc : c.length = 16) : block c 0 = c := by
  simp [block, ← hc]

/-- Every plaintext block after the first is one function of the previous and the own
ciphertext block, the first is a function of its own block, in every sample. -/
theorem decrypt_cbc (T : Template) (hctx : 0x8000 ≤ T.ctx.length) (h8 : T.stInit[0x220] = 8) :
    ∃ (F : Bytes → Bytes → Bytes) (G : Bytes → Bytes), ∀ sample, sample.length < 2 ^ 32 →
      ∃ out, decrypt T sample = some out ∧ ∀ i < sample.length / 16,
        block out i = if i = 0 then G (block sample 0)
          else F (block sample (i - 1)) (block sample i) := by
  refine ⟨fun p c => block ((decrypt T (p ++ c)).getD []) 1,
    fun c => block ((decrypt T c).getD []) 0, fun sample hlen => ?_⟩
  obtain ⟨out, ho, -⟩ := decrypt_isSome hctx sample
  refine ⟨out, ho, fun i hi => ?_⟩
  have hblock (j : Nat) (hj : j ≤ i) : (block sample j).length = 16 := block_length (by omega)
  split
  next h0 =>
    subst h0
    have hc := hblock 0 (Nat.le_refl 0)
    obtain ⟨o, hd, -⟩ := decrypt_isSome hctx (block sample 0)
    beta_reduce
    rw [hd]
    exact first_block hctx h8 hlen (by omega) hi (by omega) (block_self hc).symm ho hd
  next h0 =>
    obtain ⟨j, rfl⟩ : ∃ j, i = j + 1 := ⟨i - 1, by omega⟩
    have hp := hblock j (by omega)
    have hc := hblock (j + 1) (Nat.le_refl _)
    have hpc : (block sample j ++ block sample (j + 1)).length = 32 := by
      rw [List.length_append, hp, hc]
    obtain ⟨o, hd, -⟩ := decrypt_isSome hctx (block sample j ++ block sample (j + 1))
    beta_reduce
    rw [Nat.add_sub_cancel, hd]
    exact next_block hctx h8 hlen (by omega) hi (by omega) (block_append_left hp).symm
      (block_append_right hp hc).symm ho hd

theorem decrypt_cbc_two_blocks : ∃ (F : Bytes → Bytes → Bytes) (G : Bytes → Bytes), ∃ out,
    decrypt eightTemplate (List.replicate 40 7) = some out ∧
      block out 0 = G (List.replicate 16 7) ∧
      block out 1 = F (List.replicate 16 7) (List.replicate 16 7) := by
  obtain ⟨F, G, h⟩ :=
    decrypt_cbc eightTemplate List.length_replicate.ge (Vector.getElem_replicate _)
  obtain ⟨out, ho, hb⟩ := h (List.replicate 40 7) (by simp)
  exact ⟨F, G, out, ho, hb 0 (by simp), hb 1 (by simp)⟩

end Temari.Cbc
