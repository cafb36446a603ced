import Temari.BlockLoop

/-! The in-place paths: a region decrypted alone, and two regions decrypted in two lanes. -/
namespace Temari.RegionPaths
open RoundMachine Rounds BlockLoop
variable {T : Template}

/-- A lane of the two-lane loop over the first n turns; turns past its end do nothing. -/
def laneUpTo (T : Template) (ct out : Bytes) (n : Nat) : Option (St × Bytes) :=
  blocksUpTo T ct out (min n (ct.length / 16))

theorem laneUpTo_succ (T : Template) (ct out : Bytes) (n : Nat) :
    laneUpTo T ct out (n + 1) = laneUpTo T ct out n >>= fun acc =>
      if n < ct.length / 16 then blockStep T ct acc n else some acc := by
  rw [laneUpTo, laneUpTo]
  by_cases h : n < ct.length / 16
  · rw [Nat.min_eq_left (by omega), Nat.min_eq_left (by omega), blocksUpTo_succ]
    simp [h]
  · rw [Nat.min_eq_right (by omega), Nat.min_eq_right (by omega)]
    simp [h]

theorem laneUpTo_all (T : Template) (ct out : Bytes) {n : Nat} (h : ct.length / 16 ≤ n) :
    (laneUpTo T ct out n).map Prod.snd = decryptBlocksInto T ct out := by
  rw [laneUpTo, Nat.min_eq_right h, decryptBlocksInto, blocksUpTo]
  cases (List.range (ct.length / 16)).foldlM (blockStep T ct) (T.stInit, out) <;> rfl

/-- The two lanes run apart: the pair loop is one loop after the other. -/
theorem decryptBlocksPairInto_eq (T : Template) (ct1 ct2 out1 out2 : Bytes) :
    decryptBlocksPairInto T ct1 ct2 out1 out2 = (do
      let o1 ← decryptBlocksInto T ct1 out1
      let o2 ← decryptBlocksInto T ct2 out2
      return (o1, o2)) := by
  have hloop (n : Nat) : (List.range n).foldlM (fun (acc : (St × Bytes) × St × Bytes) bi => do
      let l1 ← if bi < ct1.length / 16 then blockStep T ct1 acc.1 bi else some acc.1
      let l2 ← if bi < ct2.length / 16 then blockStep T ct2 acc.2 bi else some acc.2
      return (l1, l2)) ((T.stInit, out1), (T.stInit, out2)) = (do
        let a1 ← laneUpTo T ct1 out1 n
        let a2 ← laneUpTo T ct2 out2 n
        return (a1, a2)) := by
    induction n with
    | zero => simp [laneUpTo, blocksUpTo]
    | succ n ih =>
      rw [List.range_succ, List.foldlM_append, ih, laneUpTo_succ, laneUpTo_succ]
      cases laneUpTo T ct1 out1 n with
      | none => rfl
      | some a1 =>
        cases laneUpTo T ct2 out2 n with
        | none =>
          simp only [Option.bind_eq_bind, Option.bind_none, Option.bind_some]
          cases (if n < ct1.length / 16 then blockStep T ct1 a1 n else some a1) <;> rfl
        | some a2 =>
          simp only [Option.bind_eq_bind, Option.bind_some]
          by_cases h1 : n < ct1.length / 16 <;> by_cases h2 : n < ct2.length / 16 <;> simp [h1, h2]
  rw [decryptBlocksPairInto]
  simp only
  rw [hloop, ← laneUpTo_all T ct1 out1 (Nat.le_max_left _ _), ← laneUpTo_all T ct2 out2
    (Nat.le_max_right _ _)]
  cases laneUpTo T ct1 out1 (max (ct1.length / 16) (ct2.length / 16)) with
  | none => rfl
  | some a1 => cases laneUpTo T ct2 out2 (max (ct1.length / 16) (ct2.length / 16)) <;> rfl

theorem slice_zero (b : Bytes) (n : Nat) :
    slice b 0 n = if n ≤ b.length then some (b.take n) else none := by
  simp [slice]

theorem splice_zero (b a : Bytes) : splice b 0 a = a ++ b.drop a.length := by
  simp [splice]

/-- With no full block the loop leaves an empty slice as it is. -/
theorem decryptBlocksInto_short {ct : Bytes} (h : ct.length / 16 = 0) (out : Bytes) :
    decryptBlocksInto T ct out = some out := by
  simp [decryptBlocksInto, h]

/-- Whether or not there is a full block, a region is decrypted by the loop on its head. -/
theorem decryptRegionInto_eq (T : Template) (sample out : Bytes) :
    decryptRegionInto T sample out = (do
      let o ← decryptBlocksInto T (headOf sample) (← slice out 0 (sample.length / 16 * 16))
      copyTail (splice out 0 o) (sample.length / 16 * 16) (tailOf sample)) := by
  have hs : slice sample 0 (sample.length / 16 * 16) = some (headOf sample) := by
    rw [slice_zero, if_pos (by omega)]
    rfl
  rw [decryptRegionInto]
  by_cases h0 : sample.length / 16 * 16 > 0
  · simp only [h0, if_true, hs, Option.bind_eq_bind, Option.bind_some]
    rfl
  · have hz : sample.length / 16 = 0 := by omega
    have hd : decryptBlocksInto T (headOf sample) [] = some [] := by
      exact decryptBlocksInto_short (by rw [headOf_blocks]; exact hz) []
    simp [hz, slice_zero, hd, splice_zero, tailOf]

theorem slice_head (sample : Bytes) :
    slice sample 0 (sample.length / 16 * 16) = some (headOf sample) := by
  rw [slice_zero, if_pos (by omega)]
  rfl

/-- Two regions in two lanes come out as each does alone. -/
theorem decryptRegionPairInto_eq (T : Template) (s1 s2 out1 out2 : Bytes) :
    decryptRegionPairInto T s1 s2 out1 out2 = (do
      let o1 ← decryptRegionInto T s1 out1
      let o2 ← decryptRegionInto T s2 out2
      return (o1, o2)) := by
  by_cases h : s1.length / 16 * 16 > 0 ∨ s2.length / 16 * 16 > 0
  · rw [decryptRegionInto_eq, decryptRegionInto_eq, decryptRegionPairInto]
    simp only [if_pos h, slice_head, decryptBlocksPairInto_eq, Option.bind_eq_bind,
      Option.bind_some]
    cases slice out1 0 (s1.length / 16 * 16) with
    | none => rfl
    | some r1 =>
      cases slice out2 0 (s2.length / 16 * 16) with
      | none =>
        simp only [Option.bind_some, Option.bind_none]
        cases decryptBlocksInto T (headOf s1) r1 with
        | none => rfl
        | some o1 =>
          simp only [Option.bind_some]
          cases copyTail (splice out1 0 o1) (s1.length / 16 * 16) (tailOf s1) <;> rfl
      | some r2 =>
        simp only [Option.bind_some]
        cases decryptBlocksInto T (headOf s1) r1 with
        | none => rfl
        | some o1 =>
          cases decryptBlocksInto T (headOf s2) r2 with
          | none =>
            simp only [Option.bind_some, Option.bind_none]
            cases copyTail (splice out1 0 o1) (s1.length / 16 * 16) (tailOf s1) <;> rfl
          | some o2 => rfl
  · have h1 : ¬ s1.length / 16 * 16 > 0 := fun h1 => h (Or.inl h1)
    have h2 : ¬ s2.length / 16 * 16 > 0 := fun h2 => h (Or.inr h2)
    simp only [decryptRegionPairInto, decryptRegionInto, if_neg h, if_neg h1, if_neg h2]
    rfl

theorem copyTail_splice {out o tail : Bytes} {n : Nat} (ho : o.length = n)
    (hn : n + tail.length = out.length) : copyTail (splice out 0 o) n tail = some (o ++ tail) := by
  have hlen : (splice out 0 o).length = out.length := splice_length (by omega)
  rw [copyTail, if_pos ⟨by omega, by omega⟩, splice_zero, List.take_left' ho]

/-- A region of the sample's length is decrypted without failing, and keeps its length. -/
theorem decryptRegionInto_isSome (hctx : 0x8000 ≤ T.ctx.length) {sample out : Bytes}
    (h : out.length = sample.length) :
    ∃ o, decryptRegionInto T sample out = some o ∧ o.length = sample.length := by
  have hle : sample.length / 16 * 16 ≤ out.length := by omega
  have hlen : (out.take (sample.length / 16 * 16)).length = sample.length / 16 * 16 := by
    rw [List.length_take]
    omega
  obtain ⟨st, o, -, ho, hol⟩ := decryptBlocksInto_isSome hctx (headOf sample)
    (out.take (sample.length / 16 * 16)) (by rw [headOf_blocks]; omega)
  have htail : (tailOf sample).length = sample.length - sample.length / 16 * 16 := by
    rw [tailOf, List.length_drop]
  refine ⟨o ++ tailOf sample, ?_, by rw [List.length_append]; omega⟩
  rw [decryptRegionInto_eq, slice_zero, if_pos hle]
  simp only [Option.bind_eq_bind, Option.bind_some, ho]
  exact copyTail_splice (by omega) (by omega)

/-- Over zeros the in-place path gives what decrypt gives. -/
theorem decryptRegionInto_zeros (hctx : 0x8000 ≤ T.ctx.length) (sample : Bytes) :
    decryptRegionInto T sample (List.replicate sample.length 0) = decrypt T sample := by
  have hn : (headOf sample).length / 16 = sample.length / 16 := headOf_blocks sample
  obtain ⟨st, o, hrun, ho, hol⟩ := decryptBlocksInto_isSome hctx (headOf sample)
    (List.replicate (sample.length / 16 * 16) 0) (by rw [hn]; simp)
  rw [hn] at hrun
  have htake : (List.replicate sample.length (0 : UInt8)).take (sample.length / 16 * 16) =
      List.replicate (sample.length / 16 * 16) 0 := by
    rw [List.take_replicate, Nat.min_eq_left (by omega)]
  have htail : (tailOf sample).length = sample.length - sample.length / 16 * 16 := by
    rw [tailOf, List.length_drop]
  rw [decryptRegionInto_eq, decrypt_eq, hrun, slice_zero, List.length_replicate, if_pos (by omega)]
  simp only [Option.bind_eq_bind, Option.bind_some, htake, ho]
  exact copyTail_splice (by rw [hol, List.length_replicate])
    (by rw [List.length_replicate]; omega)

/-- The plaintext of a sample ends in the unchanged tail of its ciphertext. -/
theorem decrypt_tail {sample plain : Bytes} (h : decrypt T sample = some plain)
    (hlen : plain.length = sample.length) :
    plain.drop (sample.length - sample.length % 16) =
      sample.drop (sample.length - sample.length % 16) := by
  have hhead : sample.length - sample.length % 16 = sample.length / 16 * 16 := by omega
  rw [decrypt_eq] at h
  obtain ⟨acc, -, rfl⟩ := Option.map_eq_some_iff.mp h
  rw [List.length_append, tailOf, List.length_drop] at hlen
  rw [hhead, List.drop_left' (by omega), tailOf]

/-- The buffer of a region before the call in which it is decrypted. -/
abbrev cleared (sample : Bytes) : Bytes := List.replicate sample.length 0

/-- The four paths give the same bytes, and neither lane of a pair affects the other. -/
theorem paths_agree (T : Template) (hctx : 0x8000 ≤ T.ctx.length) (s : Bytes) :
    ∃ plain, decrypt T s = some plain ∧ plain.length = s.length ∧
      plain.drop (s.length - s.length % 16) = s.drop (s.length - s.length % 16) ∧
      (∀ prior, decryptInto T s prior = some plain) ∧
      decryptRegionInto T s (cleared s) = some plain ∧
      (∀ s', ∃ plain', decrypt T s' = some plain' ∧
        decryptRegionPairInto T s s' (cleared s) (cleared s') = some (plain, plain') ∧
        decryptRegionPairInto T s' s (cleared s') (cleared s) = some (plain', plain)) ∧
      ∀ s' out out', decryptRegionPairInto T s s' out out' = (do
        let o ← decryptRegionInto T s out
        let o' ← decryptRegionInto T s' out'
        return (o, o')) := by
  obtain ⟨plain, hplain, hlen⟩ := decrypt_isSome hctx s
  have hregion : decryptRegionInto T s (cleared s) = some plain :=
    (decryptRegionInto_zeros hctx s).trans hplain
  refine ⟨plain, hplain, hlen, decrypt_tail hplain hlen, fun _ => hplain, hregion, fun s' => ?_,
    fun s' out out' => decryptRegionPairInto_eq T s s' out out'⟩
  obtain ⟨plain', hplain', -⟩ := decrypt_isSome hctx s'
  have hregion' : decryptRegionInto T s' (cleared s') = some plain' :=
    (decryptRegionInto_zeros hctx s').trans hplain'
  refine ⟨plain', hplain', ?_, ?_⟩
  · rw [decryptRegionPairInto_eq, hregion, hregion']
    rfl
  · rw [decryptRegionPairInto_eq, hregion, hregion']
    rfl

theorem paths_agree_seventeen : ∃ plain, decrypt eightTemplate (List.replicate 17 7) = some plain ∧
    plain.drop 16 = [7] ∧
    decryptInto eightTemplate (List.replicate 17 7) [1, 2, 3] = some plain ∧
    decryptRegionPairInto eightTemplate (List.replicate 17 7) [] (List.replicate 17 0) [] =
      some (plain, []) := by
  obtain ⟨plain, hplain, -, htail, hinto, -, hpair, -⟩ :=
    paths_agree eightTemplate List.length_replicate.ge (List.replicate 17 7)
  obtain ⟨plain', hempty, h, -⟩ := hpair []
  cases hempty
  exact ⟨plain, hplain, htail, hinto _, h⟩

end Temari.RegionPaths
