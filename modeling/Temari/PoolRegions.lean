import Temari.Pool
import Temari.RegionPaths
import Mathlib.Data.List.Nodup
import Mathlib.Data.List.Perm.Basic

/-! The output of a call is cut into one region for each sample, and writes to different
regions do not meet. -/
namespace Temari.PoolRegions
open RoundMachine Rounds BlockLoop RegionPaths Pool
variable {samples : List Bytes} {out : Bytes} {i j : Nat}

/-- The offset of sample i. -/
def offAt (samples : List Bytes) (i : Nat) : Nat := ((samples.take i).map List.length).sum

/-- The length of sample i. -/
def lenAt (samples : List Bytes) (i : Nat) : Nat := (samples.map List.length)[i]?.getD 0

/-- The bytes of the output that are for sample i. -/
def region (samples : List Bytes) (out : Bytes) (i : Nat) : Bytes :=
  (out.drop (offAt samples i)).take (lenAt samples i)

section Offsets

theorem offAt_succ (samples : List Bytes) (i : Nat) :
    offAt samples (i + 1) = offAt samples i + lenAt samples i := by
  rw [offAt, offAt, lenAt, List.take_add_one, List.map_append, List.sum_append, List.getElem?_map]
  cases samples[i]? <;> simp

theorem offAt_length (samples : List Bytes) :
    offAt samples samples.length = (samples.map List.length).sum := by
  rw [offAt, List.take_length]

theorem offAt_mono (samples : List Bytes) (h : i ≤ j) : offAt samples i ≤ offAt samples j := by
  induction h with
  | refl => exact Nat.le_refl _
  | step _ ih =>
    rw [offAt_succ]
    omega

/-- Different regions do not meet. -/
theorem regions_apart (samples : List Bytes) (h : i < j) :
    offAt samples i + lenAt samples i ≤ offAt samples j := by
  rw [← offAt_succ]
  exact offAt_mono samples h

theorem region_end (h : i < samples.length) :
    offAt samples i + lenAt samples i ≤ (samples.map List.length).sum := by
  rw [← offAt_length]
  exact regions_apart samples h

theorem lenAt_of_getElem? {s : Bytes} (h : samples[i]? = some s) : lenAt samples i = s.length := by
  simp [lenAt, List.getElem?_map, h]

theorem offsOf_eq (samples : List Bytes) :
    offsOf samples = (List.range samples.length).map (offAt samples) := by
  have hfold : ∀ k ≤ samples.length, (samples.take k).foldl
      (fun (acc : List Nat × Nat) s => (acc.1 ++ [acc.2], acc.2 + s.length)) ([], 0) =
      ((List.range k).map (offAt samples), offAt samples k) := by
    intro k hk
    induction k with
    | zero => simp [offAt]
    | succ k ih =>
      have hget : samples[k]? = some samples[k] := List.getElem?_eq_getElem hk
      rw [List.take_add_one, hget, List.foldl_append, ih (by omega), List.range_succ, offAt_succ,
        lenAt_of_getElem? hget]
      simp
  rw [offsOf, ← List.take_length (l := samples), hfold _ (Nat.le_refl _), List.take_length]

theorem offsOf_getElem? (h : i < samples.length) :
    (offsOf samples)[i]? = some (offAt samples i) := by
  simp [offsOf_eq, h]

theorem slice_region (hout : out.length = (samples.map List.length).sum)
    (h : i < samples.length) :
    slice out (offAt samples i) (offAt samples i + lenAt samples i) =
      some (region samples out i) := by
  have hend := region_end h
  rw [slice, if_pos ⟨by omega, by omega⟩, region, List.drop_take]
  congr 2
  omega

end Offsets

section Writes

/-- A write that fills the region of its sample. -/
def Placed (samples : List Bytes) (w : Write) : Prop :=
  w.index < samples.length ∧ w.lo = offAt samples w.index ∧
    w.bytes.length = lenAt samples w.index

variable {w : Write} {ws : List Write}

theorem Placed.end_le (h : Placed samples w) :
    w.lo + w.bytes.length ≤ (samples.map List.length).sum := by
  rw [h.2.1, h.2.2]
  exact region_end h.1

theorem region_ext {a b : Bytes}
    (h : ∀ k, offAt samples i ≤ k → k < offAt samples i + lenAt samples i → a[k]? = b[k]?) :
    region samples a i = region samples b i := by
  refine List.ext_getElem? fun k => ?_
  by_cases hk : k < lenAt samples i
  · rw [region, region, List.getElem?_take_of_lt hk, List.getElem?_take_of_lt hk,
      List.getElem?_drop, List.getElem?_drop]
    exact h _ (by omega) (by omega)
  · rw [List.getElem?_eq_none (by simp [region]; omega),
      List.getElem?_eq_none (by simp [region]; omega)]

/-- A placed write leaves the other regions as they are. -/
theorem region_splice_ne (hw : Placed samples w) (hout : out.length = (samples.map List.length).sum)
    (hi : i ≠ w.index) : region samples (splice out w.lo w.bytes) i = region samples out i := by
  have hend := hw.end_le
  refine region_ext fun k hk hk' => ?_
  rw [splice_getElem? (by omega), if_neg]
  rintro ⟨hlo, hhi⟩
  rw [hw.2.1] at hlo
  rw [hw.2.1, hw.2.2] at hhi
  obtain hlt | hgt := Nat.lt_or_gt_of_ne hi
  · have := regions_apart samples hlt
    omega
  · have := regions_apart samples hgt
    omega

theorem region_splice_self (hw : Placed samples w)
    (hout : out.length = (samples.map List.length).sum) :
    region samples (splice out w.lo w.bytes) w.index = w.bytes := by
  have hend := hw.end_le
  rw [region, ← hw.2.1, ← hw.2.2, splice, List.append_assoc, List.drop_left' (by simp; omega),
    List.take_left]

theorem applyWrites_length (hws : ∀ w ∈ ws, Placed samples w)
    (hout : out.length = (samples.map List.length).sum) :
    (applyWrites out ws).length = (samples.map List.length).sum := by
  induction ws generalizing out with
  | nil => exact hout
  | cons w ws ih =>
    have hend := (hws w List.mem_cons_self).end_le
    exact ih (fun v hv => hws v (List.mem_cons_of_mem w hv))
      (by rw [splice_length (by omega)]; exact hout)

/-- A region nobody writes keeps its bytes. -/
theorem region_applyWrites_of_notMem (hws : ∀ w ∈ ws, Placed samples w)
    (hout : out.length = (samples.map List.length).sum) (hi : i ∉ ws.map Write.index) :
    region samples (applyWrites out ws) i = region samples out i := by
  induction ws generalizing out with
  | nil => rfl
  | cons w ws ih =>
    have hw := hws w List.mem_cons_self
    have hend := hw.end_le
    rw [List.map_cons, List.mem_cons, not_or] at hi
    exact (ih (fun v hv => hws v (List.mem_cons_of_mem w hv))
      (by rw [splice_length (by omega)]; exact hout) hi.2).trans (region_splice_ne hw hout hi.1)

/-- When each region is written at most once, a written region holds what was written. -/
theorem region_applyWrites_of_mem (hws : ∀ w ∈ ws, Placed samples w)
    (hout : out.length = (samples.map List.length).sum) (hnd : (ws.map Write.index).Nodup)
    (hw : w ∈ ws) : region samples (applyWrites out ws) w.index = w.bytes := by
  induction ws generalizing out with
  | nil => cases hw
  | cons v ws ih =>
    have hv := hws v List.mem_cons_self
    have hrest : ∀ u ∈ ws, Placed samples u := fun u hu => hws u (List.mem_cons_of_mem v hu)
    have hend := hv.end_le
    have hout' : (splice out v.lo v.bytes).length = (samples.map List.length).sum := by
      rw [splice_length (by omega)]
      exact hout
    rw [List.map_cons, List.nodup_cons] at hnd
    obtain rfl | hmem := List.mem_cons.mp hw
    · exact (region_applyWrites_of_notMem hrest hout' hnd.1).trans (region_splice_self hv hout)
    · exact ih hrest hout' hnd.2 hmem

theorem applyWrites_append (out : Bytes) (ws vs : List Write) :
    applyWrites out (ws ++ vs) = applyWrites (applyWrites out ws) vs := List.foldl_append

end Writes

section Pairs

/-- The samples of pair p. -/
def pairIndexes (n p : Nat) : List Nat := if p * 2 + 1 < n then [p * 2, p * 2 + 1] else [p * 2]

theorem mem_pairIndexes {n p i : Nat} (h : i ∈ pairIndexes n p) : i / 2 = p := by
  unfold pairIndexes at h
  split at h <;> simp at h <;> omega

/-- The pairs of a job cover the samples, in order. -/
theorem pairs_cover (n : Nat) :
    (List.range ((n + 1) / 2)).flatMap (pairIndexes n) = List.range n := by
  have hfull : ∀ m, m * 2 ≤ n → (List.range m).flatMap (pairIndexes n) = List.range (m * 2) := by
    intro m hm
    induction m with
    | zero => rfl
    | succ m ih =>
      rw [List.range_succ, List.flatMap_append, ih (by omega),
        show (m + 1) * 2 = m * 2 + 1 + 1 by omega, List.range_succ, List.range_succ]
      simp [pairIndexes, show m * 2 + 1 < n by omega]
  obtain ⟨m, rfl | rfl⟩ := Nat.even_or_odd' n
  · rw [show (2 * m + 1) / 2 = m by omega, hfull m (by omega), Nat.mul_comm]
  · rw [show (2 * m + 1 + 1) / 2 = m + 1 by omega, List.range_succ, List.flatMap_append,
      hfull m (by omega), Nat.mul_comm 2 m, List.range_succ]
    simp [pairIndexes]

end Pairs

section Decryption
variable {c : Call}

/-- A write that puts into the region of its sample what the sample decrypts to there. -/
def Right (c : Call) (out : Bytes) (w : Write) : Prop :=
  Placed c.samples w ∧ ∃ s, c.samples[w.index]? = some s ∧
    decryptRegionInto c.tmpl s (region c.samples out w.index) = some w.bytes

theorem sampleAt_eq (hout : out.length = (c.samples.map List.length).sum)
    (h : i < c.samples.length) : sampleAt c out i =
      some (c.samples[i], offAt c.samples i, region c.samples out i) := by
  have hget : c.samples[i]? = some (c.samples[i]) := List.getElem?_eq_getElem h
  have hs := slice_region hout h
  rw [lenAt_of_getElem? hget] at hs
  simp [sampleAt, hget, Call.offs, offsOf_getElem? h, hs]

/-- One sample of a pair, decrypted in its region. -/
theorem right_of_region (hctx : 0x8000 ≤ c.tmpl.ctx.length)
    (hout : out.length = (c.samples.map List.length).sum) (h : i < c.samples.length) :
    ∃ r, decryptRegionInto c.tmpl (c.samples[i]) (region c.samples out i) = some r ∧
      Right c out ⟨i, offAt c.samples i, r⟩ := by
  have hget : c.samples[i]? = some (c.samples[i]) := List.getElem?_eq_getElem h
  have hend := region_end h
  have hlen : (region c.samples out i).length = (c.samples[i]).length := by
    rw [region, List.length_take, List.length_drop, ← lenAt_of_getElem? hget]
    omega
  obtain ⟨r, hr, hrl⟩ := decryptRegionInto_isSome hctx hlen
  exact ⟨r, hr, ⟨h, rfl, by rw [lenAt_of_getElem? hget]; exact hrl⟩, _, hget, hr⟩

/-- A pair is decrypted without failing, and writes its own samples only. -/
theorem decryptPair_right (hctx : 0x8000 ≤ c.tmpl.ctx.length)
    (hout : out.length = (c.samples.map List.length).sum) {p : Nat} (hp : p < c.pairs) :
    ∃ ws, decryptPair c out p = some ws ∧ ws.map Write.index = pairIndexes c.n p ∧
      ∀ w ∈ ws, Right c out w := by
  have h1 : p * 2 < c.n := by
    rw [Call.pairs] at hp
    omega
  obtain ⟨r1, hr1, hw1⟩ := right_of_region hctx hout h1
  by_cases h2 : p * 2 + 1 < c.n
  · obtain ⟨r2, hr2, hw2⟩ := right_of_region hctx hout h2
    refine ⟨[⟨p * 2, offAt c.samples (p * 2), r1⟩,
      ⟨p * 2 + 1, offAt c.samples (p * 2 + 1), r2⟩], ?_, by simp [pairIndexes, h2], ?_⟩
    · simp [decryptPair, sampleAt_eq hout h1, sampleAt_eq hout h2, h2, decryptRegionPairInto_eq,
        hr1, hr2]
    · simp only [List.mem_cons, List.not_mem_nil, or_false, forall_eq_or_imp, forall_eq]
      exact ⟨hw1, hw2⟩
  · refine ⟨[⟨p * 2, offAt c.samples (p * 2), r1⟩], ?_, by simp [pairIndexes, h2], ?_⟩
    · simp [decryptPair, sampleAt_eq hout h1, h2, hr1]
    · simp only [List.mem_cons, List.not_mem_nil, or_false, forall_eq]
      exact hw1

end Decryption

end Temari.PoolRegions
