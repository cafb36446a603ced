import Temari.NoFaults
import Temari.BufferResidue

/-! The output buffer of a batch. What a call leaves in it depends on what was there before, unless
the counter slot of the template is 8 or no sample has a full block. -/
namespace Temari.PoolBuffers
open RoundMachine Rounds BlockLoop RegionPaths BufferResidue Pool PoolMoves PoolWork PoolRegions
  PoolResults NoFaults TemplateLoader TemplateFormat Transition

section OneWorker
variable {c : Call} {s : State Unit 1} {p : Nat}

/-- The only worker of the pool is about to claim pair p, and the caller is about to wait. -/
structure Turning (c : Call) (s : State Unit 1) (p : Nat) : Prop where
  reached : Reaches (step fun _ => c) (initial fun _ => c) s
  caller : s.caller () = .wantDone
  worker : (s.worker 0).pc = .claim ()
  next : (s.jobs ()).next = p
  pending : (s.jobs ()).pending = c.pairs - p
  free : s.doneMutex = none

theorem turning_start (hn : 2 ≤ c.n) : ∃ s, Turning c s 0 := by
  have h0 : c.n ≠ 0 := by omega
  have h1 : c.n ≠ 1 := by omega
  obtain ⟨s, hrun, hs⟩ : ∃ s, run (step fun _ => c) (initial fun _ => c : State Unit 1)
      (.replicate 6 (.caller ()) ++ .replicate 2 (.worker 0)) = some s ∧
        s.caller () = .wantDone ∧ (s.worker 0).pc = .claim () ∧ (s.jobs ()).next = 0 ∧
        (s.jobs ()).pending = c.pairs ∧ s.doneMutex = none := by
    simp [run, List.replicate, step, callerStep, workerStep, initial, h0, h1, State.setCaller,
      State.setJob, State.setPc, State.notifyJob, freshJob]
  exact ⟨s, reaches_of_run hrun, hs.1, hs.2.1, hs.2.2.1, hs.2.2.2.1, hs.2.2.2.2⟩

theorem Turning.pair (h : Turning c s p) (hctx : 0x8000 ≤ c.tmpl.ctx.length) (hp : p < c.pairs) :
    ∃ ws, decryptPair c (s.out ()) p = some ws := by
  have hlive : s.caller () ≠ .bypassed := by rw [h.caller]; nofun
  obtain ⟨ws, hws, -⟩ :=
    decryptPair_right hctx (reached_progress h.reached hctx hlive).out_length hp
  exact ⟨ws, hws⟩

theorem Turning.turn (h : Turning c s p) (hctx : 0x8000 ≤ c.tmpl.ctx.length)
    (hp : p + 1 < c.pairs) : ∃ s, Turning c s (p + 1) := by
  obtain ⟨ws, hws⟩ := h.pair hctx (by omega)
  have hpending : c.pairs - p ≠ 1 := by omega
  obtain ⟨t, hrun, ht⟩ : ∃ t, run (step fun _ => c) s (.replicate 4 (.worker 0)) = some t ∧
      t.caller () = .wantDone ∧ (t.worker 0).pc = .claim () ∧ (t.jobs ()).next = p + 1 ∧
      (t.jobs ()).pending = c.pairs - p - 1 ∧ t.doneMutex = none := by
    simp [run, List.replicate, step, workerStep, h.worker, h.next, h.pending, h.caller, h.free, hws,
      hpending, show ¬ c.pairs ≤ p by omega, State.setJob, State.setPc, State.write, State.record]
  refine ⟨t, h.reached.trans (reaches_of_run hrun), ht.1, ht.2.1, ht.2.2.1, ?_, ht.2.2.2.2⟩
  rw [ht.2.2.2.1]
  omega

theorem Turning.last (h : Turning c s p) (hctx : 0x8000 ≤ c.tmpl.ctx.length)
    (hp : p + 1 = c.pairs) : ∃ t : State Unit 1, Reaches (step fun _ => c) (initial fun _ => c) t ∧
      t.caller () = .returned := by
  obtain ⟨ws, hws⟩ := h.pair hctx (by omega)
  have hpending : c.pairs - p = 1 := by omega
  obtain ⟨t, hrun, ht⟩ : ∃ t, run (step fun _ => c) s
      (.replicate 6 (.worker 0) ++ .replicate 4 (.caller ())) = some t ∧
      t.caller () = .returned := by
    simp [run, List.replicate, step, callerStep, workerStep, h.worker, h.next, h.pending, h.caller,
      h.free, hws, hpending, show ¬ c.pairs ≤ p by omega, State.setJob, State.setPc, State.write,
      State.record, State.notifyDone, State.setCaller]
  exact ⟨t, h.reached.trans (reaches_of_run hrun), ht⟩

theorem turnings (hctx : 0x8000 ≤ c.tmpl.ctx.length) (hn : 2 ≤ c.n) (hp : p < c.pairs) :
    ∃ s, Turning c s p := by
  induction p with
  | zero => exact turning_start hn
  | succ p ih =>
    obtain ⟨s, hs⟩ := ih (by omega)
    exact hs.turn hctx hp

/-- Every call can run to its end. -/
theorem run_ends (hctx : 0x8000 ≤ c.tmpl.ctx.length) (hentry : c.entry = .parDecryptInto) :
    ∃ t : State Unit 1, Reaches (step fun _ => c) (initial fun _ => c) t ∧
      (t.caller () = .returned ∨ t.caller () = .bypassed) := by
  by_cases h0 : c.n = 0
  · obtain ⟨t, hrun, ht⟩ : ∃ t, run (step fun _ => c) (initial fun _ => c : State Unit 1)
        [.caller ()] = some t ∧ t.caller () = .bypassed := by
      simp [run, step, callerStep, initial, h0, State.setCaller]
    exact ⟨t, reaches_of_run hrun, Or.inr ht⟩
  · by_cases h1 : c.n = 1
    · obtain ⟨ws, hws, -⟩ :=
        decryptPair_right (p := 0) hctx c.sized (by rw [Call.pairs, h1]; decide)
      obtain ⟨t, hrun, ht⟩ : ∃ t, run (step fun _ => c) (initial fun _ => c : State Unit 1)
          [.caller ()] = some t ∧ t.caller () = .bypassed := by
        simp [run, step, callerStep, initial, h1, hentry, hws, State.setCaller]
      exact ⟨t, reaches_of_run hrun, Or.inr ht⟩
    · have hpairs : c.pairs - 1 + 1 = c.pairs := by
        rw [Call.pairs]
        omega
      obtain ⟨s, hs⟩ := turnings (p := c.pairs - 1) hctx (by omega) (by omega)
      obtain ⟨t, ht, hret⟩ := hs.last hctx hpairs
      exact ⟨t, ht, Or.inl hret⟩

end OneWorker

section Buffers
variable {T : Template} {samples : List Bytes} {out final : Bytes}

/-- A call on a buffer that holds out, in a pool with whatever else goes on, leaves final in it. -/
def Ends (T : Template) (samples : List Bytes) (out final : Bytes) : Prop :=
  ∃ (ι : Type) (_ : DecidableEq ι) (W : Nat) (calls : ι → Call) (c : ι) (s : State ι W),
    Reaches (step calls) (initial calls) s ∧ (calls c).entry = .parDecryptInto ∧
      (calls c).tmpl = T ∧ (calls c).samples = samples ∧ (calls c).out = out ∧
      (s.caller c = .returned ∨ s.caller c = .bypassed) ∧ s.out c = final

theorem ends_exists (hctx : 0x8000 ≤ T.ctx.length) (samples : List Bytes) (out : Bytes)
    (hout : out.length = (samples.map List.length).sum) : ∃ final, Ends T samples out final := by
  let c : Call := { entry := .parDecryptInto, tmpl := T, samples, out, sized := hout }
  obtain ⟨t, ht, hend⟩ := run_ends (c := c) hctx rfl
  exact ⟨t.out (), Unit, inferInstance, 1, fun _ => c, (), t, ht, rfl, rfl, rfl, rfl, hend, rfl⟩

/-- Each region ends up as its sample is decrypted over what it held. -/
theorem Ends.regions (h : Ends T samples out final) (hctx : 0x8000 ≤ T.ctx.length) :
    out.length = (samples.map List.length).sum ∧ final.length = (samples.map List.length).sum ∧
      ∀ i (hi : i < samples.length),
        decryptRegionInto T samples[i] (region samples out i) = some (region samples final i) := by
  obtain ⟨ι, _, W, calls, c, s, hs, -, rfl, rfl, rfl, hend, rfl⟩ := h
  have hserved : ∃ ws, Served (calls c) (s.out c) ws := by
    obtain hret | hby := hend
    · exact ⟨_, reached_served hs hctx hret⟩
    · exact reached_alone hs hctx hby
  obtain ⟨ws, hws⟩ := hserved
  refine ⟨(calls c).sized, ?_, fun i hi => hws.region_eq hi⟩
  rw [hws.out_eq]
  exact applyWrites_length (fun w hw => (hws.right w hw).1) (calls c).sized

theorem region_length (hout : out.length = (samples.map List.length).sum) {i : Nat}
    (hi : i < samples.length) : (region samples out i).length = samples[i].length := by
  have hend := region_end hi
  rw [region, List.length_take, List.length_drop, ← lenAt_of_getElem? (List.getElem?_eq_getElem hi)]
  omega

/-- The regions make up the output. -/
theorem flatten_regions (hout : out.length = (samples.map List.length).sum) :
    ((List.range samples.length).map (region samples out)).flatten = out := by
  have hfirst (n : Nat) (hn : n ≤ samples.length) :
      ((List.range n).map (region samples out)).flatten = out.take (offAt samples n) := by
    induction n with
    | zero => simp [offAt]
    | succ n ih =>
      rw [List.range_succ, List.map_append, List.flatten_append, ih (by omega), offAt_succ,
        List.take_add]
      simp [region]
  rw [hfirst _ (Nat.le_refl _), offAt_length, ← hout, List.take_length]

/-- The counter slot is in step, or no sample has a full block. -/
def Covered (T : Template) (samples : List Bytes) : Prop :=
  T.stInit[0x220] = 8 ∨ ∀ s ∈ samples, s.length < 16

theorem Covered.region (h : Covered T samples) (hctx : 0x8000 ≤ T.ctx.length) {s : Bytes}
    (hs : s ∈ samples) (hout : out.length = s.length) :
    decryptRegionInto T s out = decrypt T s := by
  obtain h8 | hshort := h
  · exact decryptRegionInto_aligned hctx h8 hout
  · rw [decryptRegionInto_short (hshort s hs) hout, ← decryptRegionInto_zeros hctx,
      decryptRegionInto_short (hshort s hs) (List.length_replicate ..)]

/-- A covered call leaves the plaintexts, whatever the buffer held. -/
theorem Ends.plain (h : Ends T samples out final) (hcov : Covered T samples)
    (hctx : 0x8000 ≤ T.ctx.length) {plain : List Bytes}
    (hplain : samples.mapM (decrypt T) = some plain) : final = plain.flatten := by
  obtain ⟨hout, hfinal, hregions⟩ := h.regions hctx
  have hmap : (List.range samples.length).mapM (fun i => some (region samples final i)) =
      samples.mapM (decrypt T) := by
    refine mapM_range fun i hi => ?_
    rw [← hregions i hi]
    exact hcov.region hctx (List.getElem_mem hi) (region_length hout hi)
  have hpure : (List.range samples.length).mapM (fun i => some (region samples final i)) =
      some ((List.range samples.length).map (region samples final)) := List.mapM_pure
  rw [hplain, hpure, Option.some.injEq] at hmap
  rw [← hmap, flatten_regions hfinal]

/-- Out of step, byte 8 of a sample with a full block is what the caller left there. -/
theorem Ends.residue {b : UInt8}
    (h : Ends T samples (List.replicate (samples.map List.length).sum b) final)
    (hctx : 0x8000 ≤ T.ctx.length) (h8 : T.stInit[0x220] ≠ 8) {i : Nat} (hi : i < samples.length)
    (hlong : 16 ≤ samples[i].length) : (region samples final i)[8]? = some b := by
  obtain ⟨-, -, hregions⟩ := h.regions hctx
  have hregion := hregions i hi
  rw [region_replicate samples b hi] at hregion
  rw [decryptRegionInto_keeps hctx h8 hlong (List.length_replicate ..) hregion,
    List.getElem?_replicate, if_pos (by omega)]

theorem not_covered (h : ¬ Covered T samples) :
    T.stInit[0x220] ≠ 8 ∧ ∃ i, ∃ hi : i < samples.length, 16 ≤ samples[i].length := by
  rw [Covered, not_or] at h
  refine ⟨h.1, ?_⟩
  by_contra hnone
  refine h.2 fun s hs => ?_
  obtain ⟨i, hi, rfl⟩ := List.mem_iff_getElem.mp hs
  exact Nat.not_le.mp fun hlong => hnone ⟨i, hi, hlong⟩

theorem Covered.of_same (hctx : 0x8000 ≤ T.ctx.length)
    (h : ∀ out out' final final', Ends T samples out final → Ends T samples out' final' →
      final = final') : Covered T samples := by
  by_contra hcov
  obtain ⟨h8, i, hi, hlong⟩ := not_covered hcov
  -- the same call over zeros and over ones
  obtain ⟨f0, h0⟩ := ends_exists hctx samples (.replicate (samples.map List.length).sum 0)
    (List.length_replicate ..)
  obtain ⟨f1, h1⟩ := ends_exists hctx samples (.replicate (samples.map List.length).sum 1)
    (List.length_replicate ..)
  cases h _ _ _ _ h0 h1
  cases (h0.residue hctx h8 hi hlong).symm.trans (h1.residue hctx h8 hi hlong)

theorem Covered.of_regions (hctx : 0x8000 ≤ T.ctx.length)
    (h : ∀ s ∈ samples, ∀ out : Bytes, out.length = s.length →
      decryptRegionInto T s out = decrypt T s) : Covered T samples := by
  by_contra hcov
  obtain ⟨h8, i, hi, hlong⟩ := not_covered hcov
  obtain ⟨plain, hplain, -⟩ := decrypt_isSome hctx samples[i]
  have hkept (b : UInt8) : plain[8]? = some b := by
    have hregion := h _ (List.getElem_mem hi) (.replicate samples[i].length b)
      (List.length_replicate ..)
    rw [hplain] at hregion
    rw [decryptRegionInto_keeps hctx h8 hlong (List.length_replicate ..) hregion,
      List.getElem?_replicate, if_pos (by omega)]
  cases (hkept 0).symm.trans (hkept 1)

theorem plains_exist (hctx : 0x8000 ≤ T.ctx.length) (samples : List Bytes) :
    ∃ plain, samples.mapM (decrypt T) = some plain := by
  refine mapM_isSome samples fun s => ?_
  obtain ⟨o, ho, -⟩ := decrypt_isSome hctx s
  exact Option.isSome_iff_exists.mpr ⟨o, ho⟩

end Buffers

theorem zero_slot : zeroData.template.stInit[0x220] = 0 := by
  have hslot := stFromRaw_slot zeroData.state_size (show 0x220 < stSize by decide)
  have hword : wordAt zeroData.state (0x2000 - 0x220) = some 0 := by
    simp only [wordAt, zeroData, List.getElem?_replicate]
    decide
  rw [hword, ite_self, ← TemplateData.template_stInit] at hslot
  exact (Vector.getElem?_eq_some_iff.mp hslot).2

/-- One block of zeros, with a template that the loader accepts. -/
theorem buffer_shows_through : ∃ json T final final', templateFromJson json = some (.ok T) ∧
    Ends T [.replicate 16 0] (.replicate 16 0) final ∧
    Ends T [.replicate 16 0] (.replicate 16 255) final' ∧ final[8]? = some 0 ∧
    final'[8]? = some 255 := by
  obtain ⟨ms, h⟩ := document_write (D := zeroData) registerText_upper registerText_lower
    registerText_zero registerText_zero registerText_zero
  have hload := templateFromJson_document h
  have hctx := (show Loaded zeroData.template from Or.inl ⟨_, hload⟩).ctx_size
  have hslot : zeroData.template.stInit[0x220] ≠ 8 := by
    rw [zero_slot]
    decide
  have hends (b : UInt8) :
    ∃ final, Ends zeroData.template [.replicate 16 0] (.replicate 16 b) final ∧
      final[8]? = some b := by
    obtain ⟨final, hfinal⟩ := ends_exists hctx [.replicate 16 0] (.replicate 16 b) (by simp)
    have hkept := Ends.residue hfinal hctx hslot (i := 0) (by decide) (by simp)
    exact ⟨final, hfinal, by simpa [region, offAt, lenAt] using hkept⟩
  obtain ⟨final, hfinal, h0⟩ := hends 0
  obtain ⟨final', hfinal', h255⟩ := hends 255
  exact ⟨_, _, final, final', hload, hfinal, hfinal', h0, h255⟩

/-- Every call ends, and what it leaves is independent of what the buffer held, and is the
plaintexts, exactly when the counter slot is 8 or no sample has a full block. -/
theorem buffer_forgotten_iff (T : Template) (hload : Loaded T) (samples : List Bytes) :
    (∀ out : Bytes, out.length = (samples.map List.length).sum →
      ∃ final, Ends T samples out final) ∧
    ((∀ out out' final final', Ends T samples out final → Ends T samples out' final' →
      final = final') ↔ Covered T samples) ∧
    ((∀ plain, samples.mapM (decrypt T) = some plain → ∀ out final, Ends T samples out final →
      final = plain.flatten) ↔ Covered T samples) ∧
    ((∀ s ∈ samples, ∀ out : Bytes, out.length = s.length →
      decryptRegionInto T s out = decrypt T s) ↔ Covered T samples) := by
  have hctx := hload.ctx_size
  obtain ⟨plain, hplain⟩ := plains_exist hctx samples
  refine ⟨fun out hout => ends_exists hctx samples out hout, ⟨Covered.of_same hctx, ?_⟩,
    ⟨fun h => ?_, ?_⟩, ⟨fun h => ?_, ?_⟩⟩
  · intro hcov out out' final final' h h'
    exact (h.plain hcov hctx hplain).trans (h'.plain hcov hctx hplain).symm
  · refine Covered.of_same hctx fun out out' final final' h0 h1 => ?_
    exact (h plain hplain out final h0).trans (h plain hplain out' final' h1).symm
  · intro hcov plain hplain out final h
    exact h.plain hcov hctx hplain
  · exact Covered.of_regions hctx h
  · intro hcov s hs out hout
    exact hcov.region hctx hs hout

/-- With the counter slot at 0 two short samples are safe, and a full block beside one is not. -/
theorem buffer_forgotten_iff_two :
    (∀ out out' final final', Ends zeroData.template [[7], [8, 9]] out final →
      Ends zeroData.template [[7], [8, 9]] out' final' → final = final') ∧
    ¬ ∀ out out' final final', Ends zeroData.template [[7], .replicate 17 1] out final →
      Ends zeroData.template [[7], .replicate 17 1] out' final' → final = final' := by
  obtain ⟨-, hsame, -⟩ := buffer_forgotten_iff zeroData.template zero_loaded [[7], [8, 9]]
  obtain ⟨-, hsame', -⟩ := buffer_forgotten_iff zeroData.template zero_loaded [[7], .replicate 17 1]
  refine ⟨hsame.mpr (Or.inr (by simp)), fun h => ?_⟩
  obtain h8 | hshort := hsame'.mp h
  · rw [zero_slot] at h8
    cases h8
  · exact absurd (hshort (.replicate 17 1) (by simp)) (by simp)

end Temari.PoolBuffers
