import Temari.PoolSafety
import Temari.PoolRegions
import Mathlib.Data.List.Flatten

/-! When a call returns, each of its samples has been decrypted once into its own region,
so a batch comes out as its samples do one by one. -/
namespace Temari.PoolResults
open RoundMachine Rounds BlockLoop RegionPaths Pool PoolMoves PoolWork PoolSafety PoolRegions
open Transition SharedWork
variable {ι : Type} [DecidableEq ι] {W : Nat} {calls : ι → Call} {s s' : State ι W}

/-- How far the workers are with a call: the output is their writes, pair by pair. -/
structure Progress (c : Call) (out : Bytes) (log : List (Done W)) : Prop where
  out_eq : out = applyWrites c.out (log.flatMap Done.writes)
  covers : ∀ d ∈ log, d.writes.map Write.index = pairIndexes c.n d.pair
  right : ∀ d ∈ log, ∀ w ∈ d.writes, Right c c.out w

/-- Every sample of the call has been written once, and rightly. -/
structure Served (c : Call) (out : Bytes) (ws : List Write) : Prop where
  out_eq : out = applyWrites c.out ws
  once : (ws.map Write.index).Perm (List.range c.n)
  right : ∀ w ∈ ws, Right c c.out w

section Progress
variable {c : Call} {out : Bytes} {log : List (Done W)} {ws : List Write}

theorem progress_start (c : Call) : Progress c c.out ([] : List (Done W)) := by
  constructor <;> simp [applyWrites]

theorem Progress.placed (h : Progress c out log) :
    ∀ w ∈ log.flatMap Done.writes, Placed c.samples w := by
  intro w hw
  obtain ⟨d, hd, hwd⟩ := List.mem_flatMap.mp hw
  exact (h.right d hd w hwd).1

theorem Progress.out_length (h : Progress c out log) :
    out.length = (c.samples.map List.length).sum := by
  rw [h.out_eq]
  exact applyWrites_length h.placed c.sized

theorem Progress.indexes (h : Progress c out log) :
    (log.flatMap Done.writes).map Write.index = (log.map Done.pair).flatMap (pairIndexes c.n) := by
  rw [List.map_flatMap, List.flatMap_map]
  exact List.flatMap_congr h.covers

/-- The region of a sample whose pair is not done is as the caller handed it in. -/
theorem Progress.region_eq (h : Progress c out log) {i : Nat} (hi : i / 2 ∉ log.map Done.pair) :
    region c.samples out i = region c.samples c.out i := by
  rw [h.out_eq]
  refine region_applyWrites_of_notMem h.placed c.sized ?_
  rw [h.indexes, List.mem_flatMap]
  rintro ⟨p, hp, hip⟩
  exact hi (mem_pairIndexes hip ▸ hp)

/-- One more pair: what is written is what the untouched region decrypts to. -/
theorem Progress.process (h : Progress c out log) (hctx : 0x8000 ≤ c.tmpl.ctx.length) {p : Nat}
    (hp : p < c.pairs) (hnew : p ∉ log.map Done.pair) (hws : decryptPair c out p = some ws)
    (w : Fin W) : Progress c (applyWrites out ws) (log ++ [⟨w, p, ws⟩]) := by
  obtain ⟨vs, hvs, hidx, hright⟩ := decryptPair_right hctx h.out_length hp
  cases hvs.symm.trans hws
  refine ⟨?_, ?_, ?_⟩
  · rw [List.flatMap_append, applyWrites_append, ← h.out_eq]
    simp
  · intro d hd
    obtain hd | hd := List.mem_append.mp hd
    · exact h.covers d hd
    · rw [List.mem_singleton.mp hd]
      exact hidx
  · intro d hd v hv
    obtain hd | hd := List.mem_append.mp hd
    · exact h.right d hd v hv
    · rw [List.mem_singleton.mp hd] at hv
      obtain ⟨hplaced, sample, hget, hdec⟩ := hright v hv
      have hpair : v.index / 2 = p :=
        mem_pairIndexes (by rw [← hidx]; exact List.mem_map_of_mem hv)
      rw [h.region_eq (by rw [hpair]; exact hnew)] at hdec
      exact ⟨hplaced, sample, hget, hdec⟩

theorem Progress.served (h : Progress c out log)
    (hall : (log.map Done.pair).Perm (List.range c.pairs)) :
    Served c out (log.flatMap Done.writes) where
  out_eq := h.out_eq
  once := by
    rw [h.indexes, ← pairs_cover c.n]
    exact hall.flatMap_right _
  right := by
    intro w hw
    obtain ⟨d, hd, hwd⟩ := List.mem_flatMap.mp hw
    exact h.right d hd w hwd

end Progress

section Served
variable {c : Call} {out : Bytes} {ws : List Write}

/-- The region of each sample holds what its bytes decrypt to there. -/
theorem Served.region_eq (h : Served c out ws) {i : Nat} (hi : i < c.samples.length) :
    decryptRegionInto c.tmpl c.samples[i] (region c.samples c.out i) =
      some (region c.samples out i) := by
  obtain ⟨w, hw, rfl⟩ := List.mem_map.mp (h.once.mem_iff.mpr (List.mem_range.mpr hi))
  have hnd : (ws.map Write.index).Nodup := h.once.nodup_iff.mpr List.nodup_range
  obtain ⟨-, sample, hget, hdec⟩ := h.right w hw
  rw [h.out_eq, region_applyWrites_of_mem (fun v hv => (h.right v hv).1) c.sized hnd hw, ← hdec]
  rw [List.getElem?_eq_getElem hi, Option.some.injEq] at hget
  rw [hget]

theorem mapM_range {α β : Type} {l : List α} {f : Nat → Option β} {g : α → Option β}
    (h : ∀ i, (hi : i < l.length) → f i = g l[i]) : (List.range l.length).mapM f = l.mapM g := by
  induction l generalizing f with
  | nil => rfl
  | cons a l ih =>
    rw [List.length_cons, List.range_succ_eq_map, List.mapM_cons, List.mapM_cons, List.mapM_map,
      h 0 (Nat.succ_pos _), ih (f := f ∘ Nat.succ) fun i hi => h (i + 1) (Nat.succ_lt_succ hi)]
    rfl

theorem mapM_isSome {α β : Type} {f : α → Option β} (l : List α) (h : ∀ a, (f a).isSome) :
    ∃ bs, l.mapM f = some bs := by
  induction l with
  | nil => exact ⟨[], rfl⟩
  | cons a l ih =>
    obtain ⟨b, hb⟩ := Option.isSome_iff_exists.mp (h a)
    obtain ⟨bs, hbs⟩ := ih
    exact ⟨b :: bs, by rw [List.mapM_cons, hb, hbs]; rfl⟩

theorem offs_getElem? (samples : List Bytes) {i : Nat} (hi : i ≤ samples.length) :
    (offsOf samples ++ [(samples.map List.length).sum])[i]? = some (offAt samples i) := by
  have hlen : (offsOf samples).length = samples.length := by simp [offsOf_eq]
  obtain h | rfl := Nat.lt_or_eq_of_le hi
  · rw [List.getElem?_append_left (by omega), offsOf_getElem? h]
  · rw [List.getElem?_append_right (by omega), hlen, offAt_length]
    simp

theorem region_replicate (samples : List Bytes) (b : UInt8) {i : Nat} (hi : i < samples.length) :
    region samples (List.replicate (samples.map List.length).sum b) i =
      List.replicate samples[i].length b := by
  have hend := region_end hi
  rw [region, List.drop_replicate, List.take_replicate,
    ← lenAt_of_getElem? (List.getElem?_eq_getElem hi)]
  congr 1
  omega

/-- Over a cleared output the regions are the plaintexts. -/
theorem Served.collect_eq (h : Served c out ws) (hctx : 0x8000 ≤ c.tmpl.ctx.length)
    (hzero : c.out = List.replicate c.out.length 0) :
    collect c.samples out = c.samples.mapM (decrypt c.tmpl) := by
  have hout : out.length = (c.samples.map List.length).sum := by
    rw [h.out_eq]
    exact applyWrites_length (fun w hw => (h.right w hw).1) c.sized
  refine mapM_range fun i hi => ?_
  have hreg := h.region_eq hi
  rw [hzero, c.sized, region_replicate c.samples 0 hi, decryptRegionInto_zeros hctx] at hreg
  rw [offs_getElem? _ (Nat.le_of_lt hi), offs_getElem? _ hi, hreg]
  simp only [Option.bind_eq_bind, Option.bind_some, offAt_succ]
  exact slice_region hout hi

end Served

section Frames
variable {c d : ι} {w : Fin W}

/-- A caller's step leaves the other calls as they are. -/
theorem callerMove_others (hm : CallerMove calls s d s') (hne : c ≠ d) :
    s'.caller c = s.caller c ∧ s'.out c = s.out c ∧ s'.log c = s.log c := by
  cases hm with
  | alone ws _ _ _ => exact ⟨State.setCaller_ne _ _ hne, Function.update_of_ne hne _ _, rfl⟩
  | _ => exact ⟨State.setCaller_ne _ _ hne, rfl, rfl⟩

/-- A caller writes its own output only where it does without the pool. -/
theorem callerMove_self (hm : CallerMove calls s c s') (hb : s'.caller c ≠ .bypassed) :
    s'.out c = s.out c ∧ s'.log c = s.log c := by
  cases hm with
  | alone ws _ _ _ => exact absurd (State.setCaller_self _ _) hb
  | _ => exact ⟨rfl, rfl⟩

theorem callerMove_live (hm : CallerMove calls s c s') : s.caller c ≠ .bypassed := by
  intro hb
  cases hm <;> simp_all

/-- A worker writes the output of its own job only. -/
theorem workerMove_others (hm : WorkerMove calls s w s') (hne : refers (s.worker w).pc ≠ some c) :
    s'.out c = s.out c ∧ s'.log c = s.log c := by
  cases hm with
  | decrypt j p ws hpc _ =>
    have hcj : c ≠ j := by
      rintro rfl
      exact hne (by rw [hpc]; rfl)
    exact ⟨Function.update_of_ne hcj _ _, Function.update_of_ne hcj _ _⟩
  | _ => exact ⟨rfl, rfl⟩

omit [DecidableEq ι] in
theorem bypassed_notifyDone : s.notifyDone.caller c = .bypassed ↔ s.caller c = .bypassed := by
  obtain ⟨hpark, hp⟩ | ⟨-, hp⟩ := s.notifyDone_caller c
  · simp [hp, hpark]
  · rw [hp]

theorem workerMove_bypassed (hm : WorkerMove calls s w s') :
    s'.caller c = .bypassed ↔ s.caller c = .bypassed := by
  cases hm with
  | notify j _ => exact bypassed_notifyDone
  | _ => exact Iff.rfl

theorem bypassed_woken {d : ι} (hpc : s.caller d = .parked) :
    (s.setCaller d .woken).caller c = .bypassed ↔ s.caller c = .bypassed := by
  by_cases hcd : c = d
  · subst hcd
    simp [State.setCaller_self, hpc]
  · rw [State.setCaller_ne _ _ hcd]

end Frames

section Runs
variable {c : ι}

/-- Until the call is answered without the pool, its output is the work of its log. -/
theorem reached_progress (h : Reaches (step calls) (initial calls : State ι W) s)
    (hctx : 0x8000 ≤ (calls c).tmpl.ctx.length) (hc : s.caller c ≠ .bypassed) :
    Progress (calls c) (s.out c) (s.log c) := by
  refine h.invariant (I := fun s => s.caller c ≠ .bypassed →
    Progress (calls c) (s.out c) (s.log c)) (fun _ => progress_start _) ?_ hc
  clear hc
  intro t a u ht ih _ hu hb
  cases step_move hu with
  | caller d u hm =>
    by_cases hcd : c = d
    · subst hcd
      obtain ⟨hout, hlog⟩ := callerMove_self hm hb
      rw [hout, hlog]
      exact ih (callerMove_live hm)
    · obtain ⟨hcaller, hout, hlog⟩ := callerMove_others hm hcd
      rw [hout, hlog]
      exact ih (hcaller ▸ hb)
  | worker w u hm =>
    have hlive := mt (workerMove_bypassed hm).mpr hb
    cases hm with
    | decrypt j p ws hpc hws =>
      by_cases hj : c = j
      · subst c
        have hdone := ((reached_inv ht).2 j).mem_done p
        have hown : (workOf t j).own w = some (p, false) := by simp [workOf, hpc, ownOf]
        have hnew : p ∉ (t.log j).map Done.pair := fun hp => (hdone.mp hp).2.2 w hown
        have hp := (((reached_inv ht).2 j).owned w p false hown).2
        simpa [State.setPc, State.write, State.record] using (ih hlive).process hctx hp hnew hws w
      · simpa [State.setPc, State.write, State.record, hj] using ih hlive
    | _ => exact ih hlive
  | drop u hm => cases hm <;> exact ih hb
  | wakeCaller d hpc => exact ih (mt (bypassed_woken hpc).mpr hb)
  | wakeWorker w hpc => exact ih hb

/-- A call that has not been published has its output as it came. -/
theorem reached_untouched (h : Reaches (step calls) (initial calls : State ι W) s)
    (hctx : 0x8000 ≤ (calls c).tmpl.ctx.length) (hc : s.caller c = .idle) :
    s.out c = (calls c).out := by
  have hp := reached_progress h hctx (by rw [hc]; simp)
  have hlog := ((reached_inv h).1.fresh c (by rw [hc]; rfl)).2
  rw [hp.out_eq, hlog]
  rfl

/-- A call answered without the pool is served as well. -/
theorem reached_alone (h : Reaches (step calls) (initial calls : State ι W) s)
    (hctx : 0x8000 ≤ (calls c).tmpl.ctx.length) (hc : s.caller c = .bypassed) :
    ∃ ws, Served (calls c) (s.out c) ws := by
  refine h.invariant (I := fun s => s.caller c = .bypassed →
    ∃ ws, Served (calls c) (s.out c) ws) (by simp [initial]) ?_ hc
  clear hc
  intro t a u ht ih _ hu hb
  cases step_move hu with
  | caller d u hm =>
    by_cases hcd : c = d
    · subst hcd
      cases hm with
      | empty hpc hn =>
        refine ⟨[], ?_, ?_, by simp⟩
        · exact reached_untouched (s := t) ht hctx hpc
        · simp [hn]
      | alone ws hpc hn hws =>
        rw [reached_untouched ht hctx hpc] at hws
        obtain ⟨vs, hvs, hidx, hright⟩ := decryptPair_right (p := 0) hctx (calls c).sized
          (by rw [Call.pairs, hn]; decide)
        cases hvs.symm.trans hws
        refine ⟨ws, ?_, ?_, hright⟩
        · simp [State.setCaller, State.write, reached_untouched ht hctx hpc]
        · rw [hidx, hn]
          rfl
      | _ => cases (State.setCaller_self _ _).symm.trans hb
    · obtain ⟨hcaller, hout, -⟩ := callerMove_others hm hcd
      rw [hout]
      exact ih (hcaller ▸ hb)
  | worker w u hm =>
    -- no worker has a job whose call never came to the pool
    have hbypassed := (workerMove_bypassed hm).mp hb
    have hrefs : refers (t.worker w).pc ≠ some c := fun hw => by
      have hcreated := (reached_inv ht).1.refs w c hw
      rw [hbypassed] at hcreated
      cases hcreated
    rw [(workerMove_others hm hrefs).1]
    exact ih hbypassed
  | drop u hm => cases hm <;> exact ih hb
  | wakeCaller d hpc => exact ih ((bypassed_woken hpc).mp hb)
  | wakeWorker w hpc => exact ih hb

theorem reached_served (h : Reaches (step calls) (initial calls : State ι W) s)
    (hctx : 0x8000 ≤ (calls c).tmpl.ctx.length) (hc : s.caller c = .returned) :
    Served (calls c) (s.out c) ((s.log c).flatMap Done.writes) := by
  have hfin := seen_finished h (c := c) (by rw [hc]; rfl)
  exact (reached_progress h hctx (by rw [hc]; simp)).served
    (((reached_inv h).2 c).done_perm hfin)

end Runs

/-- Once a call has returned, each of its samples has been written once, by one worker, in
its own region; and the batch reads as its samples decrypted one by one. -/
theorem batch_results (calls : ι → Call) (s : State ι W)
    (h : Reaches (step calls) (initial calls) s) (c : ι)
    (hctx : 0x8000 ≤ (calls c).tmpl.ctx.length) :
    (s.caller c = .returned →
      ((s.log c).flatMap fun d => d.writes.map Write.index).Perm (List.range (calls c).n) ∧
      (∀ d ∈ s.log c, ∀ w ∈ d.writes, (calls c).offs[w.index]? = some w.lo ∧
        (calls c).samples[w.index]?.map List.length = some w.bytes.length) ∧
      s.out c = applyWrites (calls c).out ((s.log c).flatMap Done.writes)) ∧
    (s.caller c = .returned ∨ s.caller c = .bypassed →
      (calls c).out = List.replicate (calls c).out.length 0 →
      ∃ plain, collect (calls c).samples (s.out c) = some plain ∧
        (calls c).samples.mapM (decrypt (calls c).tmpl) = some plain) := by
  refine ⟨fun hret => ?_, fun hend hzero => ?_⟩
  · have hs := reached_served h hctx hret
    refine ⟨by simpa [List.map_flatMap] using hs.once, fun d hd w hw => ?_, hs.out_eq⟩
    obtain ⟨hplaced, sample, hget, -⟩ := hs.right w (List.mem_flatMap.mpr ⟨d, hd, hw⟩)
    rw [Call.offs, offsOf_getElem? hplaced.1, ← hplaced.2.1, hplaced.2.2, hget,
      lenAt_of_getElem? hget]
    exact ⟨rfl, rfl⟩
  · have hs : ∃ ws, Served (calls c) (s.out c) ws := by
      obtain hret | hby := hend
      · exact ⟨_, reached_served h hctx hret⟩
      · exact reached_alone h hctx hby
    obtain ⟨ws, hs⟩ := hs
    obtain ⟨plain, hplain⟩ := mapM_isSome (calls c).samples fun sample => by
      obtain ⟨out, hout, -⟩ := decrypt_isSome hctx sample
      exact Option.isSome_iff_exists.mpr ⟨out, hout⟩
    exact ⟨plain, (hs.collect_eq hctx hzero).trans hplain, hplain⟩

theorem batch_results_two_bytes : ∃ s : State Unit 1, s.caller () = .returned ∧
    ((s.log ()).flatMap fun d => d.writes.map Write.index).Perm [0, 1] ∧
    ∃ plain, collect [[7], [9]] (s.out ()) = some plain ∧
      [[7], [9]].mapM (decrypt eightTemplate) = some plain := by
  obtain ⟨s, hrun, hret⟩ : ∃ s, run (step fun _ => twoBytes)
      (initial fun _ => twoBytes : State Unit 1)
      (.replicate 6 (.caller ()) ++ .replicate 8 (.worker 0) ++ .replicate 4 (.caller ())) =
        some s ∧ s.caller () = .returned := ⟨_, rfl, rfl⟩
  have h := batch_results (fun _ => twoBytes) s (reaches_of_run hrun) () List.length_replicate.ge
  exact ⟨s, hret, (h.1 hret).1, h.2 (Or.inl hret) rfl⟩

end Temari.PoolResults
