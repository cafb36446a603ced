import Temari.PoolRest

/-! The pool cannot deadlock but by the lost wakeup. A run of its calls does a bounded number of
steps, and where none is left every call has its results, or waits behind one that is stranded. -/
namespace Temari.PoolCompletion
open RoundMachine Rounds Pool PoolMoves PoolWork PoolSafety PoolEpochs PoolResults PoolWakeup
open PoolTurns PoolRest Transition SharedWork
variable {ι : Type} [DecidableEq ι] {W : Nat} {calls : ι → Call} {s t : State ι W} {c d : ι}
  {w : Fin W} {F : Finset ι}

/-- The steps of the calls of F and of the workers. -/
def turn (F : Finset ι) : Action ι W → Prop
  | .caller c => c ∈ F
  | .worker _ => True
  | _ => False

/-- No call of F and no worker has a step. -/
def Resting (calls : ι → Call) (F : Finset ι) (s : State ι W) : Prop :=
  ∀ a, turn F a → step calls s a = none

/-- The call has handed its results back. -/
def answered : CallerPc → Bool
  | .returned | .bypassed => true
  | _ => false

/-- Finitely many calls are inside at a time. -/
theorem reached_within (h : Reaches (step calls) (initial calls : State ι W) s) :
    ∃ F : Finset ι, ∀ c, c ∈ F ↔ inside (s.caller c) = true := by
  obtain ⟨F, hF⟩ : ∃ F : Finset ι, Within F s := by
    refine h.invariant (I := fun s => ∃ F : Finset ι, Within F s) ⟨∅, nofun⟩ ?_
    rintro t a u - ⟨F, hF⟩ - hu
    cases step_move hu with
    | caller c u hm =>
      have hin : Within (insert c F) t := fun d hd => Finset.mem_insert_of_mem (hF d hd)
      exact ⟨insert c F, hin.caller (Finset.mem_insert_self c F) hm⟩
    | worker w u hm => exact ⟨F, hF.worker hm⟩
    | drop u hm => cases hm <;> exact ⟨F, hF⟩
    | wakeCaller c hpc => exact ⟨F, hF.setCaller fun _ => hF c (by rw [hpc]; rfl)⟩
    | wakeWorker w hpc => exact ⟨F, hF⟩
  refine ⟨F.filter fun c => inside (s.caller c) = true, fun c => ?_⟩
  rw [Finset.mem_filter]
  exact ⟨And.right, fun hc => ⟨hF c hc, hc⟩⟩

section Rest

theorem callerStep_isSome_of_holds (hc : callerHolds (s.caller c) = true) :
    callerStep calls s c ≠ none := by
  cases hpc : s.caller c with
  | holdJobMutex e => simp [callerStep, hpc]
  | _ =>
    rw [hpc] at hc
    cases hc

theorem callerStep_isSome_of_done (hc : doneHolds (s.caller c) = true) :
    callerStep calls s c ≠ none := by
  cases hpc : s.caller c with
  | holdDone =>
    simp only [callerStep, hpc]
    split <;> exact Option.some_ne_none _
  | aboutPark | leaving => simp [callerStep, hpc]
  | _ =>
    rw [hpc] at hc
    cases hc

/-- A worker waits for nothing but the job mutex, unless it sleeps or has ended. -/
theorem workerStep_isSome (hlock : (s.worker w).pc = .lockJob → s.jobMutex = none)
    (hpark : (s.worker w).pc ≠ .parked) (hend : (s.worker w).pc.ended = false) :
    workerStep calls s w ≠ none := by
  unfold workerStep
  split
  next hpc => simp [hlock hpc]
  next hpc =>
    split
    · split <;> nofun
    · nofun
  next => split <;> nofun
  next => nofun
  next =>
    dsimp only
    split <;> nofun
  next => nofun
  next => split <;> nofun
  next =>
    dsimp only
    split <;> nofun
  next => nofun
  next => nofun
  next hpc => exact absurd hpc hpark
  next hpc => simp [hpc, WorkerPc.ended] at hend
  next hpc => simp [hpc, WorkerPc.ended] at hend

/-- Whoever is inside is a call of F, so at rest it has no step. -/
theorem Resting.caller (hrest : Resting calls F s) (hF : Within F s)
    (hc : inside (s.caller c) = true) : callerStep calls s c = none := hrest (.caller c) (hF c hc)

theorem Resting.job_free (hrest : Resting calls F s) (hF : Within F s)
    (h : Reaches (step calls) (initial calls : State ι W) s) : s.jobMutex = none := by
  cases hmutex : s.jobMutex with
  | none => rfl
  | some x =>
    cases x with
    | caller c =>
      have hholds := ((reached_held h).callers c).job hmutex
      have hin : inside (s.caller c) = true := by
        cases hpc : s.caller c <;> simp_all [callerHolds, inside]
      exact absurd (hrest.caller hF hin) (callerStep_isSome_of_holds hholds)
    | worker w =>
      have hholds := (reached_held h).workers w hmutex
      refine absurd (hrest (.worker w) trivial)
        (workerStep_isSome (fun hpc => ?_) (fun hpc => ?_) ?_)
      · rw [hpc] at hholds
        cases hholds
      · rw [hpc] at hholds
        cases hholds
      · cases hpc : (s.worker w).pc <;> simp_all [workerHolds, WorkerPc.ended]

theorem Resting.done_free (hrest : Resting calls F s) (hF : Within F s)
    (h : Reaches (step calls) (initial calls : State ι W) s) : s.doneMutex = none := by
  cases hmutex : s.doneMutex with
  | none => rfl
  | some c =>
    have hholds := ((reached_held h).callers c).done hmutex
    have hin : inside (s.caller c) = true := by
      cases hpc : s.caller c <;> simp_all [doneHolds, inside]
    exact absurd (hrest.caller hF hin) (callerStep_isSome_of_done hholds)

/-- At rest every worker sleeps. -/
theorem Resting.workers (hrest : Resting calls F s) (hF : Within F s)
    (h : Reaches (step calls) (initial calls : State ι W) s)
    (hctx : ∀ c, 0x8000 ≤ (calls c).tmpl.ctx.length) (hd : s.dropper = .idle) (w : Fin W) :
    (s.worker w).pc = .parked := by
  by_contra hpark
  refine absurd (hrest (.worker w) trivial)
    (workerStep_isSome (fun _ => hrest.job_free hF h) hpark ?_)
  have hexit := (reached_lit h hd).2 w
  have hpanic (j : ι) (p : Nat) := worker_unharmed h (hctx j) w p
  cases hpc : (s.worker w).pc <;> simp_all [WorkerPc.ended]

/-- A call inside waits for its job, or for run_lock. -/
theorem Resting.waits (hrest : Resting calls F s) (hF : Within F s)
    (h : Reaches (step calls) (initial calls : State ι W) s) (hc : inside (s.caller c) = true) :
    s.caller c = .parked ∨ s.caller c = .wantRunLock ∧ s.runLock ≠ none := by
  have hstep := hrest.caller hF hc
  have hjob := hrest.job_free hF h
  have hdone := hrest.done_free hF h
  cases hpc : s.caller c with
  | parked => exact Or.inl rfl
  | wantRunLock =>
    refine Or.inr ⟨rfl, fun hfree => ?_⟩
    simp [callerStep, hpc, hfree] at hstep
  | idle | returned | bypassed | panicked =>
    rw [hpc] at hc
    cases hc
  | holdDone =>
    exact absurd hstep (callerStep_isSome_of_done (by rw [hpc]; rfl))
  | _ => simp [callerStep, hpc, hjob, hdone] at hstep

/-- A call that waits for its job at rest has missed its notify: all workers have been through
the job. -/
theorem Resting.stranded (hrest : Resting calls F s) (hF : Within F s) (hW : 0 < W)
    (h : Reaches (step calls) (initial calls : State ι W) s)
    (hctx : ∀ c, 0x8000 ≤ (calls c).tmpl.ctx.length) (hd : s.dropper = .idle)
    (hpc : s.caller c = .parked) : Stranded s c := by
  have hasleep := hrest.workers hF h hctx hd
  have hsupplied := reached_supplied h
  obtain ⟨e, hslot⟩ := hsupplied.slot c (by rw [hpc]; rfl)
  have hspent : (calls c).pairs ≤ (s.jobs c).next := by
    obtain hlevel | ⟨d, hpub⟩ := hsupplied.level ⟨0, hW⟩ (hasleep _)
    · refine hsupplied.spent ⟨0, hW⟩ c e hslot ?_ (by simp [hasleep, refers])
      rw [hlevel, slotEpoch, hslot]
      rfl
    · have hstep := hrest.caller hF (c := d) (by rw [hpub]; rfl)
      simp [callerStep, hpub] at hstep
  have hnoticed := reached_noticed h (pairs_pos h (c := c) (by rw [hpc]; rfl))
  obtain hfin | ⟨w, hw⟩ := ((reached_inv h).2 c).noticed hnoticed hspent
    fun w => by simp [workOf, hasleep w, ownOf]
  · refine ⟨hpc, hfin, fun w => ?_⟩
    rw [hasleep w]
    exact ⟨by simp, by simp⟩
  · simp [workOf, hasleep w, lastOf] at hw

/-- At rest a call of F is answered, stranded, or behind a stranded one. -/
theorem Resting.cases (hrest : Resting calls F s) (hF : Within F s) (hW : 0 < W)
    (h : Reaches (step calls) (initial calls : State ι W) s)
    (hctx : ∀ c, 0x8000 ≤ (calls c).tmpl.ctx.length) (hd : s.dropper = .idle) (hc : c ∈ F) :
    answered (s.caller c) = true ∨
      ∃ d ∈ F, Stranded s d ∧ (c = d ∨ s.caller c = .wantRunLock ∧ s.runLock = some d) := by
  by_cases hin : inside (s.caller c) = true
  · right
    obtain hpark | ⟨hwant, hlock⟩ := hrest.waits hF h hin
    · exact ⟨c, hc, hrest.stranded hF hW h hctx hd hpark, .inl rfl⟩
    · obtain ⟨d, hlock⟩ := Option.ne_none_iff_exists'.mp hlock
      have hrun := ((reached_held h).callers d).run hlock
      have hind : inside (s.caller d) = true := by
        cases hpc : s.caller d <;> simp_all [inRun, inside]
      obtain hpark | ⟨hwant', -⟩ := hrest.waits hF h hind
      · exact ⟨d, hF d hind, hrest.stranded hF hW h hctx hd hpark, .inr ⟨hwant, hlock⟩⟩
      · rw [hwant'] at hrun
        cases hrun
  · left
    have hpanic := caller_unharmed h (hctx c)
    cases hpc : s.caller c with
    | idle =>
      have hstep := hrest (.caller c) hc
      simp only [step, callerStep, hpc, hd, ne_eq, not_true_eq_false, if_false] at hstep
      split at hstep
      · cases hstep
      · split at hstep
        · split at hstep <;> cases hstep
        · cases hstep
    | returned | bypassed => rfl
    | panicked => exact absurd hpc hpanic
    | _ => simp [hpc, inside] at hin

end Rest

section Settling

omit [DecidableEq ι] in
theorem turn_work {a : Action ι W} (ha : turn F a) : work a = 1 ∧ grant a = 0 := by
  cases a with
  | caller c | worker w => exact ⟨rfl, rfl⟩
  | drop | wakeCaller c | wakeWorker w => cases ha

/-- The turns that are taken with every notify heard. -/
def heardStep (calls : ι → Call) : State ι W → Action ι W → Option (State ι W) :=
  guarded heard (step calls)

theorem heardStep_eq_some {a : Action ι W} (hu : heardStep calls s a = some t) :
    heard s a = true ∧ step calls s a = some t := by
  rw [heardStep, guarded] at hu
  split at hu
  next hok => exact ⟨hok, hu⟩
  next => cases hu

/-- A notify that would come too early waits for a call that has a step itself. -/
theorem Resting.of_heard (hF : Within F s)
    (hrest : ∀ a, turn F a → heardStep calls s a = none) : Resting calls F s := by
  intro a ha
  have hnone := hrest a ha
  cases hok : heard s a with
  | true => rwa [heardStep, guarded, if_pos hok] at hnone
  | false =>
    obtain ⟨c, hpc⟩ : ∃ c, s.caller c = .aboutPark := by
      cases a with
      | worker w =>
        cases hw : (s.worker w).pc with
        | mustNotify j => exact ⟨j, by simpa [heard, hw] using hok⟩
        | _ => simp [heard, hw] at hok
      | _ => cases hok
    have hstep := hrest (.caller c) (hF c (by rw [hpc]; rfl))
    exact absurd hstep (callerStep_isSome_of_done (by rw [hpc]; rfl))

/-- Left to itself, the pool comes to rest, and can do so with every notify heard. -/
theorem settles (h : Reaches (step calls) (initial calls : State ι W) s) (hF : Within F s) :
    ∃ as t, (∀ a ∈ as, turn F a) ∧ run (step calls) s as = some t ∧ Within F t ∧
      t.dropper = s.dropper ∧ (Awaited s → Awaited t) ∧ Resting calls F t := by
  have hrank : ∀ (u : State ι W) a v, Reaches (step calls) (initial calls) u ∧ Within F u ∧
      u.dropper = s.dropper ∧ (Awaited s → Awaited u) → turn F a → heardStep calls u a = some v →
      (Reaches (step calls) (initial calls) v ∧ Within F v ∧ v.dropper = s.dropper ∧
        (Awaited s → Awaited v)) ∧ turns calls F v < turns calls F u := by
    rintro u a v ⟨hu, hin, hd, hawait⟩ ha hstep
    obtain ⟨hok, hv⟩ := heardStep_eq_some hstep
    obtain ⟨hin', hle⟩ := turns_step hu hin (fun c hc => by subst hc; exact ha) hv
    obtain ⟨hwork, hgrant⟩ := turn_work ha
    have hdrop : a ≠ .drop := by
      rintro rfl
      exact ha
    exact ⟨⟨.tail hu trivial hv, hin', (dropper_stays hv hdrop).trans hd,
      fun hs => (hawait hs).step hok hv⟩, by omega⟩
  obtain ⟨as, t, has, hrun, ⟨-, hin, hd, hawait⟩, hrest⟩ := exists_rest hrank ⟨h, hF, rfl, id⟩
  exact ⟨as, t, has, run_of_guarded hrun, hin, hd, hawait, Resting.of_heard hin hrest⟩

/-- A call that is answered stays so. -/
theorem answered_step {a : Action ι W} (hu : step calls s a = some t)
    (hc : answered (s.caller c) = true) : answered (t.caller c) = true := by
  have hset : settled (s.caller c) = true := by
    cases hpc : s.caller c <;> simp_all [answered, settled]
  rwa [settled_stays hu hset]

theorem answered_run {as : List (Action ι W)} (hrun : run (step calls) s as = some t)
    (hc : answered (s.caller c) = true) : answered (t.caller c) = true := by
  induction as generalizing s with
  | nil =>
    cases hrun
    exact hc
  | cons a as ih =>
    obtain ⟨u, hu, hrest⟩ := run_cons_eq_some.mp hrun
    exact ih hrest (answered_step hu hc)

/-- One spurious wakeup frees a stranded call. -/
theorem stranded_returns (calls : ι → Call) (hc : Stranded s c) (hfree : s.doneMutex = none) :
    ∃ t, run (step calls) s (.wakeCaller c :: .replicate 4 (.caller c)) = some t ∧
      t.caller c = .returned ∧ (∀ d, d ≠ c → t.caller d = s.caller d) ∧
      t.dropper = s.dropper := by
  obtain ⟨hpc, hfin, -⟩ := hc
  refine ⟨{ s with
    doneMutex := none
    runLock := none
    borrows := s.borrows - 1
    caller := Function.update s.caller c .returned }, ?_, ?_, ?_, rfl⟩
  · simp [run, List.replicate, step, callerStep, hpc, hfin, hfree, State.setCaller]
  · exact Function.update_self ..
  · exact fun d hd => Function.update_of_ne hd ..

end Settling

section Completion

/-- The calls of F that are still to be answered. -/
def unanswered (F : Finset ι) (s : State ι W) : Finset ι :=
  F.filter fun c => answered (s.caller c) = false

/-- The steps that complete the calls of F: their own, the workers' and wakeups. -/
def helping (F : Finset ι) : Action ι W → Prop
  | .caller c | .wakeCaller c => c ∈ F
  | .worker _ => True
  | _ => False

omit [DecidableEq ι] in
theorem helping_of_turn {a : Action ι W} (ha : turn F a) : helping F a := by
  cases a with
  | caller c => exact ha
  | worker w => trivial
  | drop | wakeCaller c | wakeWorker w => cases ha

/-- The call a spurious wakeup is for. -/
def woken : Action ι W → Option ι
  | .wakeCaller c => some c
  | _ => none

omit [DecidableEq ι] in
theorem woken_of_turn {as : List (Action ι W)} (has : ∀ a ∈ as, turn F a) :
    as.filterMap woken = [] := by
  refine List.filterMap_eq_nil_iff.mpr fun a ha => ?_
  have hturn := has a ha
  cases a with
  | wakeCaller c => cases hturn
  | _ => rfl

theorem unanswered_run {as : List (Action ι W)} (hrun : run (step calls) s as = some t)
    (hc : answered (t.caller c) = false) : answered (s.caller c) = false := by
  by_contra hs
  rw [answered_run hrun (Bool.not_eq_false _ ▸ hs)] at hc
  cases hc

/-- From every state reached the calls of F can still be answered, each with the help of at most
one wakeup; and with none where no notify has been missed. -/
theorem all_answered (hW : 0 < W) (hctx : ∀ c, 0x8000 ≤ (calls c).tmpl.ctx.length)
    (h : Reaches (step calls) (initial calls : State ι W) s) (hd : s.dropper = .idle)
    (hF : Within F s) : ∃ as t, (∀ a ∈ as, helping F a) ∧ (as.filterMap woken).Nodup ∧
      (∀ c ∈ as.filterMap woken, answered (s.caller c) = false) ∧
      (Awaited s → as.filterMap woken = [] ∧ Awaited t) ∧
      run (step calls) s as = some t ∧ ∀ c ∈ F, answered (t.caller c) = true := by
  induction hn : (unanswered F s).card using Nat.strongRecOn generalizing s with
  | ind n ih =>
    obtain ⟨as, t, has, hrun, hFt, hdt, hawait, hrest⟩ := settles h hF
    have ht := h.trans (reaches_of_run hrun)
    have hquiet := woken_of_turn has
    by_cases hall : ∀ c ∈ F, answered (t.caller c) = true
    · refine ⟨as, t, fun a ha => helping_of_turn (has a ha), ?_, ?_, fun hs => ⟨hquiet, hawait hs⟩,
        hrun, hall⟩
      · rw [hquiet]
        exact List.nodup_nil
      · rw [hquiet]
        nofun
    · simp only [not_forall] at hall
      obtain ⟨c, hc, hleft⟩ := hall
      obtain ⟨d, hdF, hst, -⟩ :=
        (hrest.cases hFt hW ht hctx (hdt.trans hd) hc).resolve_left hleft
      obtain ⟨u, hfree, hret, hothers, hdu⟩ := stranded_returns calls hst
        (hrest.done_free hFt ht)
      have hdleft : answered (s.caller d) = false := unanswered_run hrun (by rw [hst.1]; rfl)
      have hFu : Within F u := fun b hb => by
        obtain rfl | hne := eq_or_ne b d
        · exact hdF
        · exact hFt b (by rwa [hothers b hne] at hb)
      have hback : ∀ b, answered (u.caller b) = false → answered (s.caller b) = false :=
        fun b hb => unanswered_run ((run_append hrun).trans hfree) hb
      have hfewer : (unanswered F u).card < n := by
        rw [← hn]
        have hsub : unanswered F u ⊆ unanswered F s := fun b hb => by
          obtain ⟨hbF, hbu⟩ := Finset.mem_filter.mp hb
          exact Finset.mem_filter.mpr ⟨hbF, hback b hbu⟩
        refine Finset.card_lt_card ((Finset.ssubset_iff_of_subset hsub).mpr ⟨d, ?_, fun hu => ?_⟩)
        · exact Finset.mem_filter.mpr ⟨hdF, hdleft⟩
        · cases (congrArg answered hret).symm.trans (Finset.mem_filter.mp hu).2
      obtain ⟨bs, v, hbs, hnodup, honce, -, hrest', hdone⟩ :=
        ih _ hfewer (ht.trans (reaches_of_run hfree)) (hdu.trans (hdt.trans hd)) hFu rfl
      have hwoken : (as ++ ((Action.wakeCaller d :: List.replicate 4 (Action.caller d)) ++
          bs)).filterMap woken = d :: bs.filterMap woken := by
        rw [List.filterMap_append, hquiet]
        rfl
      refine ⟨as ++ ((.wakeCaller d :: .replicate 4 (.caller d)) ++ bs), v, ?_, ?_, ?_,
        fun hs => absurd (hawait hs) hst.not_awaited, ?_, hdone⟩
      · simp only [List.mem_append, List.mem_cons, List.mem_replicate]
        rintro a (ha | (rfl | ⟨-, rfl⟩) | ha)
        · exact helping_of_turn (has a ha)
        · exact hdF
        · exact hdF
        · exact hbs a ha
      · rw [hwoken]
        refine List.nodup_cons.mpr ⟨fun hmem => ?_, hnodup⟩
        cases (congrArg answered hret).symm.trans (honce d hmem)
      · rw [hwoken]
        exact List.forall_mem_cons.mpr ⟨hdleft, fun b hb => hback b (honce b hb)⟩
      · rw [run_append hrun, run_append hfree, hrest']

/-- The pool cannot deadlock but by the lost wakeup. A run of the calls of F from a state reached
does no more than a bounded number of steps beyond what its wakeups add. Where none of them is
left, each call has its results, is stranded, or waits for run_lock behind a stranded one; in a
run in which every notify is heard all have their results. And from every state reached all of
them can be answered, with at most one wakeup for each. -/
theorem calls_complete (calls : ι → Call) (F : Finset ι) (s : State ι W) (hW : 0 < W)
    (hctx : ∀ c, 0x8000 ≤ (calls c).tmpl.ctx.length)
    (h : Reaches (step calls) (initial calls) s) (hd : s.dropper = .idle) (hF : Within F s) :
    (∃ n, ∀ as t, (∀ c, .caller c ∈ as → c ∈ F) → run (step calls) s as = some t →
      (as.map work).sum ≤ n + (as.map grant).sum) ∧
    (Resting calls F s → ∀ c ∈ F, answered (s.caller c) = true ∨
      ∃ d ∈ F, Stranded s d ∧ (c = d ∨ s.caller c = .wantRunLock ∧ s.runLock = some d)) ∧
    (Resting calls F s → Steps (step calls) (fun s a => heard s a = true) (initial calls) s →
      ∀ c ∈ F, answered (s.caller c) = true) ∧
    ∃ as t, (∀ a ∈ as, helping F a) ∧ (as.filterMap woken).Nodup ∧
      run (step calls) s as = some t ∧ ∀ c ∈ F, answered (t.caller c) = true := by
  have hcases := fun (hrest : Resting calls F s) c (hc : c ∈ F) => hrest.cases hF hW h hctx hd hc
  refine ⟨⟨turns calls F s, fun as t has hrun => ?_⟩, hcases, fun hrest hheard c hc => ?_, ?_⟩
  · have hle := work_bounded h hF has hrun
    omega
  · obtain hans | ⟨d, -, hst, -⟩ := hcases hrest c hc
    · exact hans
    · exact absurd (reached_awaited hheard) hst.not_awaited
  · obtain ⟨as, t, has, hnodup, -, -, hrun, hall⟩ := all_answered hW hctx h hd hF
    exact ⟨as, t, has, hnodup, hrun, hall⟩

theorem calls_complete_stranded : ∃ s : State Unit 1, Stranded s () ∧
    ∃ as t, run (step fun _ => twoBytes) s as = some t ∧ answered (t.caller ()) = true := by
  obtain ⟨s, hrun, hd, hpc, hfin, hw⟩ : ∃ s, run (step fun _ => twoBytes)
      (initial fun _ => twoBytes : State Unit 1)
      (.replicate 8 (.caller ()) ++ .replicate 8 (.worker 0) ++ [.caller ()]) = some s ∧
        s.dropper = .idle ∧ s.caller () = .parked ∧ (s.jobs ()).finished = true ∧
        (s.worker 0).pc = .claim () := ⟨_, rfl, rfl, rfl, rfl, rfl⟩
  have hst : Stranded s () := ⟨hpc, hfin, fun w => by rw [Subsingleton.elim w 0, hw]; simp⟩
  obtain ⟨-, -, -, as, t, -, -, hrun', hall⟩ := calls_complete (fun _ => twoBytes) {()} s
    Nat.zero_lt_one (fun _ => List.length_replicate.ge) (reaches_of_run hrun) hd
    fun _ _ => Finset.mem_singleton_self _
  exact ⟨s, hst, as, t, hrun', hall () (Finset.mem_singleton_self _)⟩

end Completion

end Temari.PoolCompletion
