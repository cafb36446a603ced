import Temari.PoolMoves

/-! The end of the pool. Drop stores the flag and notifies without the job mutex, so both can
fall between a worker's check of the flag and its parking. -/
namespace Temari.PoolShutdown
open RoundMachine Rounds Pool PoolMoves Transition
variable {ι : Type} [DecidableEq ι] {W : Nat} {calls : ι → Call} {s s' : State ι W} {w : Fin W}

/-- Drop has notified. -/
def told : DropPc → Bool
  | .notified | .joined => true
  | _ => false

/-- Drop has stored the flag and notified, and the worker is parked: nobody wakes it. -/
def Abandoned (s : State ι W) (w : Fin W) : Prop :=
  s.shutdown = true ∧ told s.dropper = true ∧ (s.worker w).pc = .parked

/-- Drop does not notify while a worker is past its check and on the way to parking. -/
def dropHeard (s : State ι W) : Action ι W → Bool
  | .drop =>
    match s.dropper with
    | .stored => decide (∀ w, (s.worker w).pc ≠ .aboutPark)
    | _ => true
  | _ => true

/-- Parked, or past the check and on the way there. -/
def dozes : WorkerPc ι → Bool
  | .aboutPark | .parked => true
  | _ => false

/-- After the notify nobody is parked or on the way there, and the flag is up. -/
structure Warned (s : State ι W) : Prop where
  stored : s.dropper ≠ .idle → s.shutdown = true
  awake : told s.dropper = true → ∀ w, dozes (s.worker w).pc = false

theorem told_not_idle {d : DropPc} (h : told d = true) : d ≠ .idle := by
  rintro rfl
  cases h

omit [DecidableEq ι] in
theorem Warned.setPc (h : Warned s) {pc : WorkerPc ι}
    (hpc : told s.dropper = true → dozes pc = false) : Warned (s.setPc w pc) := by
  refine ⟨h.stored, fun htold => ?_⟩
  exact all_updated (P := fun pc => dozes pc = false) (hpc htold) (h.awake htold)

theorem dozes_notifyJob (v : Fin W) (h : (s.worker v).pc ≠ .aboutPark) :
    dozes (s.notifyJob.worker v).pc = false := by
  obtain ⟨-, hp⟩ | ⟨hpark, hp⟩ := s.notifyJob_pc v
  · rw [hp]
    rfl
  · rw [hp]
    cases hpc : (s.worker v).pc <;> simp_all [dozes]

theorem Warned.notifyJob (h : Warned s) : Warned s.notifyJob := by
  refine ⟨h.stored, fun htold v => dozes_notifyJob v fun hpc => ?_⟩
  have hawake := h.awake htold v
  rw [hpc] at hawake
  cases hawake

theorem Warned.worker (h : Warned s) (hm : WorkerMove calls s w s') : Warned s' := by
  cases hm with
  | stay hpc hs =>
    -- a worker that sees the flag down is ahead of drop's store
    refine h.setPc fun htold => ?_
    cases hs.symm.trans (h.stored (told_not_idle htold))
  | park hpc =>
    refine Warned.setPc ?_ fun htold => ?_
    · exact ⟨h.stored, h.awake⟩
    have hawake := h.awake htold w
    rw [hpc] at hawake
    cases hawake
  | pick j e hpc hslot hne =>
    refine ⟨h.stored, fun htold => ?_⟩
    exact all_updated (P := fun pc => dozes pc = false) rfl (h.awake htold)
  | _ =>
    refine Warned.setPc ?_ fun _ => ?_
    · exact ⟨h.stored, h.awake⟩
    · rfl

theorem Warned.step {a : Action ι W} (h : Warned s) (hok : dropHeard s a = true)
    (hu : Pool.step calls s a = some s') : Warned s' := by
  cases step_move hu with
  | caller c s' hm =>
    cases hm with
    | notify hpc => exact ⟨h.notifyJob.stored, h.notifyJob.awake⟩
    | _ => exact ⟨h.stored, h.awake⟩
  | worker w s' hm => exact h.worker hm
  | drop s' hm =>
    cases hm with
    | store hd => exact ⟨fun _ => rfl, nofun⟩
    | notify hd =>
      refine ⟨fun _ => h.stored (by rw [hd]; nofun), fun _ v => dozes_notifyJob v ?_⟩
      simp only [dropHeard, hd, decide_eq_true_eq] at hok
      exact hok v
    | join hd hw => exact ⟨fun _ => h.stored (by rw [hd]; nofun),
        fun _ => h.awake (by rw [hd]; rfl)⟩
  | wakeCaller c hpc => exact ⟨h.stored, h.awake⟩
  | wakeWorker w hpc => exact h.setPc fun _ => rfl

theorem stored_shutdown (h : Reaches (Pool.step calls) (initial calls : State ι W) s)
    (hd : s.dropper ≠ .idle) : s.shutdown = true := by
  refine h.invariant (I := fun s => s.dropper ≠ .idle → s.shutdown = true)
    (fun hne => absurd rfl hne) ?_ hd
  intro t a u _ ht _ hu
  cases step_move hu with
  | caller c u hm => cases hm <;> exact ht
  | worker w u hm => cases hm <;> exact ht
  | drop u hm =>
    cases hm with
    | store _ => exact fun _ => rfl
    | notify hd => exact fun _ => ht (by rw [hd]; nofun)
    | join hd _ => exact fun _ => ht (by rw [hd]; nofun)
  | wakeCaller c hpc => exact ht
  | wakeWorker w hpc => exact ht

/-- A notify of drop that is not heard leaves a worker parked for good. -/
theorem unheard_abandons (h : Reaches (Pool.step calls) (initial calls : State ι W) s)
    {a : Action ι W} (hbad : dropHeard s a = false) :
    ∃ w t, run (Pool.step calls) s [a, .worker w] = some t ∧ Abandoned t w := by
  cases a with
  | drop =>
    cases hd : s.dropper with
    | stored =>
      simp only [dropHeard, hd, decide_eq_false_iff_not, not_forall, not_not] at hbad
      obtain ⟨w, hw⟩ := hbad
      have hshutdown := stored_shutdown h (by rw [hd]; nofun)
      have hnotified : (s.notifyJob.worker w).pc = .aboutPark := by
        simp [State.notifyJob, hw]
      refine ⟨w, { s.notifyJob with dropper := .notified, jobMutex := none }.setPc w .parked, ?_,
        hshutdown, rfl, State.setPc_self _ _⟩
      simp [run, Pool.step, dropStep, workerStep, hd, hnotified, State.setPc]
    | _ => simp [dropHeard, hd] at hbad
  | _ => simp [dropHeard] at hbad

/-- The worker checks the flag, drop stores it and notifies, and the worker parks. -/
theorem dropped_at_once_abandons : ∃ s : State Unit 1,
    Reaches (Pool.step fun _ => twoBytes) (initial fun _ => twoBytes) s ∧ Abandoned s 0 := by
  obtain ⟨s, hrun, hs, hd, hpc⟩ : ∃ s, run (Pool.step fun _ => twoBytes)
      (initial fun _ => twoBytes : State Unit 1)
      (.replicate 3 (.worker 0) ++ [.drop, .drop, .worker 0]) = some s ∧
        s.shutdown = true ∧ told s.dropper = true ∧ (s.worker 0).pc = .parked :=
    ⟨_, rfl, rfl, rfl, rfl⟩
  exact ⟨s, reaches_of_run hrun, hs, hd, hpc⟩

/-- No worker is abandoned in a run in which drop's notify is heard, and a notify that is not
heard leaves a worker abandoned as soon as it parks. -/
theorem abandoned_iff_unheard (calls : ι → Call) :
    (∀ s : State ι W, Steps (Pool.step calls) (fun s a => dropHeard s a = true) (initial calls) s →
      ∀ w, ¬ Abandoned s w) ∧
    ∀ s : State ι W, Reaches (Pool.step calls) (initial calls) s → ∀ a, dropHeard s a = false →
      ∃ w t, run (Pool.step calls) s [a, .worker w] = some t ∧ Abandoned t w := by
  refine ⟨fun s h w ⟨_, htold, hpc⟩ => ?_, fun s h a => unheard_abandons h⟩
  have hwarned := h.invariant (I := Warned) ⟨fun hne => absurd rfl hne, nofun⟩
    fun _ _ _ _ hi hok hu => hi.step hok hu
  have hawake := hwarned.awake htold w
  rw [hpc] at hawake
  cases hawake

end Temari.PoolShutdown
