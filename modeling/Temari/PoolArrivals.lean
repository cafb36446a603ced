import Temari.PoolResults

/-! The pool does not look at a call before it comes: a run of the pool with the call still idle is
a run of the pool with any other arguments for that call. So calls can be made up as they come. -/
namespace Temari.PoolArrivals
open RoundMachine Rounds Pool PoolMoves PoolWork PoolResults Transition
variable {ι : Type} [DecidableEq ι] {W : Nat} {calls : ι → Call} {s t : State ι W} {c d : ι}
  {w : Fin W} {call : Call}

/-- The state with other arguments for call c. -/
def arrive (s : State ι W) (c : ι) (call : Call) : State ι W :=
  { s with
    jobs := Function.update s.jobs c (freshJob call)
    out := Function.update s.out c call.out }

section Frames

theorem arrive_setJob (hne : d ≠ c) (job : Job) :
    arrive (s.setJob d job) c call = (arrive s c call).setJob d job := by
  simp only [arrive, State.setJob, Function.update_comm hne]

theorem arrive_write (hne : d ≠ c) (ws : List Write) :
    arrive (s.write d ws) c call = (arrive s c call).write d ws := by
  simp only [arrive, State.write, Function.update_comm hne, Function.update_of_ne hne]

theorem arrive_jobs (hne : d ≠ c) : (arrive s c call).jobs d = s.jobs d :=
  Function.update_of_ne hne _ _

theorem arrive_out (hne : d ≠ c) : (arrive s c call).out d = s.out d :=
  Function.update_of_ne hne _ _

/-- A step of another call. -/
theorem callerStep_arrive (hne : d ≠ c) :
    callerStep (Function.update calls c call) (arrive s c call) d =
      (callerStep calls s d).map (arrive · c call) := by
  have hcaller : (arrive s c call).caller d = s.caller d := rfl
  unfold callerStep
  rw [hcaller, Function.update_of_ne hne, arrive_out hne, arrive_jobs hne]
  cases s.caller d with
  | idle =>
    dsimp only
    rw [apply_ite (Option.map _), apply_ite (Option.map _), apply_ite (Option.map _)]
    refine if_congr Iff.rfl rfl (if_congr Iff.rfl rfl (if_congr Iff.rfl ?_ rfl))
    cases decryptPair (calls d) (s.out d) 0 with
    | none => rfl
    | some ws =>
      dsimp only
      rw [← arrive_write hne]
      rfl
  | locked =>
    have hjob : arrive (({ s with epoch := s.epoch + 1 } : State ι W).setJob d (freshJob (calls d)))
        c call = _ := arrive_setJob hne _
    exact congrArg (fun u => some (u.setCaller d (.gotEpoch (s.epoch + 1)))) hjob.symm
  | gotEpoch e =>
    have hmutex : (arrive s c call).jobMutex = s.jobMutex := rfl
    dsimp only
    rw [hmutex]
    cases s.jobMutex <;> rfl
  | wantRunLock | wantDone | woken | holdDone =>
    dsimp only
    rw [apply_ite (Option.map _)]
    rfl
  | _ => rfl

/-- A step of a worker that has another job, or none. -/
theorem workerStep_arrive (hne : refers (s.worker w).pc ≠ some c) :
    workerStep (Function.update calls c call) (arrive s c call) w =
      (workerStep calls s w).map (arrive · c call) := by
  have hworker : (arrive s c call).worker w = s.worker w := rfl
  have hother {j : ι} {pc : WorkerPc ι} (hpc : (s.worker w).pc = pc) (hj : refers pc = some j) :
      j ≠ c := by
    rintro rfl
    exact hne (hpc ▸ hj)
  unfold workerStep
  rw [hworker]
  cases hpc : (s.worker w).pc with
  | lockJob =>
    have hmutex : (arrive s c call).jobMutex = s.jobMutex := rfl
    dsimp only
    rw [hmutex]
    cases s.jobMutex <;> rfl
  | holdJob =>
    have hslot : (arrive s c call).job = s.job := rfl
    dsimp only
    rw [hslot]
    cases s.job with
    | none => rfl
    | some x =>
      obtain ⟨j, e⟩ := x
      dsimp only
      rw [apply_ite (Option.map _)]
      rfl
  | checkShutdown =>
    dsimp only
    rw [apply_ite (Option.map _)]
    rfl
  | claim j =>
    have hj := hother hpc rfl
    dsimp only
    rw [apply_ite (Option.map _), arrive_jobs hj, Function.update_of_ne hj, ← arrive_setJob hj]
    rfl
  | loaded j p =>
    have hj := hother hpc rfl
    dsimp only
    rw [Function.update_of_ne hj, arrive_out hj]
    cases decryptPair (calls j) (s.out j) p with
    | none => rfl
    | some ws =>
      dsimp only
      rw [← arrive_write hj]
      rfl
  | decrypted j p =>
    have hj := hother hpc rfl
    dsimp only
    rw [apply_ite (Option.map _), arrive_jobs hj, ← arrive_setJob hj]
    rfl
  | mustStore j =>
    have hj := hother hpc rfl
    dsimp only
    rw [arrive_jobs hj, ← arrive_setJob hj]
    rfl
  | _ => rfl

end Frames

/-- A call that is idle has been so, and has taken no step. -/
theorem idle_before {a : Action ι W} (hu : Pool.step calls s a = some t)
    (hidle : t.caller c = .idle) : s.caller c = .idle ∧ a ≠ .caller c := by
  cases step_move hu with
  | caller d t hm =>
    obtain rfl | hne := eq_or_ne c d
    · cases hm <;> cases (State.setCaller_self _ _).symm.trans hidle
    · rw [(callerMove_others hm hne).1] at hidle
      refine ⟨hidle, fun ha => ?_⟩
      cases ha
      exact hne rfl
  | worker w t hm =>
    refine ⟨?_, nofun⟩
    cases hm with
    | notify j hpc =>
      obtain ⟨-, hp⟩ | ⟨-, hp⟩ := s.notifyDone_caller c
      · cases hp.symm.trans hidle
      · exact hp.symm.trans hidle
    | _ => exact hidle
  | drop t hm =>
    refine ⟨?_, nofun⟩
    cases hm <;> exact hidle
  | wakeCaller d hpc =>
    refine ⟨?_, nofun⟩
    obtain rfl | hne := eq_or_ne c d
    · cases (State.setCaller_self _ _).symm.trans hidle
    · rwa [State.setCaller_ne _ _ hne] at hidle
  | wakeWorker w hpc => exact ⟨hidle, nofun⟩

/-- A call stays idle while others take steps. -/
theorem idle_of_others {a : Action ι W} (hu : Pool.step calls s a = some t)
    (hidle : s.caller c = .idle) (ha : a ≠ .caller c) : t.caller c = .idle := by
  cases step_move hu with
  | caller d t hm =>
    have hne : c ≠ d := by
      rintro rfl
      exact ha rfl
    rw [(callerMove_others hm hne).1]
    exact hidle
  | worker w t hm =>
    cases hm with
    | notify j hpc =>
      obtain ⟨hpark, -⟩ | ⟨-, hp⟩ := s.notifyDone_caller c
      · cases hpark.symm.trans hidle
      · exact hp.trans hidle
    | _ => exact hidle
  | drop t hm => cases hm <;> exact hidle
  | wakeCaller d hpc =>
    obtain rfl | hne := eq_or_ne c d
    · cases hpc.symm.trans hidle
    · rwa [State.setCaller_ne _ _ hne]
  | wakeWorker w hpc => exact hidle

/-- Steps of the others are the same whatever the arguments of an idle call are. -/
theorem step_arrive {a : Action ι W} (hwiring : Wiring calls s) (hidle : s.caller c = .idle)
    (ha : a ≠ .caller c) (hu : Pool.step calls s a = some t) :
    Pool.step (Function.update calls c call) (arrive s c call) a = some (arrive t c call) := by
  cases a with
  | caller d =>
    have hne : d ≠ c := by
      rintro rfl
      exact ha rfl
    exact (callerStep_arrive hne).trans (congrArg (Option.map (arrive · c call)) hu)
  | worker w =>
    have hne : refers (s.worker w).pc ≠ some c := fun hw => by
      have hcreated := hwiring.refs w c hw
      rw [hidle] at hcreated
      cases hcreated
    exact (workerStep_arrive hne).trans (congrArg (Option.map (arrive · c call)) hu)
  | drop =>
    have hdrop : dropStep (arrive s c call) = (dropStep s).map (arrive · c call) := by
      have hdropper : (arrive s c call).dropper = s.dropper := rfl
      unfold dropStep
      rw [hdropper]
      cases s.dropper with
      | idle | notified =>
        dsimp only
        rw [apply_ite (Option.map _)]
        rfl
      | _ => rfl
    exact hdrop.trans (congrArg (Option.map (arrive · c call)) hu)
  | wakeCaller d =>
    cases step_move hu with
    | wakeCaller d hpc => exact if_pos hpc
  | wakeWorker w =>
    cases step_move hu with
    | wakeWorker w hpc => exact if_pos hpc

/-- A state reached is reached with any other arguments for a call that is idle in it. -/
theorem reaches_arrive (h : Reaches (Pool.step calls) (initial calls : State ι W) s)
    (hidle : s.caller c = .idle) (call : Call) :
    Reaches (Pool.step (Function.update calls c call))
      (initial (Function.update calls c call)) (arrive s c call) := by
  induction h with
  | refl =>
    have hstart : arrive (initial calls : State ι W) c call =
        initial (Function.update calls c call) := by
      simp only [arrive, initial, State.mk.injEq, true_and, and_true]
      constructor <;> funext d <;> by_cases hd : d = c <;> simp [hd]
    rw [hstart]
    exact .refl
  | tail ht _ hu ih =>
    obtain ⟨hbefore, ha⟩ := idle_before hu hidle
    exact .tail (ih hbefore) trivial (step_arrive (reached_inv ht).1 hbefore ha hu)

end Temari.PoolArrivals
