import Temari.Pool
import Temari.Transition

/-! What one step of the pool can do: one case for each transition of a caller, a worker
or the dropper, with its guard and the state it leads to. -/
namespace Temari.PoolMoves
open RoundMachine Rounds Pool
variable {ι : Type} [DecidableEq ι] {W : Nat} {calls : ι → Call} {s s' : State ι W} {c : ι}
  {w : Fin W}

inductive CallerMove (calls : ι → Call) (s : State ι W) (c : ι) : State ι W → Prop
  | empty (hpc : s.caller c = .idle) (hn : (calls c).n = 0) :
    CallerMove calls s c (s.setCaller c .bypassed)
  | alone (ws : List Write) (hpc : s.caller c = .idle) (hn : (calls c).n = 1)
    (hws : decryptPair (calls c) (s.out c) 0 = some ws) :
    CallerMove calls s c ((s.write c ws).setCaller c .bypassed)
  | panic (hpc : s.caller c = .idle) : CallerMove calls s c (s.setCaller c .panicked)
  | enter (hpc : s.caller c = .idle) (hn : (calls c).n ≠ 0) : CallerMove calls s c
      ({ s with borrows := s.borrows + 1 }.setCaller c .wantRunLock)
  | lockRun (hpc : s.caller c = .wantRunLock) (hfree : s.runLock = none) : CallerMove calls s c
      ({ s with runLock := some c }.setCaller c .locked)
  | create (hpc : s.caller c = .locked) : CallerMove calls s c
      (({ s with epoch := s.epoch + 1 }.setJob c (freshJob (calls c))).setCaller c
        (.gotEpoch (s.epoch + 1)))
  | lockJob (e : Nat) (hpc : s.caller c = .gotEpoch e) (hfree : s.jobMutex = none) :
    CallerMove calls s c
      ({ s with jobMutex := some (.caller c) }.setCaller c (.holdJobMutex e))
  | publish (e : Nat) (hpc : s.caller c = .holdJobMutex e) : CallerMove calls s c
      ({ s with job := some (c, e), jobMutex := none }.setCaller c .published)
  | notify (hpc : s.caller c = .published) :
      CallerMove calls s c (s.notifyJob.setCaller c .wantDone)
  | lockDone (hpc : s.caller c = .wantDone ∨ s.caller c = .woken) (hfree : s.doneMutex = none) :
    CallerMove calls s c ({ s with doneMutex := some c }.setCaller c .holdDone)
  | seeFinished (hpc : s.caller c = .holdDone) (hf : (s.jobs c).finished = true) :
    CallerMove calls s c (s.setCaller c .leaving)
  | seeUnfinished (hpc : s.caller c = .holdDone) (hf : (s.jobs c).finished = false) :
    CallerMove calls s c (s.setCaller c .aboutPark)
  | park (hpc : s.caller c = .aboutPark) : CallerMove calls s c
      ({ s with doneMutex := none }.setCaller c .parked)
  | leave (hpc : s.caller c = .leaving) : CallerMove calls s c
      ({ s with doneMutex := none }.setCaller c .unlocking)
  | finish (hpc : s.caller c = .unlocking) : CallerMove calls s c
      ({ s with runLock := none, borrows := s.borrows - 1 }.setCaller c .returned)

theorem callerStep_move (h : callerStep calls s c = some s') : CallerMove calls s c s' := by
  unfold callerStep at h
  split at h
  next hpc =>
    split at h
    · cases h
    · split at h
      next hn =>
        cases h
        exact .empty hpc hn
      next hn =>
        split at h
        next hone =>
          split at h
          next ws hws =>
            cases h
            exact .alone ws hpc hone.1 hws
          next =>
            cases h
            exact .panic hpc
        next =>
          cases h
          exact .enter hpc hn
  next hpc =>
    split at h
    next hfree =>
      cases h
      exact .lockRun hpc hfree
    next => cases h
  next hpc =>
    cases h
    exact .create hpc
  next e hpc =>
    split at h
    next hfree =>
      cases h
      exact .lockJob e hpc hfree
    next => cases h
  next e hpc =>
    cases h
    exact .publish e hpc
  next hpc =>
    cases h
    exact .notify hpc
  next hpc =>
    split at h
    next hfree =>
      cases h
      exact .lockDone (.inl hpc) hfree
    next => cases h
  next hpc =>
    split at h
    next hfree =>
      cases h
      exact .lockDone (.inr hpc) hfree
    next => cases h
  next hpc =>
    split at h
    next hf =>
      cases h
      exact .seeFinished hpc hf
    next hf =>
      cases h
      exact .seeUnfinished hpc (by simpa using hf)
  next hpc =>
    cases h
    exact .park hpc
  next hpc =>
    cases h
    exact .leave hpc
  next hpc =>
    cases h
    exact .finish hpc
  all_goals cases h

omit [DecidableEq ι] in
/-- What holds of the new counter and of the others' holds of all. -/
theorem all_updated {P : WorkerPc ι → Prop} {u : Worker ι} {w : Fin W} (hu : P u.pc)
    (h : ∀ v, P (s.worker v).pc) (v : Fin W) : P (Function.update s.worker w u v).pc := by
  by_cases hvw : v = w
  · subst hvw
    rwa [Function.update_self]
  · rw [Function.update_of_ne hvw]
    exact h v

omit [DecidableEq ι] in
theorem pc_updated {u : Worker ι} {v w : Fin W} {pc : WorkerPc ι}
    (h : (Function.update s.worker w u v).pc = pc) :
    (v = w ∧ u.pc = pc) ∨ (v ≠ w ∧ (s.worker v).pc = pc) := by
  by_cases hvw : v = w
  · subst hvw
    rw [Function.update_self] at h
    exact Or.inl ⟨rfl, h⟩
  · rw [Function.update_of_ne hvw] at h
    exact Or.inr ⟨hvw, h⟩

inductive WorkerMove (calls : ι → Call) (s : State ι W) (w : Fin W) : State ι W → Prop
  | lock (hpc : (s.worker w).pc = .lockJob) (hfree : s.jobMutex = none) : WorkerMove calls s w
      ({ s with jobMutex := some (.worker w) }.setPc w .holdJob)
  | pick (j : ι) (e : Nat) (hpc : (s.worker w).pc = .holdJob) (hslot : s.job = some (j, e))
    (hne : e ≠ (s.worker w).myEpoch) : WorkerMove calls s w
      { s with
        jobMutex := none
        worker := Function.update s.worker w
          { myEpoch := (s.worker w).myEpoch + 1, pc := .claim j } }
  | nothingNew (hpc : (s.worker w).pc = .holdJob)
    (hslot : ∀ j e, s.job = some (j, e) → e = (s.worker w).myEpoch) :
    WorkerMove calls s w (s.setPc w .checkShutdown)
  | exit (hpc : (s.worker w).pc = .checkShutdown) (hs : s.shutdown = true) : WorkerMove calls s w
      ({ s with jobMutex := none }.setPc w .exited)
  | stay (hpc : (s.worker w).pc = .checkShutdown) (hs : s.shutdown = false) :
    WorkerMove calls s w (s.setPc w .aboutPark)
  | park (hpc : (s.worker w).pc = .aboutPark) : WorkerMove calls s w
      ({ s with jobMutex := none }.setPc w .parked)
  | overrun (j : ι) (hpc : (s.worker w).pc = .claim j) (hp : (calls j).pairs ≤ (s.jobs j).next) :
    WorkerMove calls s w
      ((s.setJob j { s.jobs j with next := (s.jobs j).next + 1 }).setPc w .lockJob)
  | claim (j : ι) (hpc : (s.worker w).pc = .claim j) (hp : (s.jobs j).next < (calls j).pairs) :
    WorkerMove calls s w ((s.setJob j { s.jobs j with next := (s.jobs j).next + 1 }).setPc w
      (.claimed j (s.jobs j).next))
  | load (j : ι) (p : Nat) (hpc : (s.worker w).pc = .claimed j p) :
    WorkerMove calls s w (s.setPc w (.loaded j p))
  | decrypt (j : ι) (p : Nat) (ws : List Write) (hpc : (s.worker w).pc = .loaded j p)
    (hws : decryptPair (calls j) (s.out j) p = some ws) : WorkerMove calls s w
      (((s.write j ws).record j ⟨w, p, ws⟩).setPc w (.decrypted j p))
  | panic (j : ι) (p : Nat) (hpc : (s.worker w).pc = .loaded j p)
    (hws : decryptPair (calls j) (s.out j) p = none) :
    WorkerMove calls s w (s.setPc w (.panicked j p))
  | retireLast (j : ι) (p : Nat) (hpc : (s.worker w).pc = .decrypted j p)
    (hp : (s.jobs j).pending = 1) : WorkerMove calls s w
      ((s.setJob j { s.jobs j with pending := (s.jobs j).pending - 1 }).setPc w (.mustStore j))
  | retire (j : ι) (p : Nat) (hpc : (s.worker w).pc = .decrypted j p)
    (hp : (s.jobs j).pending ≠ 1) : WorkerMove calls s w
      ((s.setJob j { s.jobs j with pending := (s.jobs j).pending - 1 }).setPc w (.claim j))
  | store (j : ι) (hpc : (s.worker w).pc = .mustStore j) : WorkerMove calls s w
      ((s.setJob j { s.jobs j with finished := true }).setPc w (.mustNotify j))
  | notify (j : ι) (hpc : (s.worker w).pc = .mustNotify j) :
    WorkerMove calls s w (s.notifyDone.setPc w (.claim j))

theorem workerStep_move (h : workerStep calls s w = some s') : WorkerMove calls s w s' := by
  unfold workerStep at h
  split at h
  next hpc =>
    split at h
    next hfree =>
      cases h
      exact .lock hpc hfree
    next => cases h
  next hpc =>
    split at h
    next j e hslot =>
      split at h
      next hne =>
        cases h
        exact .pick j e hpc hslot hne
      next hne =>
        cases h
        refine .nothingNew hpc fun j' e' hslot' => ?_
        cases hslot.symm.trans hslot'
        exact not_not.mp hne
    next hslot =>
      cases h
      exact .nothingNew hpc fun j e hje => by rw [hslot] at hje; cases hje
  next hpc =>
    split at h
    next hs =>
      cases h
      exact .exit hpc hs
    next hs =>
      cases h
      exact .stay hpc (by simpa using hs)
  next hpc =>
    cases h
    exact .park hpc
  next j hpc =>
    dsimp only at h
    split at h
    next hp =>
      cases h
      exact .overrun j hpc hp
    next hp =>
      cases h
      exact .claim j hpc (by omega)
  next j p hpc =>
    cases h
    exact .load j p hpc
  next j p hpc =>
    split at h
    next ws hws =>
      cases h
      exact .decrypt j p ws hpc hws
    next hws =>
      cases h
      exact .panic j p hpc hws
  next j p hpc =>
    dsimp only at h
    split at h
    next hp =>
      cases h
      exact .retireLast j p hpc hp
    next hp =>
      cases h
      exact .retire j p hpc hp
  next j hpc =>
    cases h
    exact .store j hpc
  next j hpc =>
    cases h
    exact .notify j hpc
  all_goals cases h

inductive DropMove (s : State ι W) : State ι W → Prop
  | store (hd : s.dropper = .idle) : DropMove s { s with shutdown := true, dropper := .stored }
  | notify (hd : s.dropper = .stored) : DropMove s { s.notifyJob with dropper := .notified }
  | join (hd : s.dropper = .notified) (hw : ∀ w, (s.worker w).pc.ended) :
    DropMove s { s with dropper := .joined }

theorem dropStep_move (h : dropStep s = some s') : DropMove s s' := by
  unfold dropStep at h
  split at h
  next hd =>
    split at h
    · cases h
      exact .store hd
    · cases h
  next hd =>
    cases h
    exact .notify hd
  next hd =>
    split at h
    next hw =>
      cases h
      exact .join hd hw
    next => cases h
  next => cases h

/-- Every step is a move of a caller, a worker or the dropper, or a spurious wakeup. -/
inductive Move (calls : ι → Call) (s : State ι W) : Action ι W → State ι W → Prop
  | caller (c : ι) (s' : State ι W) (h : CallerMove calls s c s') : Move calls s (.caller c) s'
  | worker (w : Fin W) (s' : State ι W) (h : WorkerMove calls s w s') : Move calls s (.worker w) s'
  | drop (s' : State ι W) (h : DropMove s s') : Move calls s .drop s'
  | wakeCaller (c : ι) (hpc : s.caller c = .parked) :
    Move calls s (.wakeCaller c) (s.setCaller c .woken)
  | wakeWorker (w : Fin W) (hpc : (s.worker w).pc = .parked) :
    Move calls s (.wakeWorker w) (s.setPc w .lockJob)

theorem step_move {a : Action ι W} (h : step calls s a = some s') : Move calls s a s' := by
  cases a with
  | caller c => exact .caller c s' (callerStep_move h)
  | worker w => exact .worker w s' (workerStep_move h)
  | drop => exact .drop s' (dropStep_move h)
  | wakeCaller c =>
    simp only [step] at h
    split at h
    next hpc =>
      cases h
      exact .wakeCaller c hpc
    next => cases h
  | wakeWorker w =>
    simp only [step] at h
    split at h
    next hpc =>
      cases h
      exact .wakeWorker w hpc
    next => cases h

end Temari.PoolMoves
