import Temari.PoolMoves
import Temari.SharedWork

/-! Each job of the pool is work shared by an atomic counter: every step of the pool is a
step of that system for one job at most and leaves the others as they are. -/
namespace Temari.PoolWork
open RoundMachine Rounds Pool PoolMoves Transition SharedWork
variable {ι : Type} [DecidableEq ι] {W : Nat} {calls : ι → Call} {s s' : State ι W}

/-- The job of this call exists. -/
def created : CallerPc → Bool
  | .idle | .wantRunLock | .locked | .bypassed | .panicked => false
  | _ => true

/-- The job a worker still has an Arc to. -/
def refers : WorkerPc ι → Option ι
  | .claim j | .claimed j _ | .loaded j _ | .decrypted j _ | .mustStore j | .mustNotify j
  | .panicked j _ => some j
  | _ => none

/-- Only jobs that have been created are in the slot or in a worker's hands. -/
structure Wiring (calls : ι → Call) (s : State ι W) : Prop where
  slot : ∀ j e, s.job = some (j, e) → created (s.caller j) = true
  refs : ∀ w j, refers (s.worker w).pc = some j → created (s.caller j) = true
  fresh : ∀ j, created (s.caller j) = false → s.jobs j = freshJob (calls j) ∧ s.log j = []

omit [DecidableEq ι] in
theorem wiring_initial : Wiring calls (initial calls : State ι W) where
  slot := by simp [initial]
  refs := by simp [initial, refers]
  fresh := by simp [initial]

section Wires
variable {c : ι} {w : Fin W} {j : ι}

theorem Wiring.setCaller {pc : CallerPc} (h : Wiring calls s)
    (hkeep : created (s.caller c) = true → created pc = true) :
    Wiring calls (s.setCaller c pc) := by
  have hmono (i : ι) (hi : created (s.caller i) = true) :
      created ((s.setCaller c pc).caller i) = true := by
    by_cases hic : i = c
    · subst hic
      rw [s.setCaller_self]
      exact hkeep hi
    · rwa [s.setCaller_ne pc hic]
  refine ⟨fun i e hi => hmono i (h.slot i e hi), fun v i hi => hmono i (h.refs v i hi),
    fun i hi => h.fresh i ?_⟩
  by_contra hne
  rw [hmono i (by simpa using hne)] at hi
  cases hi

omit [DecidableEq ι] in
theorem Wiring.setPc {pc : WorkerPc ι} (h : Wiring calls s)
    (hpc : ∀ i, refers pc = some i → created (s.caller i) = true) :
    Wiring calls (s.setPc w pc) := by
  refine ⟨h.slot, ?_, h.fresh⟩
  exact all_updated (P :=
    fun pc => ∀ i, refers pc = some i → created (s.caller i) = true) hpc h.refs

omit [DecidableEq ι] in
/-- What happens to a job that exists leaves the wiring. -/
theorem Wiring.touch (h : Wiring calls s) (hj : created (s.caller j) = true) {jobs : ι → Job}
    {log : ι → List (Done W)} (hjobs : ∀ i, i ≠ j → jobs i = s.jobs i)
    (hlog : ∀ i, i ≠ j → log i = s.log i) :
    Wiring calls { s with jobs, log } := by
  refine ⟨h.slot, h.refs, fun i hi => ?_⟩
  have hij : i ≠ j := by
    rintro rfl
    cases hj.symm.trans hi
  exact ⟨(hjobs i hij).trans (h.fresh i hi).1, (hlog i hij).trans (h.fresh i hi).2⟩

theorem Wiring.setJob (h : Wiring calls s) (hj : created (s.caller j) = true) (job : Job) :
    Wiring calls (s.setJob j job) :=
  h.touch hj (fun _ hi => Function.update_of_ne hi _ _) fun _ _ => rfl

theorem Wiring.record (h : Wiring calls s) (hj : created (s.caller j) = true) (d : Done W) :
    Wiring calls (s.record j d) :=
  h.touch hj (fun _ _ => rfl) fun _ hi => Function.update_of_ne hi _ _

theorem Wiring.notifyJob (h : Wiring calls s) : Wiring calls s.notifyJob := by
  refine ⟨h.slot, fun v i hi => ?_, h.fresh⟩
  obtain ⟨-, hp⟩ | ⟨-, hp⟩ := s.notifyJob_pc v
  · rw [hp] at hi
    cases hi
  · rw [hp] at hi
    exact h.refs v i hi

omit [DecidableEq ι] in
theorem created_notifyDone (s : State ι W) (i : ι) :
    created (s.notifyDone.caller i) = created (s.caller i) := by
  obtain ⟨hpark, hp⟩ | ⟨-, hp⟩ := s.notifyDone_caller i
  · rw [hp, hpark]
    rfl
  · rw [hp]

omit [DecidableEq ι] in
theorem Wiring.notifyDone (h : Wiring calls s) : Wiring calls s.notifyDone where
  slot i e hi := (created_notifyDone s i).trans (h.slot i e hi)
  refs v i hi := (created_notifyDone s i).trans (h.refs v i hi)
  fresh i hi := h.fresh i ((created_notifyDone s i).symm.trans hi)

theorem Wiring.caller (h : Wiring calls s) (hm : CallerMove calls s c s') : Wiring calls s' := by
  have hdown {pc : CallerPc} (hpc : created (s.caller c) = false)
    (hc : created (s.caller c) = true) :
      created pc = true := by
    cases hpc.symm.trans hc
  cases hm with
  | create hpc =>
    have hjob := h.fresh c (by rw [hpc]; rfl)
    have hsame : Function.update s.jobs c (freshJob (calls c)) = s.jobs := by
      rw [← hjob.1, Function.update_eq_self]
    refine Wiring.setCaller ⟨h.slot, h.refs, fun i hi => ?_⟩ fun _ => rfl
    exact ⟨(congrFun hsame i).trans (h.fresh i hi).1, (h.fresh i hi).2⟩
  | publish e hpc =>
    refine Wiring.setCaller ⟨fun i f hi => ?_, h.refs, h.fresh⟩ fun _ => rfl
    cases hi
    exact congrArg created hpc
  | notify hpc => exact h.notifyJob.setCaller fun _ => rfl
  | empty hpc _ | panic hpc => exact h.setCaller (hdown (by rw [hpc]; rfl))
  | alone _ hpc _ _ => exact Wiring.setCaller ⟨h.slot, h.refs, h.fresh⟩ (hdown (by rw [hpc]; rfl))
  | enter hpc _ | lockRun hpc _ =>
    exact Wiring.setCaller ⟨h.slot, h.refs, h.fresh⟩ (hdown (by rw [hpc]; rfl))
  | _ => exact Wiring.setCaller ⟨h.slot, h.refs, h.fresh⟩ fun _ => rfl

theorem Wiring.worker (h : Wiring calls s) (hm : WorkerMove calls s w s') : Wiring calls s' := by
  have hold (i : ι) (hi : refers (s.worker w).pc = some i) :
    created (s.caller i) = true := h.refs w i hi
  have hnone {pc : WorkerPc ι} (hpc : refers pc = none) (i : ι) (hi : refers pc = some i) :
      created (s.caller i) = true := by
    cases hpc.symm.trans hi
  have hsome {j : ι} (hj : created (s.caller j) = true) (i : ι) (hi : some j = some i) :
      created (s.caller i) = true := by
    cases hi
    exact hj
  cases hm with
  | pick j e hpc hslot hne =>
    refine ⟨h.slot, ?_, h.fresh⟩
    refine all_updated (P :=
      fun pc => ∀ i, refers pc = some i → created (s.caller i) = true) ?_ h.refs
    rintro i ⟨⟩
    exact h.slot j e hslot
  | overrun j hpc hp => exact (h.setJob (hold j (by rw [hpc]; rfl)) _).setPc (hnone rfl)
  | claim j hpc hp =>
    have hj := hold j (by rw [hpc]; rfl)
    exact (h.setJob hj _).setPc (hsome hj)
  | load j p hpc =>
    exact h.setPc (hsome (hold j (by rw [hpc]; rfl)))
  | decrypt j p ws hpc hws =>
    have hj := hold j (by rw [hpc]; rfl)
    have hrec := h.record hj ⟨w, p, ws⟩
    exact Wiring.setPc ⟨hrec.slot, hrec.refs, hrec.fresh⟩ (hsome hj)
  | panic j p hpc hws => exact h.setPc (hsome (hold j (by rw [hpc]; rfl)))
  | retireLast j p hpc hp =>
    have hj := hold j (by rw [hpc]; rfl)
    exact (h.setJob hj _).setPc (hsome hj)
  | retire j p hpc hp =>
    have hj := hold j (by rw [hpc]; rfl)
    exact (h.setJob hj _).setPc (hsome hj)
  | store j hpc =>
    have hj := hold j (by rw [hpc]; rfl)
    exact (h.setJob hj _).setPc (hsome hj)
  | notify j hpc =>
    have hj := hold j (by rw [hpc]; rfl)
    exact h.notifyDone.setPc fun i hi => (created_notifyDone s i).trans (hsome hj i hi)
  | _ => exact Wiring.setPc ⟨h.slot, h.refs, h.fresh⟩ (hnone rfl)

end Wires

theorem Wiring.move {a : Action ι W} (h : Wiring calls s) (hm : Move calls s a s') :
    Wiring calls s' := by
  cases hm with
  | caller c s' hc => exact h.caller hc
  | worker w s' hw => exact h.worker hw
  | drop s' hd =>
    cases hd with
    | notify _ => exact ⟨h.notifyJob.slot, h.notifyJob.refs, h.notifyJob.fresh⟩
    | _ => exact ⟨h.slot, h.refs, h.fresh⟩
  | wakeCaller c hpc => exact h.setCaller fun _ => rfl
  | wakeWorker w hpc => exact h.setPc fun i hi => by cases hi

/-- The pair of job j a worker has claimed and not counted down. -/
def ownOf (j : ι) : WorkerPc ι → Option (Nat × Bool)
  | .claimed i p | .loaded i p | .panicked i p => if i = j then some (p, false) else none
  | .decrypted i p => if i = j then some (p, true) else none
  | _ => none

/-- The worker has counted job j down to zero and has yet to raise its flag. -/
def lastOf (j : ι) : WorkerPc ι → Bool
  | .mustStore i => decide (i = j)
  | _ => false

/-- Job j as shared work. -/
def workOf (s : State ι W) (j : ι) : Work (Fin W) where
  next := (s.jobs j).next
  pending := (s.jobs j).pending
  finished := (s.jobs j).finished
  own := fun w => ownOf j (s.worker w).pc
  last := fun w => lastOf j (s.worker w).pc
  done := (s.log j).map Done.pair

section Views
variable {w : Fin W} {pc : WorkerPc ι} {i j : ι} {job : Job}

theorem workOf_setPc (s : State ι W) (w : Fin W) (pc : WorkerPc ι) (j : ι) :
    workOf (s.setPc w pc) j = { workOf s j with
      own := Function.update (workOf s j).own w (ownOf j pc)
      last := Function.update (workOf s j).last w (lastOf j pc) } := by
  simp only [workOf, State.setPc, Work.mk.injEq, true_and, and_true]
  constructor <;> funext v <;> by_cases hv : v = w <;> simp [hv]

/-- A worker that moves without touching job j. -/
theorem workOf_setPc_quiet (hown : ownOf j (s.worker w).pc = ownOf j pc)
    (hlast : lastOf j (s.worker w).pc = lastOf j pc) : workOf (s.setPc w pc) j = workOf s j := by
  rw [workOf_setPc, ← hown, ← hlast]
  simp [workOf]

theorem workOf_setJob_ne (h : j ≠ i) : workOf (s.setJob i job) j = workOf s j := by
  simp only [workOf, State.setJob, Function.update_of_ne h]

theorem workOf_setJob_self : workOf (s.setJob j job) j = { workOf s j with
    next := job.next, pending := job.pending, finished := job.finished } := by
  simp only [workOf, State.setJob, Function.update_self]

theorem workOf_notifyJob (s : State ι W) (j : ι) : workOf s.notifyJob j = workOf s j := by
  simp only [workOf, State.notifyJob, Work.mk.injEq, true_and, and_true]
  constructor <;> funext v <;> by_cases hv : (s.worker v).pc = .parked <;>
    simp [hv, ownOf, lastOf]

theorem workOf_congr (hjobs : s'.jobs j = s.jobs j) (hlog : s'.log j = s.log j)
    (hworker : s'.worker = s.worker) : workOf s' j = workOf s j := by
  simp only [workOf, hjobs, hlog, hworker]

/-- A worker that moves and changes a job other than j. -/
theorem workOf_ne (h : j ≠ i) (hown : ownOf j (s.worker w).pc = ownOf j pc)
    (hlast : lastOf j (s.worker w).pc = lastOf j pc) :
    workOf ((s.setJob i job).setPc w pc) j = workOf s j := by
  rw [workOf_setPc_quiet (s := s.setJob i job) hown hlast, workOf_setJob_ne h]

/-- A worker counts its pair down and, after the last one, has the flag to raise. -/
theorem workOf_retire {n p : Nat} (hpc : (s.worker w).pc = .decrypted i p)
    (hown : ∀ j, ownOf j pc = none)
    (hlast : ∀ j, lastOf j pc = decide (i = j ∧ (s.jobs i).pending = 1)) (j : ι) :
    let t := (s.setJob i { s.jobs i with pending := (s.jobs i).pending - 1 }).setPc w pc
    workOf t j = workOf s j ∨ Step n (workOf s j) (workOf t j) := by
  intro t
  by_cases hj : j = i
  · subst j
    right
    have hdec : lastOf i pc = decide ((workOf s i).pending = 1) := by
      rw [hlast]
      exact decide_eq_decide.mpr (and_iff_right rfl)
    rw [workOf_setPc, workOf_setJob_self, hown, hdec]
    exact .retire w p (by simp [workOf, hpc, ownOf])
  · refine Or.inl (workOf_ne hj ?_ ?_)
    · rw [hpc, hown]
      simp [ownOf, Ne.symm hj]
    · rw [hpc, hlast]
      simp [lastOf, Ne.symm hj]

end Views

theorem workOf_caller {c : ι} (h : Wiring calls s) (hm : CallerMove calls s c s') (j : ι) :
    workOf s' j = workOf s j := by
  cases hm with
  | create hpc =>
    -- nobody has seen the job yet, so it is as it was made
    refine workOf_congr ?_ rfl rfl
    by_cases hj : j = c
    · subst j
      simpa [State.setCaller, State.setJob] using (h.fresh c (by simp [created, hpc])).1.symm
    · simp [State.setCaller, State.setJob, hj]
  | notify hpc => exact workOf_notifyJob s j
  | _ => exact workOf_congr rfl rfl rfl

/-- A worker's step is a step of the work of one job. -/
theorem workOf_worker {w : Fin W} (hm : WorkerMove calls s w s') (j : ι) :
    workOf s' j = workOf s j ∨ Step (calls j).pairs (workOf s j) (workOf s' j) := by
  cases hm with
  | lock hpc _ | nothingNew hpc _ | exit hpc _ | stay hpc _ | park hpc =>
    exact Or.inl (workOf_setPc_quiet (by simp [hpc, ownOf]) (by simp [hpc, lastOf]))
  | pick i e hpc hslot hne =>
    left
    simp only [workOf, Work.mk.injEq, true_and, and_true]
    constructor <;> funext v <;> by_cases hv : v = w <;> simp [hv, hpc, ownOf, lastOf]
  | load i p hpc | panic i p hpc _ =>
    exact Or.inl (workOf_setPc_quiet (by simp [hpc, ownOf]) (by simp [hpc, lastOf]))
  | notify i hpc =>
    exact Or.inl (workOf_setPc_quiet (by simp [State.notifyDone, hpc, ownOf])
      (by simp [State.notifyDone, hpc, lastOf]))
  | overrun i hpc hp =>
    by_cases hj : j = i
    · subst j
      right
      rw [workOf_setPc_quiet (by simp [State.setJob, hpc, ownOf])
        (by simp [State.setJob, hpc, lastOf]), workOf_setJob_self]
      exact .skip hp
    · exact Or.inl (workOf_ne hj (by simp [hpc, ownOf]) (by simp [hpc, lastOf]))
  | claim i hpc hp =>
    by_cases hj : j = i
    · subst j
      right
      have hlast : Function.update (workOf s i).last w false = (workOf s i).last := by
        simp [workOf, hpc, lastOf]
      rw [workOf_setPc, workOf_setJob_self]
      simp only [ownOf, lastOf, if_true, hlast]
      exact .claim w (by simp [workOf, hpc, ownOf]) hp
    · exact Or.inl (workOf_ne hj (by simp [hpc, ownOf, Ne.symm hj]) (by simp [hpc, lastOf]))
  | decrypt i p ws hpc hws =>
    by_cases hj : j = i
    · subst j
      right
      have hlast : Function.update (workOf s i).last w false = (workOf s i).last := by
        simp [workOf, hpc, lastOf]
      have hs : workOf ((s.write i ws).record i ⟨w, p, ws⟩) i =
          { workOf s i with done := (workOf s i).done ++ [p] } := by
        simp [workOf, State.write, State.record]
      rw [workOf_setPc, hs]
      simp only [ownOf, lastOf, if_true, hlast]
      exact .process w p (by simp [workOf, hpc, ownOf])
    · left
      rw [workOf_setPc_quiet (by simp [State.write, State.record, hpc, ownOf, Ne.symm hj])
        (by simp [State.write, State.record, hpc, lastOf])]
      exact workOf_congr rfl (by simp [State.write, State.record, hj]) rfl
  | retireLast i p hpc hp =>
    exact workOf_retire hpc (fun _ => rfl) (fun j => by simp [lastOf, hp]) j
  | retire i p hpc hp => exact workOf_retire hpc (fun _ => rfl) (fun j => by simp [lastOf, hp]) j
  | store i hpc =>
    by_cases hj : j = i
    · subst j
      right
      have hown : Function.update (workOf s i).own w none = (workOf s i).own := by
        simp [workOf, hpc, ownOf]
      rw [workOf_setPc, workOf_setJob_self]
      simp only [ownOf, lastOf, hown]
      exact .raise w (by simp [workOf, hpc, lastOf])
    · exact Or.inl (workOf_ne hj (by simp [hpc, ownOf]) (by simp [hpc, lastOf, Ne.symm hj]))

/-- The pool refines shared work: job by job, a step of the pool is a step or nothing. -/
theorem workOf_step {a : Action ι W} (h : Wiring calls s) (hm : Move calls s a s') (j : ι) :
    workOf s' j = workOf s j ∨ Step (calls j).pairs (workOf s j) (workOf s' j) := by
  cases hm with
  | caller c s' hc => exact Or.inl (workOf_caller h hc j)
  | worker w s' hw => exact workOf_worker hw j
  | drop s' hd =>
    cases hd with
    | store _ => exact Or.inl rfl
    | notify _ => exact Or.inl (workOf_notifyJob s j)
    | join _ _ => exact Or.inl rfl
  | wakeCaller c hpc => exact Or.inl (workOf_congr rfl rfl rfl)
  | wakeWorker w hpc =>
    exact Or.inl (workOf_setPc_quiet (by simp [hpc, ownOf]) (by simp [hpc, lastOf]))

/-- In every state reached the wiring holds and every job is in order. -/
theorem reached_inv (h : Reaches (step calls) (initial calls : State ι W) s) :
    Wiring calls s ∧ ∀ j, Inv (calls j).pairs (workOf s j) := by
  refine h.invariant (I := fun s => Wiring calls s ∧ ∀ j, Inv (calls j).pairs (workOf s j))
    ⟨wiring_initial, fun j => inv_start⟩ ?_
  intro t a u _ ⟨hw, hj⟩ _ hu
  have hm := step_move hu
  refine ⟨hw.move hm, fun j => ?_⟩
  obtain he | hs := workOf_step hw hm j
  · exact he ▸ hj j
  · exact (hj j).step hs

end Temari.PoolWork
