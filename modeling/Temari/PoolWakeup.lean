import Temari.PoolSafety

/-! The wait of a call on cv_done. A worker stores the flag and notifies without
done_mutex, so the notify can fall between the caller's check and its parking. -/
namespace Temari.PoolWakeup
open RoundMachine Rounds Pool PoolMoves PoolWork Transition SharedWork
variable {ι : Type} [DecidableEq ι] {W : Nat} {calls : ι → Call} {s s' : State ι W}

/-- The call is parked, its job is finished, and nobody is left to notify it. -/
def Stranded (s : State ι W) (c : ι) : Prop :=
  s.caller c = .parked ∧ (s.jobs c).finished = true ∧
    ∀ w, (s.worker w).pc ≠ .mustStore c ∧ (s.worker w).pc ≠ .mustNotify c

/-- A notify for a job does not come while its call is on the way to parking. -/
def heard (s : State ι W) : Action ι W → Bool
  | .worker w =>
    match (s.worker w).pc with
    | .mustNotify j => decide (s.caller j ≠ .aboutPark)
    | _ => true
  | _ => true

section Waiting
variable {c : ι} {w : Fin W}

/-- Parked, or past the check and on the way there. -/
def waits : CallerPc → Bool
  | .aboutPark | .parked => true
  | _ => false

/-- A call that waits for a finished job has its notify still to come. -/
def Awaited (s : State ι W) : Prop :=
  ∀ c, waits (s.caller c) = true → (s.jobs c).finished = true → ∃ w, (s.worker w).pc = .mustNotify c

omit [DecidableEq ι] in
/-- No call starts to wait, no flag is raised and no notify is done. -/
theorem Awaited.frame (h : Awaited s)
    (hcaller : ∀ c, waits (s'.caller c) = true → (s'.jobs c).finished = true →
      waits (s.caller c) = true ∧ (s.jobs c).finished = true)
    (hworker : ∀ w c, (s.worker w).pc = .mustNotify c → (s'.worker w).pc = .mustNotify c) :
    Awaited s' := by
  intro c hc hf
  obtain ⟨w, hw⟩ := h c (hcaller c hc hf).1 (hcaller c hc hf).2
  exact ⟨w, hworker w c hw⟩

theorem Awaited.setCaller (h : Awaited s) {pc : CallerPc}
    (hpc : waits pc = true → (s.jobs c).finished = true → waits (s.caller c) = true) :
    Awaited (s.setCaller c pc) := by
  refine h.frame (fun d hd hf => ⟨?_, hf⟩) fun _ _ hw => hw
  by_cases hdc : d = c
  · subst hdc
    rw [s.setCaller_self] at hd
    exact hpc hd hf
  · rwa [s.setCaller_ne pc hdc] at hd

omit [DecidableEq ι] in
theorem Awaited.setPc (h : Awaited s) {pc : WorkerPc ι}
    (hpc : ∀ c, (s.worker w).pc ≠ .mustNotify c) : Awaited (s.setPc w pc) := by
  refine h.frame (fun _ hc hf => ⟨hc, hf⟩) fun v c hv => ?_
  have hvw : v ≠ w := by
    rintro rfl
    exact hpc c hv
  rwa [s.setPc_ne pc hvw]

theorem Awaited.setJob (h : Awaited s) {j : ι} {job : Job}
    (hjob : job.finished = true → (s.jobs j).finished = true) : Awaited (s.setJob j job) := by
  refine h.frame (fun c hc hf => ⟨hc, ?_⟩) fun _ _ hw => hw
  simp only [State.setJob] at hf
  by_cases hcj : c = j
  · subst hcj
    rw [Function.update_self] at hf
    exact hjob hf
  · rwa [Function.update_of_ne hcj] at hf

theorem Awaited.notifyJob (h : Awaited s) : Awaited s.notifyJob := by
  refine h.frame (fun _ hc hf => ⟨hc, hf⟩) fun v c hv => ?_
  have hne : (s.worker v).pc ≠ .parked := by
    rw [hv]
    nofun
  exact (congrArg Worker.pc (if_neg hne)).trans hv

theorem Awaited.caller (h : Awaited s) (hm : CallerMove calls s c s') : Awaited s' := by
  cases hm with
  | create hpc => exact Awaited.setCaller (Awaited.setJob h fun hf => by cases hf) nofun
  | notify hpc => exact h.notifyJob.setCaller nofun
  | seeUnfinished hpc hf => exact h.setCaller fun _ hf' => by cases hf.symm.trans hf'
  | park hpc =>
    exact Awaited.setCaller h fun _ _ => by
      rw [hpc]
      rfl
  | _ => exact Awaited.setCaller h nofun

theorem Awaited.worker (h : Awaited s) (hok : heard s (.worker w) = true)
    (hm : WorkerMove calls s w s') : Awaited s' := by
  cases hm with
  | lock hpc _ | nothingNew hpc _ | exit hpc _ | stay hpc _ | park hpc | load _ _ hpc
  | decrypt _ _ _ hpc _ | panic _ _ hpc _ =>
    exact Awaited.setPc h fun c hc => by cases hpc.symm.trans hc
  | pick j e hpc hslot hne =>
    refine h.frame (fun _ hc hf => ⟨hc, hf⟩) fun v c hv => ?_
    have hvw : v ≠ w := by
      rintro rfl
      cases hpc.symm.trans hv
    exact (congrArg Worker.pc (Function.update_of_ne hvw _ _)).trans hv
  | overrun _ hpc _ | claim _ hpc _ | retireLast _ _ hpc _ | retire _ _ hpc _ =>
    refine Awaited.setPc (Awaited.setJob h ?_) fun c hc => by cases hpc.symm.trans hc
    exact fun hf => hf
  | store j hpc =>
    intro c hc hf
    by_cases hcj : c = j
    · subst hcj
      exact ⟨w, State.setPc_self _ _⟩
    · -- another job's flag is as it was, and so is its worker
      simp only [State.setPc, State.setJob, Function.update_of_ne hcj] at hf
      obtain ⟨v, hv⟩ := h c hc hf
      have hvw : v ≠ w := by
        rintro rfl
        cases hpc.symm.trans hv
      exact ⟨v, (congrArg Worker.pc (State.setPc_ne _ _ hvw)).trans hv⟩
  | notify j hpc =>
    intro c hc hf
    -- all that were parked are woken, and the job's own call is not past its check
    have hwait : s.caller c = .aboutPark := by
      obtain ⟨-, hp⟩ | ⟨hne, hp⟩ := s.notifyDone_caller c
      · cases (congrArg waits hp).symm.trans hc
      · have hwaits := (congrArg waits hp).symm.trans hc
        cases hpark : s.caller c <;> simp_all [waits]
    have hcj : c ≠ j := by
      rintro rfl
      simp [heard, hpc, hwait] at hok
    obtain ⟨v, hv⟩ := h c (by rw [hwait]; rfl) hf
    have hvw : v ≠ w := by
      rintro rfl
      cases hpc.symm.trans hv
      exact hcj rfl
    exact ⟨v, (congrArg Worker.pc (State.setPc_ne _ _ hvw)).trans hv⟩

theorem Awaited.step {a : Action ι W} (h : Awaited s) (hok : heard s a = true)
    (hu : step calls s a = some s') : Awaited s' := by
  cases step_move hu with
  | caller d u hm => exact h.caller hm
  | worker w u hm => exact h.worker hok hm
  | drop u hm =>
    cases hm with
    | notify _ => exact h.notifyJob
    | _ => exact h
  | wakeCaller d hpc => exact h.setCaller nofun
  | wakeWorker w hpc => exact h.setPc fun c hc => by cases hpc.symm.trans hc

/-- In a run in which every notify is heard, the calls that wait have theirs still to come. -/
theorem reached_awaited
    (h : Steps (Pool.step calls) (fun s a => heard s a = true) (initial calls) s) : Awaited s :=
  h.invariant (fun _ hc => by cases hc) fun _ _ _ _ ht hok hu => ht.step hok hu

omit [DecidableEq ι] in
theorem Stranded.not_awaited (hc : Stranded s c) : ¬ Awaited s := by
  obtain ⟨hpark, hfin, hquiet⟩ := hc
  intro hawait
  obtain ⟨w, hw⟩ := hawait c (by rw [hpark]; rfl) hfin
  exact (hquiet w).2 hw

end Waiting

section Finishing

/-- The job a worker has counted down to zero and not yet announced. -/
def finishing : WorkerPc ι → Option ι
  | .mustStore j | .mustNotify j => some j
  | _ => none

/-- One worker at most announces a job, and it raises the flag before it notifies. -/
structure Announced (s : State ι W) : Prop where
  pending : ∀ w j, finishing (s.worker w).pc = some j → (s.jobs j).pending = 0
  unique : ∀ v w j, finishing (s.worker v).pc = some j → finishing (s.worker w).pc = some j → v = w
  before : ∀ w j, (s.worker w).pc = .mustStore j → (s.jobs j).finished = false
  after : ∀ w j, (s.worker w).pc = .mustNotify j → (s.jobs j).finished = true

omit [DecidableEq ι] in
/-- The workers that announce stay where they are, and so do their jobs. -/
theorem Announced.frame (h : Announced s)
    (hjob : ∀ v j, finishing (s.worker v).pc = some j →
      (s'.jobs j).pending = (s.jobs j).pending ∧ (s'.jobs j).finished = (s.jobs j).finished)
    (hpc : ∀ v j, finishing (s'.worker v).pc = some j → (s'.worker v).pc = (s.worker v).pc) :
    Announced s' where
  pending v j hv := by
    have hv' := hpc v j hv ▸ hv
    exact (hjob v j hv').1.trans (h.pending v j hv')
  unique u v j hu hv := h.unique u v j (hpc u j hu ▸ hu) (hpc v j hv ▸ hv)
  before v j hv := by
    have hv' := (hpc v j (by rw [hv]; rfl)).symm.trans hv
    exact (hjob v j (by rw [hv']; rfl)).2.trans (h.before v j hv')
  after v j hv := by
    have hv' := (hpc v j (by rw [hv]; rfl)).symm.trans hv
    exact (hjob v j (by rw [hv']; rfl)).2.trans (h.after v j hv')

omit [DecidableEq ι] in
theorem finishing_update {w v : Fin W} {x : Worker ι} (hx : finishing x.pc = none) {j : ι}
    (hv : finishing (Function.update s.worker w x v).pc = some j) :
    (Function.update s.worker w x v).pc = (s.worker v).pc := by
  by_cases hvw : v = w
  · subst hvw
    rw [Function.update_self, hx] at hv
    cases hv
  · rw [Function.update_of_ne hvw]

theorem finishing_notifyJob {v : Fin W} {j : ι}
    (hv : finishing (s.notifyJob.worker v).pc = some j) :
    (s.notifyJob.worker v).pc = (s.worker v).pc := by
  obtain ⟨-, hp⟩ | ⟨-, hp⟩ := s.notifyJob_pc v
  · rw [hp] at hv
    cases hv
  · exact hp

theorem Announced.caller {c : ι} (h : Announced s) (hw : Wiring calls s)
    (hm : CallerMove calls s c s') : Announced s' := by
  cases hm with
  | create hpc =>
    -- the job is as it was made
    have hfresh := (hw.fresh c (by rw [hpc]; rfl)).1
    refine h.frame (fun v j _ => ?_) fun _ _ _ => rfl
    simp only [State.setCaller, State.setJob, ← hfresh, Function.update_eq_self, and_self]
  | notify _ => exact h.frame (fun _ _ _ => ⟨rfl, rfl⟩) fun _ _ => finishing_notifyJob
  | _ => exact h.frame (fun _ _ _ => ⟨rfl, rfl⟩) fun _ _ _ => rfl

/-- A worker that alone is about to announce a job. -/
theorem Announced.replace {w : Fin W} {j : ι} (h : Announced s)
    (halone : ∀ v, v ≠ w → finishing (s.worker v).pc ≠ some j) {pc : WorkerPc ι} {job : Job}
    (hpc : finishing pc = some j) (hpending : job.pending = 0)
    (hbefore : pc = .mustStore j → job.finished = false)
    (hafter : pc = .mustNotify j → job.finished = true) :
    Announced ((s.setJob j job).setPc w pc) := by
  have hw : (((s.setJob j job).setPc w pc).worker w).pc = pc := State.setPc_self _ _
  have hother (v : Fin W) (hv : v ≠ w) :
      ((s.setJob j job).setPc w pc).worker v = s.worker v := State.setPc_ne _ _ hv
  have hjob (i : ι) (hi : i ≠ j) : ((s.setJob j job).setPc w pc).jobs i = s.jobs i :=
    State.setJob_ne _ _ hi
  have hself : ((s.setJob j job).setPc w pc).jobs j = job := State.setJob_self _ _ _
  refine ⟨fun v i hv => ?_, fun u v i hu hv => ?_, fun v i hv => ?_, fun v i hv => ?_⟩
  · by_cases hvw : v = w
    · rw [hvw, hw, hpc, Option.some.injEq] at hv
      rw [← hv, hself, hpending]
    · rw [hother v hvw] at hv
      rw [hjob i fun hi => halone v hvw (hi ▸ hv), h.pending v i hv]
  · by_cases huw : u = w <;> by_cases hvw : v = w
    · rw [huw, hvw]
    · rw [huw, hw, hpc] at hu
      rw [hother v hvw, ← hu] at hv
      exact absurd hv (halone v hvw)
    · rw [hvw, hw, hpc] at hv
      rw [hother u huw, ← hv] at hu
      exact absurd hu (halone u huw)
    · rw [hother u huw] at hu
      rw [hother v hvw] at hv
      exact h.unique u v i hu hv
  · by_cases hvw : v = w
    · rw [hvw, hw] at hv
      have hi : i = j := by simpa [hv, finishing] using hpc
      rw [hi, hself]
      exact hbefore (hi ▸ hv)
    · rw [hother v hvw] at hv
      rw [hjob i fun hi => halone v hvw (by rw [hv, hi]; rfl), h.before v i hv]
  · by_cases hvw : v = w
    · rw [hvw, hw] at hv
      have hi : i = j := by simpa [hv, finishing] using hpc
      rw [hi, hself]
      exact hafter (hi ▸ hv)
    · rw [hother v hvw] at hv
      rw [hjob i fun hi => halone v hvw (by rw [hv, hi]; rfl), h.after v i hv]

theorem Announced.worker {w : Fin W} (h : Announced s)
    (hinv : ∀ j, Inv (calls j).pairs (workOf s j)) (hm : WorkerMove calls s w s') :
    Announced s' := by
  -- while an item of a job is held, nobody announces it
  have hpos {j : ι} {p : Nat} (hpc : (s.worker w).pc = .decrypted j p) : 0 < (s.jobs j).pending :=
    (hinv j).pending_pos (show (workOf s j).own w = some (p, true) by simp [workOf, hpc, ownOf])
  have hheld {j : ι} {p : Nat} (hpc : (s.worker w).pc = .decrypted j p) (v : Fin W) :
      finishing (s.worker v).pc ≠ some j := fun hv =>
    absurd (h.pending v j hv) (Nat.ne_of_gt (hpos hpc))
  have hjob {i j : ι} {job : Job} {pc : WorkerPc ι} (hi : i = j →
      job.pending = (s.jobs j).pending ∧ job.finished = (s.jobs j).finished) :
      (((s.setJob j job).setPc w pc).jobs i).pending = (s.jobs i).pending ∧
        (((s.setJob j job).setPc w pc).jobs i).finished = (s.jobs i).finished := by
    by_cases hij : i = j
    · subst hij
      simpa [State.setPc, State.setJob_self] using hi rfl
    · simp [State.setPc, State.setJob_ne _ _ hij]
  cases hm with
  | overrun j hpc hp | claim j hpc hp =>
    refine h.frame (fun v i _ => hjob fun _ => ?_) fun _ _ => finishing_update rfl
    exact ⟨rfl, rfl⟩
  | retireLast j p hpc hone =>
    refine h.replace (fun v _ => hheld hpc v) rfl (by rw [hone]) (fun _ => ?_) fun hp => by cases hp
    -- a raised flag would mean that nothing was pending
    exact Bool.eq_false_iff.mpr fun hf => absurd ((hinv j).finished hf) (Nat.ne_of_gt (hpos hpc))
  | retire j p hpc hne =>
    exact h.frame (fun v i hv => hjob fun hi => absurd (hi ▸ hv) (hheld hpc v))
      fun _ _ => finishing_update rfl
  | store j hpc =>
    have hw : finishing (s.worker w).pc = some j := by rw [hpc]; rfl
    exact h.replace (fun v hv hf => hv (h.unique v w j hf hw)) rfl (h.pending w j hw)
      (fun hp => by cases hp) fun _ => rfl
  | _ => exact h.frame (fun _ _ _ => ⟨rfl, rfl⟩) fun _ _ => finishing_update rfl

theorem reached_announced (h : Reaches (step calls) (initial calls : State ι W) s) :
    Announced s := by
  refine h.invariant ⟨nofun, nofun, nofun, nofun⟩ ?_
  intro t a u ht ha _ hu
  obtain ⟨hw, hinv⟩ := reached_inv ht
  cases step_move hu with
  | caller d u hm => exact ha.caller hw hm
  | worker w u hm => exact ha.worker hinv hm
  | drop u hm =>
    cases hm with
    | notify _ => exact ha.frame (fun _ _ _ => ⟨rfl, rfl⟩) fun _ _ => finishing_notifyJob
    | _ => exact ha.frame (fun _ _ _ => ⟨rfl, rfl⟩) fun _ _ _ => rfl
  | wakeCaller d hpc => exact ha.frame (fun _ _ _ => ⟨rfl, rfl⟩) fun _ _ _ => rfl
  | wakeWorker w hpc => exact ha.frame (fun _ _ _ => ⟨rfl, rfl⟩) fun _ _ => finishing_update rfl

/-- A notify that is not heard strands the call as soon as it parks. -/
theorem unheard_strands (h : Reaches (step calls) (initial calls : State ι W) s) {a : Action ι W}
    (hbad : heard s a = false) :
    ∃ c t, run (step calls) s [a, .caller c] = some t ∧ Stranded t c := by
  obtain ⟨-, hun, -, ha⟩ := reached_announced h
  cases a with
  | worker w =>
    cases hpc : (s.worker w).pc with
    | mustNotify j =>
      have hpark : s.caller j = .aboutPark := by simpa [heard, hpc] using hbad
      refine ⟨j, { s.notifyDone.setPc w (.claim j) with doneMutex := none }.setCaller j .parked, ?_,
        ?_, ?_, ?_⟩
      · simp [run, step, workerStep, callerStep, hpc, State.setPc, State.notifyDone, hpark]
      · simp [State.setCaller]
      · exact ha w j hpc
      · intro v
        by_cases hv : v = w
        · simp [State.setCaller, State.setPc, hv]
        · have hne : finishing (s.worker v).pc ≠ some j :=
            fun hj => hv (hun v w j hj (by rw [hpc]; rfl))
          simp only [State.setCaller, State.setPc, State.notifyDone, Function.update_of_ne hv]
          refine ⟨fun hs => hne ?_, fun hs => hne ?_⟩ <;> rw [hs] <;> rfl
    | _ => simp [heard, hpc] at hbad
  | _ => simp [heard] at hbad

end Finishing

theorem two_bytes_stranded : ∃ s : State Unit 1,
    Reaches (step fun _ => twoBytes) (initial fun _ => twoBytes) s ∧ Stranded s () := by
  obtain ⟨s, hrun, hpc, hfin, hw⟩ : ∃ s, run (step fun _ => twoBytes)
      (initial fun _ => twoBytes : State Unit 1)
      (.replicate 8 (.caller ()) ++ .replicate 8 (.worker 0) ++ [.caller ()]) = some s ∧
        s.caller () = .parked ∧ (s.jobs ()).finished = true ∧ (s.worker 0).pc = .claim () :=
    ⟨_, rfl, rfl, rfl, rfl⟩
  refine ⟨s, reaches_of_run hrun, hpc, hfin, fun w => ?_⟩
  rw [Subsingleton.elim w 0, hw]
  simp

/-- No call is stranded in a run in which every notify is heard, and a notify that is not
heard strands the call whose job it is for. -/
theorem stranded_iff_unheard (calls : ι → Call) :
    (∀ s : State ι W, Steps (step calls) (fun s a => heard s a = true) (initial calls) s →
      ∀ c, ¬ Stranded s c) ∧
    ∀ s : State ι W, Reaches (step calls) (initial calls) s → ∀ a, heard s a = false →
      ∃ c t, run (step calls) s [a, .caller c] = some t ∧ Stranded t c := by
  refine ⟨fun s h c hc => ?_, fun s h a hbad => unheard_strands h hbad⟩
  exact hc.not_awaited (reached_awaited h)

end Temari.PoolWakeup
