import Temari.PoolTurns
import Temari.PoolResults
import Temari.PoolWakeup

/-! What a pool at rest looks like. Whoever holds a lock has a step, a parked worker has been
through the job in the slot, and a job that all workers have been through is finished. -/
namespace Temari.PoolRest
open RoundMachine Rounds Pool PoolMoves PoolWork PoolSafety PoolEpochs PoolResults PoolRegions
open PoolWakeup PoolTurns Transition SharedWork
variable {ι : Type} [DecidableEq ι] {W : Nat} {calls : ι → Call} {s s' : State ι W} {c d : ι}
  {w : Fin W}

section Locks

/-- The call has done_mutex. -/
def doneHolds : CallerPc → Bool
  | .holdDone | .aboutPark | .leaving => true
  | _ => false

/-- What call c has locked, it is past locking when it stands at pc. -/
structure Keeps (s : State ι W) (c : ι) (pc : CallerPc) : Prop where
  run : s.runLock = some c → inRun pc = true
  job : s.jobMutex = some (.caller c) → callerHolds pc = true
  done : s.doneMutex = some c → doneHolds pc = true

/-- A lock that is taken has a holder who is past taking it. -/
structure Held (s : State ι W) : Prop where
  callers : ∀ c, Keeps s c (s.caller c)
  workers : ∀ w, s.jobMutex = some (.worker w) → workerHolds (s.worker w).pc = true

theorem held_setCaller {pc : CallerPc} (hothers : ∀ d, d ≠ c → Keeps s d (s.caller d))
    (hself : Keeps s c pc)
    (hworkers : ∀ w, s.jobMutex = some (.worker w) → workerHolds (s.worker w).pc = true) :
    Held (s.setCaller c pc) := by
  refine ⟨fun d => ?_, hworkers⟩
  obtain rfl | hne := eq_or_ne d c
  · rw [State.setCaller_self]
    exact ⟨hself.run, hself.job, hself.done⟩
  · rw [State.setCaller_ne _ _ hne]
    exact ⟨(hothers d hne).run, (hothers d hne).job, (hothers d hne).done⟩

theorem Held.setCaller (h : Held s) {pc : CallerPc}
    (hrun : inRun (s.caller c) = true → inRun pc = true)
    (hjob : callerHolds (s.caller c) = true → callerHolds pc = true)
    (hdone : doneHolds (s.caller c) = true → doneHolds pc = true) : Held (s.setCaller c pc) :=
  held_setCaller (fun d _ => h.callers d) ⟨fun hl => hrun ((h.callers c).run hl),
    fun hl => hjob ((h.callers c).job hl), fun hl => hdone ((h.callers c).done hl)⟩ h.workers

omit [DecidableEq ι] in
/-- Locks that stay, or are free. -/
theorem Held.frame (h : Held s) (hcaller : s'.caller = s.caller)
    (hworker : ∀ w, workerHolds (s.worker w).pc = true → workerHolds (s'.worker w).pc = true)
    (hrun : s'.runLock = s.runLock ∨ s'.runLock = none)
    (hjob : s'.jobMutex = s.jobMutex ∨ s'.jobMutex = none)
    (hdone : s'.doneMutex = s.doneMutex ∨ s'.doneMutex = none) : Held s' := by
  refine ⟨fun d => ⟨fun hd => ?_, fun hd => ?_, fun hd => ?_⟩, fun w hw => ?_⟩
  · obtain hl | hl := hrun <;> rw [hl] at hd
    · exact hcaller ▸ (h.callers d).run hd
    · cases hd
  · obtain hl | hl := hjob <;> rw [hl] at hd
    · exact hcaller ▸ (h.callers d).job hd
    · cases hd
  · obtain hl | hl := hdone <;> rw [hl] at hd
    · exact hcaller ▸ (h.callers d).done hd
    · cases hd
  · obtain hl | hl := hjob <;> rw [hl] at hw
    · exact hworker w (h.workers w hw)
    · cases hw

theorem workerHolds_notifyJob (w : Fin W) (h : workerHolds (s.worker w).pc = true) :
    workerHolds (s.notifyJob.worker w).pc = true := by
  obtain ⟨hpark, -⟩ | ⟨-, hp⟩ := s.notifyJob_pc w
  · rw [hpark] at h
    cases h
  · rwa [hp]

omit [DecidableEq ι] in
theorem Held.no_job (h : Held s) (hpc : callerHolds (s.caller c) = false) :
    s.jobMutex ≠ some (.caller c) := fun hl => by cases hpc.symm.trans ((h.callers c).job hl)

omit [DecidableEq ι] in
theorem Held.no_done (h : Held s) (hpc : doneHolds (s.caller c) = false) :
    s.doneMutex ≠ some c := fun hl => by cases hpc.symm.trans ((h.callers c).done hl)

theorem Held.caller (h : Held s) (hm : CallerMove calls s c s') : Held s' := by
  cases hm with
  | lockRun hpc hfree =>
    have hjob := h.no_job (c := c) (by rw [hpc]; rfl)
    have hdone := h.no_done (c := c) (by rw [hpc]; rfl)
    refine held_setCaller (fun d hne => ⟨fun hl => ?_, (h.callers d).job, (h.callers d).done⟩)
      ⟨fun _ => rfl, fun hl => absurd hl hjob, fun hl => absurd hl hdone⟩ h.workers
    exact absurd (Option.some.inj hl).symm hne
  | lockJob e hpc hfree =>
    have hdone := h.no_done (c := c) (by rw [hpc]; rfl)
    refine held_setCaller (fun d hne => ⟨(h.callers d).run, fun hl => ?_, (h.callers d).done⟩)
      ⟨fun _ => rfl, fun _ => rfl, fun hl => absurd hl hdone⟩ nofun
    cases hl
    exact absurd rfl hne
  | publish e hpc =>
    have hdone := h.no_done (c := c) (by rw [hpc]; rfl)
    exact held_setCaller (fun d _ => ⟨(h.callers d).run, nofun, (h.callers d).done⟩)
      ⟨fun _ => rfl, nofun, fun hl => absurd hl hdone⟩ nofun
  | lockDone hpc hfree =>
    have hjob := h.no_job (c := c) (by obtain hpc | hpc := hpc <;> rw [hpc] <;> rfl)
    refine held_setCaller (fun d hne => ⟨(h.callers d).run, (h.callers d).job, fun hl => ?_⟩)
      ⟨fun _ => rfl, fun hl => absurd hl hjob, fun _ => rfl⟩ h.workers
    exact absurd (Option.some.inj hl).symm hne
  | park hpc | leave hpc =>
    have hjob := h.no_job (c := c) (by rw [hpc]; rfl)
    exact held_setCaller (fun d _ => ⟨(h.callers d).run, (h.callers d).job, nofun⟩)
      ⟨fun _ => rfl, fun hl => absurd hl hjob, nofun⟩ h.workers
  | finish hpc =>
    have hjob := h.no_job (c := c) (by rw [hpc]; rfl)
    have hdone := h.no_done (c := c) (by rw [hpc]; rfl)
    exact held_setCaller (fun d _ => ⟨nofun, (h.callers d).job, (h.callers d).done⟩)
      ⟨nofun, fun hl => absurd hl hjob, fun hl => absurd hl hdone⟩ h.workers
  | notify hpc =>
    have hbase : Held s.notifyJob :=
      h.frame rfl workerHolds_notifyJob (.inl rfl) (.inl rfl) (.inl rfl)
    refine hbase.setCaller (fun _ => rfl) ?_ ?_ <;>
      simp [State.notifyJob, hpc, callerHolds, doneHolds]
  | empty hpc _ | panic hpc | seeFinished hpc _ | seeUnfinished hpc _ =>
    refine h.setCaller ?_ ?_ ?_ <;> simp [hpc, inRun, callerHolds, doneHolds]
  | enter hpc _ | alone _ hpc _ _ | create hpc =>
    refine (h.setCaller ?_ ?_ ?_).frame rfl (fun _ hw => hw) (.inl rfl) (.inl rfl) (.inl rfl) <;>
      simp [hpc, inRun, callerHolds, doneHolds]

omit [DecidableEq ι] in
theorem Held.notifyDone (h : Held s) : Held s.notifyDone := by
  refine ⟨fun c => ?_, h.workers⟩
  have hold := h.callers c
  obtain ⟨hpark, hp⟩ | ⟨-, hp⟩ := s.notifyDone_caller c
  · rw [hpark] at hold
    rw [hp]
    exact ⟨hold.run, hold.job, hold.done⟩
  · rw [hp]
    exact ⟨hold.run, hold.job, hold.done⟩

omit [DecidableEq ι] in
theorem Held.setPc (h : Held s) {pc : WorkerPc ι}
    (hpc : workerHolds (s.worker w).pc = true → workerHolds pc = true) : Held (s.setPc w pc) := by
  refine h.frame rfl (fun v hv => ?_) (.inl rfl) (.inl rfl) (.inl rfl)
  obtain rfl | hne := eq_or_ne v w
  · rw [State.setPc_self]
    exact hpc hv
  · rwa [State.setPc_ne _ _ hne]

theorem Held.worker (h : Held s) (hm : WorkerMove calls s w s') : Held s' := by
  cases hm with
  | lock hpc hfree =>
    refine ⟨fun d => ⟨(h.callers d).run, fun hl => ?_, (h.callers d).done⟩, fun v hv => ?_⟩
    · cases hl
    · cases hv
      rw [State.setPc_self]
      rfl
  | pick j e hpc hslot hne =>
    exact ⟨fun d => ⟨(h.callers d).run, nofun, (h.callers d).done⟩, nofun⟩
  | exit hpc _ | park hpc =>
    exact ⟨fun d => ⟨(h.callers d).run, nofun, (h.callers d).done⟩, nofun⟩
  | nothingNew hpc _ | stay hpc _ => exact h.setPc fun _ => rfl
  | notify j hpc => exact h.notifyDone.setPc (by simp [State.notifyDone, hpc, workerHolds])
  | overrun j hpc _ | claim j hpc _ | load j _ hpc | decrypt j _ _ hpc _ | panic j _ hpc _
  | retireLast j _ hpc _ | retire j _ hpc _ | store j hpc =>
    refine (h.setPc (w := w) ?_).frame rfl (fun _ hw => hw) (.inl rfl) (.inl rfl) (.inl rfl)
    simp [hpc, workerHolds]

theorem reached_held (h : Reaches (step calls) (initial calls : State ι W) s) : Held s := by
  refine h.invariant (I := Held) ⟨fun _ => ⟨nofun, nofun, nofun⟩, nofun⟩ ?_
  intro t a u _ ht _ hu
  cases step_move hu with
  | caller c u hm => exact ht.caller hm
  | worker w u hm => exact ht.worker hm
  | drop u hm =>
    cases hm with
    | notify _ => exact ht.frame rfl workerHolds_notifyJob (.inl rfl) (.inl rfl) (.inl rfl)
    | _ => exact ht.frame rfl (fun _ hw => hw) (.inl rfl) (.inl rfl) (.inl rfl)
  | wakeCaller c hpc =>
    refine ht.setCaller ?_ ?_ ?_ <;> simp [hpc, inRun, callerHolds, doneHolds]
  | wakeWorker w hpc => exact ht.setPc (by simp [hpc, workerHolds])

end Locks

section Slot

/-- The call's job is in the slot, from its publication until the call drops run_lock. -/
def posted : CallerPc → Bool
  | .published | .wantDone | .holdDone | .aboutPark | .parked | .woken | .leaving |
      .unlocking => true
  | _ => false

theorem inRun_of_posted {pc : CallerPc} (h : posted pc = true) : inRun pc = true := by
  cases pc <;> first | rfl | cases h

/-- A worker that is level with the slot has its job in hand or has been through it, and one
that is not level does not stay parked. -/
structure Supplied (calls : ι → Call) (s : State ι W) : Prop where
  slot : ∀ c, posted (s.caller c) = true → ∃ e, s.job = some (c, e)
  level : ∀ w, (s.worker w).pc = .parked →
    (s.worker w).myEpoch = slotEpoch s ∨ ∃ c, s.caller c = .published
  spent : ∀ w j e, s.job = some (j, e) → (s.worker w).myEpoch = e →
    refers (s.worker w).pc ≠ some j → (calls j).pairs ≤ (s.jobs j).next

/-- A call that moves away from the slot. -/
theorem Supplied.setCaller {t : State ι W} {pc : CallerPc} (h : Supplied calls s)
    (hcaller : t.caller = s.caller) (hjob : t.job = s.job) (hjobs : t.jobs = s.jobs)
    (hworker : t.worker = s.worker) (hposted : posted pc = true → posted (s.caller c) = true)
    (hpub : s.caller c ≠ .published) : Supplied calls (t.setCaller c pc) where
  slot d hd := by
    change ∃ e, t.job = some (d, e)
    rw [hjob]
    obtain rfl | hne := eq_or_ne d c
    · rw [State.setCaller_self] at hd
      exact h.slot d (hposted hd)
    · rw [State.setCaller_ne _ _ hne, hcaller] at hd
      exact h.slot d hd
  level w hw := by
    change (t.worker w).pc = .parked at hw
    change (t.worker w).myEpoch = (t.job.map Prod.snd).getD 0 ∨ _
    rw [hworker] at hw ⊢
    rw [hjob]
    refine (h.level w hw).imp_right fun ⟨d, hd⟩ => ⟨d, ?_⟩
    have hne : d ≠ c := by
      rintro rfl
      exact hpub hd
    rwa [State.setCaller_ne _ _ hne, hcaller]
  spent w i e hslot := by
    change t.job = some (i, e) at hslot
    change (t.worker w).myEpoch = e → refers (t.worker w).pc ≠ some i → _ ≤ (t.jobs i).next
    rw [hworker, hjobs]
    exact h.spent w i e (hjob ▸ hslot)

omit [DecidableEq ι] in
/-- A worker that moves. -/
theorem Supplied.setPc {t : State ι W} {pc : WorkerPc ι} (h : Supplied calls s)
    (hcaller : ∀ d, posted (t.caller d) = true → posted (s.caller d) = true)
    (hpub : ∀ d, s.caller d = .published → t.caller d = .published) (hjob : t.job = s.job)
    (hnext : ∀ i, (s.jobs i).next ≤ (t.jobs i).next) (hworker : t.worker = s.worker)
    (hpark : pc = .parked → (s.worker w).myEpoch = slotEpoch s)
    (hspent : ∀ i, refers (s.worker w).pc = some i → refers pc = some i ∨
      (calls i).pairs ≤ (t.jobs i).next) : Supplied calls (t.setPc w pc) where
  slot d hd := by
    change ∃ e, t.job = some (d, e)
    rw [hjob]
    exact h.slot d (hcaller d hd)
  level v hv := by
    rw [myEpoch_setPc, hworker]
    change (s.worker v).myEpoch = (t.job.map Prod.snd).getD 0 ∨ _
    rw [hjob]
    obtain rfl | hne := eq_or_ne v w
    · rw [State.setPc_self] at hv
      exact Or.inl (hpark hv)
    · rw [State.setPc_ne _ _ hne, hworker] at hv
      exact (h.level v hv).imp_right fun ⟨d, hd⟩ => ⟨d, hpub d hd⟩
  spent v i e hslot hepoch hrefs := by
    change t.job = some (i, e) at hslot
    rw [myEpoch_setPc, hworker] at hepoch
    change _ ≤ (t.jobs i).next
    rw [hjob] at hslot
    obtain rfl | hne := eq_or_ne v w
    · rw [State.setPc_self] at hrefs
      by_cases hold : refers (s.worker v).pc = some i
      · exact (hspent i hold).resolve_left hrefs
      · exact (h.spent v i e hslot hepoch hold).trans (hnext i)
    · rw [State.setPc_ne _ _ hne, hworker] at hrefs
      exact (h.spent v i e hslot hepoch hrefs).trans (hnext i)

/-- An epoch about to be published is ahead of every worker. -/
theorem ahead_of_drawn (h : Reaches (step calls) (initial calls : State ι W) s) {e : Nat}
    (hpc : s.caller c = .holdJobMutex e) (w : Fin W) : (s.worker w).myEpoch < e := by
  obtain ⟨b, hposted, hbehind⟩ := reached_board h
  obtain ⟨hepoch, he⟩ := hposted.drawn c e (by rw [hpc]; rfl)
  have hle := hbehind.le w
  rw [← hposted.count w] at hle
  omega

theorem Supplied.publish (h : Reaches (step calls) (initial calls : State ι W) s) {e : Nat}
    (hpc : s.caller c = .holdJobMutex e) : Supplied calls
      ({ s with job := some (c, e), jobMutex := none }.setCaller c .published) where
  slot d hd := by
    obtain rfl | hne := eq_or_ne d c
    · exact ⟨e, rfl⟩
    · -- two calls past publication would both have run_lock
      rw [State.setCaller_ne _ _ hne] at hd
      have hd' := reached_serial h d (inRun_of_posted hd)
      have hc' := reached_serial h c (by rw [hpc]; rfl)
      exact absurd (Option.some.inj (hd'.symm.trans hc')) hne
  level w hw := .inr ⟨c, State.setCaller_self _ _⟩
  spent w i f hslot hepoch hrefs := by
    cases hslot
    have hlt := ahead_of_drawn h hpc w
    exact absurd hepoch (Nat.ne_of_lt hlt)

theorem Supplied.notifyJob (hs : Supplied calls s) : Supplied calls s.notifyJob where
  slot := hs.slot
  level w hw := by
    obtain ⟨-, hp⟩ | ⟨hne, hp⟩ := s.notifyJob_pc w
    · cases hp.symm.trans hw
    · exact absurd (hp.symm.trans hw) hne
  spent w i e hslot hepoch hrefs := by
    have hsame : (s.notifyJob.worker w).myEpoch = (s.worker w).myEpoch := by
      simp only [State.notifyJob]
      split <;> rfl
    refine hs.spent w i e hslot (hsame.symm.trans hepoch) fun hold => hrefs ?_
    obtain ⟨hpark, -⟩ | ⟨-, hp⟩ := s.notifyJob_pc w
    · rw [hpark] at hold
      cases hold
    · rw [hp]
      exact hold

theorem Supplied.caller (hs : Supplied calls s)
    (h : Reaches (step calls) (initial calls : State ι W) s) (hm : CallerMove calls s c s') :
    Supplied calls s' := by
  cases hm with
  | publish e hpc => exact Supplied.publish h hpc
  | notify hpc =>
    -- nobody is left parked
    refine ⟨fun d hd => hs.slot d ?_, fun w hw => ?_, hs.notifyJob.spent⟩
    · obtain rfl | hne := eq_or_ne d c
      · rw [hpc]
        rfl
      · rwa [State.setCaller_ne _ _ hne] at hd
    · obtain ⟨-, hp⟩ | ⟨hne, hp⟩ := s.notifyJob_pc w
      · cases hp.symm.trans hw
      · exact absurd (hp.symm.trans hw) hne
  | create hpc =>
    have hfresh := ((reached_inv h).1.fresh c (by rw [hpc]; rfl)).1
    refine hs.setCaller rfl rfl ?_ rfl nofun (by rw [hpc]; nofun)
    change Function.update s.jobs c (freshJob (calls c)) = s.jobs
    rw [← hfresh, Function.update_eq_self]
  | lockDone hpc _ =>
    obtain hpc | hpc := hpc <;>
      exact hs.setCaller rfl rfl rfl rfl (fun _ => by rw [hpc]; rfl) (by rw [hpc]; nofun)
  | empty hpc _ | panic hpc | enter hpc _ | alone _ hpc _ _ | lockRun hpc _ | lockJob _ hpc _
  | finish hpc => exact hs.setCaller rfl rfl rfl rfl nofun (by rw [hpc]; nofun)
  | seeFinished hpc _ | seeUnfinished hpc _ | park hpc | leave hpc =>
    exact hs.setCaller rfl rfl rfl rfl (fun _ => by rw [hpc]; rfl) (by rw [hpc]; nofun)

theorem next_setJob {j : ι} {job : Job} (hjob : (s.jobs j).next ≤ job.next) (i : ι) :
    (s.jobs i).next ≤ ((s.setJob j job).jobs i).next := by
  obtain rfl | hne := eq_or_ne i j
  · rwa [State.setJob_self]
  · rw [State.setJob_ne _ _ hne]

omit [DecidableEq ι] in
theorem Supplied.pick (hs : Supplied calls s) {j : ι} {e : Nat} (hslot : s.job = some (j, e)) :
    Supplied calls { s with
      jobMutex := none
      worker := Function.update s.worker w
        { myEpoch := (s.worker w).myEpoch + 1, pc := .claim j } } where
  slot := hs.slot
  level v hv := by
    obtain ⟨-, hp⟩ | ⟨hne, hp⟩ := pc_updated hv
    · cases hp
    · have hsame := hs.level v hp
      rwa [← Function.update_of_ne hne ⟨(s.worker w).myEpoch + 1, .claim j⟩ s.worker] at hsame
  spent v i f hslot' hepoch hrefs := by
    obtain rfl | hne := eq_or_ne v w
    · -- what is in the slot is what the worker has in hand
      cases hslot.symm.trans hslot'
      exact absurd (by simp [refers]) hrefs
    · simp only [Function.update_of_ne hne] at hepoch hrefs
      exact hs.spent v i f hslot' hepoch hrefs

omit [DecidableEq ι] in
theorem posted_notifyDone (d : ι) : posted (s.notifyDone.caller d) = posted (s.caller d) := by
  obtain ⟨hpark, hp⟩ | ⟨-, hp⟩ := s.notifyDone_caller d
  · rw [hp, hpark]
    rfl
  · rw [hp]

theorem Supplied.worker (hs : Supplied calls s)
    (h : Reaches (step calls) (initial calls : State ι W) s) (hm : WorkerMove calls s w s') :
    Supplied calls s' := by
  cases hm with
  | pick j e hpc hslot hne => exact hs.pick hslot
  | lock hpc _ | nothingNew hpc _ | exit hpc _ | stay hpc _ =>
    exact hs.setPc (fun _ hd => hd) (fun _ hd => hd) rfl (fun _ => Nat.le_refl _) rfl
      (fun hp => by cases hp) fun i hi => by simp [hpc, refers] at hi
  | park hpc =>
    obtain ⟨b, hposted, -⟩ := reached_board h
    have hlevel := hposted.compared w (by rw [hpc]; rfl)
    exact hs.setPc (fun _ hd => hd) (fun _ hd => hd) rfl (fun _ => Nat.le_refl _) rfl
      (fun _ => hlevel.trans hposted.slotEpoch_eq.symm) fun i hi => by simp [hpc, refers] at hi
  | overrun j hpc hp =>
    refine hs.setPc (fun _ hd => hd) (fun _ hd => hd) rfl (next_setJob (Nat.le_succ _)) rfl
      (fun hp => by cases hp) fun i hi => .inr ?_
    have hij : j = i := by simpa [hpc, refers] using hi
    subst hij
    rw [State.setJob_self]
    exact Nat.le_succ_of_le hp
  | claim j hpc _ =>
    exact hs.setPc (fun _ hd => hd) (fun _ hd => hd) rfl (next_setJob (Nat.le_succ _)) rfl
      (fun hp => by cases hp) fun i hi => .inl (by rw [hpc] at hi; exact hi)
  | retireLast j _ hpc _ | retire j _ hpc _ | store j hpc =>
    exact hs.setPc (fun _ hd => hd) (fun _ hd => hd) rfl (next_setJob (Nat.le_refl _)) rfl
      (fun hp => by cases hp) fun i hi => .inl (by rw [hpc] at hi; exact hi)
  | load j _ hpc | decrypt j _ _ hpc _ | panic j _ hpc _ =>
    exact hs.setPc (fun _ hd => hd) (fun _ hd => hd) rfl (fun _ => Nat.le_refl _) rfl
      (fun hp => by cases hp) fun i hi => .inl (by rw [hpc] at hi; exact hi)
  | notify j hpc =>
    refine hs.setPc (fun d hd => ?_) (fun d hd => ?_) rfl (fun _ => Nat.le_refl _) rfl
      (fun hp => by cases hp) fun i hi => .inl (by rw [hpc] at hi; exact hi)
    · rwa [posted_notifyDone] at hd
    · obtain ⟨hpark, -⟩ | ⟨-, hp⟩ := s.notifyDone_caller d
      · cases hpark.symm.trans hd
      · exact hp.trans hd

theorem reached_supplied (h : Reaches (step calls) (initial calls : State ι W) s) :
    Supplied calls s := by
  refine h.invariant (I := Supplied calls) ⟨nofun, nofun, nofun⟩ ?_
  intro t a u ht hs _ hu
  cases step_move hu with
  | caller c u hm => exact hs.caller ht hm
  | worker w u hm => exact hs.worker ht hm
  | drop u hm =>
    cases hm with
    | notify _ => exact ⟨hs.notifyJob.slot, hs.notifyJob.level, hs.notifyJob.spent⟩
    | _ => exact ⟨hs.slot, hs.level, hs.spent⟩
  | wakeCaller c hpc =>
    exact hs.setCaller rfl rfl rfl rfl (fun _ => by rw [hpc]; rfl) (by rw [hpc]; nofun)
  | wakeWorker w hpc =>
    exact hs.setPc (fun _ hd => hd) (fun _ hd => hd) rfl (fun _ => Nat.le_refl _) rfl nofun
      fun i hi => by simp [hpc, refers] at hi

end Slot

section Over

/-- The call has come to its end. -/
def settled : CallerPc → Bool
  | .returned | .bypassed | .panicked => true
  | _ => false

theorem CallerMove.not_settled (hm : CallerMove calls s c s') : settled (s.caller c) = false := by
  cases hm with
  | lockDone hpc _ => obtain hpc | hpc := hpc <;> rw [hpc] <;> rfl
  | empty hpc _ | alone _ hpc _ _ | panic hpc | enter hpc _ | lockRun hpc _ | create hpc
  | lockJob _ hpc _ | publish _ hpc | notify hpc | seeFinished hpc _ | seeUnfinished hpc _
  | park hpc | leave hpc | finish hpc =>
    rw [hpc]
    rfl

/-- A call that is over stays where it is. -/
theorem settled_stays {a : Action ι W} (hu : step calls s a = some s')
    (hc : settled (s.caller c) = true) : s'.caller c = s.caller c := by
  cases step_move hu with
  | caller d t hm =>
    obtain rfl | hne := eq_or_ne c d
    · cases hc.symm.trans (CallerMove.not_settled hm)
    · exact (callerMove_others hm hne).1
  | worker w t hm =>
    cases hm with
    | notify j hpc =>
      obtain ⟨hpark, -⟩ | ⟨-, hp⟩ := s.notifyDone_caller c
      · rw [hpark] at hc
        cases hc
      · exact hp
    | _ => rfl
  | drop t hm => cases hm <;> rfl
  | wakeCaller d hpc =>
    obtain rfl | hne := eq_or_ne c d
    · rw [hpc] at hc
      cases hc
    · exact State.setCaller_ne _ _ hne
  | wakeWorker w hpc => rfl

theorem dropper_stays {a : Action ι W} (hu : step calls s a = some s') (ha : a ≠ .drop) :
    s'.dropper = s.dropper := by
  cases step_move hu with
  | caller c t hm => cases hm <;> rfl
  | worker w t hm => cases hm <;> rfl
  | drop t hm => exact absurd rfl ha
  | wakeCaller c hpc | wakeWorker w hpc => rfl

end Over

section Jobs
variable {j : ι}

/-- A call that comes to the pool has a pair to decrypt. -/
theorem pairs_pos (h : Reaches (step calls) (initial calls : State ι W) s)
    (hc : inside (s.caller c) = true) : 0 < (calls c).pairs := by
  have hne : inside (s.caller c) = true → (calls c).n ≠ 0 := by
    refine h.invariant (I := fun s => inside (s.caller c) = true → (calls c).n ≠ 0) nofun ?_
    intro t a u _ ht _ hu hin
    cases step_move hu with
    | caller d u hm =>
      obtain rfl | hne := eq_or_ne c d
      · cases hm with
        | enter hpc hn => exact hn
        | empty | alone | panic | finish => cases
            (congrArg inside (State.setCaller_self _ _)).symm.trans hin
        | lockDone hpc _ => exact ht (by obtain hpc | hpc := hpc <;> rw [hpc] <;> rfl)
        | lockRun hpc _ | create hpc | lockJob _ hpc _ | publish _ hpc | notify hpc
        | seeFinished hpc _ | seeUnfinished hpc _ | park hpc | leave hpc =>
          exact ht (by rw [hpc]; rfl)
      · exact ht (by rwa [(callerMove_others hm hne).1] at hin)
    | worker w u hm =>
      cases hm with
      | notify j hpc =>
        refine ht ?_
        obtain ⟨hpark, -⟩ | ⟨-, hp⟩ := t.notifyDone_caller c
        · rw [hpark]
          rfl
        · exact (congrArg inside hp).symm.trans hin
      | _ => exact ht hin
    | drop u hm => cases hm <;> exact ht hin
    | wakeCaller d hpc =>
      obtain rfl | hne := eq_or_ne c d
      · exact ht (by rw [hpc]; rfl)
      · rw [State.setCaller_ne _ _ hne] at hin
        exact ht hin
    | wakeWorker w hpc => exact ht hin
  have := hne hc
  rw [Call.pairs]
  omega

theorem reached_noticed (h : Reaches (step calls) (initial calls : State ι W) s)
    (hpos : 0 < (calls j).pairs) : Noticed (workOf s j) := by
  refine h.invariant (I := fun s => Noticed (workOf s j)) (noticed_start hpos) ?_
  intro t a u ht hn _ hu
  obtain ⟨hwiring, hinv⟩ := reached_inv ht
  obtain he | hs := workOf_step hwiring (step_move hu) j
  · rwa [he]
  · exact hn.step (hinv j) hs

/-- Before drop nobody has been told to stop. -/
theorem reached_lit (h : Reaches (step calls) (initial calls : State ι W) s)
    (hd : s.dropper = .idle) : s.shutdown = false ∧ ∀ w, (s.worker w).pc ≠ .exited := by
  refine h.invariant (I := fun s => s.dropper = .idle →
    s.shutdown = false ∧ ∀ w, (s.worker w).pc ≠ .exited) (fun _ => ⟨rfl, nofun⟩) ?_ hd
  intro t a u _ ht _ hu
  have hmoved (w : Fin W) (x : Worker ι) (hx : x.pc ≠ .exited) (htd : t.dropper = .idle) :
      ∀ v, (Function.update t.worker w x v).pc ≠ .exited :=
    all_updated (P := fun pc => pc ≠ .exited) hx (ht htd).2
  cases step_move hu with
  | caller c u hm =>
    cases hm with
    | notify _ =>
      refine fun htd => ⟨(ht htd).1, fun v => ?_⟩
      obtain ⟨-, hp⟩ | ⟨-, hp⟩ := t.notifyJob_pc v
      · intro hv
        cases hp.symm.trans hv
      · intro hv
        exact (ht htd).2 v (hp.symm.trans hv)
    | _ => exact ht
  | worker w u hm =>
    cases hm with
    | exit hpc hs => exact fun htd => by cases hs.symm.trans (ht htd).1
    | _ => exact fun htd => ⟨(ht htd).1, hmoved w _ (fun hp => by cases hp) htd⟩
  | drop u hm => cases hm <;> exact fun htd => by cases htd
  | wakeCaller c hpc => exact ht
  | wakeWorker w hpc => exact fun htd => ⟨(ht htd).1, hmoved w _ (fun hp => by cases hp) htd⟩

/-- A worker decrypts what it has loaded. -/
theorem pair_decrypts (h : Reaches (step calls) (initial calls : State ι W) s)
    (hctx : 0x8000 ≤ (calls j).tmpl.ctx.length) {p : Nat} (hpc : (s.worker w).pc = .loaded j p) :
    decryptPair (calls j) (s.out j) p ≠ none := by
  obtain ⟨hwiring, hinv⟩ := reached_inv h
  have hcreated := hwiring.refs w j (by rw [hpc]; rfl)
  have hpool : s.caller j ≠ .bypassed := fun hb => by
    rw [hb] at hcreated
    cases hcreated
  have hown : (workOf s j).own w = some (p, false) := by simp [workOf, hpc, ownOf]
  obtain ⟨ws, hws, -⟩ := decryptPair_right hctx (reached_progress h hctx hpool).out_length
    ((hinv j).owned w p false hown).2
  rw [hws]
  exact Option.some_ne_none ws

/-- A sample alone is decrypted as well. -/
theorem alone_decrypts (h : Reaches (step calls) (initial calls : State ι W) s)
    (hctx : 0x8000 ≤ (calls c).tmpl.ctx.length) (hpc : s.caller c = .idle) (hn : (calls c).n = 1) :
    decryptPair (calls c) (s.out c) 0 ≠ none := by
  rw [reached_untouched h hctx hpc]
  obtain ⟨ws, hws, -⟩ := decryptPair_right (p := 0) hctx (calls c).sized
    (by rw [Call.pairs, hn]; decide)
  rw [hws]
  exact Option.some_ne_none ws

theorem callerStep_unharmed (h : Reaches (step calls) (initial calls : State ι W) s)
    (hctx : 0x8000 ≤ (calls c).tmpl.ctx.length) (hu : callerStep calls s c = some s') :
    s'.caller c ≠ .panicked := by
  intro hpanic
  have hset {t : State ι W} {pc : CallerPc} (ht : some (t.setCaller c pc) = some s') :
      pc = .panicked := by
    cases ht
    exact (State.setCaller_self _ _).symm.trans hpanic
  cases callerStep_move hu with
  | panic hpc =>
    simp only [callerStep, hpc] at hu
    split at hu
    · cases hu
    · split at hu
      · cases hset hu
      · split at hu
        next hone =>
          cases hws : decryptPair (calls c) (s.out c) 0 with
          | none => exact alone_decrypts h hctx hpc hone.1 hws
          | some ws =>
            rw [hws] at hu
            cases hset hu
        next => cases hset hu
  | _ => cases (State.setCaller_self _ _).symm.trans hpanic

/-- A call over a loaded template does not panic. -/
theorem caller_unharmed (h : Reaches (step calls) (initial calls : State ι W) s)
    (hctx : 0x8000 ≤ (calls c).tmpl.ctx.length) : s.caller c ≠ .panicked := by
  refine h.invariant (I := fun s => s.caller c ≠ .panicked) nofun ?_
  intro t a u ht hc _ hu
  cases step_move hu with
  | caller d u hm =>
    obtain rfl | hne := eq_or_ne c d
    · exact callerStep_unharmed ht hctx hu
    · rwa [(callerMove_others hm hne).1]
  | worker w u hm =>
    cases hm with
    | notify j hpc =>
      intro hd
      obtain ⟨-, hp⟩ | ⟨-, hp⟩ := t.notifyDone_caller c
      · cases hp.symm.trans hd
      · exact hc (hp.symm.trans hd)
    | _ => exact hc
  | drop u hm => cases hm <;> exact hc
  | wakeCaller d hpc =>
    obtain rfl | hne := eq_or_ne c d
    · rw [State.setCaller_self]
      nofun
    · rwa [State.setCaller_ne _ _ hne]
  | wakeWorker w hpc => exact hc

/-- Nor does a worker that has its job. -/
theorem worker_unharmed (h : Reaches (step calls) (initial calls : State ι W) s)
    (hctx : 0x8000 ≤ (calls j).tmpl.ctx.length) (w : Fin W) (p : Nat) :
    (s.worker w).pc ≠ .panicked j p := by
  refine h.invariant (I := fun s => ∀ w p, (s.worker w).pc ≠ .panicked j p) nofun ?_ w p
  intro t a u ht hw _ hu
  have hwoken (v : Fin W) (p : Nat) : (t.notifyJob.worker v).pc ≠ .panicked j p := by
    obtain ⟨-, hp⟩ | ⟨-, hp⟩ := t.notifyJob_pc v
    · rw [hp]
      nofun
    · rw [hp]
      exact hw v p
  have hmoved (w : Fin W) (x : Worker ι) (hx : ∀ p, x.pc ≠ .panicked j p) :
      ∀ v p, (Function.update t.worker w x v).pc ≠ .panicked j p :=
    all_updated (P := fun pc => ∀ p, pc ≠ .panicked j p) hx hw
  cases step_move hu with
  | caller c u hm =>
    cases hm with
    | notify _ => exact hwoken
    | _ => exact hw
  | worker w u hm =>
    cases hm with
    | panic i q hpc hws =>
      refine hmoved w _ fun p hp => ?_
      cases hp
      exact pair_decrypts ht hctx hpc hws
    | _ => exact hmoved w _ fun p hp => by cases hp
  | drop u hm =>
    cases hm with
    | notify _ => exact hwoken
    | _ => exact hw
  | wakeCaller c hpc => exact hw
  | wakeWorker w hpc => exact hmoved w _ fun p hp => by cases hp

end Jobs

end Temari.PoolRest
