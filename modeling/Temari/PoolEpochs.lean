import Temari.PoolWork
import Temari.NumberedSlot

/-! The epochs of the jobs. A worker counts its pick-ups in my_epoch and compares the count with
the epoch in the slot, so it lags behind by the jobs it has missed; it never gets ahead, and it
parks only when it has picked up what is in the slot. -/
namespace Temari.PoolEpochs
open RoundMachine Rounds Pool PoolMoves PoolWork Transition NumberedSlot
variable {ι : Type} [DecidableEq ι] {W : Nat} {calls : ι → Call} {s s' : State ι W}

section Locks
variable {c : ι} {w : Fin W} {x y : Holder ι W}

/-- The call is between taking run_lock and dropping it. -/
def inRun : CallerPc → Bool
  | .idle | .wantRunLock | .returned | .bypassed | .panicked => false
  | _ => true

/-- Whoever is inside run has run_lock. -/
def Serial (s : State ι W) : Prop := ∀ c, inRun (s.caller c) = true → s.runLock = some c

theorem Serial.setCaller (h : Serial s) {pc : CallerPc}
    (hpc : inRun pc = true → inRun (s.caller c) = true) : Serial (s.setCaller c pc) := by
  intro d hd
  by_cases hdc : d = c
  · subst hdc
    rw [State.setCaller_self] at hd
    exact h d (hpc hd)
  · rw [State.setCaller_ne _ _ hdc] at hd
    exact h d hd

theorem Serial.caller (h : Serial s) (hm : CallerMove calls s c s') : Serial s' := by
  cases hm with
  | lockRun hpc hfree =>
    intro d hd
    by_cases hdc : d = c
    · rw [hdc]
      rfl
    · cases (h d ((congrArg inRun (State.setCaller_ne _ _ hdc)).symm.trans hd)).symm.trans hfree
  | finish hpc =>
    intro d hd
    by_cases hdc : d = c
    · subst hdc
      cases (congrArg inRun (State.setCaller_self _ _)).symm.trans hd
    · have hd' := h d ((congrArg inRun (State.setCaller_ne _ _ hdc)).symm.trans hd)
      cases hd'.symm.trans (h c (by rw [hpc]; rfl))
      exact absurd rfl hdc
  | empty hpc _ | panic hpc | enter hpc _ | alone _ hpc _ _ => exact Serial.setCaller h nofun
  | lockDone hpc _ =>
    refine Serial.setCaller h fun _ => ?_
    obtain hpc | hpc := hpc <;> rw [hpc] <;> rfl
  | create hpc | lockJob _ hpc _ | publish _ hpc | notify hpc | seeFinished hpc _
  | seeUnfinished hpc _ | park hpc | leave hpc =>
    exact Serial.setCaller h fun _ => by rw [hpc]; rfl

omit [DecidableEq ι] in
theorem Serial.notifyDone (h : Serial s) : Serial s.notifyDone := by
  intro c hc
  obtain ⟨hpark, -⟩ | ⟨-, hp⟩ := s.notifyDone_caller c
  · exact h c (by rw [hpark]; rfl)
  · rw [hp] at hc
    exact h c hc

theorem reached_serial (h : Reaches (step calls) (initial calls : State ι W) s) : Serial s := by
  refine h.invariant (I := Serial) nofun ?_
  intro t a u _ ht _ hu
  cases step_move hu with
  | caller c u hm => exact ht.caller hm
  | worker w u hm =>
    cases hm with
    | notify _ _ => exact ht.notifyDone
    | _ => exact ht
  | drop u hm => cases hm <;> exact ht
  | wakeCaller c hpc => exact ht.setCaller fun _ => by rw [hpc]; rfl
  | wakeWorker w hpc => exact ht

def callerHolds : CallerPc → Bool
  | .holdJobMutex _ => true
  | _ => false

def workerHolds : WorkerPc ι → Bool
  | .holdJob | .checkShutdown | .aboutPark => true
  | _ => false

/-- The thread has the job mutex. -/
def holds (s : State ι W) : Holder ι W → Bool
  | .caller c => callerHolds (s.caller c)
  | .worker w => workerHolds (s.worker w).pc

/-- At most one thread has the job mutex. -/
def Exclusive (s : State ι W) : Prop := ∀ x, holds s x = true → s.jobMutex = some x

theorem holds_setCaller {pc : CallerPc} (hx : holds (s.setCaller c pc) x = true) :
    x = .caller c ∧ callerHolds pc = true ∨ x ≠ .caller c ∧ holds s x = true := by
  cases x with
  | caller d =>
    by_cases hdc : d = c
    · subst hdc
      exact Or.inl ⟨rfl, (congrArg callerHolds (State.setCaller_self _ _)).symm.trans hx⟩
    · exact Or.inr ⟨fun heq => hdc (by cases heq; rfl),
        (congrArg callerHolds (State.setCaller_ne _ _ hdc)).symm.trans hx⟩
  | worker w => exact Or.inr ⟨nofun, hx⟩

omit [DecidableEq ι] in
theorem holds_setPc {pc : WorkerPc ι} (hx : holds (s.setPc w pc) x = true) :
    x = .worker w ∧ workerHolds pc = true ∨ x ≠ .worker w ∧ holds s x = true := by
  cases x with
  | caller c => exact Or.inr ⟨nofun, hx⟩
  | worker v =>
    by_cases hvw : v = w
    · subst hvw
      exact Or.inl ⟨rfl, (congrArg workerHolds (State.setPc_self _ _)).symm.trans hx⟩
    · exact Or.inr ⟨fun heq => hvw (by cases heq; rfl),
        (congrArg (fun a => workerHolds (Worker.pc a)) (State.setPc_ne _ _ hvw)).symm.trans hx⟩

theorem holds_notifyJob (hx : holds s.notifyJob x = true) : holds s x = true := by
  cases x with
  | caller c => exact hx
  | worker w =>
    obtain ⟨-, hp⟩ | ⟨-, hp⟩ := s.notifyJob_pc w
    · cases (congrArg workerHolds hp).symm.trans hx
    · exact (congrArg workerHolds hp).symm.trans hx

omit [DecidableEq ι] in
theorem holds_notifyDone (hx : holds s.notifyDone x = true) : holds s x = true := by
  cases x with
  | caller c =>
    obtain ⟨-, hp⟩ | ⟨-, hp⟩ := s.notifyDone_caller c
    · cases (congrArg callerHolds hp).symm.trans hx
    · exact (congrArg callerHolds hp).symm.trans hx
  | worker w => exact hx

theorem Exclusive.setCaller (h : Exclusive s) {pc : CallerPc} (hpc : callerHolds pc = false) :
    Exclusive (s.setCaller c pc) := by
  intro x hx
  obtain ⟨-, hheld⟩ | ⟨-, hold⟩ := holds_setCaller hx
  · cases hpc.symm.trans hheld
  · exact h x hold

omit [DecidableEq ι] in
theorem Exclusive.setPc (h : Exclusive s) {pc : WorkerPc ι}
    (hpc : workerHolds pc = true → workerHolds (s.worker w).pc = true) :
    Exclusive (s.setPc w pc) := by
  intro x hx
  obtain ⟨rfl, hheld⟩ | ⟨-, hold⟩ := holds_setPc hx
  · exact h (.worker w) (hpc hheld)
  · exact h x hold

omit [DecidableEq ι] in
/-- The mutex was free, so nobody else has it. -/
theorem Exclusive.take (h : Exclusive s) (hfree : s.jobMutex = none) (hmutex : s'.jobMutex = some y)
    (hx : ∀ x, holds s' x = true → x = y ∨ holds s x = true) : Exclusive s' := by
  intro x hx'
  obtain rfl | hold := hx x hx'
  · exact hmutex
  · cases (h x hold).symm.trans hfree

omit [DecidableEq ι] in
/-- Only its holder releases the mutex. -/
theorem Exclusive.leave (h : Exclusive s) (hy : holds s y = true)
    (hx : ∀ x, holds s' x = true → x ≠ y ∧ holds s x = true) : Exclusive s' := by
  intro x hx'
  obtain ⟨hne, hold⟩ := hx x hx'
  cases (h x hold).symm.trans (h y hy)
  exact absurd rfl hne

theorem Exclusive.caller (h : Exclusive s) (hm : CallerMove calls s c s') : Exclusive s' := by
  cases hm with
  | lockJob e hpc hfree =>
    refine h.take (y := .caller c) hfree rfl fun x hx => ?_
    obtain ⟨rfl, -⟩ | ⟨-, hold⟩ := holds_setCaller hx
    · exact Or.inl rfl
    · exact Or.inr hold
  | publish e hpc =>
    refine h.leave (y := .caller c) ?_ fun x hx => ?_
    · simp only [holds, hpc]
      rfl
    · obtain ⟨-, hheld⟩ | hold := holds_setCaller hx
      · cases hheld
      · exact hold
  | notify hpc =>
    have hbase : Exclusive s.notifyJob := fun x hx => h x (holds_notifyJob hx)
    exact hbase.setCaller rfl
  | _ => exact Exclusive.setCaller (fun x hx => h x hx) rfl

omit [DecidableEq ι] in
theorem Exclusive.release (h : Exclusive s) {pc : WorkerPc ι}
    (hold : workerHolds (s.worker w).pc = true) (hpc : workerHolds pc = false) :
    Exclusive ({ s with jobMutex := none }.setPc w pc) := by
  refine h.leave (y := .worker w) hold fun x hx => ?_
  obtain ⟨-, hheld⟩ | hother := holds_setPc hx
  · cases hpc.symm.trans hheld
  · exact hother

theorem Exclusive.worker (h : Exclusive s) (hm : WorkerMove calls s w s') : Exclusive s' := by
  cases hm with
  | lock hpc hfree =>
    refine h.take (y := .worker w) hfree rfl fun x hx => ?_
    obtain ⟨rfl, -⟩ | ⟨-, hold⟩ := holds_setPc hx
    · exact Or.inl rfl
    · exact Or.inr hold
  | pick j e hpc hslot hne =>
    have hrel : Exclusive ({ s with jobMutex := none }.setPc w (.claim j)) :=
      h.release (by rw [hpc]; rfl) rfl
    refine fun x hx => hrel x ?_
    cases x with
    | caller c => exact hx
    | worker v =>
      by_cases hvw : v = w
      · subst hvw
        simp [holds, workerHolds] at hx
      · simpa [holds, State.setPc, hvw] using hx
  | exit hpc _ | park hpc => exact h.release (by rw [hpc]; rfl) rfl
  | nothingNew hpc _ | stay hpc _ => exact h.setPc fun _ => by rw [hpc]; rfl
  | notify j hpc =>
    have hbase : Exclusive s.notifyDone := fun x hx => h x (holds_notifyDone hx)
    exact hbase.setPc fun hp => by cases hp
  | _ => exact Exclusive.setPc (fun x hx => h x hx) fun hp => by cases hp

theorem reached_exclusive (h : Reaches (step calls) (initial calls : State ι W) s) :
    Exclusive s := by
  refine h.invariant (I := Exclusive) ?_ ?_
  · rintro (c | w) hx <;> cases hx
  · intro t a u _ ht _ hu
    cases step_move hu with
    | caller c u hm => exact ht.caller hm
    | worker w u hm => exact ht.worker hm
    | drop u hm =>
      cases hm with
      | notify _ => exact fun x hx => ht x (holds_notifyJob hx)
      | _ => exact ht
    | wakeCaller c hpc => exact ht.setCaller rfl
    | wakeWorker w hpc => exact ht.setPc nofun

end Locks

section Epochs
variable {b : Board (ι × Nat) (Fin W)} {c : ι} {w : Fin W} {j : ι} {e : Nat}

/-- The publications and pick-ups, with the epochs. -/
def observe (s : State ι W) : Action ι W → Board (ι × Nat) (Fin W) → Board (ι × Nat) (Fin W)
  | .caller c, b =>
    match s.caller c with
    | .holdJobMutex e => b.publish (c, e)
    | _ => b
  | .worker w, b =>
    match (s.worker w).pc, s.job with
    | .holdJob, some (j, e) => if e ≠ (s.worker w).myEpoch then b.pick w (j, e) else b
    | _, _ => b
  | _, b => b

/-- The epoch a caller has drawn and not yet published. -/
def drawnOf : CallerPc → Option Nat
  | .gotEpoch e | .holdJobMutex e => some e
  | _ => none

/-- Past the comparison of the epochs, with the job mutex still held. -/
def compared : WorkerPc ι → Bool
  | .checkShutdown | .aboutPark => true
  | _ => false

/-- The pool's slot and counts are those of the board, and the k-th publication has epoch k. -/
structure Posted (s : State ι W) (b : Board (ι × Nat) (Fin W)) : Prop where
  numbered : b.published.map Prod.snd = List.range' 1 b.published.length
  slot : s.job = b.slot
  drawn : ∀ c e, drawnOf (s.caller c) = some e → s.epoch = b.published.length + 1 ∧ e = s.epoch
  settled : (∀ c, drawnOf (s.caller c) = none) → s.epoch = b.published.length
  count : ∀ w, (s.worker w).myEpoch = (b.picked w).length
  compared : ∀ w, compared (s.worker w).pc = true → (s.worker w).myEpoch = b.published.length

omit [DecidableEq ι] in
/-- What a step does elsewhere. -/
theorem Posted.keep (h : Posted s b) (hjob : s'.job = s.job) (hepoch : s'.epoch = s.epoch)
    (hcaller : ∀ c, drawnOf (s'.caller c) = drawnOf (s.caller c))
    (hcount : ∀ w, (s'.worker w).myEpoch = (s.worker w).myEpoch)
    (hpc : ∀ w, PoolEpochs.compared (s'.worker w).pc = true →
      PoolEpochs.compared (s.worker w).pc = true) : Posted s' b where
  numbered := h.numbered
  slot := hjob.trans h.slot
  drawn c e he := hepoch ▸ h.drawn c e ((hcaller c).symm.trans he)
  settled hnone := hepoch.trans (h.settled fun c => (hcaller c).symm.trans (hnone c))
  count w := (hcount w).trans (h.count w)
  compared w hw := (hcount w).trans (h.compared w (hpc w hw))

omit [DecidableEq ι] in
theorem posted_start (calls : ι → Call) : Posted (initial calls : State ι W) Board.start where
  numbered := rfl
  slot := rfl
  drawn := nofun
  settled _ := rfl
  count _ := rfl
  compared := nofun

theorem drawnOf_setCaller {pc : CallerPc} (hpc : drawnOf pc = drawnOf (s.caller c)) (d : ι) :
    drawnOf ((s.setCaller c pc).caller d) = drawnOf (s.caller d) := by
  by_cases hdc : d = c
  · subst hdc
    rw [State.setCaller_self, hpc]
  · rw [State.setCaller_ne _ _ hdc]

theorem Posted.setCaller (h : Posted s b) {pc : CallerPc}
    (hpc : drawnOf pc = drawnOf (s.caller c)) : Posted (s.setCaller c pc) b :=
  h.keep rfl rfl (drawnOf_setCaller hpc) (fun _ => rfl) fun _ hw => hw

omit [DecidableEq ι] in
theorem myEpoch_setPc (s : State ι W) (w v : Fin W) (pc : WorkerPc ι) :
    ((s.setPc w pc).worker v).myEpoch = (s.worker v).myEpoch := by
  by_cases hvw : v = w
  · subst hvw
    simp [State.setPc]
  · rw [State.setPc_ne _ _ hvw]

omit [DecidableEq ι] in
theorem compared_setPc {v : Fin W} {pc : WorkerPc ι} (hpc : compared pc = false)
    (hv : compared ((s.setPc w pc).worker v).pc = true) : compared (s.worker v).pc = true := by
  by_cases hvw : v = w
  · subst hvw
    rw [State.setPc_self] at hv
    cases hpc.symm.trans hv
  · rwa [State.setPc_ne _ _ hvw] at hv

omit [DecidableEq ι] in
theorem Posted.setPc (h : Posted s b) {pc : WorkerPc ι}
    (hpc : PoolEpochs.compared pc = true → (s.worker w).myEpoch = b.published.length) :
    Posted (s.setPc w pc) b where
  numbered := h.numbered
  slot := h.slot
  drawn := h.drawn
  settled := h.settled
  count v := by
    rw [myEpoch_setPc]
    exact h.count v
  compared v hv := by
    rw [myEpoch_setPc]
    by_cases hvw : v = w
    · subst hvw
      rw [State.setPc_self] at hv
      exact hpc hv
    · rw [State.setPc_ne _ _ hvw] at hv
      exact h.compared v hv

theorem Posted.notifyJob (h : Posted s b) : Posted s.notifyJob b := by
  refine h.keep rfl rfl (fun _ => rfl) (fun w => ?_) fun w hw => ?_
  · simp only [State.notifyJob]
    split <;> rfl
  · obtain ⟨-, hp⟩ | ⟨-, hp⟩ := s.notifyJob_pc w
    · rw [hp] at hw
      cases hw
    · rwa [hp] at hw

omit [DecidableEq ι] in
theorem Posted.notifyDone (h : Posted s b) : Posted s.notifyDone b := by
  refine h.keep rfl rfl (fun c => ?_) (fun _ => rfl) fun _ hw => hw
  obtain ⟨hpark, hp⟩ | ⟨-, hp⟩ := s.notifyDone_caller c
  · rw [hp, hpark]
    rfl
  · rw [hp]

omit [DecidableEq ι] in
/-- The epoch in the slot is the number of publications. -/
theorem Posted.slot_epoch (h : Posted s b) (hslot : s.job = some (j, e)) :
    e = b.published.length := by
  have hlast : b.published.getLast? = some (j, e) := h.slot.symm.trans hslot
  have he : (b.published.map Prod.snd).getLast? = some e := by rw [List.getLast?_map, hlast]; rfl
  rw [h.numbered, List.getLast?_range'] at he
  split at he
  next => cases he
  next hne =>
    cases he
    omega

theorem Posted.create (h : Posted s b) (hserial : Serial s) (hpc : s.caller c = .locked) :
    Posted (({ s with epoch := s.epoch + 1 }.setJob c (freshJob (calls c))).setCaller c
      (.gotEpoch (s.epoch + 1))) b := by
  -- nobody else is inside run
  have hnone (d : ι) : drawnOf (s.caller d) = none := by
    by_contra hd
    have hin : inRun (s.caller d) = true := by cases hd' : s.caller d <;> simp_all [drawnOf, inRun]
    cases (hserial c (by rw [hpc]; rfl)).symm.trans (hserial d hin)
    exact hd (by rw [hpc]; rfl)
  refine ⟨h.numbered, h.slot, fun d e he => ?_, fun hall => ?_, h.count, h.compared⟩
  · by_cases hdc : d = c
    · subst hdc
      cases (congrArg drawnOf (State.setCaller_self _ _)).symm.trans he
      exact ⟨congrArg Nat.succ (h.settled hnone), rfl⟩
    · cases ((congrArg drawnOf (State.setCaller_ne _ _ hdc)).symm.trans he).symm.trans (hnone d)
  · cases (congrArg drawnOf (State.setCaller_self _ _)).symm.trans (hall c)

theorem Posted.publish (h : Posted s b) (hserial : Serial s) (hexclusive : Exclusive s)
    (hpc : s.caller c = .holdJobMutex e) : Posted
      ({ s with job := some (c, e), jobMutex := none }.setCaller c .published)
      (b.publish (c, e)) := by
  obtain ⟨hepoch, he⟩ := h.drawn c e (by rw [hpc]; rfl)
  have hlen : (b.publish (c, e)).published.length = b.published.length + 1 := List.length_append
  have hmutex : s.jobMutex = some (.caller c) :=
    hexclusive (.caller c) (by simp only [holds, hpc, callerHolds])
  refine ⟨?_, ?_, fun d f hd => ?_, fun _ => hepoch.trans hlen.symm, h.count, fun w hw => ?_⟩
  · rw [hlen, List.range'_1_concat, ← h.numbered, Board.publish, List.map_append,
      List.map_singleton]
    congr 2
    omega
  · rw [Board.slot, Board.publish, List.getLast?_concat]
    rfl
  · by_cases hdc : d = c
    · subst hdc
      cases (congrArg drawnOf (State.setCaller_self _ _)).symm.trans hd
    · have hdrawn : drawnOf (s.caller d) = some f :=
        (congrArg drawnOf (State.setCaller_ne _ _ hdc)).symm.trans hd
      have hin : inRun (s.caller d) = true := by
        cases hd' : s.caller d <;> simp_all [drawnOf, inRun]
      cases (hserial c (by rw [hpc]; rfl)).symm.trans (hserial d hin)
      exact absurd rfl hdc
  · -- a worker past its comparison has the mutex, which the caller has
    have hw' : PoolEpochs.compared (s.worker w).pc = true := hw
    have hheld : holds s (.worker w) = true := by
      cases hwpc : (s.worker w).pc <;> simp_all [holds, workerHolds, PoolEpochs.compared]
    cases hmutex.symm.trans (hexclusive _ hheld)

theorem Posted.caller (h : Posted s b) (hserial : Serial s) (hexclusive : Exclusive s)
    (hm : CallerMove calls s c s') : Posted s' (observe s (.caller c) b) := by
  cases hm with
  | create hpc =>
    simp only [observe, hpc]
    exact h.create hserial hpc
  | publish e hpc =>
    simp only [observe, hpc]
    exact h.publish hserial hexclusive hpc
  | notify hpc =>
    simp only [observe, hpc]
    refine Posted.setCaller h.notifyJob ?_
    exact (congrArg drawnOf hpc).symm
  | lockDone hpc _ =>
    obtain hpc | hpc := hpc <;> simp only [observe, hpc]
    all_goals
      exact h.keep rfl rfl (drawnOf_setCaller (congrArg drawnOf hpc).symm) (fun _ => rfl)
        fun _ hw => hw
  | empty hpc _ | panic hpc | enter hpc _ | alone _ hpc _ _ | lockRun hpc _ | lockJob _ hpc _
  | seeFinished hpc _ | seeUnfinished hpc _ | park hpc | leave hpc | finish hpc =>
    simp only [observe, hpc]
    exact h.keep rfl rfl (drawnOf_setCaller (congrArg drawnOf hpc).symm) (fun _ => rfl)
      fun _ hw => hw

omit [DecidableEq ι] in
/-- A worker whose comparison finds nothing new has taken as many jobs as were published. -/
theorem Posted.level (h : Posted s b) (hbehind : Behind b)
    (hold : ∀ j e, s.job = some (j, e) → e = (s.worker w).myEpoch) :
    (s.worker w).myEpoch = b.published.length := by
  cases hslot : s.job with
  | some x =>
    obtain ⟨j, e⟩ := x
    exact (hold j e hslot).symm.trans (h.slot_epoch hslot)
  | none =>
    have hempty : b.published = [] := List.getLast?_eq_none_iff.mp (h.slot.symm.trans hslot)
    have hle := hbehind.le w
    rw [← h.count w, hempty] at hle
    rw [hempty]
    exact Nat.le_zero.mp hle

omit [DecidableEq ι] in
theorem Posted.pick (h : Posted s b) (j : ι) (e : Nat) : Posted { s with
    jobMutex := none
    worker := Function.update s.worker w { myEpoch := (s.worker w).myEpoch + 1, pc := .claim j } }
    (b.pick w (j, e)) where
  numbered := h.numbered
  slot := h.slot
  drawn := h.drawn
  settled := h.settled
  count v := by
    by_cases hvw : v = w
    · subst hvw
      simp [Board.pick, h.count v]
    · simp [Board.pick, hvw, h.count v]
  compared v hv := by
    by_cases hvw : v = w
    · subst hvw
      simp [PoolEpochs.compared] at hv
    · simp only [Function.update_of_ne hvw] at hv ⊢
      exact h.compared v hv

theorem Posted.worker (h : Posted s b) (hbehind : Behind b) (hm : WorkerMove calls s w s') :
    Posted s' (observe s (.worker w) b) := by
  cases hm with
  | pick j e hpc hslot hne =>
    have hpick : observe s (.worker w) b = b.pick w (j, e) := by
      simp only [observe, hpc, hslot, if_pos hne]
    rw [hpick]
    exact h.pick j e
  | nothingNew hpc hold =>
    have hsame : observe s (.worker w) b = b := by
      simp only [observe, hpc]
      split
      next i e _ hslot => rw [if_neg (not_not.mpr (hold i e hslot))]
      next => rfl
    rw [hsame]
    exact h.setPc fun _ => h.level hbehind hold
  | stay hpc _ =>
    simp only [observe, hpc]
    exact h.setPc fun _ => h.compared w (by rw [hpc]; rfl)
  | notify j hpc =>
    simp only [observe, hpc]
    exact h.notifyDone.setPc nofun
  | lock hpc _ | exit hpc _ | park hpc | overrun j hpc _ | claim j hpc _ | load j p hpc
  | decrypt j p ws hpc _ | panic j p hpc _ | retireLast j p hpc _ | retire j p hpc _
  | store j hpc =>
    simp only [observe, hpc]
    exact h.keep rfl rfl (fun _ => rfl) (fun v => myEpoch_setPc _ w v _) fun _ => compared_setPc rfl

omit [DecidableEq ι] in
/-- The pool refines the board. -/
theorem observe_step (h : Posted s b) (a : Action ι W) :
    observe s a b = b ∨ Step b (observe s a b) := by
  cases a with
  | caller c =>
    simp only [observe]
    split
    · exact Or.inr (.publish _)
    · exact Or.inl rfl
  | worker w =>
    simp only [observe]
    split
    next j e hpc hslot =>
      split
      next hne =>
        refine Or.inr (.pick w (j, e) (h.slot.symm.trans hslot) ?_)
        rwa [← h.count w, ← h.slot_epoch hslot, ne_comm]
      next => exact Or.inl rfl
    next => exact Or.inl rfl
  | _ => exact Or.inl rfl

/-- In every state reached the pool shows the board, and no worker is ahead of it. -/
theorem reached_posted {x : State ι W × Board (ι × Nat) (Fin W)}
    (h : Reaches (recorded observe (step calls)) (initial calls, Board.start) x) :
    Posted x.1 x.2 ∧ Behind x.2 := by
  refine h.invariant (I := fun x => Posted x.1 x.2 ∧ Behind x.2)
    ⟨posted_start calls, behind_start⟩ ?_
  rintro ⟨s, b⟩ a ⟨t, d⟩ hreach ⟨hp, hb⟩ - hu
  obtain ⟨hstep, rfl⟩ := recorded_eq_some hu
  have hs : Reaches (step calls) (initial calls) s := reaches_of_recorded hreach
  constructor
  · cases step_move hstep with
    | caller c t hm => exact hp.caller (reached_serial hs) (reached_exclusive hs) hm
    | worker w t hm => exact hp.worker hb hm
    | drop t hm =>
      cases hm with
      | notify _ => exact hp.notifyJob.keep rfl rfl (fun _ => rfl) (fun _ => rfl) fun _ hw => hw
      | _ => exact hp.keep rfl rfl (fun _ => rfl) (fun _ => rfl) fun _ hw => hw
    | wakeCaller c hpc => exact hp.setCaller (by rw [hpc]; rfl)
    | wakeWorker w hpc => exact hp.setPc nofun
  · change Behind (observe s a b)
    obtain heq | hs := observe_step hp a
    · rwa [heq]
    · exact hb.step hs

end Epochs

section CatchUp
variable {a : Action ι W} {w : Fin W} {j : ι} {e : Nat}

/-- Worker w has picked job j up another k times and found nothing left to claim. -/
def replayed (s : State ι W) (w : Fin W) (j : ι) (k : Nat) : State ι W :=
  { s with
    jobs := Function.update s.jobs j { s.jobs j with next := (s.jobs j).next + k }
    worker := Function.update s.worker w { myEpoch := (s.worker w).myEpoch + k, pc := .lockJob } }

theorem replayed_zero (hpc : (s.worker w).pc = .lockJob) : replayed s w j 0 = s := by
  have hworker : { myEpoch := (s.worker w).myEpoch, pc := .lockJob } = s.worker w :=
    congrArg (Worker.mk _) hpc.symm
  simp only [replayed, Nat.add_zero, hworker, Function.update_eq_self]

theorem replayed_succ (s : State ι W) (w : Fin W) (j : ι) (k : Nat) :
    replayed (replayed s w j k) w j 1 = replayed s w j (k + 1) := by
  simp [replayed, Nat.add_assoc]

/-- One round: lock, pick up, and leave with nothing. -/
theorem round_replays (hslot : s.job = some (j, e)) (hfree : s.jobMutex = none)
    (hpc : (s.worker w).pc = .lockJob) (hne : e ≠ (s.worker w).myEpoch)
    (hspent : (calls j).pairs ≤ (s.jobs j).next) :
    run (step calls) s (.replicate 3 (.worker w)) = some (replayed s w j 1) := by
  simp [run, List.replicate, step, workerStep, hpc, hfree, hslot, hne, hspent, State.setPc,
    State.setJob, replayed]

/-- Left alone, a worker that lags picks the finished job up until its count is level. -/
theorem rounds_replay (hslot : s.job = some (j, e)) (hfree : s.jobMutex = none)
    (hpc : (s.worker w).pc = .lockJob) (hspent : (calls j).pairs ≤ (s.jobs j).next) (k : Nat)
    (hk : (s.worker w).myEpoch + k ≤ e) :
    run (step calls) s (.replicate (3 * k) (.worker w)) = some (replayed s w j k) := by
  induction k with
  | zero => rw [replayed_zero hpc]; rfl
  | succ k ih =>
    have hrun := ih (by omega)
    have hround : run (step calls) (replayed s w j k) (.replicate 3 (.worker w)) =
        some (replayed (replayed s w j k) w j 1) := by
      refine round_replays (e := e) hslot hfree ?_ ?_ ?_
      · simp [replayed]
      · simp only [replayed, Function.update_self]
        omega
      · simp only [replayed, Function.update_self]
        omega
    rw [Nat.mul_succ, List.replicate_add, run_append hrun, hround, replayed_succ]

/-- A worker gets parked by its own wait only, which it enters from under the mutex. -/
theorem parks_from (hm : Move calls s a s') (hpark : (s'.worker w).pc = .parked) :
    (s.worker w).pc = .parked ∨ (s.worker w).pc = .aboutPark ∧ s'.job = s.job := by
  have hmoved {t : State ι W} {v : Fin W} {pc : WorkerPc ι}
      (h : ((t.setPc v pc).worker w).pc = .parked) (ht : t.worker = s.worker) (hpc : pc ≠ .parked) :
      (s.worker w).pc = .parked := by
    obtain ⟨-, hp⟩ | ⟨-, hp⟩ := pc_updated h
    · exact absurd hp hpc
    · rwa [ht] at hp
  have hwoken (h : (s.notifyJob.worker w).pc = .parked) : (s.worker w).pc = .parked := by
    obtain ⟨-, hp⟩ | ⟨-, hp⟩ := s.notifyJob_pc w
    · cases hp.symm.trans h
    · exact hp.symm.trans h
  cases hm with
  | caller c s' hm =>
    cases hm with
    | notify _ => exact Or.inl (hwoken hpark)
    | _ => exact Or.inl hpark
  | worker v s' hm =>
    cases hm with
    | park hpc =>
      obtain ⟨rfl, -⟩ | ⟨-, hp⟩ := pc_updated hpark
      · exact Or.inr ⟨hpc, rfl⟩
      · exact Or.inl hp
    | pick j e hpc hslot hne =>
      obtain ⟨-, hp⟩ | ⟨-, hp⟩ := pc_updated hpark
      · cases hp
      · exact Or.inl hp
    | _ => exact Or.inl (hmoved hpark rfl fun hp => by cases hp)
  | drop s' hm =>
    cases hm with
    | notify _ => exact Or.inl (hwoken hpark)
    | _ => exact Or.inl hpark
  | wakeCaller c hpc => exact Or.inl hpark
  | wakeWorker v hpc => exact Or.inl (hmoved hpark rfl fun hp => by cases hp)

end CatchUp

/-- The epoch in the slot, 0 while nothing is published. -/
def slotEpoch (s : State ι W) : Nat := (s.job.map Prod.snd).getD 0

omit [DecidableEq ι] in
theorem Posted.slotEpoch_eq {b : Board (ι × Nat) (Fin W)} (h : Posted s b) :
    slotEpoch s = b.published.length := by
  cases hslot : s.job with
  | some x =>
    obtain ⟨j, e⟩ := x
    rw [← h.slot_epoch hslot, slotEpoch, hslot]
    rfl
  | none =>
    have hempty : b.published = [] := List.getLast?_eq_none_iff.mp (h.slot.symm.trans hslot)
    rw [hempty, slotEpoch, hslot]
    rfl

/-- A worker is never ahead of the slot, is level with it only after picking up the job in it,
parks only when it is level, and catches up on finished jobs without claiming anything. -/
theorem no_job_missed (calls : ι → Call) (s : State ι W)
    (h : Reaches (step calls) (initial calls) s) :
    (∃ b, Reaches (recorded observe (step calls)) (initial calls, Board.start) (s, b)) ∧
    ∀ b, Reaches (recorded observe (step calls)) (initial calls, Board.start) (s, b) →
      b.published.map Prod.snd = List.range' 1 b.published.length ∧ s.job = b.slot ∧
      ∀ w, (s.worker w).myEpoch = (b.picked w).length ∧ (s.worker w).myEpoch ≤ slotEpoch s ∧
        ((s.worker w).myEpoch = slotEpoch s → (b.picked w).getLast? = s.job) ∧
        (compared (s.worker w).pc = true →
          s.jobMutex = some (.worker w) ∧ (b.picked w).getLast? = s.job) ∧
        (∀ a s', step calls s a = some s' → (s'.worker w).pc = .parked →
          (s.worker w).pc = .parked ∨ compared (s.worker w).pc = true ∧ s'.job = s.job) ∧
        (∀ j, (s.worker w).pc = .claim j → (s.jobs j).finished = true → step calls s (.worker w) =
          some ((s.setJob j { s.jobs j with next := (s.jobs j).next + 1 }).setPc w .lockJob)) ∧
        ∀ j e k, s.job = some (j, e) → (s.jobs j).finished = true → s.jobMutex = none →
          (s.worker w).pc = .lockJob → (s.worker w).myEpoch + k ≤ e →
          run (step calls) s (.replicate (3 * k) (.worker w)) = some (replayed s w j k) := by
  refine ⟨recorded_of_reaches h _, fun b hb => ?_⟩
  obtain ⟨hposted, hbehind⟩ := reached_posted hb
  have hspent (j : ι) (hf : (s.jobs j).finished = true) : (calls j).pairs ≤ (s.jobs j).next :=
    ((reached_inv h).2 j).all_claimed hf
  have hlevel (w : Fin W) (hw : (s.worker w).myEpoch = b.published.length) :
      (b.picked w).getLast? = s.job := by
    rw [hposted.slot]
    exact hbehind.level w ((hposted.count w).symm.trans hw)
  refine ⟨hposted.numbered, hposted.slot, fun w => ⟨hposted.count w, ?_, fun hw => ?_, fun hw => ?_,
    ?_, ?_, ?_⟩⟩
  · rw [hposted.slotEpoch_eq, hposted.count w]
    exact hbehind.le w
  · exact hlevel w (hw.trans hposted.slotEpoch_eq)
  · have hheld : holds s (.worker w) = true := by
      cases hpc : (s.worker w).pc <;> simp_all [holds, workerHolds, compared]
    exact ⟨reached_exclusive h _ hheld, hlevel w (hposted.compared w hw)⟩
  · intro a s' hstep hpark
    obtain hold | ⟨hpc, hjob⟩ := parks_from (step_move hstep) hpark
    · exact Or.inl hold
    · exact Or.inr ⟨by rw [hpc]; rfl, hjob⟩
  · intro j hpc hf
    simp only [step, workerStep, hpc, ge_iff_le, hspent j hf, if_true]
  · intro j e k hslot hf hfree hpc hk
    exact rounds_replay hslot hfree hpc (hspent j hf) k hk

/-- Two jobs go by while worker 0 sleeps. -/
theorem no_job_missed_two : ∃ s : State (Fin 2) 2, s.job = some (1, 2) ∧
    (s.worker 0).myEpoch = 0 ∧ run (step fun _ => twoBytes) s (.replicate 6 (.worker 0)) =
      some (replayed s 0 1 2) := by
  obtain ⟨s, hrun, hjob, hw, hpc, hf, hfree⟩ : ∃ s, run (step fun _ => twoBytes)
      (initial fun _ => twoBytes : State (Fin 2) 2)
      (.replicate 6 (.caller 0) ++ .replicate 9 (.worker 1) ++ .replicate 4 (.caller 0) ++
        .replicate 6 (.caller 1) ++ .replicate 9 (.worker 1)) = some s ∧ s.job = some (1, 2) ∧
        (s.worker 0).myEpoch = 0 ∧ (s.worker 0).pc = .lockJob ∧ (s.jobs 1).finished = true ∧
        s.jobMutex = none := ⟨_, rfl, rfl, rfl, rfl, rfl, rfl⟩
  obtain ⟨⟨b, hb⟩, hall⟩ := no_job_missed (fun _ => twoBytes) s (reaches_of_run hrun)
  obtain ⟨-, -, -, -, -, -, hcatch⟩ := (hall b hb).2.2 0
  exact ⟨s, hjob, hw, hcatch 1 2 2 hjob hf hfree hpc (by rw [hw])⟩

end Temari.PoolEpochs
