import Temari.PoolEpochs
import Temari.PoolSafety
import Mathlib.Algebra.BigOperators.Group.Finset.Piecewise
import Mathlib.Algebra.BigOperators.Group.Finset.Basic
import Mathlib.Algebra.Order.BigOperators.Group.Finset

/-! How much the pool has left to do: the steps of the calls inside, the pairs nobody has
claimed and the turns of the workers until they park. -/
namespace Temari.PoolTurns
open RoundMachine Rounds Pool PoolMoves PoolWork PoolSafety PoolEpochs Transition SharedWork
variable {ι : Type} [DecidableEq ι] {W : Nat} {calls : ι → Call} {s s' : State ι W} {c : ι}
  {w : Fin W} {F : Finset ι}

/-- Steps a call needs to return. Its notify wakes the workers, and its job puts them one
epoch behind. -/
def callerSteps (W : Nat) : CallerPc → Nat
  | .idle => 12 + 7 * W
  | .wantRunLock => 11 + 7 * W
  | .locked => 10 + 7 * W
  | .gotEpoch _ => 9 + 4 * W
  | .holdJobMutex _ => 8 + 4 * W
  | .published => 7 + 4 * W
  | .wantDone | .woken => 6
  | .holdDone => 5
  | .aboutPark => 4
  | .parked => 3
  | .leaving => 2
  | .unlocking => 1
  | .returned | .bypassed | .panicked => 0

/-- Steps a worker needs to park, where a notify may wake m calls. -/
def workerSteps (m : Nat) : WorkerPc ι → Nat
  | .claimed _ _ => 10 + 3 * m
  | .loaded _ _ => 9 + 3 * m
  | .decrypted _ _ => 8 + 3 * m
  | .mustStore _ => 7 + 3 * m
  | .mustNotify _ => 6 + 3 * m
  | .claim _ => 5
  | .lockJob => 4
  | .holdJob => 3
  | .checkShutdown => 2
  | .aboutPark => 1
  | .parked | .exited | .panicked _ _ => 0

def callersLeft (F : Finset ι) (s : State ι W) : Nat := ∑ c ∈ F, callerSteps W (s.caller c)

def pairsLeft (calls : ι → Call) (F : Finset ι) (s : State ι W) : Nat :=
  ∑ c ∈ F, ((calls c).pairs - (s.jobs c).next)

/-- A worker has three steps to do for each epoch it is behind. -/
def workersLeft (m : Nat) (s : State ι W) : Nat :=
  ∑ w, (workerSteps m (s.worker w).pc + 3 * (s.epoch - (s.worker w).myEpoch))

/-- The steps left to the calls of F and to the workers. -/
def turns (calls : ι → Call) (F : Finset ι) (s : State ι W) : Nat :=
  callersLeft F s + (6 + 3 * F.card) * pairsLeft calls F s + workersLeft F.card s

section Sums
variable {κ : Type} [DecidableEq κ]

theorem sum_update {G : Finset κ} {k : κ} (hk : k ∈ G) (f : κ → Nat) (x : Nat) :
    ∑ j ∈ G, Function.update f k x j + f k = ∑ j ∈ G, f j + x := by
  rw [Finset.sum_update_of_mem hk, ← Finset.sum_sdiff (Finset.singleton_subset_iff.mpr hk)]
  simp only [Finset.sum_singleton]
  omega

/-- The sum after the value at k has changed. -/
theorem sum_changed {G : Finset κ} {k : κ} (hk : k ∈ G) {f g : κ → Nat}
    (h : ∀ j, j ≠ k → g j = f j) : ∑ j ∈ G, g j + f k = ∑ j ∈ G, f j + g k := by
  have hg : g = Function.update f k (g k) := by
    funext j
    obtain rfl | hne := eq_or_ne j k
    · rw [Function.update_self]
    · rw [Function.update_of_ne hne, h j hne]
  have hsum := sum_update hk f (g k)
  rwa [← hg] at hsum

omit [DecidableEq κ] in
theorem sum_le_add (G : Finset κ) {f g : κ → Nat} {m : Nat} (h : ∀ j, g j ≤ f j + m) :
    ∑ j ∈ G, g j ≤ ∑ j ∈ G, f j + G.card * m := by
  rw [← Finset.sum_const_nat (fun _ _ => rfl : ∀ j ∈ G, (fun _ => m) j = m),
    ← Finset.sum_add_distrib]
  exact Finset.sum_le_sum fun j _ => h j

end Sums

section Parts
variable {m : Nat}

theorem callersLeft_setCaller (hc : c ∈ F) (pc : CallerPc) :
    callersLeft F (s.setCaller c pc) + callerSteps W (s.caller c) =
      callersLeft F s + callerSteps W pc := by
  have hsum := sum_changed hc (f := fun d => callerSteps W (s.caller d))
    (g := fun d => callerSteps W ((s.setCaller c pc).caller d))
    fun d hd => by rw [State.setCaller_ne _ _ hd]
  rwa [State.setCaller_self] at hsum

omit [DecidableEq ι] in
theorem callersLeft_notifyDone (F : Finset ι) (s : State ι W) :
    callersLeft F s.notifyDone ≤ callersLeft F s + F.card * 3 := by
  refine sum_le_add F fun c => ?_
  obtain ⟨hpark, hp⟩ | ⟨-, hp⟩ := s.notifyDone_caller c
  · rw [hp, hpark]
    exact Nat.le_refl _
  · rw [hp]
    exact Nat.le_add_right _ _

omit [DecidableEq ι] in
theorem workersLeft_setPc (pc : WorkerPc ι) :
    workersLeft m (s.setPc w pc) + workerSteps m (s.worker w).pc =
      workersLeft m s + workerSteps m pc := by
  have hsum := sum_changed (Finset.mem_univ w)
    (f := fun v => workerSteps m (s.worker v).pc + 3 * (s.epoch - (s.worker v).myEpoch))
    (g := fun v => workerSteps m ((s.setPc w pc).worker v).pc +
      3 * (s.epoch - ((s.setPc w pc).worker v).myEpoch))
    fun v hv => by rw [State.setPc_ne _ _ hv]
  rw [State.setPc_self, myEpoch_setPc] at hsum
  change ∑ v, (workerSteps m ((s.setPc w pc).worker v).pc +
    3 * (s.epoch - ((s.setPc w pc).worker v).myEpoch)) + _ = _
  rw [workersLeft]
  omega

theorem workersLeft_notifyJob (m : Nat) (s : State ι W) :
    workersLeft m s.notifyJob ≤ workersLeft m s + W * 4 := by
  have hcard : (Finset.univ : Finset (Fin W)).card * 4 = W * 4 := by rw [Finset.card_fin]
  rw [← hcard]
  refine sum_le_add Finset.univ fun v => ?_
  have hepoch : (s.notifyJob.worker v).myEpoch = (s.worker v).myEpoch := by
    simp only [State.notifyJob]
    split <;> rfl
  have hsame : s.notifyJob.epoch = s.epoch := rfl
  rw [hepoch, hsame]
  obtain ⟨hpark, hp⟩ | ⟨-, hp⟩ := s.notifyJob_pc v
  · rw [hp, hpark]
    simp only [workerSteps]
    omega
  · rw [hp]
    omega

omit [DecidableEq ι] in
theorem workersLeft_epoch (m : Nat) (s : State ι W) :
    workersLeft m { s with epoch := s.epoch + 1 } ≤ workersLeft m s + W * 3 := by
  have hcard : (Finset.univ : Finset (Fin W)).card * 3 = W * 3 := by rw [Finset.card_fin]
  rw [← hcard]
  refine sum_le_add Finset.univ fun v => ?_
  dsimp only
  omega

theorem pairsLeft_setJob {j : ι} (hj : j ∈ F) (job : Job) :
    pairsLeft calls F (s.setJob j job) + ((calls j).pairs - (s.jobs j).next) =
      pairsLeft calls F s + ((calls j).pairs - job.next) := by
  have hsum := sum_changed hj (f := fun d => (calls d).pairs - (s.jobs d).next)
    (g := fun d => (calls d).pairs - ((s.setJob j job).jobs d).next)
    fun d hd => by rw [State.setJob_ne _ _ hd]
  rwa [State.setJob_self] at hsum

/-- A job that is not behind where it was leaves no more pairs. -/
theorem pairsLeft_setJob_le {j : ι} {job : Job} (hjob : (s.jobs j).next ≤ job.next) :
    pairsLeft calls F (s.setJob j job) ≤ pairsLeft calls F s := by
  refine Finset.sum_le_sum fun d _ => ?_
  obtain rfl | hne := eq_or_ne d j
  · rw [State.setJob_self]
    omega
  · rw [State.setJob_ne _ _ hne]

end Parts

section Epochs
variable {b : NumberedSlot.Board (ι × Nat) (Fin W)}

omit [DecidableEq ι] in
theorem published_le (h : Posted s b) : b.published.length ≤ s.epoch := by
  by_cases hnone : ∀ c, drawnOf (s.caller c) = none
  · exact Nat.le_of_eq (h.settled hnone).symm
  · simp only [not_forall] at hnone
    obtain ⟨c, hc⟩ := hnone
    obtain ⟨e, he⟩ := Option.ne_none_iff_exists'.mp hc
    rw [(h.drawn c e he).1]
    exact Nat.le_succ _

/-- The publications and pick-ups of a state reached. -/
theorem reached_board (h : Reaches (step calls) (initial calls : State ι W) s) :
    ∃ b, Posted s b ∧ NumberedSlot.Behind b := by
  obtain ⟨b, hb⟩ : ∃ b, Reaches (recorded observe (step calls))
      (initial calls, NumberedSlot.Board.start) (s, b) := recorded_of_reaches h _
  exact ⟨b, reached_posted hb⟩

/-- A worker that finds something new is behind. -/
theorem behind_of_new (h : Reaches (step calls) (initial calls : State ι W) s) {j : ι} {e : Nat}
    (hslot : s.job = some (j, e)) (hne : e ≠ (s.worker w).myEpoch) :
    (s.worker w).myEpoch < s.epoch := by
  obtain ⟨b, hposted, hbehind⟩ := reached_board h
  have hle := hbehind.le w
  have hpub := published_le hposted
  rw [← hposted.count w] at hle
  rw [hposted.slot_epoch hslot] at hne
  omega

end Epochs

section Deltas

/-- The call has come to the pool and not returned. -/
def inside : CallerPc → Bool
  | .idle | .returned | .bypassed | .panicked => false
  | _ => true

/-- All calls inside are calls of F. -/
def Within (F : Finset ι) (s : State ι W) : Prop := ∀ c, inside (s.caller c) = true → c ∈ F

/-- A job with pairs to claim is that of a call inside. -/
theorem inside_of_unclaimed (h : Reaches (step calls) (initial calls : State ι W) s) {j : ι}
    (hpc : (s.worker w).pc = .claim j) (hp : (s.jobs j).next < (calls j).pairs) :
    inside (s.caller j) = true := by
  obtain ⟨hwiring, hinv⟩ := reached_inv h
  have hcreated := hwiring.refs w j (by rw [hpc]; rfl)
  have hunseen : seen (s.caller j) = false := by
    by_contra hseen
    have hall := (hinv j).all_claimed (seen_finished h (Bool.not_eq_false _ ▸ hseen))
    exact absurd hall (Nat.not_le.mpr hp)
  cases hc : s.caller j <;> simp_all [created, seen, inside]

/-- A call moves on, and what it did for the workers is paid out of its own steps. -/
theorem turns_setCaller {t : State ι W} {pc : CallerPc} {k : Nat} (hc : c ∈ F)
    (hcaller : t.caller = s.caller) (hpairs : pairsLeft calls F t ≤ pairsLeft calls F s)
    (hworkers : workersLeft F.card t ≤ workersLeft F.card s + k)
    (hpc : callerSteps W pc + k < callerSteps W (s.caller c)) :
    turns calls F (t.setCaller c pc) < turns calls F s := by
  have hcallers := callersLeft_setCaller (s := t) hc pc
  have hsame : callersLeft F t = callersLeft F s := by rw [callersLeft, hcaller, callersLeft]
  have hmul := Nat.mul_le_mul_left (6 + 3 * F.card) hpairs
  rw [hcaller, hsame] at hcallers
  change callersLeft F (t.setCaller c pc) + (6 + 3 * F.card) * pairsLeft calls F t +
    workersLeft F.card t < turns calls F s
  rw [turns]
  omega

/-- A step of a call of F is paid for. -/
theorem turns_caller (hc : c ∈ F) (hwiring : Wiring calls s) (hm : CallerMove calls s c s') :
    turns calls F s' < turns calls F s := by
  cases hm with
  | create hpc =>
    -- the job is as it was made, and every worker falls behind by one
    have hfresh := (hwiring.fresh c (by rw [hpc]; rfl)).1
    have hjob : (s.jobs c).next ≤ (freshJob (calls c)).next := by rw [hfresh]
    refine turns_setCaller hc rfl (pairsLeft_setJob_le hjob) (workersLeft_epoch _ s) ?_
    simp only [hpc, callerSteps]
    omega
  | notify hpc =>
    refine turns_setCaller hc rfl (Nat.le_refl _) (workersLeft_notifyJob _ s) ?_
    simp only [hpc, callerSteps]
    omega
  | lockDone hpc hfree =>
    refine turns_setCaller (k := 0) hc rfl (Nat.le_refl _) (Nat.le_refl _) ?_
    obtain hpc | hpc := hpc <;> rw [hpc] <;> exact Nat.lt_succ_self 5
  | empty hpc _ | alone _ hpc _ _ | panic hpc | enter hpc _ | lockRun hpc _ | lockJob _ hpc _
  | publish _ hpc | seeFinished hpc _ | seeUnfinished hpc _ | park hpc | leave hpc | finish hpc =>
    refine turns_setCaller (k := 0) hc rfl (Nat.le_refl _) (Nat.le_refl _) ?_
    simp only [hpc, callerSteps]
    omega

omit [DecidableEq ι] in
/-- A worker moves on; the calls it wakes and the pair it takes are paid for. -/
theorem turns_setPc {t : State ι W} {pc : WorkerPc ι} {k l : Nat} (hworker : t.worker = s.worker)
    (hepoch : t.epoch = s.epoch) (hcallers : callersLeft F t ≤ callersLeft F s + k)
    (hpairs : pairsLeft calls F t + l ≤ pairsLeft calls F s)
    (hpc : workerSteps F.card pc + k < workerSteps F.card (s.worker w).pc + (6 + 3 * F.card) * l) :
    turns calls F (t.setPc w pc) < turns calls F s := by
  have hworkers := workersLeft_setPc (m := F.card) (s := t) (w := w) pc
  have hsame : workersLeft F.card t = workersLeft F.card s := by
    rw [workersLeft, hworker, hepoch, workersLeft]
  have hmul := Nat.mul_le_mul_left (6 + 3 * F.card) hpairs
  rw [Nat.mul_add] at hmul
  rw [hworker, hsame] at hworkers
  change callersLeft F t + (6 + 3 * F.card) * pairsLeft calls F t +
    workersLeft F.card (t.setPc w pc) < turns calls F s
  rw [turns]
  omega

/-- A worker's step is paid for, also where it picks a job up again. -/
theorem turns_worker (h : Reaches (step calls) (initial calls : State ι W) s) (hF : Within F s)
    (hm : WorkerMove calls s w s') : turns calls F s' < turns calls F s := by
  cases hm with
  | pick j e hpc hslot hne =>
    have hbehind := behind_of_new h hslot hne
    have hsum := sum_changed (Finset.mem_univ w)
      (f := fun v => workerSteps F.card (s.worker v).pc + 3 * (s.epoch - (s.worker v).myEpoch))
      (g := fun v => workerSteps F.card (Function.update s.worker w
          ⟨(s.worker w).myEpoch + 1, .claim j⟩ v).pc +
        3 * (s.epoch - (Function.update s.worker w
          ⟨(s.worker w).myEpoch + 1, .claim j⟩ v).myEpoch))
      fun v hv => by rw [Function.update_of_ne hv]
    have hold : workerSteps F.card (s.worker w).pc = 3 := by rw [hpc]; rfl
    have hnew : workerSteps F.card (.claim j : WorkerPc ι) = 5 := rfl
    simp only [Function.update_self, hold, hnew] at hsum
    simp only [turns, workersLeft, callersLeft, pairsLeft]
    omega
  | claim j hpc hp =>
    have hj := hF j (inside_of_unclaimed h hpc hp)
    have hpairs : pairsLeft calls F _ + ((calls j).pairs - (s.jobs j).next) =
        pairsLeft calls F s + ((calls j).pairs - ((s.jobs j).next + 1)) :=
      pairsLeft_setJob hj { s.jobs j with next := (s.jobs j).next + 1 }
    refine turns_setPc (k := 0) (l := 1) rfl rfl (Nat.le_refl _) (by omega) ?_
    simp only [hpc, workerSteps]
    omega
  | notify j hpc =>
    refine turns_setPc (l := 0) rfl rfl (callersLeft_notifyDone F s) (Nat.le_refl _) ?_
    simp only [hpc, workerSteps]
    omega
  | overrun j hpc _ =>
    refine turns_setPc (k := 0) (l := 0) rfl rfl (Nat.le_refl _) (pairsLeft_setJob_le ?_) ?_
    · exact Nat.le_succ _
    · simp only [hpc, workerSteps]
      omega
  | retireLast j _ hpc _ | retire j _ hpc _ | store j hpc =>
    refine turns_setPc (k := 0) (l := 0) rfl rfl (Nat.le_refl _) (pairsLeft_setJob_le ?_) ?_
    · exact Nat.le_refl _
    · simp only [hpc, workerSteps]
      omega
  | lock hpc _ | nothingNew hpc _ | exit hpc _ | stay hpc _ | park hpc | load _ _ hpc
  | decrypt _ _ _ hpc _ | panic _ _ hpc _ =>
    refine turns_setPc (k := 0) (l := 0) rfl rfl (Nat.le_refl _) (Nat.le_refl _) ?_
    simp only [hpc, workerSteps]
    omega

end Deltas

section Steps

theorem Within.setCaller (h : Within F s) {pc : CallerPc} (hc : inside pc = true → c ∈ F) :
    Within F (s.setCaller c pc) := by
  intro d hd
  obtain rfl | hne := eq_or_ne d c
  · rw [State.setCaller_self] at hd
    exact hc hd
  · rw [State.setCaller_ne _ _ hne] at hd
    exact h d hd

theorem Within.caller (h : Within F s) (hc : c ∈ F) (hm : CallerMove calls s c s') :
    Within F s' := by
  cases hm <;> exact Within.setCaller h fun _ => hc

omit [DecidableEq ι] in
theorem Within.notifyDone (h : Within F s) : Within F s.notifyDone := by
  intro c hc
  obtain ⟨hpark, -⟩ | ⟨-, hp⟩ := s.notifyDone_caller c
  · exact h c (by rw [hpark]; rfl)
  · rw [hp] at hc
    exact h c hc

theorem Within.worker (h : Within F s) (hm : WorkerMove calls s w s') : Within F s' := by
  cases hm with
  | notify j hpc => exact h.notifyDone
  | _ => exact h

/-- The steps of calls and workers. -/
def work : Action ι W → Nat
  | .caller _ | .worker _ => 1
  | _ => 0

/-- What a step may add to the turns: a spurious wakeup, or the notify of drop. -/
def grant : Action ι W → Nat
  | .wakeCaller _ => 3
  | .wakeWorker _ => 4
  | .drop => W * 4
  | _ => 0

/-- Each step of the pool is paid for out of the turns left. -/
theorem turns_step {a : Action ι W} (h : Reaches (step calls) (initial calls : State ι W) s)
    (hF : Within F s) (hcall : ∀ c, a = .caller c → c ∈ F) (hu : step calls s a = some s') :
    Within F s' ∧ work a + turns calls F s' ≤ turns calls F s + grant a := by
  cases step_move hu with
  | caller c s' hm =>
    have hc := hcall c rfl
    have hlt := turns_caller hc (reached_inv h).1 hm
    refine ⟨hF.caller hc hm, ?_⟩
    simp only [work, grant]
    omega
  | worker w s' hm =>
    have hlt := turns_worker h hF hm
    refine ⟨hF.worker hm, ?_⟩
    simp only [work, grant]
    omega
  | drop s' hm =>
    cases hm with
    | notify hd =>
      have hworkers := workersLeft_notifyJob F.card s
      refine ⟨hF, ?_⟩
      change 0 + (callersLeft F s + (6 + 3 * F.card) * pairsLeft calls F s +
        workersLeft F.card s.notifyJob) ≤ turns calls F s + W * 4
      rw [turns]
      omega
    | _ => exact ⟨hF, Nat.le_trans (Nat.le_of_eq (Nat.zero_add _)) (Nat.le_add_right _ _)⟩
  | wakeCaller c hpc =>
    have hc := hF c (by rw [hpc]; rfl)
    have hcallers := callersLeft_setCaller (s := s) hc .woken
    rw [hpc] at hcallers
    refine ⟨hF.setCaller fun _ => hc, ?_⟩
    change 0 + (callersLeft F (s.setCaller c .woken) + (6 + 3 * F.card) * pairsLeft calls F s +
      workersLeft F.card s) ≤ turns calls F s + 3
    simp only [turns, callerSteps] at hcallers ⊢
    omega
  | wakeWorker w hpc =>
    have hworkers := workersLeft_setPc (m := F.card) (s := s) (w := w) .lockJob
    rw [hpc] at hworkers
    refine ⟨hF, ?_⟩
    change 0 + (callersLeft F s + (6 + 3 * F.card) * pairsLeft calls F s +
      workersLeft F.card (s.setPc w .lockJob)) ≤ turns calls F s + 4
    simp only [turns, workerSteps] at hworkers ⊢
    omega

/-- From each state reached, a run of calls of F does no more steps than its turns and what its
wakeups added. -/
theorem work_bounded (h : Reaches (step calls) (initial calls : State ι W) s) (hF : Within F s)
    {as : List (Action ι W)} (hcall : ∀ c, .caller c ∈ as → c ∈ F) {t : State ι W}
    (hrun : run (step calls) s as = some t) :
    (as.map work).sum + turns calls F t ≤ turns calls F s + (as.map grant).sum := by
  refine run_cost (I := fun s => Reaches (step calls) (initial calls) s ∧ Within F s)
    ?_ ⟨h, hF⟩ hrun
  rintro a ha u v ⟨hu, hin⟩ hv
  obtain ⟨hin', hle⟩ := turns_step hu hin (fun c hc => hcall c (hc ▸ ha)) hv
  exact ⟨⟨.tail hu trivial hv, hin'⟩, hle⟩

end Steps

end Temari.PoolTurns
