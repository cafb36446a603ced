import Temari.PoolWork

/-! A call returns only after its job is finished, and a finished job is in no worker's
hands: the borrowed pointers of a job are not used after its call. -/
namespace Temari.PoolSafety
open RoundMachine Rounds Pool PoolMoves PoolWork Transition SharedWork
variable {ι : Type} [DecidableEq ι] {W : Nat} {calls : ι → Call} {s s' : State ι W}

/-- The caller has seen the flag. -/
def seen : CallerPc → Bool
  | .leaving | .unlocking | .returned => true
  | _ => false

/-- The job whose pointers the worker's next step reads or writes through: first the
pointer, length and offset arrays, then the samples, the template and the output. -/
def usesPointers : WorkerPc ι → Option ι
  | .claimed j _ | .loaded j _ => some j
  | _ => none

section Seen
variable {c : ι} {w : Fin W}

/-- A call leaves run only when its job is finished. -/
def Backed (s : State ι W) : Prop := ∀ c, seen (s.caller c) = true → (s.jobs c).finished = true

theorem Backed.setCaller (h : Backed s) {pc : CallerPc}
    (hpc : seen pc = true → (s.jobs c).finished = true) : Backed (s.setCaller c pc) := by
  intro d hd
  by_cases hdc : d = c
  · subst hdc
    rw [s.setCaller_self] at hd
    exact hpc hd
  · rw [s.setCaller_ne pc hdc] at hd
    exact h d hd

theorem Backed.setJob (h : Backed s) {j : ι} {job : Job}
    (hjob : seen (s.caller j) = true → job.finished = true) : Backed (s.setJob j job) := by
  intro d hd
  by_cases hdj : d = j
  · subst hdj
    rw [s.setJob_self]
    exact hjob hd
  · rw [s.setJob_ne job hdj]
    exact h d hd

theorem Backed.caller (h : Backed s) (hm : CallerMove calls s c s') : Backed s' := by
  cases hm with
  | create hpc =>
    refine Backed.setCaller (Backed.setJob h fun hc => ?_) nofun
    rw [hpc] at hc
    cases hc
  | seeFinished hpc hf => exact h.setCaller fun _ => hf
  | leave hpc | finish hpc => exact Backed.setCaller h fun _ => h c (by rw [hpc]; rfl)
  | _ => exact Backed.setCaller h nofun

theorem Backed.worker (h : Backed s) (hm : WorkerMove calls s w s') : Backed s' := by
  cases hm with
  | overrun j _ _ | claim j _ _ | retireLast j _ _ _ | retire j _ _ _ => exact Backed.setJob h (h j)
  | store j _ => exact Backed.setJob h fun _ => rfl
  | notify j _ =>
    intro d hd
    obtain ⟨-, hp⟩ | ⟨-, hp⟩ := s.notifyDone_caller d
    · cases (congrArg seen hp).symm.trans hd
    · exact h d ((congrArg seen hp).symm.trans hd)
  | _ => exact h

theorem seen_finished (h : Reaches (step calls) (initial calls : State ι W) s)
    (hc : seen (s.caller c) = true) : (s.jobs c).finished = true := by
  refine h.invariant (I := Backed) nofun ?_ c hc
  intro t a u _ hb _ hu
  cases step_move hu with
  | caller d u hm => exact hb.caller hm
  | worker w u hm => exact hb.worker hm
  | drop u hm => cases hm <;> exact hb
  | wakeCaller d hpc => exact hb.setCaller nofun
  | wakeWorker w hpc => exact hb

end Seen

/-- Nobody holds a pair of a job whose call has left the wait loop. -/
theorem no_owner_after (h : Reaches (step calls) (initial calls : State ι W) s) {j : ι}
    (hj : seen (s.caller j) = true) (w : Fin W) : ownOf j (s.worker w).pc = none :=
  ((reached_inv h).2 j).no_owner (seen_finished h hj) w

/-- The raw pointers of a job are used only while its call is inside run. -/
theorem pointers_live (calls : ι → Call) (s : State ι W)
    (h : Reaches (step calls) (initial calls) s) (w : Fin W) (j : ι)
    (hw : usesPointers (s.worker w).pc = some j) :
    created (s.caller j) = true ∧ s.caller j ≠ .returned := by
  have hown : ownOf j (s.worker w).pc ≠ none := by
    cases hpc : (s.worker w).pc <;> simp_all [usesPointers, ownOf]
  refine ⟨(reached_inv h).1.refs w j ?_, fun hret => ?_⟩
  · cases hpc : (s.worker w).pc <;> simp_all [usesPointers, refers]
  · exact hown (no_owner_after h (by rw [hret]; rfl) w)

theorem pointers_live_claimed : ∃ s : State Unit 1, (s.worker 0).pc = .claimed () 0 ∧
    created (s.caller ()) = true ∧ s.caller () ≠ .returned := by
  obtain ⟨s, hrun, hpc⟩ : ∃ s, run (step fun _ => twoBytes)
      (initial fun _ => twoBytes : State Unit 1)
      (.replicate 6 (.caller ()) ++ .replicate 3 (.worker 0)) = some s ∧
        (s.worker 0).pc = .claimed () 0 := ⟨_, rfl, rfl⟩
  exact ⟨s, hpc, pointers_live (fun _ => twoBytes) s (reaches_of_run hrun) 0 () (by rw [hpc]; rfl)⟩

end Temari.PoolSafety
