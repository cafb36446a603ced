import Temari.StreamTurns
import Temari.StreamOrder

/-! The stream cannot deadlock. Whoever waits in it waits for the coordinator, and the
coordinator waits for nobody; the work of a run is bounded, and where no work is left every
call has returned. -/
namespace Temari.StreamProgress
open RoundMachine Rounds Temari.Stream StreamMoves StreamOrder StreamSeats StreamTurns Transition
open Conveyor
variable {κ : Type} [DecidableEq κ] {tmpl : Template} {batchSize batch : Nat} {s t : State κ}
  {k : κ}

/-- The waits in the stream: a submit on the full channel, which holds tx_in, a finish behind
it, a next on the closed input and drop in its join. -/
inductive Waiting (tmpl : Template) (batchSize : Nat) (s : State κ) : Action κ → Prop
  | submit (k : κ) (sample : Bytes) (hpc : s.client k = .locked (.submit sample))
    (hblocked : step tmpl batchSize s (.client k) = none) : Waiting tmpl batchSize s (.client k)
  | finish (k j : κ) (hpc : s.client k = .wantLock .finish) (hheld : s.txLock = some j)
    (hblocked : step tmpl batchSize s (.client j) = none) : Waiting tmpl batchSize s (.client k)
  | next (hd : s.dropper = .idle) (hclosed : s.txOpen = false)
    (hblocked : step tmpl batchSize s .next = none) : Waiting tmpl batchSize s .next
  | drop (hd : s.dropper = .closed) (hblocked : step tmpl batchSize s .drop = none) :
    Waiting tmpl batchSize s .drop

/-- The coordinator has a step, whether or not its receive times out. -/
def CoordRuns (tmpl : Template) (batchSize : Nat) (s : State κ) : Prop :=
  ∀ timeout, (step tmpl batchSize s (.coord timeout)).isSome = true

/-- No client has a step, and the coordinator has none but a receive that times out. -/
def Stalled (tmpl : Template) (batchSize : Nat) (s : State κ) : Prop :=
  ∀ a, 0 < work a → step tmpl batchSize s a = none

/-- The plaintexts of all accepted samples are on the output channel or delivered. -/
def Decrypted (tmpl : Template) (s : State κ) : Prop :=
  s.accepted.mapM (decrypt tmpl) = some (s.delivered ++ s.outQueue)

section Waits

/-- Only a submit on the full channel of a live stream keeps the holder of tx_in waiting. -/
theorem full_of_blocked {op : Op} (hpc : s.client k = .locked op)
    (hblocked : clientStep batch s k = none) :
    (∃ sample, op = .submit sample) ∧ s.txOpen = true ∧ s.coord.ended = false ∧
      batch * 2 ≤ s.queue.length := by
  cases op with
  | submit sample =>
    simp only [clientStep, hpc] at hblocked
    split at hblocked
    · cases hblocked
    next hlive =>
      split at hblocked
      · cases hblocked
      next hroom =>
        simp only [not_or, Bool.not_eq_false, Bool.not_eq_true] at hlive
        exact ⟨⟨sample, rfl⟩, hlive.1, hlive.2, Nat.not_lt.mp hroom⟩
  | trySubmit sample =>
    simp only [clientStep, hpc] at hblocked
    split at hblocked
    · cases hblocked
    · split at hblocked <;> cases hblocked
  | finish =>
    simp only [clientStep, hpc] at hblocked
    cases hblocked

theorem runs_of_blocked {op : Op} (hpc : s.client k = .locked op)
    (hblocked : step tmpl batchSize s (.client k) = none) : CoordRuns tmpl batchSize s := by
  obtain ⟨-, -, hlive, hfull⟩ := full_of_blocked hpc hblocked
  have hpos := batchOf_pos batchSize
  refine fun timeout => coordStep_isSome hlive (.inl fun hq => ?_) timeout
  rw [hq, List.length_nil] at hfull
  omega

theorem live_of_next (hd : s.dropper = .idle) (h : step tmpl batchSize s .next = none) :
    s.coord.ended = false := by
  simp only [step, hd, if_true, nextStep] at h
  split at h
  · cases h
  · split at h
    · cases h
    next hend => exact eq_false_of_ne_true hend

theorem live_of_join (hd : s.dropper = .closed) (h : step tmpl batchSize s .drop = none) :
    s.coord.ended = false := by
  simp only [step, dropStep, hd] at h
  split at h
  · cases h
  next hend => exact eq_false_of_ne_true hend

/-- Whatever waits, the coordinator does not. -/
theorem Waiting.runs {a : Action κ} (hw : Waiting tmpl batchSize s a) (h : Seated s) :
    CoordRuns tmpl batchSize s := by
  cases hw with
  | submit k sample hpc hblocked => exact runs_of_blocked hpc hblocked
  | finish k j hpc hheld hblocked =>
    obtain ⟨op, hop⟩ := h.holder j hheld
    exact runs_of_blocked hop hblocked
  | next hd hclosed hblocked =>
    exact fun timeout => coordStep_isSome (live_of_next hd hblocked) (.inr hclosed) timeout
  | drop hd hblocked =>
    have hclosed := h.dropped (by rw [hd]; nofun)
    exact fun timeout => coordStep_isSome (live_of_join hd hblocked) (.inr hclosed) timeout

end Waits

section Work

omit [DecidableEq κ] in
/-- Clients outside their calls have no work. -/
theorem workLeft_within {F G : Finset κ} (h : Within F s) (hFG : F ⊆ G) :
    workLeft G s = workLeft F s := by
  have hsum : ∑ k ∈ F, weight (s.client k) = ∑ k ∈ G, weight (s.client k) := by
    refine Finset.sum_subset hFG fun k _ hk => ?_
    have hidle : s.client k = .idle := by_contra fun hne => hk (h k hne)
    rw [hidle]
    rfl
  rw [workLeft, workLeft, hsum]

/-- The call that an action starts. -/
def started : Action κ → Option (κ × Op)
  | .call k op => some (k, op)
  | _ => none

/-- From each state a run does a bounded amount of work, up to what its own calls and time-outs
add to it. -/
theorem work_bounded (h : Seated s) : ∃ n, ∀ as t,
    run (step tmpl batchSize) s as = some t → (as.map work).sum ≤ n + (as.map grant).sum := by
  obtain ⟨F, hF, -⟩ := h.inside
  have hwithin : Within F s := fun k hk => (hF k).mpr hk
  refine ⟨workLeft F s, fun as t hrun => ?_⟩
  let G := F ∪ ((as.filterMap started).map Prod.fst).toFinset
  have hG : Within G s := fun k hk => Finset.mem_union_left _ (hwithin k hk)
  have hstep : ∀ a ∈ as, ∀ s t, Seated s ∧ Within G s → step tmpl batchSize s a = some t →
      (Seated t ∧ Within G t) ∧ work a + workLeft G t ≤ workLeft G s + grant a := by
    rintro a ha s t ⟨hs, hw⟩ hu
    have hcall : ∀ k op, a = .call k op → k ∈ G := by
      rintro k op rfl
      refine Finset.mem_union_right _ ?_
      rw [List.mem_toFinset, List.mem_map]
      exact ⟨(k, op), List.mem_filterMap.mpr ⟨_, ha, rfl⟩, rfl⟩
    obtain ⟨hin, hle⟩ := workLeft_step hs hw hcall hu
    exact ⟨⟨hs.step hu, hin⟩, hle⟩
  have hcost := run_cost hstep ⟨h, hG⟩ hrun
  rw [workLeft_within hwithin Finset.subset_union_left] at hcost
  omega

theorem Stalled.not_runs (hst : Stalled tmpl batchSize s) : ¬ CoordRuns tmpl batchSize s := by
  intro hruns
  have hsome := hruns false
  rw [hst (.coord false) Nat.zero_lt_one] at hsome
  cases hsome

/-- Where no work is left, every call has returned. -/
theorem Stalled.idle (hst : Stalled tmpl batchSize s) (h : Seated s) : s.client k = .idle := by
  have hclient : ∀ j, step tmpl batchSize s (.client j) = none := fun j => hst _ Nat.zero_lt_one
  have hlocked : ∀ j op, s.client j ≠ .locked op := fun j op hop =>
    hst.not_runs (runs_of_blocked hop (hclient j))
  cases hpc : s.client k with
  | idle => rfl
  | wantLock op =>
    cases hlock : s.txLock with
    | none =>
      have hk := hclient k
      simp [step, clientStep, hpc, hlock] at hk
    | some j =>
      obtain ⟨op', hop⟩ := h.holder j hlock
      exact absurd hop (hlocked j op')
  | locked op => exact absurd hpc (hlocked k op)
  | mustStore =>
    have hk := hclient k
    simp [step, clientStep, hpc] at hk

/-- Where no work is left on a closed input, the coordinator has ended. -/
theorem Stalled.ended (hst : Stalled tmpl batchSize s) (hclosed : s.txOpen = false) :
    s.coord.ended = true := by
  by_contra hlive
  exact hst.not_runs fun timeout =>
    coordStep_isSome (eq_false_of_ne_true hlive) (.inr hclosed) timeout

end Work

end Temari.StreamProgress
