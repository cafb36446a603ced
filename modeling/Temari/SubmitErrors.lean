import Temari.StreamOrder

/-! What the error of a submission means. try_submit folds both errors of the channel into
StreamError::Closed, so on a full channel it reports an open stream as closed. -/
namespace Temari.SubmitErrors
open RoundMachine Rounds Temari.Stream StreamMoves StreamOrder Transition Conveyor
variable {κ : Type} [DecidableEq κ] {tmpl : Template} {batchSize batch : Nat} {s s' : State κ}
  {k : κ}

/-- The sample that a client holding tx_in is about to send. -/
def sending : ClientPc → Option Bytes
  | .locked (.submit sample) | .locked (.trySubmit sample) => some sample
  | _ => none

/-- The input has been closed, or the coordinator is gone. -/
def InputClosed (s : State κ) : Prop := s.txOpen = false ∨ s.coord.ended = true

/-- StreamError::Closed has been returned only for a closed input. -/
def Truthful (s : State κ) : Prop := s.refused ≠ [] → InputClosed s

/-- No try_submit meets a full channel of an open stream. -/
def notFull (batchSize : Nat) (s : State κ) : Action κ → Bool
  | .client k =>
    match s.client k with
    | .locked (.trySubmit _) =>
      !s.txOpen || s.coord.ended || decide (s.queue.length < batchOf batchSize * 2)
    | _ => true
  | _ => true

omit [DecidableEq κ] in
theorem sending_eq {sample : Bytes}
    (hpc : s.client k = .locked (.submit sample) ∨ s.client k = .locked (.trySubmit sample)) :
    sending (s.client k) = some sample := by
  obtain hpc | hpc := hpc <;> rw [hpc] <;> rfl

/-- A submission accepts its sample at the end of the channel or refuses it, and changes nothing
else in the stream. -/
theorem submission_step {sample : Bytes} (hpc : sending (s.client k) = some sample)
    (hu : step tmpl batchSize s (.client k) = some s') :
    s' = (s.accept sample).release k ∨ s' = (s.refuse sample).release k := by
  cases clientStep_move hu with
  | accept x hx hopen hlive hroom =>
    cases (sending_eq hx).symm.trans hpc
    exact .inl rfl
  | refuse x hx hwhy =>
    cases (sending_eq hx).symm.trans hpc
    exact .inr rfl
  | lock op hop hfree =>
    rw [hop] at hpc
    cases hpc
  | finish hop =>
    rw [hop] at hpc
    cases hpc
  | store hop =>
    rw [hop] at hpc
    cases hpc

section Closed

/-- The input is closed for good, and the coordinator does not come back. -/
theorem InputClosed.step {a : Action κ} (h : InputClosed s)
    (hu : Stream.step tmpl batchSize s a = some s') : InputClosed s' := by
  cases step_move hu with
  | client k s' hm =>
    cases hm with
    | finish hpc => exact .inl rfl
    | _ => exact h
  | coord timeout s' hm =>
    obtain hclosed | hend := h
    · left
      cases hm <;> exact hclosed
    · cases (coordStep_ended hend).symm.trans hu
  | dropClose hd => exact .inl rfl
  | _ => exact h

/-- On an open stream try_submit accepts while the channel has room and refuses when it is
full. -/
theorem trySubmit_open {sample : Bytes} (hpc : s.client k = .locked (.trySubmit sample))
    (hopen : ¬ InputClosed s) : clientStep batch s k = some
      (if s.queue.length < batch * 2 then (s.accept sample).release k
        else (s.refuse sample).release k) := by
  simp only [clientStep, hpc, InputClosed] at hopen ⊢
  rw [if_neg hopen]
  split <;> rfl

omit [DecidableEq κ] in
theorem notFull_iff {sample : Bytes} (hpc : s.client k = .locked (.trySubmit sample)) :
    notFull batchSize s (.client k) = true ↔
      InputClosed s ∨ s.queue.length < batchOf batchSize * 2 := by
  simp [notFull, hpc, InputClosed]

/-- Where no try_submit meets a full channel, a refusal means that the input is closed. -/
theorem Truthful.step {a : Action κ} (h : Truthful s) (hok : notFull batchSize s a = true)
    (hu : Stream.step tmpl batchSize s a = some s') : Truthful s' := by
  have hkeep : s'.refused = s.refused → Truthful s' := fun heq hne => (h (heq ▸ hne)).step hu
  cases step_move hu with
  | client k s' hm =>
    cases hm with
    | refuse sample hpc hwhy =>
      refine fun _ => InputClosed.step ?_ hu
      obtain hclosed | hend | htry := hwhy
      · exact .inl hclosed
      · exact .inr hend
      · obtain hclosed | hroom := (notFull_iff htry).mp hok
        · exact hclosed
        · by_contra hopen
          have hstep : clientStep (batchOf batchSize) s k = some ((s.accept sample).release k) := by
            rw [trySubmit_open htry hopen, if_pos hroom]
          have heq := Option.some.inj (hstep.symm.trans hu)
          have hacc := congrArg (fun t => t.accepted) heq
          simp [State.accept, State.refuse, State.release, State.setClient] at hacc
    | _ => exact hkeep rfl
  | coord timeout s' hm => cases hm <;> exact hkeep rfl
  | _ => exact hkeep rfl

/-- A try_submit that meets a full channel reports an open stream as closed. -/
theorem full_untruthful {a : Action κ} (hbad : notFull batchSize s a = false) :
    ∃ s', Stream.step tmpl batchSize s a = some s' ∧ ¬ Truthful s' := by
  cases a with
  | client k =>
    cases hpc : s.client k with
    | locked op =>
      cases op with
      | trySubmit sample =>
        have hnot : ¬ (InputClosed s ∨ s.queue.length < batchOf batchSize * 2) := fun hroom =>
          absurd ((notFull_iff hpc).mpr hroom) (by simp [hbad])
        obtain ⟨hopen, hfull⟩ := not_or.mp hnot
        refine ⟨(s.refuse sample).release k, ?_, fun h => hopen (h ?_)⟩
        · rw [Stream.step, trySubmit_open hpc hopen, if_neg hfull]
        · exact List.concat_ne_nil _ _
      | _ => simp [notFull, hpc] at hbad
    | _ => simp [notFull, hpc] at hbad
  | _ => simp [notFull] at hbad

end Closed

/-- Two samples fill the channel of a stream with batches of one; the third is refused while the
stream is open. -/
theorem third_refused : ∃ s : State Unit, Reaches (step eightTemplate 1) initial s ∧
    s.accepted = [[7], [8]] ∧ s.refused = [[9]] ∧ s.txOpen = true ∧ s.coord.ended = false ∧
    ¬ Truthful s := by
  obtain ⟨s, hrun, hacc, hrefused, hopen, hlive⟩ : ∃ s, run (step eightTemplate 1)
      (initial : State Unit) ([[7], [8], [9]].flatMap fun sample =>
        [.call () (.trySubmit sample), .client (), .client ()]) = some s ∧
      s.accepted = [[7], [8]] ∧ s.refused = [[9]] ∧ s.txOpen = true ∧ s.coord.ended = false :=
    ⟨_, rfl, rfl, rfl, rfl, rfl⟩
  refine ⟨s, reaches_of_run hrun, hacc, hrefused, hopen, hlive, fun h => ?_⟩
  obtain hclosed | hend := h (by rw [hrefused]; nofun)
  · cases hopen.symm.trans hclosed
  · cases hlive.symm.trans hend

/-- In a run in which no try_submit meets a full channel, StreamError::Closed is only returned for
a closed input, and a try_submit that meets one returns it for an open input. In every run a
submission accepts its sample once or leaves the stream as it was, and what has been accepted
stays, in order. -/
theorem refused_closed_iff (tmpl : Template) (batchSize : Nat) :
    (∀ s : State κ,
      Steps (step tmpl batchSize) (fun s a => notFull batchSize s a = true) initial s →
        Truthful s) ∧
    (∀ s : State κ, Reaches (step tmpl batchSize) initial s → ∀ a, notFull batchSize s a = false →
      ∃ s', step tmpl batchSize s a = some s' ∧ ¬ Truthful s') ∧
    (∀ s : State κ, Reaches (step tmpl batchSize) initial s → ∀ k sample s',
      sending (s.client k) = some sample → step tmpl batchSize s (.client k) = some s' →
      s' = (s.accept sample).release k ∨ s' = (s.refuse sample).release k) ∧
    ∀ s : State κ, Returns tmpl → Reaches (step tmpl batchSize) initial s →
      s.delivered ++ (s.outQueue ++ inHand tmpl s ++ s.queue.map (plainOf tmpl)) =
        s.accepted.map (plainOf tmpl) := by
  refine ⟨fun s h => ?_, fun s _ a => full_untruthful, fun s _ k sample s' => submission_step,
    fun s hret h => (reached_inv hret h).2.order⟩
  exact h.invariant (I := Truthful) (fun hne => absurd rfl hne)
    fun _ _ _ _ ht hok hu => ht.step hok hu

end Temari.SubmitErrors
