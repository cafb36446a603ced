import Temari.Stream
import Temari.Transition

/-! What one step of the stream can do: one case for each transition of a client, the
coordinator, the consumer or the dropper. -/
namespace Temari.StreamMoves
open RoundMachine Rounds Temari.Stream
variable {κ : Type} [DecidableEq κ] {tmpl : Template} {batchSize batch : Nat}
  {s s' : State κ} {k : κ}

inductive ClientMove (batch : Nat) (s : State κ) (k : κ) : State κ → Prop
  | lock (op : Op) (hpc : s.client k = .wantLock op) (hfree : s.txLock = none) :
    ClientMove batch s k ({ s with txLock := some k }.setClient k (.locked op))
  | accept (sample : Bytes)
    (hpc : s.client k = .locked (.submit sample) ∨ s.client k = .locked (.trySubmit sample))
    (hopen : s.txOpen = true) (hlive : s.coord.ended = false)
    (hroom : s.queue.length < batch * 2) : ClientMove batch s k ((s.accept sample).release k)
  | refuse (sample : Bytes)
    (hpc : s.client k = .locked (.submit sample) ∨ s.client k = .locked (.trySubmit sample))
    (hwhy : s.txOpen = false ∨ s.coord.ended = true ∨ s.client k = .locked (.trySubmit sample)) :
    ClientMove batch s k ((s.refuse sample).release k)
  | finish (hpc : s.client k = .locked .finish) : ClientMove batch s k
      ({ s with txOpen := false, txLock := none }.setClient k .mustStore)
  | store (hpc : s.client k = .mustStore) : ClientMove batch s k
      ({ s with closed := true, borrows := s.borrows - 1 }.setClient k .idle)

theorem clientStep_move (h : clientStep batch s k = some s') : ClientMove batch s k s' := by
  unfold clientStep at h
  split at h
  next => cases h
  next op hpc =>
    split at h
    next hfree =>
      cases h
      exact .lock op hpc hfree
    next => cases h
  next sample hpc =>
    split at h
    next hgone =>
      cases h
      exact .refuse sample (.inl hpc) (hgone.imp_right .inl)
    next hgone =>
      simp only [not_or, Bool.not_eq_false, Bool.not_eq_true] at hgone
      split at h
      next hroom =>
        cases h
        exact .accept sample (.inl hpc) hgone.1 hgone.2 hroom
      next => cases h
  next sample hpc =>
    split at h
    next hgone =>
      cases h
      exact .refuse sample (.inr hpc) (hgone.imp_right .inl)
    next hgone =>
      simp only [not_or, Bool.not_eq_false, Bool.not_eq_true] at hgone
      split at h
      next hroom =>
        cases h
        exact .accept sample (.inr hpc) hgone.1 hgone.2 hroom
      next =>
        cases h
        exact .refuse sample (.inr hpc) (.inr (.inr hpc))
  next hpc =>
    cases h
    exact .finish hpc
  next hpc =>
    cases h
    exact .store hpc

/-- Only a client in a call takes steps. -/
theorem ClientMove.inside (hm : ClientMove batch s k s') : s.client k ≠ .idle := by
  intro hidle
  cases hm with
  | lock op hpc hfree => cases hidle.symm.trans hpc
  | accept sample hpc hopen hlive hroom =>
    rw [hidle] at hpc
    obtain hpc | hpc := hpc <;> cases hpc
  | refuse sample hpc hwhy =>
    rw [hidle] at hpc
    obtain hpc | hpc := hpc <;> cases hpc
  | finish hpc => cases hidle.symm.trans hpc
  | store hpc => cases hidle.symm.trans hpc

inductive CoordMove (tmpl : Template) (batch : Nat) (s : State κ) : State κ → Prop
  | enter (pc : CoordPc) (hpc : s.coord = .test)
    (hnext : pc = .first ∧ s.buffer = [] ∨ pc = .fill ∧ s.buffer ≠ []) :
    CoordMove tmpl batch s { s with coord := pc }
  | exit (hpc : s.coord = .test) (hin : s.inputOpen = false) (hb : s.buffer = []) :
    CoordMove tmpl batch s { s with coord := .exited }
  | receive (sample : Bytes) (rest : List Bytes) (hpc : s.coord = .first ∨ s.coord = .fill)
    (hq : s.queue = sample :: rest) : CoordMove tmpl batch s
      { s with queue := rest, buffer := s.buffer ++ [sample], coord := .fill }
  | skip (hpc : s.coord = .first) : CoordMove tmpl batch s { s with coord := .fill }
  | hangUp (hpc : s.coord = .first ∨ s.coord = .fill) (hopen : s.txOpen = false)
    (hq : s.queue = []) :
    CoordMove tmpl batch s { s with inputOpen := false, coord := .fill }
  | full (hpc : s.coord = .fill) : CoordMove tmpl batch s { s with coord := .flush }
  | idle (hpc : s.coord = .flush) (hb : s.buffer = []) :
    CoordMove tmpl batch s { s with coord := .test }
  | decrypt (out : List Bytes) (hpc : s.coord = .flush)
    (hout : decryptBatch tmpl s.buffer = some out) :
    CoordMove tmpl batch s { s with coord := .sending out }
  | panic (hpc : s.coord = .flush) (hout : decryptBatch tmpl s.buffer = none) :
    CoordMove tmpl batch s { s with coord := .panicked }
  | send (p : Bytes) (rest : List Bytes) (hpc : s.coord = .sending (p :: rest)) :
    CoordMove tmpl batch s { s with outQueue := s.outQueue ++ [p], coord := .sending rest }
  | clear (hpc : s.coord = .sending []) :
    CoordMove tmpl batch s { s with buffer := [], coord := .test }

omit [DecidableEq κ] in
theorem recvTimeout_ok {timeout : Bool} {sample : Bytes} {rest : List Bytes}
    (h : recvTimeout s timeout = some (.ok sample rest)) : s.queue = sample :: rest := by
  unfold recvTimeout at h
  split at h
  · cases h
  · split at h
    next hq =>
      cases h
      exact hq
    next => split at h <;> cases h

omit [DecidableEq κ] in
theorem recvTimeout_disconnected {timeout : Bool}
    (h : recvTimeout s timeout = some .disconnected) : s.txOpen = false ∧ s.queue = [] := by
  unfold recvTimeout at h
  split at h
  · cases h
  · split at h
    next => cases h
    next hq =>
      split at h
      · cases h
      next hopen => exact ⟨by simpa using hopen, hq⟩

omit [DecidableEq κ] in
theorem coordStep_move {timeout : Bool} (h : coordStep tmpl batch s timeout = some s') :
    CoordMove tmpl batch s s' := by
  unfold coordStep at h
  split at h
  next hpc =>
    split at h
    next =>
      cases h
      refine .enter _ hpc ?_
      by_cases hb : s.buffer = [] <;> simp [hb]
    next hend =>
      cases h
      simp only [not_or, Bool.not_eq_true, not_not] at hend
      exact .exit hpc hend.1 hend.2
  next hpc =>
    split at h
    next hr =>
      cases h
      exact .receive _ _ (.inl hpc) (recvTimeout_ok hr)
    next =>
      cases h
      exact .skip hpc
    next hr =>
      cases h
      exact .hangUp (.inl hpc) (recvTimeout_disconnected hr).1 (recvTimeout_disconnected hr).2
    next => cases h
  next hpc =>
    split at h
    next =>
      split at h
      next sample rest hr =>
        cases h
        have hm : CoordMove tmpl batch s
            { s with queue := rest, buffer := s.buffer ++ [sample], coord := .fill } :=
          .receive sample rest (.inr hpc) (recvTimeout_ok hr)
        rwa [← hpc] at hm
      next =>
        cases h
        exact .full hpc
      next hr =>
        cases h
        have hm : CoordMove tmpl batch s { s with inputOpen := false, coord := .fill } :=
          .hangUp (.inr hpc) (recvTimeout_disconnected hr).1 (recvTimeout_disconnected hr).2
        rwa [← hpc] at hm
      next => cases h
    next =>
      cases h
      exact .full hpc
  next hpc =>
    split at h
    next hb =>
      cases h
      exact .idle hpc hb
    next =>
      split at h
      next out hout =>
        cases h
        exact .decrypt out hpc hout
      next hout =>
        cases h
        exact .panic hpc hout
  next p rest hpc =>
    cases h
    exact .send p rest hpc
  next hpc =>
    cases h
    exact .clear hpc
  all_goals cases h

omit [DecidableEq κ] in
theorem coordStep_ended {timeout : Bool} (hend : s.coord.ended = true) :
    coordStep tmpl batch s timeout = none := by
  unfold coordStep
  cases hpc : s.coord with
  | exited | panicked => rfl
  | _ =>
    rw [hpc] at hend
    cases hend

/-- What a step of the stream can be. -/
inductive Move (tmpl : Template) (batchSize : Nat) (s : State κ) : Action κ → State κ → Prop
  | call (k : κ) (op : Op) (hpc : s.client k = .idle) : Move tmpl batchSize s (.call k op)
      ({ s with borrows := s.borrows + 1 }.setClient k (.wantLock op))
  | client (k : κ) (s' : State κ) (h : ClientMove (batchOf batchSize) s k s') :
    Move tmpl batchSize s (.client k) s'
  | coord (timeout : Bool) (s' : State κ) (h : CoordMove tmpl (batchOf batchSize) s s') :
    Move tmpl batchSize s (.coord timeout) s'
  | give (a : Action κ) (ans : Answer) (p : Bytes) (rest : List Bytes)
    (hans : ans = .next (some p) ∨ ans = .tryNext (.data p)) (hq : s.outQueue = p :: rest) :
    Move tmpl batchSize s a ({ s with outQueue := rest }.answer ans)
  | stop (a : Action κ) (ans : Answer) (hans : ans = .next none ∨ ans = .tryNext .closed)
    (hq : s.outQueue = []) (hend : s.coord.ended = true) : Move tmpl batchSize s a (s.answer ans)
  | pending (hq : s.outQueue = []) : Move tmpl batchSize s .tryNext (s.answer (.tryNext .empty))
  | dropClose (hd : s.dropper = .idle) :
    Move tmpl batchSize s .drop { s with txOpen := false, dropper := .closed }
  | dropJoin (hd : s.dropper = .closed) (hend : s.coord.ended = true) :
    Move tmpl batchSize s .drop { s with dropper := .joined }

theorem step_move {a : Action κ} (h : step tmpl batchSize s a = some s') :
    Move tmpl batchSize s a s' := by
  cases a with
  | call k op =>
    simp only [step] at h
    split at h
    next hpc =>
      cases h
      exact .call k op hpc
    next => cases h
  | client k => exact .client k s' (clientStep_move h)
  | coord timeout => exact .coord timeout s' (coordStep_move h)
  | next =>
    simp only [step, nextStep] at h
    split at h
    · split at h
      next p rest hq =>
        cases h
        exact .give _ _ p rest (.inl rfl) hq
      next hq =>
        split at h
        next hend =>
          cases h
          exact .stop _ _ (.inl rfl) hq hend
        next => cases h
    · cases h
  | tryNext =>
    simp only [step, tryNextStep] at h
    split at h
    · split at h
      next p rest hq =>
        cases h
        exact .give _ _ p rest (.inr rfl) hq
      next hq =>
        split at h
        next hend =>
          cases h
          exact .stop _ _ (.inr rfl) hq hend
        next =>
          cases h
          exact .pending hq
    · cases h
  | drop =>
    simp only [step, dropStep] at h
    split at h
    next hd =>
      split at h
      · cases h
        exact .dropClose hd
      · cases h
    next hd =>
      split at h
      next hend =>
        cases h
        exact .dropJoin hd hend
      next => cases h
    next => cases h

end Temari.StreamMoves
