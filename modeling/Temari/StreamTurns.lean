import Temari.StreamSeats
import Mathlib.Algebra.BigOperators.Group.Finset.Piecewise
import Mathlib.Algebra.BigOperators.Group.Finset.Basic

/-! How much the stream has left to do: the turns of the coordinator until it waits for input
and the steps of the calls inside. Only a new call or a time-out adds to it. -/
namespace Temari.StreamTurns
open RoundMachine Rounds Temari.Stream StreamMoves StreamBound StreamSeats Transition
variable {κ : Type} [DecidableEq κ] {tmpl : Template} {batchSize batch : Nat} {s s' : State κ}
  {k : κ} {F : Finset κ}

/-- Turns from a position of the coordinator back to its test, with n samples in the buffer. -/
def ahead (n : Nat) : CoordPc → Nat
  | .test => if n = 0 then 4 else n + 8
  | .first => 3
  | .fill => n + 7
  | .flush => n + 6
  | .sending rest => rest.length + 5
  | .exited | .panicked => 0

/-- A sample in the channel costs a receive, a send and at most one batch of its own. -/
def turns (s : State κ) : Nat :=
  6 * s.queue.length + (if s.inputOpen then 5 else 0) + ahead s.buffer.length s.coord

section Coordinator

omit [DecidableEq κ] in
/-- The coordinator hears of the hang-up once. -/
theorem open_of_hangUp {timeout : Bool}
    (h : coordStep tmpl batch s timeout = some { s with inputOpen := false, coord := .fill })
    (hpc : s.coord = .fill) : s.inputOpen = true := by
  by_contra hin
  simp only [coordStep, hpc, hin, and_false, if_false, Option.some.injEq] at h
  have hcoord := congrArg (fun t => t.coord) h
  cases hcoord

omit [DecidableEq κ] in
/-- A turn of the coordinator uses up one of its turns, except where its first receive times
out. -/
theorem turns_coord (h : Seated s) {timeout : Bool}
    (hu : coordStep tmpl batch s timeout = some s') :
    turns s' < turns s ∨ s.coord = .first ∧ s' = { s with coord := .fill } := by
  cases coordStep_move hu with
  | enter pc hpc hnext =>
    left
    obtain ⟨rfl, hb⟩ | ⟨rfl, hb⟩ := hnext
    · simp [turns, ahead, hpc, hb]
    · simp [turns, ahead, hpc, List.length_eq_zero_iff, hb]
  | exit hpc hin hb =>
    left
    simp [turns, ahead, hpc, hb]
  | receive sample rest hpc hq =>
    left
    obtain hpc | hpc := hpc
    · simp only [turns, ahead, hpc, hq, (h.first hpc).1, List.nil_append, List.length_cons,
        List.length_nil]
      omega
    · simp only [turns, ahead, hpc, hq, List.length_append, List.length_cons, List.length_nil]
      omega
  | skip hpc => exact .inr ⟨hpc, rfl⟩
  | hangUp hpc hopen hq =>
    left
    obtain hpc | hpc := hpc
    · simp [turns, ahead, hpc, h.first hpc]
    · have hin := open_of_hangUp hu hpc
      simp [turns, ahead, hpc, hin]
  | full hpc =>
    left
    simp [turns, ahead, hpc]
  | idle hpc hb =>
    left
    simp [turns, ahead, hpc, hb]
  | decrypt out hpc hout =>
    left
    simp [turns, ahead, hpc, decryptBatch_length hout]
  | panic hpc hout =>
    left
    simp only [turns, ahead, hpc]
    omega
  | send p rest hpc =>
    left
    simp [turns, ahead, hpc]
  | clear hpc =>
    left
    simp [turns, ahead, hpc]

omit [DecidableEq κ] in
theorem turns_coord_le (h : Seated s) {timeout : Bool}
    (hu : coordStep tmpl batch s timeout = some s') : turns s' ≤ turns s + 4 := by
  obtain hlt | ⟨hpc, rfl⟩ := turns_coord h hu
  · omega
  · simp [turns, ahead, hpc, h.first hpc]

omit [DecidableEq κ] in
theorem recvTimeout_false : recvTimeout s false ≠ some .timeout := by
  simp only [recvTimeout, Bool.false_eq_true, if_false]
  cases s.queue with
  | cons sample rest => nofun
  | nil => cases s.txOpen <;> nofun

omit [DecidableEq κ] in
/-- A receive that does not time out takes a sample or hears of the hang-up. -/
theorem turns_coord_lt (h : Seated s) (hu : coordStep tmpl batch s false = some s') :
    turns s' < turns s := by
  obtain hlt | ⟨hpc, rfl⟩ := turns_coord h hu
  · exact hlt
  · simp only [coordStep, hpc] at hu
    split at hu
    next sample rest hr =>
      have hqueue := congrArg (fun t => t.queue) (Option.some.inj hu)
      exact absurd (hqueue.trans (recvTimeout_ok hr)).symm (List.cons_ne_self _ _)
    next hr => exact absurd hr recvTimeout_false
    next =>
      have hin := congrArg (fun t => t.inputOpen) (Option.some.inj hu)
      cases hin.trans (h.first hpc).2
    next => cases hu

omit [DecidableEq κ] in
/-- The coordinator waits for nothing but a sample of an open input. -/
theorem coordStep_isSome (hlive : s.coord.ended = false) (hin : s.queue ≠ [] ∨ s.txOpen = false)
    (timeout : Bool) : (coordStep tmpl batch s timeout).isSome = true := by
  have hrecv : ∃ r, recvTimeout s timeout = some r := by
    unfold recvTimeout
    cases timeout with
    | true => exact ⟨_, rfl⟩
    | false =>
      cases hq : s.queue with
      | cons sample rest => exact ⟨_, rfl⟩
      | nil =>
        have hclosed : s.txOpen = false := by simpa [hq] using hin
        exact ⟨.disconnected, by simp [hclosed]⟩
  obtain ⟨r, hr⟩ := hrecv
  unfold coordStep
  split
  · split <;> rfl
  · rw [hr]
    cases r <;> rfl
  · rw [hr]
    split
    · cases r <;> rfl
    · rfl
  · split
    · rfl
    · split <;> rfl
  · rfl
  · rfl
  all_goals
    next hpc =>
      rw [hpc] at hlive
      cases hlive

end Coordinator

section Clients

/-- Steps a client needs to return; a submit may leave a sample to the coordinator. -/
def weight : ClientPc → Nat
  | .idle => 0
  | .wantLock _ => 8
  | .locked _ => 7
  | .mustStore => 1

theorem turns_client (hm : ClientMove batch s k s') : ∃ pc,
    s'.client = Function.update s.client k pc ∧
      weight pc + turns s' < weight (s.client k) + turns s := by
  cases hm with
  | lock op hpc hfree =>
    refine ⟨.locked op, rfl, ?_⟩
    rw [hpc]
    exact Nat.add_lt_add_right (by decide : 7 < 8) _
  | accept sample hpc hopen hlive hroom =>
    have hw : weight (s.client k) = 7 := by obtain hpc | hpc := hpc <;> rw [hpc] <;> rfl
    refine ⟨.idle, rfl, ?_⟩
    have hturns : turns ((s.accept sample).release k) = turns s + 6 := by
      change 6 * (s.queue ++ [sample]).length + (if s.inputOpen then 5 else 0) +
        ahead s.buffer.length s.coord = turns s + 6
      rw [List.length_append, List.length_singleton, turns]
      omega
    have hidle : weight .idle = 0 := rfl
    omega
  | refuse sample hpc hwhy =>
    have hw : weight (s.client k) = 7 := by obtain hpc | hpc := hpc <;> rw [hpc] <;> rfl
    refine ⟨.idle, rfl, ?_⟩
    rw [hw]
    exact Nat.add_lt_add_right (by decide : 0 < 7) _
  | finish hpc =>
    refine ⟨.mustStore, rfl, ?_⟩
    rw [hpc]
    exact Nat.add_lt_add_right (by decide : 1 < 7) _
  | store hpc =>
    refine ⟨.idle, rfl, ?_⟩
    rw [hpc]
    exact Nat.add_lt_add_right (by decide : 0 < 1) _

theorem sum_weight_update (hk : k ∈ F) (f : κ → ClientPc) (pc : ClientPc) :
    ∑ j ∈ F, weight (Function.update f k pc j) + weight (f k) =
      ∑ j ∈ F, weight (f j) + weight pc := by
  have hupdate : (fun j => weight (Function.update f k pc j)) =
      Function.update (fun j => weight (f j)) k (weight pc) := Function.comp_update weight f k pc
  rw [hupdate, Finset.sum_update_of_mem hk, ← Finset.sum_sdiff (Finset.singleton_subset_iff.mpr hk)]
  simp only [Finset.sum_singleton]
  omega

end Clients

/-- The coordinator's turns and the steps of the clients in F. -/
def workLeft (F : Finset κ) (s : State κ) : Nat := ∑ k ∈ F, weight (s.client k) + turns s

/-- The steps that bring the stream forward. -/
def work : Action κ → Nat
  | .client _ | .coord false => 1
  | _ => 0

/-- What a step may add to the work: a new call, or a receive that timed out. -/
def grant : Action κ → Nat
  | .call _ _ => 8
  | .coord true => 4
  | _ => 0

/-- All calls inside are by clients of F. -/
def Within (F : Finset κ) (s : State κ) : Prop := ∀ k, s.client k ≠ .idle → k ∈ F

theorem Within.update (h : Within F s) (hk : k ∈ F) {pc : ClientPc}
    (hs : s'.client = Function.update s.client k pc) : Within F s' := by
  intro j hj
  rw [hs] at hj
  obtain rfl | hne := eq_or_ne j k
  · exact hk
  · rw [Function.update_of_ne hne] at hj
    exact h j hj

/-- Each step of the stream is paid for out of the work left. -/
theorem workLeft_step {a : Action κ} (h : Seated s) (hF : Within F s)
    (hcall : ∀ k op, a = .call k op → k ∈ F) (hu : step tmpl batchSize s a = some s') :
    Within F s' ∧ work a + workLeft F s' ≤ workLeft F s + grant a := by
  cases a with
  | call k op =>
    have hk := hcall k op rfl
    cases step_move hu with
    | call _ _ hpc =>
      refine ⟨hF.update hk rfl, ?_⟩
      have hsum := sum_weight_update hk s.client (.wantLock op)
      have hidle : weight (s.client k) = 0 := by rw [hpc]; rfl
      have hwant : weight (.wantLock op) = 8 := rfl
      change 0 + (∑ j ∈ F, weight (Function.update s.client k (.wantLock op) j) + turns s) ≤
        ∑ j ∈ F, weight (s.client j) + turns s + 8
      omega
    | give | stop => exact ⟨hF, Nat.le_trans (Nat.le_of_eq (Nat.zero_add _)) (Nat.le_add_right _ 8)⟩
  | client k =>
    have hk := hF k (clientStep_move hu).inside
    obtain ⟨pc, hpc, hlt⟩ := turns_client (clientStep_move hu)
    refine ⟨hF.update hk hpc, ?_⟩
    have hsum := sum_weight_update hk s.client pc
    rw [workLeft, hpc, workLeft]
    simp only [work, grant]
    omega
  | coord timeout =>
    rw [step] at hu
    have hclient : s'.client = s.client := by cases coordStep_move hu <;> rfl
    refine ⟨by rwa [Within, hclient], ?_⟩
    rw [workLeft, workLeft, hclient]
    cases timeout with
    | false =>
      have hlt := turns_coord_lt h hu
      simp only [work, grant]
      omega
    | true =>
      have hle := turns_coord_le h hu
      simp only [work, grant]
      omega
  | next | tryNext | drop =>
    cases step_move hu <;> exact ⟨hF, Nat.le_of_eq (Nat.zero_add _)⟩

end Temari.StreamTurns
