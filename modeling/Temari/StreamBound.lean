import Temari.StreamMoves

/-! Backpressure: how many accepted samples the stream can hold before their plaintexts are on
the output channel, and how large the batches for the pool are. -/
namespace Temari.StreamBound
open RoundMachine Rounds Temari.Stream StreamMoves Transition
variable {κ : Type} [DecidableEq κ] {tmpl : Template} {batchSize batch : Nat} {s s' : State κ}

/-- The batch that a step hands to the pool. -/
def handed (s : State κ) : Action κ → Option (List Bytes)
  | .coord _ =>
    match s.coord with
    | .flush => if s.buffer = [] then none else some s.buffer
    | _ => none
  | _ => none

/-- The pool is called with this batch, and where there is none it is not called. -/
theorem step_handed (tmpl tmpl' : Template) (batchSize : Nat) (s : State κ) (a : Action κ) :
    (∀ samples, handed s a = some samples → step tmpl batchSize s a = some
      (match decryptBatch tmpl samples with
        | some out => { s with coord := .sending out }
        | none => { s with coord := .panicked })) ∧
    (handed s a = none → step tmpl batchSize s a = step tmpl' batchSize s a) := by
  cases a with
  | coord timeout =>
    cases hpc : s.coord with
    | flush =>
      by_cases hb : s.buffer = []
      · simp [handed, step, coordStep, hpc, hb]
      · refine ⟨fun samples hs => ?_, fun hs => ?_⟩
        · simp only [handed, hpc, if_neg hb, Option.some.injEq] at hs
          subst hs
          simp only [step, coordStep, hpc, if_neg hb]
          cases decryptBatch tmpl s.buffer <;> rfl
        · simp only [handed, hpc, if_neg hb] at hs
          cases hs
    | sending rest => cases rest <;> simp [handed, step, coordStep, hpc]
    | _ => simp [handed, step, coordStep, hpc]
  | _ => simp [handed, step]

theorem decryptBatch_length {samples out : List Bytes} (h : decryptBatch tmpl samples = some out) :
    out.length = samples.length := by
  induction samples generalizing out with
  | nil =>
    cases h
    rfl
  | cons sample samples ih =>
    rw [decryptBatch, List.mapM_cons] at h
    simp only [Option.bind_eq_bind, Option.bind_eq_some_iff] at h
    obtain ⟨p, -, ps, hps, hout⟩ := h
    cases hout
    rw [List.length_cons, List.length_cons, ih hps]

/-- The samples the coordinator has taken whose plaintexts it has not sent on. -/
def held (s : State κ) : Nat :=
  match s.coord with
  | .sending rest => rest.length
  | _ => s.buffer.length

/-- Every accepted sample is in the input channel, with the coordinator, on the output channel
or delivered, and the first two have bounded room. -/
structure Bounded (batch : Nat) (s : State κ) : Prop where
  queue : s.queue.length ≤ batch * 2
  buffer : s.buffer.length ≤ batch
  held : held s ≤ s.buffer.length
  first : s.coord = .first → s.buffer = []
  count : s.accepted.length =
    s.delivered.length + s.outQueue.length + StreamBound.held s + s.queue.length

omit [DecidableEq κ] in
theorem bounded_initial : Bounded batch (initial : State κ) := by
  constructor <;> simp [initial, held, State.delivered]

omit [DecidableEq κ] in
/-- The guarded loop receives only where the buffer has room. -/
theorem room_of_receive {timeout : Bool} {sample : Bytes} {rest : List Bytes}
    (h : coordStep tmpl batch s timeout = some
      { s with queue := rest, buffer := s.buffer ++ [sample], coord := .fill })
    (hpc : s.coord = .fill) : s.buffer.length < batch := by
  by_contra hfull
  simp only [coordStep, hpc, hfull, false_and, if_false, Option.some.injEq] at h
  have hbuffer := congrArg (fun t => t.buffer.length) h
  simp at hbuffer

/-- The coordinator has nothing decrypted in hand. -/
def gathering : CoordPc → Bool
  | .sending _ => false
  | _ => true

omit [DecidableEq κ] in
theorem held_of_gathering (h : gathering s.coord = true) : held s = s.buffer.length := by
  unfold held
  split
  next rest hpc =>
    rw [hpc] at h
    cases h
  next => rfl

omit [DecidableEq κ] in
/-- The coordinator goes on with the samples it has. -/
theorem Bounded.turn (h : Bounded batch s) (inputOpen : Bool) (pc : CoordPc)
    (hpc : gathering s.coord = true) (hpc' : gathering pc = true)
    (hfirst : pc = .first → s.buffer = []) : Bounded batch { s with inputOpen, coord := pc } := by
  have hheld' : StreamBound.held { s with inputOpen, coord := pc } = s.buffer.length :=
    held_of_gathering hpc'
  refine ⟨h.queue, h.buffer, Nat.le_of_eq hheld', hfirst, ?_⟩
  rw [hheld', ← held_of_gathering hpc]
  exact h.count

omit [DecidableEq κ] in
theorem Bounded.receive (h : Bounded batch s) (hpc : gathering s.coord = true) {sample : Bytes}
    {rest : List Bytes} (hq : s.queue = sample :: rest) (hroom : s.buffer.length < batch) :
    Bounded batch { s with queue := rest, buffer := s.buffer ++ [sample], coord := .fill } := by
  have hqueue := h.queue
  have hcount := h.count
  rw [hq, List.length_cons] at hqueue hcount
  rw [held_of_gathering hpc] at hcount
  have hbuffer : (s.buffer ++ [sample]).length = s.buffer.length + 1 := by simp
  refine ⟨Nat.le_of_succ_le hqueue, hbuffer ▸ hroom, Nat.le_refl _, nofun, ?_⟩
  change s.accepted.length = s.delivered.length + s.outQueue.length +
    (s.buffer ++ [sample]).length + rest.length
  omega

omit [DecidableEq κ] in
theorem Bounded.coord (h : Bounded batch s) (hbatch : 0 < batch) {timeout : Bool}
    (hu : coordStep tmpl batch s timeout = some s') : Bounded batch s' := by
  cases coordStep_move hu with
  | enter pc hpc hnext =>
    obtain ⟨rfl, hb⟩ | ⟨rfl, -⟩ := hnext
    · exact h.turn s.inputOpen .first (by rw [hpc]; rfl) rfl fun _ => hb
    · exact h.turn s.inputOpen .fill (by rw [hpc]; rfl) rfl nofun
  | receive sample rest hpc hq =>
    obtain hpc | hpc := hpc
    · exact h.receive (by rw [hpc]; rfl) hq (by rw [h.first hpc]; exact hbatch)
    · exact h.receive (by rw [hpc]; rfl) hq (room_of_receive hu hpc)
  | hangUp hpc hopen hq =>
    obtain hpc | hpc := hpc <;> exact h.turn false .fill (by rw [hpc]; rfl) rfl nofun
  | exit hpc hin hb => exact h.turn s.inputOpen .exited (by rw [hpc]; rfl) rfl nofun
  | skip hpc => exact h.turn s.inputOpen .fill (by rw [hpc]; rfl) rfl nofun
  | full hpc => exact h.turn s.inputOpen .flush (by rw [hpc]; rfl) rfl nofun
  | idle hpc hb => exact h.turn s.inputOpen .test (by rw [hpc]; rfl) rfl nofun
  | panic hpc hout => exact h.turn s.inputOpen .panicked (by rw [hpc]; rfl) rfl nofun
  | decrypt out hpc hout =>
    have hlen := decryptBatch_length hout
    have hcount := h.count
    rw [held_of_gathering (by rw [hpc]; rfl), ← hlen] at hcount
    exact ⟨h.queue, h.buffer, Nat.le_of_eq hlen, nofun, hcount⟩
  | send p rest hpc =>
    have hheld := h.held
    have hcount := h.count
    simp only [StreamBound.held, hpc, List.length_cons] at hheld hcount
    refine ⟨h.queue, h.buffer, Nat.le_of_succ_le hheld, nofun, ?_⟩
    change s.accepted.length = s.delivered.length + (s.outQueue ++ [p]).length + rest.length +
      s.queue.length
    rw [List.length_append, List.length_singleton]
    omega
  | clear hpc =>
    have hcount := h.count
    simp only [StreamBound.held, hpc, List.length_nil] at hcount
    exact ⟨h.queue, Nat.zero_le _, Nat.le_refl _, nofun, hcount⟩

omit [DecidableEq κ] in
theorem Bounded.answer (h : Bounded batch s) {rest : List Bytes} {a : Answer}
    (hq : s.outQueue.length = a.plain.toList.length + rest.length) :
    Bounded batch ({ s with outQueue := rest }.answer a) := by
  refine ⟨h.queue, h.buffer, h.held, h.first, ?_⟩
  have hdelivered : ({ s with outQueue := rest }.answer a).delivered.length =
      s.delivered.length + a.plain.toList.length := by
    rw [State.delivered, State.answer, List.filterMap_append, List.length_append]
    cases hp : a.plain <;> simp [State.delivered, hp]
  have hcount := h.count
  rw [hdelivered]
  change s.accepted.length =
    s.delivered.length + a.plain.toList.length + rest.length + StreamBound.held s + s.queue.length
  omega

theorem Bounded.step (h : Bounded (batchOf batchSize) s) {a : Action κ}
    (hu : Stream.step tmpl batchSize s a = some s') : Bounded (batchOf batchSize) s' := by
  cases step_move hu with
  | client k s' hm =>
    cases hm with
    | accept sample hpc hopen hlive hroom =>
      have hcount := h.count
      refine ⟨?_, h.buffer, h.held, h.first, ?_⟩
      · change (s.queue ++ [sample]).length ≤ _
        rw [List.length_append, List.length_singleton]
        omega
      · change (s.accepted ++ [sample]).length = s.delivered.length + s.outQueue.length +
          StreamBound.held s + (s.queue ++ [sample]).length
        rw [List.length_append, List.length_append, List.length_singleton]
        omega
    | _ => exact ⟨h.queue, h.buffer, h.held, h.first, h.count⟩
  | coord timeout s' hm => exact h.coord (batchOf_pos batchSize) hu
  | give _ ans p rest hans hq =>
    obtain rfl | rfl := hans <;>
      exact h.answer (by rw [hq, List.length_cons, Nat.add_comm]; rfl)
  | stop _ ans hans hq hend =>
    obtain rfl | rfl := hans <;> exact h.answer (Nat.zero_add _).symm
  | pending hq => exact h.answer (Nat.zero_add _).symm
  | _ => exact ⟨h.queue, h.buffer, h.held, h.first, h.count⟩

theorem reached_bounded (h : Reaches (Stream.step tmpl batchSize) (initial : State κ) s) :
    Bounded (batchOf batchSize) s :=
  h.invariant (I := Bounded (batchOf batchSize)) bounded_initial fun _ _ _ _ hi _ hu => hi.step hu

/-- At most 3b accepted samples, 2b in the input channel and b with the coordinator, are not yet
on the output channel, and every batch for the pool has between one and b samples. -/
theorem backpressure (tmpl : Template) (batchSize : Nat) (s : State κ)
    (h : Reaches (Stream.step tmpl batchSize) initial s) :
    s.delivered.length + s.outQueue.length ≤ s.accepted.length ∧
      s.accepted.length - (s.delivered.length + s.outQueue.length) ≤ 3 * batchOf batchSize ∧
      s.queue.length ≤ 2 * batchOf batchSize ∧ s.buffer.length ≤ batchOf batchSize ∧
      ∀ a samples, handed s a = some samples →
        samples ≠ [] ∧ samples.length ≤ batchOf batchSize := by
  obtain ⟨hqueue, hbuffer, hheld, -, hcount⟩ := reached_bounded h
  refine ⟨by omega, by omega, by omega, hbuffer, fun a samples hs => ?_⟩
  unfold handed at hs
  split at hs
  · split at hs
    · split at hs
      · cases hs
      next hne =>
        cases hs
        exact ⟨hne, hbuffer⟩
    · cases hs
  · cases hs

theorem backpressure_one : ∃ (s : State Unit) (samples : List Bytes), s.accepted = [[7]] ∧
    s.accepted.length - (s.delivered.length + s.outQueue.length) ≤ 3 ∧
    handed s (.coord false) = some samples ∧ samples ≠ [] ∧ samples.length ≤ 1 := by
  obtain ⟨s, hrun, hacc, hhand⟩ : ∃ s, run (Stream.step eightTemplate 0) (initial : State Unit)
      ([.call () (.submit [7]), .client (), .client ()] ++ .replicate 3 (.coord false)) = some s ∧
        s.accepted = [[7]] ∧ handed s (.coord false) = some [[7]] := ⟨_, rfl, rfl, rfl⟩
  obtain ⟨-, hb, -, -, hbatch⟩ := backpressure eightTemplate 0 s (reaches_of_run hrun)
  exact ⟨s, [[7]], hacc, hb, hhand, hbatch _ _ hhand⟩

end Temari.StreamBound
