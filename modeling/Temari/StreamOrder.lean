import Temari.StreamSeats
import Temari.Conveyor
import Temari.BlockLoop

/-! The stream is a line in order: whatever the batches and the timing, plaintexts leave in
the order in which their samples were accepted, and the end is reported last. -/
namespace Temari.StreamOrder
open RoundMachine Rounds BlockLoop Temari.Stream StreamMoves StreamSeats Transition Conveyor
variable {κ : Type} [DecidableEq κ] {tmpl : Template} {batchSize batch : Nat} {s s' : State κ}
  {samples out : List Bytes}

section Batch

/-- What the stream makes of a sample. -/
def plainOf (tmpl : Template) (sample : Bytes) : Bytes := (decrypt tmpl sample).getD []

/-- Every batch decryption returns. -/
def Returns (tmpl : Template) : Prop := ∀ samples, (decryptBatch tmpl samples).isSome = true

theorem returns_of_ctx (hctx : 0x8000 ≤ tmpl.ctx.length) : Returns tmpl := by
  intro samples
  rw [decryptBatch]
  induction samples with
  | nil => rfl
  | cons sample samples ih =>
    obtain ⟨p, hp, -⟩ := decrypt_isSome hctx sample
    obtain ⟨ps, hps⟩ := Option.isSome_iff_exists.mp ih
    rw [List.mapM_cons, hp, hps]
    rfl

theorem decrypt_plainOf (hret : Returns tmpl) (sample : Bytes) :
    decrypt tmpl sample = some (plainOf tmpl sample) := by
  have h := hret [sample]
  rw [decryptBatch, List.mapM_cons] at h
  rw [plainOf]
  cases hd : decrypt tmpl sample with
  | none => simp [hd] at h
  | some p => rfl

theorem plainOf_length (hctx : 0x8000 ≤ tmpl.ctx.length) (sample : Bytes) :
    (plainOf tmpl sample).length = sample.length := by
  obtain ⟨out, hout, hlen⟩ := decrypt_isSome hctx sample
  rw [plainOf, hout]
  exact hlen

theorem decryptBatch_eq (hret : Returns tmpl) (samples : List Bytes) :
    decryptBatch tmpl samples = some (samples.map (plainOf tmpl)) := by
  rw [decryptBatch]
  induction samples with
  | nil => rfl
  | cons sample samples ih =>
    rw [List.mapM_cons, ih, decrypt_plainOf hret]
    rfl

end Batch

/-- The coordinator stops only once its input has run dry. -/
structure Coherent (s : State κ) : Prop where
  drained : s.inputOpen = false → s.txOpen = false ∧ s.queue = []
  exited : s.coord = .exited → s.inputOpen = false ∧ s.buffer = []
  alive : s.coord ≠ .panicked
  first : s.coord = .first → s.buffer = []

/-- The plaintexts the coordinator has in hand. -/
def inHand (tmpl : Template) (s : State κ) : List Bytes :=
  match s.coord with
  | .sending rest => rest
  | _ => s.buffer.map (plainOf tmpl)

/-- The stream as a line. -/
def lineOf (tmpl : Template) (s : State κ) : Line Bytes Bytes where
  isOpen := s.txOpen
  accepted := s.accepted
  waiting := s.outQueue ++ inHand tmpl s ++ s.queue.map (plainOf tmpl)
  delivered := s.delivered
  ended := s.sawEnd

omit [DecidableEq κ] in
theorem coherent_of_seated (h : Seated s) (halive : s.coord ≠ .panicked) : Coherent s :=
  ⟨h.drained, h.exited, halive, fun hpc => (h.first hpc).1⟩

omit [DecidableEq κ] in
/-- Where every batch decryption returns, the coordinator does not panic. -/
theorem alive_coord (hret : Returns tmpl) (hm : CoordMove tmpl batch s s') :
    s'.coord ≠ .panicked := by
  cases hm with
  | enter pc hpc hnext => obtain ⟨rfl, -⟩ | ⟨rfl, -⟩ := hnext <;> nofun
  | panic hpc hout =>
    rw [decryptBatch_eq hret] at hout
    cases hout
  | _ => nofun

theorem alive_move {a : Action κ} (hret : Returns tmpl) (h : s.coord ≠ .panicked)
    (hm : Move tmpl batchSize s a s') : s'.coord ≠ .panicked := by
  cases hm with
  | client k s' hc => cases hc <;> exact h
  | coord timeout s' hc => exact alive_coord hret hc
  | _ => exact h

section Answers
variable {a : Answer}

omit [DecidableEq κ] in
theorem delivered_answer (s : State κ) (a : Answer) :
    (s.answer a).delivered = s.delivered ++ a.plain.toList := by
  rw [State.delivered, State.answer, List.filterMap_append]
  cases h : a.plain <;> simp [State.delivered, h]

omit [DecidableEq κ] in
theorem sawEnd_answer (s : State κ) (a : Answer) : (s.answer a).sawEnd = (s.sawEnd || a.isEnd) := by
  simp [State.sawEnd, State.answer]

end Answers

omit [DecidableEq κ] in
/-- The coordinator moves plaintexts on without changing their order. -/
theorem lineOf_coord (hret : Returns tmpl) (hm : CoordMove tmpl batch s s') :
    lineOf tmpl s' = lineOf tmpl s := by
  cases hm with
  | enter pc hpc hnext =>
    obtain ⟨rfl, -⟩ | ⟨rfl, -⟩ := hnext <;>
      simp [lineOf, inHand, hpc, State.delivered, State.sawEnd]
  | receive sample rest hpc hq =>
    obtain hpc | hpc := hpc <;> simp [lineOf, inHand, hpc, hq, State.delivered, State.sawEnd]
  | hangUp hpc hopen hq =>
    obtain hpc | hpc := hpc <;> simp [lineOf, inHand, hpc, State.delivered, State.sawEnd]
  | decrypt out hpc hout =>
    rw [decryptBatch_eq hret, Option.some.injEq] at hout
    simp [lineOf, inHand, hpc, ← hout, State.delivered, State.sawEnd]
  | panic hpc hout =>
    rw [decryptBatch_eq hret] at hout
    cases hout
  | exit hpc _ _ | skip hpc | full hpc | idle hpc _ | send _ _ hpc | clear hpc =>
    simp [lineOf, inHand, hpc, State.delivered, State.sawEnd]

omit [DecidableEq κ] in
/-- When the coordinator has ended, nothing is left on the way. -/
theorem Coherent.dry (h : Coherent s) (tmpl : Template) (hend : s.coord.ended = true) :
    s.txOpen = false ∧ s.queue = [] ∧ inHand tmpl s = [] := by
  have hpc : s.coord = .exited := by
    have := h.alive
    cases hc : s.coord <;> simp_all [CoordPc.ended]
  obtain ⟨hin, hb⟩ := h.exited hpc
  obtain ⟨hopen, hq⟩ := h.drained hin
  exact ⟨hopen, hq, by simp [inHand, hpc, hb]⟩

/-- A step of the stream is a step of the line or leaves it as it is. -/
theorem lineOf_step {a : Action κ} (h : Coherent s) (hret : Returns tmpl)
    (hm : Move tmpl batchSize s a s') :
    lineOf tmpl s' = lineOf tmpl s ∨ Step (plainOf tmpl) (lineOf tmpl s) (lineOf tmpl s') := by
  cases hm with
  | call k op hpc => exact Or.inl rfl
  | client k s' hc =>
    cases hc with
    | accept sample hpc hopen hlive hroom =>
      right
      have hline : lineOf tmpl ((s.accept sample).release k) =
          (lineOf tmpl s).accept (plainOf tmpl) sample := by
        simp [lineOf, inHand, State.accept, State.release, State.setClient, Line.accept,
          State.delivered, State.sawEnd]
      rw [hline]
      exact .accept sample hopen
    | finish hpc => exact Or.inr .close
    | _ => exact Or.inl rfl
  | coord timeout s' hc => exact Or.inl (lineOf_coord hret hc)
  | give _ ans p rest hans hq =>
    right
    have hline : lineOf tmpl ({ s with outQueue := rest }.answer ans) =
        (lineOf tmpl s).deliver p (rest ++ inHand tmpl s ++ s.queue.map (plainOf tmpl)) := by
      rw [lineOf, delivered_answer, sawEnd_answer]
      obtain rfl | rfl := hans <;>
        simp [lineOf, inHand, Line.deliver, State.answer, State.delivered, State.sawEnd,
          Answer.plain, Answer.isEnd]
    rw [hline]
    exact .deliver p _ (by simp [lineOf, hq])
  | stop _ ans hans hq hend =>
    right
    obtain ⟨hopen, hqueue, hhand⟩ := h.dry tmpl hend
    have hline : lineOf tmpl (s.answer ans) = (lineOf tmpl s).stop := by
      rw [lineOf, delivered_answer, sawEnd_answer]
      obtain rfl | rfl := hans <;>
        simp [lineOf, inHand, Line.stop, State.answer, Answer.plain, Answer.isEnd]
    rw [hline]
    exact .stop hopen (by simp [lineOf, hq, hqueue, hhand])
  | pending hq =>
    left
    rw [lineOf, delivered_answer, sawEnd_answer]
    simp [lineOf, inHand, State.answer, Answer.plain, Answer.isEnd]
  | dropClose hd => exact Or.inr .close
  | dropJoin hd hend => exact Or.inl rfl

/-- In every state reached the stream is coherent and its line is in order. -/
theorem reached_inv (hret : Returns tmpl)
    (h : Reaches (step tmpl batchSize) (initial : State κ) s) :
    Coherent s ∧ Inv (plainOf tmpl) (lineOf tmpl s) := by
  have hboth : s.coord ≠ .panicked ∧ Inv (plainOf tmpl) (lineOf tmpl s) := by
    refine h.invariant (I := fun s => s.coord ≠ .panicked ∧ Inv (plainOf tmpl) (lineOf tmpl s))
      ⟨nofun, inv_start⟩ ?_
    intro t a u ht ⟨halive, hl⟩ _ hu
    have hm := step_move hu
    refine ⟨alive_move hret halive hm, ?_⟩
    obtain he | hs := lineOf_step (coherent_of_seated (reached_seated ht) halive) hret hm
    · exact he ▸ hl
    · exact hl.step hs
  exact ⟨coherent_of_seated (reached_seated h) hboth.1, hboth.2⟩

section Delivery

/-- A stream at rest, with what it has accepted and answered. -/
def atRest (accepted : List Bytes) (answers : List Answer) : State κ :=
  { initial with accepted, answers }

/-- The actions that take one sample through the stream in a batch of its own. -/
def through (k : κ) (sample : Bytes) : List (Action κ) :=
  [.call k (.submit sample), .client k, .client k, .coord false, .coord false, .coord true,
    .coord true, .coord true, .coord true, .next]

theorem run_through (hret : Returns tmpl) (batchSize : Nat) (k : κ) (sample : Bytes)
    (accepted : List Bytes) (answers : List Answer) :
    run (step tmpl batchSize) (atRest accepted answers) (through k sample) =
      some (atRest (accepted ++ [sample]) (answers ++ [.next (some (plainOf tmpl sample))])) := by
  have hroom : 0 < batchOf batchSize * 2 := Nat.mul_pos (batchOf_pos batchSize) (by decide)
  simp [run, through, step, atRest, initial, clientStep, coordStep, nextStep, recvTimeout,
    State.setClient, State.release, State.accept, State.answer, hroom, CoordPc.ended,
    decryptBatch_eq hret]

theorem run_through_all (hret : Returns tmpl) (batchSize : Nat) (k : κ)
    (samples accepted : List Bytes) (answers : List Answer) :
    run (step tmpl batchSize) (atRest accepted answers) (samples.flatMap (through k)) =
      some (atRest (accepted ++ samples)
        (answers ++ samples.map fun x => .next (some (plainOf tmpl x)))) := by
  induction samples generalizing accepted answers with
  | nil => simp [run]
  | cons x samples ih =>
    rw [List.flatMap_cons, run_append (run_through hret batchSize k x accepted answers), ih]
    simp

/-- The actions that finish a stream at rest and let its consumer see the end. -/
def finishing (k : κ) : List (Action κ) :=
  [.call k .finish, .client k, .client k, .client k, .coord false, .coord false, .coord true,
    .coord true, .coord true, .next]

theorem run_finishing (tmpl : Template) (batchSize : Nat) (k : κ) (accepted : List Bytes)
    (answers : List Answer) :
    run (step tmpl batchSize) (atRest accepted answers) (finishing k) =
      some { (atRest accepted (answers ++ [.next none]) : State κ) with
        txOpen := false, closed := true, inputOpen := false, coord := .exited } := by
  simp [run, finishing, step, atRest, initial, clientStep, coordStep, nextStep, recvTimeout,
    State.setClient, State.answer, CoordPc.ended]

end Delivery

/-- What has been handed out is a prefix of the plaintexts of the accepted samples, and
the end is reported only when the input is closed and everything has been handed out. -/
theorem stream_in_order (tmpl : Template) (batchSize : Nat) (s : State κ)
    (hctx : 0x8000 ≤ tmpl.ctx.length) (h : Reaches (step tmpl batchSize) initial s) :
    ∃ plain, s.accepted.mapM (decrypt tmpl) = some plain ∧ s.delivered <+: plain ∧
      (s.sawEnd = true → s.txOpen = false ∧ s.delivered = plain) := by
  obtain ⟨-, hline⟩ := reached_inv (returns_of_ctx hctx) h
  exact ⟨_, decryptBatch_eq (returns_of_ctx hctx) s.accepted, hline.front, hline.complete⟩

/-- Two samples, of which the second has a full block, taken through the stream to its end. -/
theorem stream_in_order_two : ∃ s : State Unit, s.sawEnd = true ∧
    s.accepted = [[7], .replicate 17 1] ∧
    ∃ plain, s.accepted.mapM (decrypt eightTemplate) = some plain ∧ s.delivered = plain := by
  have hctx : 0x8000 ≤ eightTemplate.ctx.length := List.length_replicate.ge
  have hrun := (run_append (run_through_all (returns_of_ctx hctx) 2 () [[7], .replicate 17 1] []
    [])).trans (run_finishing eightTemplate 2 () _ _)
  obtain ⟨plain, hplain, -, hall⟩ := stream_in_order eightTemplate 2 _ hctx (reaches_of_run hrun)
  exact ⟨_, rfl, rfl, plain, hplain, (hall rfl).2⟩

end Temari.StreamOrder
