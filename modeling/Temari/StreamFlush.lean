import Temari.StreamCompletion

/-! A partial batch does not wait for more samples: from every state reached the coordinator alone
decrypts all that has been accepted, with one receive that times out at most. -/
namespace Temari.StreamFlush
open RoundMachine Rounds Temari.Stream StreamMoves StreamOrder StreamSeats StreamTurns
open StreamProgress StreamCompletion Transition
variable {κ : Type} [DecidableEq κ] {tmpl : Template} {batchSize batch : Nat} {s t : State κ}

/-- A receive that is told to time out. -/
def timesOut : Action κ → Bool
  | .coord timeout => timeout
  | _ => false

section Clearing

/-- The channel is empty, and the coordinator is on its way round to its first receive. -/
structure Clearing (s : State κ) : Prop where
  queue : s.queue = []
  isOpen : s.txOpen = true
  round : s.coord ≠ .fill
  test : s.coord = .test → s.buffer = []

omit [DecidableEq κ] in
theorem Clearing.coord (h : Clearing s) (hu : coordStep tmpl batch s false = some t) :
    Clearing t := by
  cases coordStep_move hu with
  | enter pc hpc hnext =>
    obtain ⟨rfl, -⟩ | ⟨-, hbuffer⟩ := hnext
    · exact ⟨h.queue, h.isOpen, by simp, by simp⟩
    · exact absurd (h.test hpc) hbuffer
  | exit hpc hin hbuffer => exact ⟨h.queue, h.isOpen, by simp, by simp⟩
  | receive sample rest hpc hq => cases h.queue.symm.trans hq
  | skip hpc => simp [coordStep, hpc, recvTimeout, h.queue, h.isOpen] at hu
  | hangUp hpc hclosed hq => cases h.isOpen.symm.trans hclosed
  | full hpc => exact absurd hpc h.round
  | idle hpc hbuffer => exact ⟨h.queue, h.isOpen, by simp, fun _ => hbuffer⟩
  | decrypt out hpc hout => exact ⟨h.queue, h.isOpen, by simp, by simp⟩
  | panic hpc hout => exact ⟨h.queue, h.isOpen, by simp, by simp⟩
  | send p rest hpc => exact ⟨h.queue, h.isOpen, by simp, by simp⟩
  | clear hpc => exact ⟨h.queue, h.isOpen, by simp, fun _ => rfl⟩

end Clearing

omit [DecidableEq κ] in
/-- The coordinator waits at one of its receives. -/
theorem receives_of_rest (hlive : s.coord.ended = false)
    (hnone : coordStep tmpl batch s false = none) : s.coord = .first ∨ s.coord = .fill := by
  cases hpc : s.coord with
  | first => exact .inl rfl
  | fill => exact .inr rfl
  | test =>
    simp only [coordStep, hpc] at hnone
    split at hnone <;> cases hnone
  | flush =>
    simp only [coordStep, hpc] at hnone
    split at hnone
    · cases hnone
    · split at hnone <;> cases hnone
  | sending rest => cases rest <;> simp [coordStep, hpc] at hnone
  | exited | panicked =>
    rw [hpc] at hlive
    cases hlive

/-- Steps of the coordinator that do not time out come to an end. -/
theorem coord_rests (h : Reaches (step tmpl batchSize) initial s) {J : State κ → Prop} (hJ : J s)
    (hcoord : ∀ t u, J t → coordStep tmpl (batchOf batchSize) t false = some u → J u) :
    ∃ as t, (∀ a ∈ as, a = .coord false) ∧ run (step tmpl batchSize) s as = some t ∧
      Reaches (step tmpl batchSize) initial t ∧ J t ∧
      coordStep tmpl (batchOf batchSize) t false = none := by
  have hrank : ∀ t a u, Reaches (step tmpl batchSize) initial t ∧ J t → a = .coord false →
      step tmpl batchSize t a = some u →
      (Reaches (step tmpl batchSize) initial u ∧ J u) ∧ turns u < turns t := by
    rintro t a u ⟨ht, hj⟩ rfl hu
    exact ⟨⟨.tail ht trivial hu, hcoord t u hj hu⟩, turns_coord_lt (reached_seated ht) hu⟩
  obtain ⟨as, t, has, hrun, ⟨ht, hj⟩, hrest⟩ := exists_rest hrank ⟨h, hJ⟩
  exact ⟨as, t, has, hrun, ht, hj, hrest _ rfl⟩

/-- Before its first receive the coordinator has nothing in hand. -/
theorem decrypted_of_first (hret : Returns tmpl) (h : Reaches (step tmpl batchSize) initial s)
    (hpc : s.coord = .first) (hq : s.queue = []) : Decrypted tmpl s := by
  obtain ⟨hco, hline⟩ := reached_inv hret h
  have horder := hline.order
  simp only [lineOf, inHand, hpc, hq, hco.first hpc, List.append_nil, List.map_nil] at horder
  rw [Decrypted, ← decryptBatch, decryptBatch_eq hret, horder]

/-- The coordinator alone decrypts all that has been accepted, and ends on a closed input. -/
theorem coord_flushes (hret : Returns tmpl) (h : Reaches (step tmpl batchSize) initial s) :
    ∃ as t, (∀ a ∈ as, ∃ timeout, a = .coord timeout) ∧ as.countP timesOut ≤ 1 ∧
      run (step tmpl batchSize) s as = some t ∧ Outside s t ∧ Decrypted tmpl t ∧
      (s.txOpen = false → t.coord.ended = true) := by
  have hnone : ∀ as : List (Action κ), (∀ a ∈ as, a = .coord false) → as.countP timesOut = 0 :=
    fun as has => List.countP_eq_zero.mpr fun a ha => by rw [has a ha]; exact Bool.false_ne_true
  obtain ⟨as, t, has, hrun, ht, hout, hrest⟩ := coord_rests h (J := Outside s)
    ⟨rfl, rfl, rfl, rfl, rfl⟩ fun t u hj hu => hj.coord (coordStep_move hu)
  have hcoord : ∀ a ∈ as, ∃ timeout, a = .coord timeout := fun a ha => ⟨false, has a ha⟩
  cases hend : t.coord.ended with
  | true =>
    exact ⟨as, t, hcoord, Nat.le_succ_of_le (Nat.le_of_eq (hnone as has)), hrun, hout,
      decrypted_of_ended hret ht hend, fun _ => hend⟩
  | false =>
    obtain ⟨hq, hopen⟩ : t.queue = [] ∧ t.txOpen = true := by
      by_contra hnot
      have hsome : (coordStep tmpl (batchOf batchSize) t false).isSome = true := by
        refine coordStep_isSome hend ?_ false
        by_cases hq : t.queue = []
        · exact .inr (eq_false_of_ne_true fun hopen => hnot ⟨hq, hopen⟩)
        · exact .inl hq
      rw [hrest] at hsome
      cases hsome
    have hstill : s.txOpen ≠ false := by
      rw [← hout.txOpen, hopen]
      intro heq
      cases heq
    obtain hpc | hpc := receives_of_rest hend hrest
    · exact ⟨as, t, hcoord, Nat.le_succ_of_le (Nat.le_of_eq (hnone as has)), hrun, hout,
        decrypted_of_first hret ht hpc hq, fun hclosed => absurd hclosed hstill⟩
    · -- a partial batch: the receive times out, and the batch goes
      have hflush : step tmpl batchSize t (.coord true) = some { t with coord := .flush } := by
        simp only [step, coordStep, hpc, recvTimeout, if_true]
        split <;> rfl
      obtain ⟨bs, u, hbs, hrun', hu, ⟨hclear, hout'⟩, hrest'⟩ :=
        coord_rests (.tail ht trivial hflush) (J := fun u => Clearing u ∧ Outside s u)
          ⟨⟨hq, hopen, by simp, by simp⟩, hout.txLock, hout.txOpen, hout.client, hout.dropper,
            hout.accepted⟩
          fun t u hj hu => ⟨hj.1.coord hu, hj.2.coord (coordStep_move hu)⟩
      have hpc' := (receives_of_rest (live_of_open hret hu hclear.isOpen) hrest').resolve_right
        hclear.round
      refine ⟨as ++ .coord true :: bs, u, ?_, ?_, (run_append hrun).trans
        (run_cons_eq_some.mpr ⟨_, hflush, hrun'⟩), hout',
        decrypted_of_first hret hu hpc' hclear.queue, fun hclosed => absurd hclosed hstill⟩
      · simp only [List.mem_append, List.mem_cons]
        rintro a (ha | rfl | ha)
        · exact hcoord a ha
        · exact ⟨true, rfl⟩
        · exact ⟨false, hbs a ha⟩
      · rw [List.countP_append, List.countP_cons, hnone as has, hnone bs hbs]
        rfl

end Temari.StreamFlush
