import Temari.AiterOrder
import Temari.StreamCompletion

/-! Asynchronous iteration comes to its end. One count goes down with every step of its threads, and
where none of them has a step left and the input is closed, the iterator has finished. -/
namespace Temari.AiterCompletion
open RoundMachine Rounds Ffi RetryLoop Transition Aiter AiterLedger AiterWithheld AiterOrder
  StreamSeats
open StreamTurns
variable {κ : Type} [DecidableEq κ] {tmpl : Template} {batchSize : Nat} {s t : State κ}
  {F : Finset κ} {item : Item}

/-- Steps of the pump until it reads again or is done, and what they leave to the consumer, with n
plaintexts in the batch. -/
def pumpLeft (n : Nat) : PumpPc → Nat
  | .unstarted | .reading => 2 * n + 11
  | .acquire false => 2 * n + 16
  | .handing false => 2 * n + 15
  | .acquire true => 2 * n + 10
  | .handing true => 2 * n + 9
  | .closing => 5
  | .ending => 4
  | .done => 0

/-- A plaintext that leaves the coordinator costs 12 steps at most on its way to the consumer. -/
def stepsLeft (F : Finset κ) (s : State κ) : Nat :=
  16 * workLeft F s.stream + 12 * s.stream.outQueue.length + pumpLeft s.batch.length s.pump +
    toYield s

/-- The steps that bring the iteration forward. -/
def work : Action κ → Nat
  | .stream a => StreamTurns.work a
  | _ => 1

/-- What a step may add: a new call, or a receive that timed out. -/
def grant : Action κ → Nat
  | .stream (.call _ _) => 140
  | .stream (.coord true) => 76
  | _ => 0

section Steps

/-- The other threads of the stream send one plaintext at most. -/
theorem outQueue_ofOthers {u v : Stream.State κ} {a : Stream.Action κ} (ha : ofOthers a = true)
    (hu : Stream.step tmpl batchSize u a = some v) :
    v.outQueue.length ≤ u.outQueue.length + 1 := by
  cases a with
  | call k op =>
    simp only [Stream.step] at hu
    split at hu <;> cases hu
    exact Nat.le_succ _
  | client k => cases StreamMoves.clientStep_move hu <;> exact Nat.le_succ _
  | coord timeout =>
    cases StreamMoves.coordStep_move hu with
    | send p rest hpc => exact Nat.le_of_eq List.length_append
    | _ => exact Nat.le_succ _
  | _ => cases ha

theorem stepsLeft_stream {a : Stream.Action κ} {v : Stream.State κ} (hs : Seated s.stream)
    (hF : Within F s.stream) (hcall : ∀ k op, a = .call k op → k ∈ F) (ha : ofOthers a = true)
    (hv : Stream.step tmpl batchSize s.stream a = some v) :
    Within F v ∧ work (.stream a) + stepsLeft F { s with stream := v } ≤
      stepsLeft F s + grant (.stream a) := by
  obtain ⟨hin, hle⟩ := workLeft_step hs hF hcall hv
  have hout := outQueue_ofOthers ha hv
  refine ⟨hin, ?_⟩
  have hyield : toYield { s with stream := v } = toYield s := rfl
  rw [stepsLeft, hyield, stepsLeft]
  cases a with
  | call k op =>
    simp only [work, grant, StreamTurns.work, StreamTurns.grant] at hle ⊢
    omega
  | client k =>
    simp only [work, grant, StreamTurns.work, StreamTurns.grant] at hle ⊢
    omega
  | coord timeout =>
    cases timeout with
    | false =>
      simp only [work, grant, StreamTurns.work, StreamTurns.grant] at hle ⊢
      omega
    | true =>
      simp only [work, grant, StreamTurns.work, StreamTurns.grant] at hle ⊢
      omega
  | _ => cases ha

omit [DecidableEq κ] in
/-- What the pump puts on its way, or takes from the stream, comes out of its own steps. -/
theorem stepsLeft_lt {m : Nat} (hwork : workLeft F t.stream = workLeft F s.stream)
    (hyield : toYield t = toYield s + m)
    (hlt : 12 * t.stream.outQueue.length + pumpLeft t.batch.length t.pump + m <
      12 * s.stream.outQueue.length + pumpLeft s.batch.length s.pump) :
    stepsLeft F t < stepsLeft F s := by
  rw [stepsLeft, stepsLeft, hwork, hyield]
  omega

omit [DecidableEq κ] in
theorem toYield_callback (h : t.callbacks = s.callbacks ++ [item]) (hq : t.queue = s.queue)
    (hr : t.reader = s.reader) : toYield t = toYield s + (AiterWithheld.load item + 1) := by
  simp only [toYield, h, hq, hr, List.map_append, List.map_cons, List.map_nil, List.sum_append,
    List.sum_cons, List.sum_nil, List.length_append, List.length_cons, List.length_nil]
  omega

theorem stepsLeft_pump (F : Finset κ) (hm : PumpMove tmpl batchSize s t) :
    stepsLeft F t < stepsLeft F s := by
  cases hm with
  | keep p rest hpc hq hp hlt =>
    refine stepsLeft_lt (m := 0) rfl rfl ?_
    simp only [Stream.State.answer, hq, hpc, List.length_append, List.length_cons,
      List.length_nil]
    by_cases hc : chunk ≤ s.batch.length + 1
    · simp only [hc, if_true, pumpLeft]
      omega
    · simp only [hc, if_false, pumpLeft]
      omega
  | lose p rest hpc hq hcap hle =>
    refine stepsLeft_lt (m := 0) rfl rfl ?_
    simp only [Stream.State.answer, hq, List.length_cons]
    omega
  | stop u hpc hzero hu =>
    obtain ⟨hwork, hout⟩ : workLeft F u = workLeft F s.stream ∧
        u.outQueue.length ≤ s.stream.outQueue.length := by
      obtain ⟨p, rest, hq, rfl⟩ | ⟨-, -, rfl⟩ := next_cases hu
      · refine ⟨rfl, ?_⟩
        rw [hq]
        exact Nat.le_succ _
      · exact ⟨rfl, Nat.le_refl _⟩
    refine stepsLeft_lt (m := 0) hwork rfl ?_
    by_cases hb : s.batch = []
    · simp only [hpc, hb, if_true, pumpLeft, List.length_nil]
      omega
    · simp only [hpc, hb, if_false, pumpLeft]
      omega
  | acquire last hpc hs =>
    refine stepsLeft_lt (m := 0) rfl rfl ?_
    cases last <;> simp [hpc, pumpLeft]
  | hand last hpc =>
    refine stepsLeft_lt rfl (toYield_callback rfl rfl rfl) ?_
    cases last with
    | true =>
      simp only [hpc, if_true, pumpLeft, AiterWithheld.load]
      omega
    | false =>
      simp only [hpc, Bool.false_eq_true, if_false, pumpLeft, List.length_nil, AiterWithheld.load]
      omega
  | close hpc hs =>
    refine stepsLeft_lt (m := 0) rfl rfl ?_
    simp [hpc, pumpLeft]
  | finish hpc =>
    refine stepsLeft_lt rfl (toYield_callback rfl rfl rfl) ?_
    simp [hpc, pumpLeft, AiterWithheld.load]

omit [DecidableEq κ] in
theorem stepsLeft_side (F : Finset κ) (hl : Ledger s) (hm : SideMove s t) :
    stepsLeft F t < stepsLeft F s := by
  have hlt := toYield_side hm
  have hsame : t.stream = s.stream ∧ pumpLeft t.batch.length t.pump =
      pumpLeft s.batch.length s.pump := by
    obtain ⟨hr, rfl⟩ | hb := hm.beside
    · refine ⟨rfl, ?_⟩
      rw [hl.fresh hr]
      rfl
    · rw [hb.stream, hb.batch, hb.pump]
      exact ⟨rfl, rfl⟩
  obtain ⟨hstream, hpump⟩ := hsame
  rw [stepsLeft, hstream, hpump, stepsLeft]
  omega

/-- Each step is paid for out of the steps left. -/
theorem stepsLeft_step {a : Action κ} (h : Reaches (Aiter.step tmpl batchSize) initial s)
    (hF : Within F s.stream) (hcall : ∀ k op, a = .stream (.call k op) → k ∈ F)
    (hu : Aiter.step tmpl batchSize s a = some t) :
    Within F t.stream ∧ work a + stepsLeft F t ≤ stepsLeft F s + grant a := by
  cases a with
  | stream a =>
    obtain ⟨ha, v, hv, rfl⟩ := stream_step hu
    exact stepsLeft_stream (reached_seated (reached_stream h).1) hF
      (fun k op hk => hcall k op (by rw [hk])) ha hv
  | pump =>
    have hm := pumpStep_move hu
    have hlt := stepsLeft_pump F hm
    refine ⟨?_, ?_⟩
    · cases hm with
      | stop u hpc hzero hstep =>
        obtain ⟨p, rest, -, rfl⟩ | ⟨-, -, rfl⟩ := next_cases hstep <;> exact hF
      | _ => exact hF
    · simp only [work, grant]
      omega
  | loop | ask | reader =>
    have hm : SideMove s t := side_move rfl hu
    have hlt := stepsLeft_side F (reached_ledger h) hm
    refine ⟨?_, ?_⟩
    · obtain ⟨-, rfl⟩ | hb := hm.beside
      · exact hF
      · rwa [hb.stream]
    · simp only [work, grant]
      omega

end Steps

section Rest

/-- No thread has a step left, but for a receive that times out. -/
def Resting (tmpl : Template) (batchSize : Nat) (s : State κ) : Prop :=
  ∀ a, 0 < work a → step tmpl batchSize s a = none

/-- The client thread that an action calls from. -/
def caller : Action κ → Option κ
  | .stream (.call k _) => some k
  | _ => none

/-- From each state a run makes a bounded number of steps, up to what its own calls and time-outs
add. -/
theorem work_bounded (h : Reaches (step tmpl batchSize) (initial : State κ) s) : ∃ n, ∀ as t,
    run (step tmpl batchSize) s as = some t → (as.map work).sum ≤ n + (as.map grant).sum := by
  obtain ⟨F, hF, -⟩ := (reached_seated (reached_stream h).1).inside
  have hwithin : Within F s.stream := fun k hk => (hF k).mpr hk
  refine ⟨stepsLeft F s, fun as t hrun => ?_⟩
  let G := F ∪ (as.filterMap caller).toFinset
  have hG : Within G s.stream := fun k hk => Finset.mem_union_left _ (hwithin k hk)
  have hstep : ∀ a ∈ as, ∀ s t, Reaches (step tmpl batchSize) initial s ∧ Within G s.stream →
      step tmpl batchSize s a = some t → (Reaches (step tmpl batchSize) initial t ∧
        Within G t.stream) ∧ work a + stepsLeft G t ≤ stepsLeft G s + grant a := by
    rintro a ha s t ⟨hs, hw⟩ hu
    have hcall : ∀ k op, a = .stream (.call k op) → k ∈ G := by
      rintro k op rfl
      refine Finset.mem_union_right _ (List.mem_toFinset.mpr ?_)
      exact List.mem_filterMap.mpr ⟨_, ha, rfl⟩
    obtain ⟨hin, hle⟩ := stepsLeft_step hs hw hcall hu
    exact ⟨⟨.tail hs trivial hu, hin⟩, hle⟩
  have hcost := run_cost hstep ⟨h, hG⟩ hrun
  have hsame : stepsLeft G s = stepsLeft F s := by
    rw [stepsLeft, stepsLeft, StreamProgress.workLeft_within hwithin Finset.subset_union_left]
  omega

theorem Resting.ended (hrest : Resting tmpl batchSize s) (hclosed : s.stream.txOpen = false) :
    s.stream.coord.ended = true := by
  have hstalled : StreamProgress.Stalled tmpl batchSize s.stream := by
    intro a ha
    have hnone := hrest (.stream a) ha
    have hothers : ofOthers a = true := by cases a <;> first | rfl | cases ha
    simpa only [step, if_pos hothers, Option.map_eq_none_iff] using hnone
  exact hstalled.ended hclosed

/-- On a closed input the pump is through, or waits for a slot. -/
theorem Resting.pump (hrest : Resting tmpl batchSize s) (hclosed : s.stream.txOpen = false)
    (hd : s.stream.dropper = .idle) : s.pump = .unstarted ∨ s.pump = .done ∨
      pumpSlot s.pump = 0 ∧ s.space = 0 := by
  have hpump := hrest .pump Nat.zero_lt_one
  simp only [step, pumpStep] at hpump
  cases hpc : s.pump with
  | unstarted => exact .inl rfl
  | reading =>
    have hend := hrest.ended hclosed
    simp only [hpc, Option.map_eq_none_iff, Stream.step, hd, if_true, Stream.nextStep, hend]
      at hpump
    split at hpump <;> cases hpump
  | acquire last =>
    simp only [hpc] at hpump
    split at hpump
    next hs => exact .inr (.inr ⟨rfl, hs⟩)
    next => cases hpump
  | handing last =>
    rw [hpc] at hpump
    cases hpump
  | closing =>
    simp only [hpc] at hpump
    split at hpump
    next hs => exact .inr (.inr ⟨rfl, hs⟩)
    next => cases hpump
  | ending =>
    rw [hpc] at hpump
    cases hpump
  | done => exact .inr (.inl rfl)

/-- The consumer is through, or waits on the empty queue. -/
theorem Resting.consumer (hrest : Resting tmpl batchSize s) : s.callbacks = [] ∧
    (s.reader = .finished ∨ s.reader = .asked [] ∧ s.queue = []) := by
  have hloop := hrest .loop Nat.zero_lt_one
  have hask := hrest .ask Nat.zero_lt_one
  have hreader := hrest .reader Nat.zero_lt_one
  simp only [step, loopStep, askStep, readerStep] at hloop hask hreader
  refine ⟨?_, ?_⟩
  · cases hc : s.callbacks with
    | nil => rfl
    | cons item rest =>
      simp only [hc] at hloop
      split at hloop <;> cases hloop
  · cases hr : s.reader with
    | fresh =>
      rw [hr] at hask
      cases hask
    | suspended rest =>
      rw [hr] at hask
      cases hask
    | asked rest =>
      rw [hr] at hreader
      cases rest with
      | cons p rest => cases hreader
      | nil =>
        cases hq : s.queue with
        | nil => exact .inr ⟨rfl, rfl⟩
        | cons item rest =>
          rw [hq] at hreader
          cases hreader
    | got item =>
      rw [hr] at hreader
      cases item <;> cases hreader
    | finished => exact .inl rfl

/-- On a closed input the iteration rests nowhere but at its end. -/
theorem Resting.finished (hrest : Resting tmpl batchSize s)
    (h : Reaches (step tmpl batchSize) initial s) (hclosed : s.stream.txOpen = false) :
    s.reader = .finished := by
  obtain ⟨hcallbacks, hfin | ⟨hasked, hqueue⟩⟩ := hrest.consumer
  · exact hfin
  · obtain hun | hdone | ⟨hslot, hspace⟩ := hrest.pump hclosed (reached_stream h).2
    · cases hasked.symm.trans ((reached_books h).unstarted hun)
    · -- the sentinel would be on its way
      obtain ⟨batches, hline, -⟩ := reached_flow h
      rw [lineOf, hasked, hqueue, hcallbacks, hdone] at hline
      cases (List.append_eq_nil_iff.mp hline.symm).2
    · have hcount := (reached_slots h).count
      rw [hslot, hspace, hcallbacks, hqueue, hasked] at hcount
      cases hcount

end Rest

section Completion

/-- Nothing more is accepted on a closed input. -/
theorem closed_stream {u v : Stream.State κ} {b : Stream.Action κ}
    (hu : Stream.step tmpl batchSize u b = some v) (hclosed : u.txOpen = false) :
    v.txOpen = false ∧ v.accepted = u.accepted := by
  cases StreamMoves.step_move hu with
  | client k v hm =>
    cases hm with
    | accept sample hpc hopen hlive hroom => cases hclosed.symm.trans hopen
    | finish hpc => exact ⟨rfl, rfl⟩
    | _ => exact ⟨hclosed, rfl⟩
  | coord timeout v hm => cases hm <;> exact ⟨hclosed, rfl⟩
  | dropClose hd => exact ⟨rfl, rfl⟩
  | _ => exact ⟨hclosed, rfl⟩

theorem closed_step {a : Action κ} (hu : step tmpl batchSize s a = some t)
    (hclosed : s.stream.txOpen = false) :
    t.stream.txOpen = false ∧ t.stream.accepted = s.stream.accepted := by
  obtain heq | ⟨b, -, hstep⟩ := step_stream hu
  · rw [heq]
    exact ⟨hclosed, rfl⟩
  · exact closed_stream hstep hclosed

omit [DecidableEq κ] in
theorem grant_of_work {a : Action κ} (h : 0 < work a) :
    grant a = 0 ∧ ∀ k op, a ≠ .stream (.call k op) := by
  cases a with
  | stream a =>
    cases a with
    | call k op => cases h
    | coord timeout =>
      cases timeout with
      | false => exact ⟨rfl, by simp⟩
      | true => cases h
    | _ => exact ⟨rfl, by simp⟩
  | _ => exact ⟨rfl, by simp⟩

/-- Asynchronous iteration cannot hang once the input is closed. A run from a state reached makes
a bounded number of steps beyond what its calls and time-outs add; where none is left on a closed
input the iterator has finished; and from every state with a closed input it can finish with
nothing but steps of the threads, having yielded all plaintexts where all samples have bytes and
fit the first capacity. -/
theorem aiter_completes (tmpl : Template) (batchSize : Nat) (s : State κ)
    (hctx : 0x8000 ≤ tmpl.ctx.length) (h : Reaches (step tmpl batchSize) initial s) :
    (∃ n, ∀ as t, run (step tmpl batchSize) s as = some t →
      (as.map work).sum ≤ n + (as.map grant).sum) ∧
    (s.stream.txOpen = false → (Resting tmpl batchSize s → s.reader = .finished) ∧
      ∃ as t, (∀ a ∈ as, 0 < work a) ∧ run (step tmpl batchSize) s as = some t ∧
        t.reader = .finished ∧ t.stream.accepted = s.stream.accepted ∧
        (Fits firstCap s.stream.accepted → [] ∉ s.stream.accepted →
          s.stream.accepted.mapM (decrypt tmpl) = some t.yielded)) := by
  refine ⟨work_bounded h, fun hclosed => ⟨fun hrest => hrest.finished h hclosed, ?_⟩⟩
  obtain ⟨F, hF, -⟩ := (reached_seated (reached_stream h).1).inside
  have hwithin : Within F s.stream := fun k hk => (hF k).mpr hk
  have hrank : ∀ t a u, Reaches (step tmpl batchSize) initial t ∧ Within F t.stream ∧
      t.stream.txOpen = false ∧ t.stream.accepted = s.stream.accepted → 0 < work a →
      step tmpl batchSize t a = some u → (Reaches (step tmpl batchSize) initial u ∧
        Within F u.stream ∧ u.stream.txOpen = false ∧ u.stream.accepted = s.stream.accepted) ∧
        stepsLeft F u < stepsLeft F t := by
    rintro t a u ⟨ht, hw, hopen, hacc⟩ hwork hu
    obtain ⟨hgrant, hcall⟩ := grant_of_work hwork
    obtain ⟨hin, hle⟩ := stepsLeft_step ht hw (fun k op ha => absurd ha (hcall k op)) hu
    obtain ⟨hopen', hacc'⟩ := closed_step hu hopen
    exact ⟨⟨.tail ht trivial hu, hin, hopen', hacc'.trans hacc⟩, by omega⟩
  obtain ⟨as, t, has, hrun, ⟨ht, -, hopen, hacc⟩, hrest⟩ :=
    exists_rest hrank ⟨h, hwithin, hclosed, rfl⟩
  have hfin := Resting.finished hrest ht hopen
  refine ⟨as, t, has, hrun, hfin, hacc, fun hfits hbytes => ?_⟩
  rw [← hacc] at hfits hbytes ⊢
  exact (closed_of_finished hctx ht hfits hbytes hfin).2

theorem aiter_completes_withheld : ∃ s : State Unit, Withheld s ∧ s.stream.accepted = [[7]] ∧
    ∃ as t, run (step eightTemplate 1) s as = some t ∧ t.reader = .finished ∧
      s.stream.accepted.mapM (decrypt eightTemplate) = some t.yielded := by
  obtain ⟨s, hrun, hacc, hhanded, hdel, hpump, hlive, hempty, hreader, hqueue, hclosed⟩ :
      ∃ s, run (step eightTemplate 1) (initial : State Unit)
      ([.ask, .stream (.call () (.submit [7])), .stream (.client ()), .stream (.client ())] ++
        .replicate 6 (.stream (.coord false)) ++ [.pump, .stream (.call () .finish),
        .stream (.client ()), .stream (.client ()), .stream (.client ())]) = some s ∧
      s.stream.accepted = [[7]] ∧ s.handed = [] ∧ s.stream.delivered.length = 1 ∧
      s.pump = .reading ∧ s.stream.coord.ended = false ∧ s.stream.outQueue = [] ∧
      s.reader = .asked [] ∧ s.queue = [] ∧ s.stream.txOpen = false :=
    ⟨_, rfl, rfl, rfl, rfl, rfl, rfl, rfl, rfl, rfl, rfl⟩
  have hholding : Holding s := by
    rw [Holding, hhanded, hdel]
    exact Nat.zero_lt_one
  have hexhausted : Exhausted s.stream := ⟨hempty, hlive, by rw [hacc, hdel]; rfl⟩
  have hfits : Fits firstCap s.stream.accepted := by
    rw [hacc, Fits, List.forall_mem_singleton]
    decide
  obtain ⟨-, as, t, -, hrun', hfin, -, hall⟩ := (aiter_completes eightTemplate 1 s
    List.length_replicate.ge (reaches_of_run hrun)).2 hclosed
  exact ⟨s, ⟨hholding, hpump, hexhausted, hreader, hqueue⟩, hacc, as, t, hrun', hfin,
    hall hfits (by simp [hacc])⟩

end Completion

end Temari.AiterCompletion
