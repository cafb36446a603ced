import Temari.AiterLedger

/-! When asynchronous iteration withholds plaintexts. The pump keeps up to 63 of them in its batch
while it waits for more, so a consumer that submits only after it has been given what it
waits for is never given it. -/
namespace Temari.AiterWithheld
open RoundMachine Rounds Ffi RetryLoop Transition Aiter AiterLedger StreamBound StreamSeats
variable {κ : Type} [DecidableEq κ] {tmpl : Template} {batchSize : Nat} {s t : State κ}

/-- A plaintext has been taken out of the stream and not handed to the queue. -/
def Holding (s : State κ) : Prop := s.handed.length < s.stream.delivered.length

/-- What has been accepted has been taken, and the coordinator lives: next blocks. -/
structure Exhausted (u : Stream.State κ) : Prop where
  empty : u.outQueue = []
  live : u.coord.ended = false
  taken : u.accepted.length = u.delivered.length

/-- The pump holds plaintexts and is blocked in stream_next, and the consumer waits on the empty
queue. -/
structure Withheld (s : State κ) : Prop where
  holding : Holding s
  reading : s.pump = .reading
  exhausted : Exhausted s.stream
  asked : s.reader = .asked []
  empty : s.queue = []

/-- The pump takes the last accepted plaintext out of a live stream only where it completes a
chunk and nothing taken so far, itself included, is longer than `_next_optional` expects. -/
def wholeBatch (s : State κ) : Action κ → Bool
  | .pump =>
    match s.pump, s.stream.outQueue with
    | .reading, [p] =>
      p.isEmpty || s.stream.coord.ended ||
        decide (s.stream.accepted.length ≠ s.stream.delivered.length + 1) ||
        (decide (s.stream.accepted.length % chunk = 0) && decide (p.length < firstCap) &&
          s.stream.delivered.all fun q => decide (q.length < firstCap))
    | _, _ => true
  | _ => true

section Streams

omit [DecidableEq κ] in
theorem take_stream (s : State κ) (n : Nat) (out : Bytes) : (s.take n out).stream = s.stream := by
  rw [State.take]
  split <;> rfl

/-- A step of the iteration is a step of its stream or leaves the stream alone. -/
theorem step_stream {a : Action κ} (hu : Aiter.step tmpl batchSize s a = some t) :
    t.stream = s.stream ∨
      ∃ b, b ≠ .drop ∧ Stream.step tmpl batchSize s.stream b = some t.stream := by
  cases a with
  | stream a =>
    obtain ⟨ha, v, hv, rfl⟩ := stream_step hu
    refine .inr ⟨a, ?_, hv⟩
    rintro rfl
    cases ha
  | pump =>
    simp only [Aiter.step, pumpStep] at hu
    split at hu
    · obtain ⟨v, hv, rfl⟩ := Option.map_eq_some_iff.mp hu
      have hnext : (.next : Stream.Action κ) ≠ .drop := fun hn => by cases hn
      exact .inr ⟨.next, hnext, by rw [take_stream]; exact hv⟩
    · split at hu <;> cases hu
      exact .inl rfl
    · cases hu
      exact .inl rfl
    · split at hu <;> cases hu
      exact .inl rfl
    · cases hu
      exact .inl rfl
    all_goals cases hu
  | loop | ask | reader =>
    left
    obtain ⟨-, rfl⟩ | hb := side_step rfl hu
    · rfl
    · exact hb.stream

/-- The stream of an iteration runs as a stream does, and is not dropped. -/
theorem reached_stream (h : Reaches (Aiter.step tmpl batchSize) (initial : State κ) s) :
    Reaches (Stream.step tmpl batchSize) (Stream.initial : Stream.State κ) s.stream ∧
      s.stream.dropper = .idle :=
  stream_reached h rfl fun _ _ _ => step_stream

/-- What the other threads of the stream change: they may add accepted samples, and an ended
coordinator stays ended. -/
theorem grows_ofOthers {u v : Stream.State κ} {a : Stream.Action κ} (ha : ofOthers a = true)
    (hu : Stream.step tmpl batchSize u a = some v) :
    u.accepted.length ≤ v.accepted.length ∧ (v.coord.ended = false → u.coord.ended = false) := by
  cases a with
  | call k op =>
    simp only [Stream.step] at hu
    split at hu <;> cases hu
    exact ⟨Nat.le_refl _, id⟩
  | client k =>
    cases StreamMoves.clientStep_move hu with
    | accept sample hpc hopen hlive hroom =>
      exact ⟨(List.prefix_append _ _).length_le, id⟩
    | _ => exact ⟨Nat.le_refl _, id⟩
  | coord timeout =>
    have hlive : u.coord.ended = false := by
      by_contra hend
      cases (StreamMoves.coordStep_ended (eq_true_of_ne_false hend)).symm.trans hu
    cases StreamMoves.coordStep_move hu <;> exact ⟨Nat.le_refl _, fun _ => hlive⟩
  | _ => cases ha

end Streams

section Even

/-- Where the pump could wait, whole chunks have been taken and nothing was too long. -/
def Even (s : State κ) : Prop :=
  inLoop s.pump = true → s.stream.coord.ended = false →
    s.stream.accepted.length = s.stream.delivered.length →
    Short firstCap s.stream ∧ s.stream.accepted.length % chunk = 0

omit [DecidableEq κ] in
theorem Even.frame (h : Even s) (hstream : t.stream = s.stream)
    (hpump : inLoop t.pump = true → inLoop s.pump = true) : Even t := by
  intro hg hlive htaken
  rw [hstream] at hlive htaken ⊢
  exact h (hpump hg) hlive htaken

omit [DecidableEq κ] in
/-- The check of a pump that takes the last accepted plaintext. -/
theorem wholeBatch_last {p : Bytes} (hpc : s.pump = .reading) (hq : s.stream.outQueue = [p])
    (hp : p ≠ []) (hlive : s.stream.coord.ended = false)
    (hlast : s.stream.accepted.length = s.stream.delivered.length + 1) :
    wholeBatch s .pump = true ↔
      (Short firstCap s.stream ∧ p.length < firstCap) ∧ s.stream.accepted.length % chunk = 0 := by
  simp only [wholeBatch, hpc, hq]
  simp [hp, hlive, hlast, Short]
  tauto

omit [DecidableEq κ] in
theorem Even.take (hcount : Bounded (Stream.batchOf batchSize) s.stream)
    (hok : wholeBatch s .pump = true) {p : Bytes} {rest : List Bytes} (hpc : s.pump = .reading)
    (hq : s.stream.outQueue = p :: rest) (hp : p ≠ [])
    (ht : t.stream = { s.stream with outQueue := rest }.answer (.next (some p))) : Even t := by
  intro _ hlive htaken
  obtain ⟨hdel, hshort⟩ := short_take firstCap ht
  have hacc : t.stream.accepted = s.stream.accepted := by rw [ht]; rfl
  have hcoord : t.stream.coord = s.stream.coord := by rw [ht]; rfl
  rw [hdel, hacc, List.length_append, List.length_singleton] at htaken
  have hsum := hcount.count
  rw [hq, List.length_cons] at hsum
  have hrest : rest = [] := List.length_eq_zero_iff.mp (by omega)
  rw [hrest] at hq
  rw [hshort, hacc]
  exact (wholeBatch_last hpc hq hp (hcoord ▸ hlive) htaken).mp hok

theorem Even.pump (h : Even s) (hcount : Bounded (Stream.batchOf batchSize) s.stream)
    (hok : wholeBatch s .pump = true) (hm : PumpMove tmpl batchSize s t) : Even t := by
  cases hm with
  | keep p rest hpc hq hp hlt => exact Even.take hcount hok hpc hq hp rfl
  | lose p rest hpc hq hcap hle =>
    exact Even.take hcount hok hpc hq (List.ne_nil_of_length_pos (Nat.lt_of_lt_of_le hcap hle)) rfl
  | stop u hpc hzero hu =>
    intro hg
    have hend : inLoop (if s.batch = [] then .closing else .acquire true) = false := by
      split <;> rfl
    cases hend.symm.trans hg
  | acquire last hpc hs =>
    refine h.frame rfl fun hg => ?_
    rw [hpc]
    cases last <;> exact hg
  | hand last hpc =>
    refine h.frame rfl fun hg => ?_
    rw [hpc]
    cases last <;> first | rfl | exact hg
  | close hpc hs => exact h.frame rfl nofun
  | finish hpc => exact h.frame rfl nofun

theorem Even.step {a : Action κ} (h : Even s)
    (hcount : Bounded (Stream.batchOf batchSize) s.stream) (hl : Ledger s)
    (hok : wholeBatch s a = true) (hu : Aiter.step tmpl batchSize s a = some t) : Even t := by
  cases a with
  | stream a =>
    obtain ⟨ha, v, hv, rfl⟩ := stream_step hu
    obtain ⟨hmore, hlive⟩ := grows_ofOthers ha hv
    have hdel := delivered_ofOthers ha hv
    intro hg hl htaken
    have hsum := hcount.count
    simp only [hdel] at htaken
    obtain ⟨hs, hmod⟩ := h hg (hlive hl) (by omega)
    refine ⟨by rwa [Short, hdel], ?_⟩
    have hsame : v.accepted.length = s.stream.accepted.length := by omega
    simp only [hsame]
    exact hmod
  | pump => exact h.pump hcount hok (pumpStep_move hu)
  | loop | ask | reader =>
    obtain ⟨hr, rfl⟩ | hb := side_step rfl hu
    · exact h.frame rfl fun _ => by rw [hl.fresh hr]; rfl
    · exact h.frame hb.stream fun hg => hb.pump ▸ hg

omit [DecidableEq κ] in
/-- Whole chunks leave nothing in the batch. -/
theorem Even.not_withheld (h : Even s) (hl : Ledger s) : ¬ Withheld s := by
  intro hw
  have hpc := hw.reading
  have hloop : inLoop s.pump = true := by rw [hpc]; rfl
  obtain ⟨hs, hmod⟩ := h hloop hw.exhausted.live hw.exhausted.taken
  have hchunks := hl.chunks hloop
  have hroom := hl.room (.inr hpc)
  have hwhole := congrArg List.length (hl.whole hloop hs).2
  have hholding := hw.holding
  rw [List.length_append] at hwhole
  rw [hw.exhausted.taken] at hmod
  simp only [Holding, chunk] at *
  omega

end Even

section Drain

/-- Steps of the consumer and the event loop that an item still needs. -/
def load : Item → Nat
  | .batch plains => 2 * plains.length + 2
  | .sentinel => 2

def readerLoad : ReaderPc → Nat
  | .fresh => 1
  | .suspended rest => 2 * rest.length + 1
  | .asked rest => 2 * rest.length
  | .got (.batch plains) => 2 * plains.length + 1
  | .got .sentinel => 1
  | .finished => 0

def toYield (s : State κ) : Nat :=
  (s.callbacks.map load).sum + s.callbacks.length + (s.queue.map load).sum + readerLoad s.reader

omit [DecidableEq κ] in
theorem toYield_side (hm : SideMove s t) : toYield t < toYield s := by
  cases hm with
  | put item rest hc hroom =>
    simp only [toYield, hc, List.map_append, List.map_cons, List.map_nil, List.sum_append,
      List.sum_cons, List.sum_nil, List.length_cons]
    omega
  | queueFull item rest hc hfull =>
    simp only [toYield, hc, List.map_cons, List.sum_cons, List.length_cons]
    omega
  | start hr => simp [toYield, hr, readerLoad]
  | resume rest hr => simp [toYield, hr, readerLoad]
  | yield p rest hr =>
    simp only [toYield, hr, readerLoad, List.length_cons]
    omega
  | get item rest hr hq =>
    have hitem : readerLoad (.got item) < load item := by cases item <;> simp [readerLoad, load]
    simp only [toYield, hr, hq, List.map_cons, List.sum_cons]
    omega
  | release plains hr => simp [toYield, hr, readerLoad]
  | finish hr => simp [toYield, hr, readerLoad]

/-- The consumer is given all that has been handed over, and asks for more. -/
theorem drain (h : Reaches (Aiter.step tmpl batchSize) initial s) (hloop : inLoop s.pump = true)
    (hstart : s.pump ≠ .unstarted) : ∃ as t, (∀ a ∈ as, side a = true) ∧
      run (Aiter.step tmpl batchSize) s as = some t ∧
      Reaches (Aiter.step tmpl batchSize) initial t ∧ Beside s t ∧ t.reader = .asked [] ∧
      t.queue = [] ∧ t.callbacks = [] := by
  have hrank : ∀ (t : State κ) a u,
      Reaches (Aiter.step tmpl batchSize) initial t ∧ Beside s t → side a = true →
      Aiter.step tmpl batchSize t a = some u →
      (Reaches (Aiter.step tmpl batchSize) initial u ∧ Beside s u) ∧ toYield u < toYield t := by
    rintro t a u ⟨ht, hb⟩ ha hu
    refine ⟨⟨.tail ht trivial hu, ?_⟩, toYield_side (side_move ha hu)⟩
    obtain ⟨hr, -⟩ | hb' := side_step ha hu
    · exact absurd (hb.pump.symm.trans ((reached_ledger ht).fresh hr)) hstart
    · exact hb.trans hb'
  obtain ⟨as, t, has, hrun, ⟨ht, hb⟩, hrest⟩ :=
    exists_rest hrank ⟨h, ⟨rfl, rfl, rfl, rfl, rfl, id⟩⟩
  have hdone : t.pump ≠ .done := by
    intro hd
    rw [← hb.pump, hd] at hloop
    cases hloop
  have hcallbacks : t.callbacks = [] := by
    have hnone := hrest .loop rfl
    cases hc : t.callbacks with
    | nil => rfl
    | cons item rest =>
      simp only [Aiter.step, loopStep, hc] at hnone
      split at hnone <;> cases hnone
  have hask := hrest .ask rfl
  have hreader := hrest .reader rfl
  simp only [Aiter.step, askStep, readerStep] at hask hreader
  cases hr : t.reader with
  | fresh =>
    rw [hr] at hask
    cases hask
  | suspended rest =>
    rw [hr] at hask
    cases hask
  | asked rest =>
    rw [hr] at hreader
    cases rest with
    | cons p rest => cases hreader
    | nil =>
      cases hq : t.queue with
      | nil => exact ⟨as, t, has, hrun, ht, hb, hr, hq, hcallbacks⟩
      | cons item rest =>
        rw [hq] at hreader
        cases hreader
  | got item =>
    rw [hr] at hreader
    cases item <;> cases hreader
  | finished => exact absurd hr ((reached_slots ht).noEnd hdone).2.2

end Drain

section Break

theorem withheld_of_reading (h : Reaches (Aiter.step tmpl batchSize) initial s)
    (hpc : s.pump = .reading) (he : Exhausted s.stream) (hh : Holding s) :
    ∃ as t, (∀ a ∈ as, side a = true) ∧ run (Aiter.step tmpl batchSize) s as = some t ∧
      Withheld t ∧ t.callbacks = [] := by
  obtain ⟨as, t, has, hrun, -, hb, hr, hq, hc⟩ :=
    drain h (by rw [hpc]; rfl) (by rw [hpc]; nofun)
  refine ⟨as, t, has, hrun, ⟨?_, hb.pump.trans hpc, hb.stream ▸ he, hr, hq⟩, hc⟩
  rw [Holding, hb.handed, hb.stream]
  exact hh

/-- The pump and the consumer side, without the threads of the stream. -/
def apart : Action κ → Bool
  | .stream _ => false
  | _ => true

omit [DecidableEq κ] in
theorem apart_of_side {a : Action κ} (h : side a = true) : apart a = true := by
  cases a <;> first | rfl | cases h

omit [DecidableEq κ] in
theorem of_not_wholeBatch {a : Action κ} (hbad : wholeBatch s a = false) :
    a = .pump ∧ s.pump = .reading ∧ ∃ p, s.stream.outQueue = [p] ∧ p ≠ [] ∧
      s.stream.coord.ended = false ∧
      s.stream.accepted.length = s.stream.delivered.length + 1 := by
  cases a with
  | pump =>
    simp only [wholeBatch] at hbad
    split at hbad
    next p hpc hq =>
      simp only [Bool.or_eq_false_iff, List.isEmpty_eq_false_iff, decide_eq_false_iff_not,
        not_not] at hbad
      obtain ⟨⟨⟨hp, hlive⟩, hlast⟩, -⟩ := hbad
      exact ⟨rfl, hpc, p, hq, hp, hlive, hlast⟩
    next => cases hbad
  | _ => cases hbad

/-- A full batch is handed over once the consumer has made room; what was too long stays
behind. -/
theorem withheld_of_full (h : Reaches (Aiter.step tmpl batchSize) initial s)
    (hpc : s.pump = .acquire false) (he : Exhausted s.stream) (hlong : ¬ Short firstCap s.stream) :
    ∃ as t, (∀ a ∈ as, apart a = true) ∧ run (Aiter.step tmpl batchSize) s as = some t ∧
      Withheld t ∧ t.callbacks = [] := by
  have hloop : inLoop s.pump = true := by rw [hpc]; rfl
  obtain ⟨as, t, has, hrun, ht, hb, hr, hq, hc⟩ := drain h hloop (by rw [hpc]; nofun)
  have hpc' : t.pump = .acquire false := hb.pump.trans hpc
  have hspace : t.space = maxq := by
    have hcount := (reached_slots ht).count
    rw [hpc', hr, hq, hc] at hcount
    exact hcount
  let u : State κ := { t with
    space := t.space - 1
    callbacks := t.callbacks ++ [.batch t.batch]
    handed := t.handed ++ t.batch
    batch := []
    pump := .reading }
  have hhand : run (Aiter.step tmpl batchSize) t [.pump, .pump] = some u := by
    simp [run, Aiter.step, pumpStep, hpc', hspace, maxq, u]
  have hu : Reaches (Aiter.step tmpl batchSize) initial u := ht.trans (reaches_of_run hhand)
  have hholding : Holding u := by
    have hlost := (reached_ledger h).lost hloop hlong
    change (t.handed ++ t.batch).length < t.stream.delivered.length
    rw [List.length_append, hb.handed, hb.batch, hb.stream]
    exact hlost
  obtain ⟨bs, v, hbs, hrun', hv⟩ := withheld_of_reading hu rfl (hb.stream ▸ he) hholding
  refine ⟨as ++ ([.pump, .pump] ++ bs), v, ?_, ?_, hv⟩
  · simp only [List.mem_append, List.mem_cons, List.not_mem_nil, or_false]
    rintro a (ha | (rfl | rfl) | ha)
    · exact apart_of_side (has a ha)
    · rfl
    · rfl
    · exact apart_of_side (hbs a ha)
  · rw [run_append hrun, run_append hhand, hrun']

omit [DecidableEq κ] in
theorem full_count (h : Ledger s) (hpc : s.pump = .acquire false) (hs : Short firstCap s.stream) :
    s.stream.delivered.length % chunk = 0 := by
  have hloop : inLoop s.pump = true := by rw [hpc]; rfl
  have hchunks := h.chunks hloop
  rw [← (h.whole hloop hs).2, List.length_append, h.full (.inl hpc), Nat.add_mod_right]
  exact hchunks

/-- The pump has just taken the last accepted plaintext of a live stream, which was not the last
of a chunk or came after a loss. -/
theorem withheld_of_last (h : Reaches (Aiter.step tmpl batchSize) initial t)
    (hm : PumpMove tmpl batchSize s t) (hl : Ledger s) {p : Bytes} (hpc : s.pump = .reading)
    (hq : s.stream.outQueue = [p]) (hp : p ≠ []) (hlive : s.stream.coord.ended = false)
    (hlast : s.stream.accepted.length = s.stream.delivered.length + 1)
    (hcheck : ¬ ((Short firstCap s.stream ∧ p.length < firstCap) ∧
    s.stream.accepted.length % chunk = 0)) : ∃ as u, (∀ a ∈ as, apart a = true) ∧
    run (Aiter.step tmpl batchSize) t as = some u ∧
      Withheld u ∧ u.callbacks = [] := by
  have hle := hl.le (by rw [hpc]; rfl)
  have hdel : ({ s.stream with outQueue := [] }.answer (.next (some p))).delivered =
      s.stream.delivered ++ [p] := StreamOrder.delivered_answer _ _
  have hexhausted : Exhausted ({ s.stream with outQueue := [] }.answer (.next (some p))) := by
    refine ⟨rfl, hlive, ?_⟩
    rw [hdel, List.length_append]
    exact hlast
  have hreading : t.pump = .reading → t.handed = s.handed →
      t.stream = { s.stream with outQueue := [] }.answer (.next (some p)) →
      ∃ as u, (∀ a ∈ as, apart a = true) ∧ run (Aiter.step tmpl batchSize) t as = some u ∧
        Withheld u ∧ u.callbacks = [] := by
    intro hpump hhanded hstream
    have hholding : Holding t := by
      rw [Holding, hhanded, hstream, hdel, List.length_append, List.length_singleton]
      omega
    obtain ⟨as, u, has, hrun⟩ := withheld_of_reading h hpump (hstream ▸ hexhausted) hholding
    exact ⟨as, u, fun a ha => apart_of_side (has a ha), hrun⟩
  cases hm with
  | keep q rest _ hq' _ hlt =>
    cases hq.symm.trans hq'
    by_cases hc : chunk ≤ s.batch.length + 1
    · refine withheld_of_full h (if_pos hc) hexhausted fun hs => hcheck ⟨?_, ?_⟩
      · exact (short_take firstCap rfl).2.mp hs
      · have hcount := full_count (reached_ledger h) (if_pos hc) hs
        rw [← hexhausted.taken] at hcount
        exact hcount
    · exact hreading (if_neg hc) rfl rfl
  | lose q rest _ hq' hcap hle' =>
    cases hq.symm.trans hq'
    exact hreading hpc rfl rfl
  | stop u _ hzero hu =>
    have hpos : 0 < min p.length s.cap := Nat.lt_min.mpr ⟨List.length_pos_iff.mpr hp, hl.cap⟩
    rw [hq] at hzero
    exact absurd hzero (Nat.ne_of_gt hpos)
  | acquire last hpc' hs => cases hpc.symm.trans hpc'
  | hand last hpc' => cases hpc.symm.trans hpc'
  | close hpc' hs => cases hpc.symm.trans hpc'
  | finish hpc' => cases hpc.symm.trans hpc'

/-- Where the pump takes the last accepted plaintext otherwise, a consumer that goes on asking
ends up waiting for what the pump holds. -/
theorem break_withholds (h : Reaches (Aiter.step tmpl batchSize) initial s) {a : Action κ}
    (hbad : wholeBatch s a = false) : ∃ as t, (∀ b ∈ as, apart b = true) ∧
      run (Aiter.step tmpl batchSize) s (a :: as) = some t ∧ Withheld t ∧ t.callbacks = [] := by
  obtain ⟨rfl, hpc, p, hq, hp, hlive, hlast⟩ := of_not_wholeBatch hbad
  have hcheck := mt (wholeBatch_last hpc hq hp hlive hlast).mpr (by rw [hbad]; nofun)
  obtain ⟨u, hu⟩ : ∃ u, Aiter.step tmpl batchSize s .pump = some u := by
    simp [Aiter.step, pumpStep, hpc, Stream.step, Stream.nextStep, (reached_stream h).2, hq]
  obtain ⟨as, t, has, hrun, ht⟩ := withheld_of_last (.tail h trivial hu) (pumpStep_move hu)
    (reached_ledger h) hpc hq hp hlive hlast hcheck
  exact ⟨as, t, has, run_cons_eq_some.mpr ⟨u, hu, hrun⟩, ht⟩

end Break

section Stuck

/-- Plaintexts are withheld, no callback is under way, and no call of a producer is inside the
open stream. -/
structure Stuck (s : State κ) : Prop where
  withheld : Withheld s
  callbacks : s.callbacks = []
  isOpen : s.stream.txOpen = true
  idle : ∀ k, s.stream.client k = .idle

omit [DecidableEq κ] in
/-- With nothing left to take, the coordinator goes round and sends nothing. -/
theorem Exhausted.coord {u v : Stream.State κ} {batch : Nat} (h : Exhausted u) (hs : Seated u)
    (hb : Bounded batch u) (hopen : u.txOpen = true) (hm : StreamMoves.CoordMove tmpl batch u v) :
    Exhausted v := by
  have hcount := hb.count
  rw [h.taken, h.empty, List.length_nil] at hcount
  have hheld : held u = 0 := by omega
  have hqueue : u.queue = [] := List.length_eq_zero_iff.mp (by omega)
  cases hm with
  | enter pc hpc hnext =>
    obtain ⟨rfl, -⟩ | ⟨rfl, -⟩ := hnext
    · exact ⟨h.empty, rfl, h.taken⟩
    · exact ⟨h.empty, rfl, h.taken⟩
  | exit hpc hin hbuf => cases hopen.symm.trans (hs.drained hin).1
  | receive sample rest hpc hq => cases hqueue.symm.trans hq
  | hangUp hpc hclosed hq => cases hopen.symm.trans hclosed
  | panic hpc hout =>
    have hbuf : u.buffer = [] := by
      rw [held_of_gathering (by rw [hpc]; rfl)] at hheld
      exact List.length_eq_zero_iff.mp hheld
    rw [hbuf] at hout
    cases hout
  | send p rest hpc =>
    simp [held, hpc] at hheld
  | _ => exact ⟨h.empty, rfl, h.taken⟩

/-- No step but a new call of a producer changes that. -/
theorem Stuck.step {a : Action κ} (h : Stuck s) (hr : Reaches (Aiter.step tmpl batchSize) initial s)
    (hcall : ∀ k op, a ≠ .stream (.call k op)) (hu : Aiter.step tmpl batchSize s a = some t) :
    Stuck t := by
  have hw := h.withheld
  cases a with
  | stream a =>
    obtain ⟨ha, v, hv, rfl⟩ := stream_step hu
    cases a with
    | call k op => exact absurd rfl (hcall k op)
    | client k => simp [Stream.step, Stream.clientStep, h.idle k] at hv
    | coord timeout =>
      have hm := StreamMoves.coordStep_move hv
      have hreach := (reached_stream hr).1
      have hkeep : v.txOpen = s.stream.txOpen ∧ v.client = s.stream.client := by
        cases hm <;> exact ⟨rfl, rfl⟩
      have hdel := delivered_ofOthers ha hv
      refine ⟨⟨?_, hw.reading, ?_, hw.asked, hw.empty⟩, h.callbacks, hkeep.1.trans h.isOpen, ?_⟩
      · simp only [Holding, hdel]
        exact hw.holding
      · exact hw.exhausted.coord (reached_seated hreach) (reached_bounded hreach) h.isOpen hm
      · simp only [hkeep.2]
        exact h.idle
    | _ => cases ha
  | pump =>
    simp [Aiter.step, pumpStep, hw.reading, Stream.step, Stream.nextStep, hw.exhausted.empty,
      hw.exhausted.live] at hu
  | loop => simp [Aiter.step, loopStep, h.callbacks] at hu
  | ask => simp [Aiter.step, askStep, hw.asked] at hu
  | reader => simp [Aiter.step, readerStep, hw.asked, hw.empty] at hu

theorem stuck_run (hr : Reaches (Aiter.step tmpl batchSize) initial s) (h : Stuck s)
    (ht : Steps (Aiter.step tmpl batchSize) (fun _ a => ∀ k op, a ≠ .stream (.call k op)) s t) :
    Stuck t := by
  have hboth : Reaches (Aiter.step tmpl batchSize) initial t ∧ Stuck t := by
    refine ht.invariant (I := fun t => Reaches (Aiter.step tmpl batchSize) initial t ∧ Stuck t)
      ⟨hr, h⟩ ?_
    rintro t a u _ ⟨hr, h⟩ hcall hu
    exact ⟨.tail hr trivial hu, h.step hr hcall hu⟩
  exact hboth.2

end Stuck

/-- One sample is submitted to an open stream and its plaintext awaited: it stays in the batch of
the pump until a producer calls again. -/
theorem first_withheld : ∃ s : State Unit, Reaches (step eightTemplate 1) initial s ∧
    s.stream.accepted = [[7]] ∧ s.stream.txOpen = true ∧ s.batch.length = 1 ∧ Withheld s ∧
    ∀ t, Steps (step eightTemplate 1) (fun _ a => ∀ k op, a ≠ .stream (.call k op)) s t →
      Withheld t := by
  obtain ⟨s, hrun, hacc, hbatch, hhanded, hdel, hpump, hlive, hempty, hreader, hqueue, hcallbacks,
      hopen, hidle⟩ : ∃ s, run (step eightTemplate 1) (initial : State Unit)
      ([.ask, .stream (.call () (.submit [7])), .stream (.client ()), .stream (.client ())] ++
        .replicate 6 (.stream (.coord false)) ++ [.pump]) = some s ∧
      s.stream.accepted = [[7]] ∧ s.batch.length = 1 ∧ s.handed = [] ∧
      s.stream.delivered.length = 1 ∧ s.pump = .reading ∧ s.stream.coord.ended = false ∧
      s.stream.outQueue = [] ∧ s.reader = .asked [] ∧ s.queue = [] ∧ s.callbacks = [] ∧
      s.stream.txOpen = true ∧ s.stream.client () = .idle :=
    ⟨_, rfl, rfl, rfl, rfl, rfl, rfl, rfl, rfl, rfl, rfl, rfl, rfl, rfl⟩
  have hreach := reaches_of_run hrun
  have hholding : Holding s := by
    rw [Holding, hhanded, hdel]
    exact Nat.zero_lt_one
  have hexhausted : Exhausted s.stream := ⟨hempty, hlive, by rw [hacc, hdel]; rfl⟩
  have hwithheld : Withheld s := ⟨hholding, hpump, hexhausted, hreader, hqueue⟩
  have hstuck : Stuck s := ⟨hwithheld, hcallbacks, hopen, fun _ => hidle⟩
  exact ⟨s, hreach, hacc, hopen, hbatch, hwithheld,
    fun t ht => (stuck_run hreach hstuck ht).withheld⟩

/-- In a run in which the pump takes the last accepted plaintext of a live stream only at the end
of a chunk, with nothing too long before it, nothing is withheld. From every state in which it
takes it otherwise, a consumer that goes on asking comes to wait for what the pump holds, and
while the input is open only a new call of a producer can end that wait. -/
theorem withheld_iff_partial (tmpl : Template) (batchSize : Nat) :
    (∀ s : State κ, Steps (step tmpl batchSize) (fun s a => wholeBatch s a = true) initial s →
      ¬ Withheld s) ∧
    (∀ s : State κ, Reaches (step tmpl batchSize) initial s → ∀ a, wholeBatch s a = false →
      ∃ as t, (∀ b ∈ as, apart b = true) ∧ run (step tmpl batchSize) s (a :: as) = some t ∧
        Withheld t ∧ t.callbacks = []) ∧
    ∀ s : State κ, Reaches (step tmpl batchSize) initial s → Withheld s → s.callbacks = [] →
      s.stream.txOpen = true → (∀ k, s.stream.client k = .idle) → ∀ t,
      Steps (step tmpl batchSize) (fun _ a => ∀ k op, a ≠ .stream (.call k op)) s t →
      Withheld t := by
  refine ⟨fun s h => ?_, fun s h a => break_withholds h, fun s h hw hc hopen hidle t ht => ?_⟩
  · have heven : Even s := by
      refine h.invariant (I := Even) (fun _ _ _ => ⟨nofun, rfl⟩) ?_
      intro t a u ht ih hok hu
      have hreach := ht.mono (D := fun _ _ => True) fun _ _ _ => trivial
      exact ih.step (reached_bounded (reached_stream hreach).1) (reached_ledger hreach) hok hu
    exact heven.not_withheld (reached_ledger (h.mono fun _ _ _ => trivial))
  · exact (stuck_run h ⟨hw, hc, hopen, hidle⟩ ht).withheld

end Temari.AiterWithheld
