import Temari.RetryLoop
import Temari.StreamFlush

/-! The channel of the Go binding. A goroutine reads the stream with Next and sends each plaintext
on an unbuffered channel, which it closes at the end. It holds one plaintext at most, so a
receiver that waits for each plaintext before more is submitted is served. -/
namespace Temari.GoChannel
open RoundMachine Rounds Ffi RetryLoop Transition
variable {κ : Type} [DecidableEq κ] {tmpl : Template} {batchSize : Nat}

/-- The capacity with which Next starts. -/
abbrev firstCap : Nat := Binding.go.firstCapacity

/-- Where the goroutine is: in its loop of Next, at the send, or returned with the channel
closed. -/
inductive PumpPc where
  | reading | sending (plain : Bytes) | done

/-- The goroutine has returned. -/
def PumpPc.ended : PumpPc → Bool
  | .done => true
  | _ => false

structure State (κ : Type) where
  stream : Stream.State κ
  pump : PumpPc
  /-- The capacity of the next call of stream_next. -/
  cap : Nat
  received : List Bytes
  /-- The receiver has been told that the channel is closed. -/
  told : Bool

inductive Action (κ : Type) where
  | stream (a : Stream.Action κ) | pump | receive

def initial : State κ where
  stream := Stream.initial
  pump := .reading
  cap := firstCap
  received := []
  told := false

/-- The rest of a turn in Next, with what stream_next returned and copied. -/
def State.take (s : State κ) (n : Nat) (out : Bytes) : State κ :=
  match turn s.cap n out with
  | .ended => { s with cap := firstCap, pump := .done }
  | .got plain => { s with cap := firstCap, pump := .sending plain }
  | .again => { s with cap := s.cap * 2 }

def pumpStep (tmpl : Template) (batchSize : Nat) (s : State κ) : Option (State κ) :=
  match s.pump with
  | .reading =>
    let (n, out) := streamNext s.stream.outQueue.head? s.cap
    (Stream.step tmpl batchSize s.stream .next).map fun t => { s with stream := t }.take n out
  | .sending _ | .done => none

/-- A receive meets the send, or finds the channel closed; else it blocks. -/
def receiveStep (s : State κ) : Option (State κ) :=
  match s.pump with
  | .sending p => some { s with received := s.received ++ [p], pump := .reading }
  | .done => some { s with told := true }
  | .reading => none

def step (tmpl : Template) (batchSize : Nat) (s : State κ) : Action κ → Option (State κ)
  | .stream a =>
    if ofOthers a then
      (Stream.step tmpl batchSize s.stream a).map fun t => { s with stream := t }
    else none
  | .pump => pumpStep tmpl batchSize s
  | .receive => receiveStep s

variable {s t : State κ}

section Moves

inductive Move (tmpl : Template) (batchSize : Nat) (s : State κ) : Action κ → State κ → Prop
  | stream (a : Stream.Action κ) (v : Stream.State κ) (ha : ofOthers a = true)
    (hv : Stream.step tmpl batchSize s.stream a = some v) :
    Move tmpl batchSize s (.stream a) { s with stream := v }
  | keep (p : Bytes) (rest : List Bytes) (hpc : s.pump = .reading)
    (hq : s.stream.outQueue = p :: rest) (hp : p ≠ []) (hlt : p.length < s.cap) :
    Move tmpl batchSize s .pump { s with
      stream := { s.stream with outQueue := rest }.answer (.next (some p))
      cap := firstCap
      pump := .sending p }
  | lose (p : Bytes) (rest : List Bytes) (hpc : s.pump = .reading)
    (hq : s.stream.outQueue = p :: rest) (hle : s.cap ≤ p.length) (hcap : 0 < s.cap) :
    Move tmpl batchSize s .pump { s with
      stream := { s.stream with outQueue := rest }.answer (.next (some p))
      cap := s.cap * 2 }
  | stop (u : Stream.State κ) (hpc : s.pump = .reading)
    (hzero : (streamNext s.stream.outQueue.head? s.cap).1 = 0)
    (hu : Stream.step tmpl batchSize s.stream .next = some u) :
    Move tmpl batchSize s .pump { s with stream := u, cap := firstCap, pump := .done }
  | receive (p : Bytes) (hpc : s.pump = .sending p) :
    Move tmpl batchSize s .receive { s with received := s.received ++ [p], pump := .reading }
  | tell (hpc : s.pump = .done) : Move tmpl batchSize s .receive { s with told := true }

theorem reading_move {u : Stream.State κ} (hpc : s.pump = .reading)
    (hu : Stream.step tmpl batchSize s.stream .next = some u) :
    Move tmpl batchSize s .pump ({ s with stream := u }.take
      (streamNext s.stream.outQueue.head? s.cap).1
      (streamNext s.stream.outQueue.head? s.cap).2) := by
  have htaken := taken_of_next hu s.cap
  rw [State.take]
  dsimp only
  generalize turn s.cap _ _ = r at htaken ⊢
  cases htaken with
  | got p rest hq hp hlt hv =>
    subst hv
    exact .keep p rest hpc hq hp hlt
  | again p rest hq hcap hle hv =>
    subst hv
    exact .lose p rest hpc hq hle hcap
  | ended hzero hu => exact .stop u hpc hzero hu

theorem step_move {a : Action κ} (h : step tmpl batchSize s a = some t) :
    Move tmpl batchSize s a t := by
  cases a with
  | stream a =>
    simp only [step] at h
    split at h
    next ha =>
      obtain ⟨v, hv, rfl⟩ := Option.map_eq_some_iff.mp h
      exact .stream a v ha hv
    next => cases h
  | pump =>
    simp only [step, pumpStep] at h
    split at h
    next hpc =>
      obtain ⟨u, hu, rfl⟩ := Option.map_eq_some_iff.mp h
      exact reading_move hpc hu
    all_goals cases h
  | receive =>
    simp only [step, receiveStep] at h
    split at h
    next p hpc =>
      cases h
      exact .receive p hpc
    next hpc =>
      cases h
      exact .tell hpc
    next => cases h

omit [DecidableEq κ] in
theorem take_stream (s : State κ) (n : Nat) (out : Bytes) : (s.take n out).stream = s.stream := by
  rw [State.take]
  split <;> rfl

/-- A step of the channel is a step of its stream or leaves the stream alone. -/
theorem step_stream {a : Action κ} (hu : step tmpl batchSize s a = some t) :
    t.stream = s.stream ∨
      ∃ b, b ≠ .drop ∧ Stream.step tmpl batchSize s.stream b = some t.stream := by
  cases a with
  | stream a =>
    simp only [step] at hu
    split at hu
    next ha =>
      obtain ⟨v, hv, rfl⟩ := Option.map_eq_some_iff.mp hu
      refine .inr ⟨a, ?_, hv⟩
      rintro rfl
      cases ha
    next => cases hu
  | pump =>
    simp only [step, pumpStep] at hu
    split at hu
    next hpc =>
      obtain ⟨v, hv, rfl⟩ := Option.map_eq_some_iff.mp hu
      exact .inr ⟨.next, nofun, by rw [take_stream]; exact hv⟩
    all_goals cases hu
  | receive =>
    left
    simp only [step, receiveStep] at hu
    split at hu <;> cases hu <;> rfl

/-- The stream of a channel runs as a stream does, and is not dropped. -/
theorem reached_stream (h : Reaches (step tmpl batchSize) (initial : State κ) s) :
    Reaches (Stream.step tmpl batchSize) (Stream.initial : Stream.State κ) s.stream ∧
      s.stream.dropper = .idle :=
  stream_reached h rfl fun _ _ _ => step_stream

end Moves

section Books

/-- The plaintext at the send. -/
def inHand : PumpPc → List Bytes
  | .sending p => [p]
  | _ => []

/-- What has been taken has been received or is at the send, in order, but for the plaintexts that
did not fit; the channel is closed at the end of the stream or at a plaintext without bytes. -/
structure Books (s : State κ) : Prop where
  cap : 0 < s.cap
  first : Short firstCap s.stream → s.cap = firstCap
  sub : (s.received ++ inHand s.pump).Sublist s.stream.delivered
  short : Short firstCap s.stream → s.received ++ inHand s.pump = s.stream.delivered.filter nonempty
  ended : s.pump.ended = true → s.stream.sawEnd = true ∨ [] ∈ s.stream.delivered
  told : s.told = true → s.pump.ended = true

omit [DecidableEq κ] in
theorem books_initial : Books (initial : State κ) :=
  ⟨(by decide : 0 < 4096), fun _ => rfl, List.nil_sublist _, fun _ => rfl,
    (fun hend => by cases hend), fun htold => by cases htold⟩

theorem Books.stop (h : Books s) {u : Stream.State κ} (hpc : s.pump = .reading)
    (hzero : (streamNext s.stream.outQueue.head? s.cap).1 = 0)
    (hu : Stream.step tmpl batchSize s.stream .next = some u) :
    Books { s with stream := u, cap := firstCap, pump := .done } := by
  have hsub := h.sub
  have hshort := h.short
  rw [hpc] at hsub hshort
  obtain ⟨rest, rfl⟩ | rfl := ended_cases h.cap hzero hu
  · obtain ⟨hdel, hiff⟩ := short_take firstCap (u := s.stream) (p := []) (r := rest) rfl
    refine ⟨(by decide : 0 < 4096), fun _ => rfl, ?_, fun hs => ?_, fun _ => .inr ?_, fun _ => rfl⟩
    · rw [hdel]
      exact hsub.trans (List.sublist_append_left _ _)
    · rw [hdel, List.filter_append, ← hshort (hiff.mp hs).1]
      exact (List.append_nil _).symm
    · rw [hdel]
      exact List.mem_append_right _ (List.mem_singleton_self _)
  · obtain ⟨hdel, hend⟩ := delivered_end s.stream
    refine ⟨(by decide : 0 < 4096), fun _ => rfl, ?_, fun hs => ?_,
      fun _ => .inl hend, fun _ => rfl⟩
    · rw [hdel]
      exact hsub
    · rw [Short, hdel] at hs
      rw [hdel]
      exact hshort hs

theorem Books.step {a : Action κ} (h : Books s) (hm : Move tmpl batchSize s a t) : Books t := by
  have hsub := h.sub
  have hshort := h.short
  cases hm with
  | stream a v ha hv =>
    have hdel := delivered_ofOthers ha hv
    have hend := sawEnd_ofOthers ha hv
    have hiff : Short firstCap v ↔ Short firstCap s.stream := by rw [Short, Short, hdel]
    refine ⟨h.cap, fun hs => h.first (hiff.mp hs), ?_, fun hs => ?_, ?_, h.told⟩
    · rw [hdel]
      exact hsub
    · rw [hdel]
      exact hshort (hiff.mp hs)
    · rw [hend, hdel]
      exact h.ended
  | keep p rest hpc hq hp hlt =>
    rw [hpc] at hsub hshort
    obtain ⟨hdel, hiff⟩ := short_take firstCap (u := s.stream) (p := p) (r := rest) rfl
    refine ⟨(by decide : 0 < 4096), fun _ => rfl, ?_, fun hs => ?_, (fun hend => by cases hend),
      fun ht => ?_⟩
    · rw [hdel]
      simpa [inHand] using hsub
    · have hbefore := hshort (hiff.mp hs).1
      rw [hdel, List.filter_append, ← hbefore, List.filter_singleton, nonempty_iff.mpr hp]
      simp [inHand]
    · have hended := h.told ht
      rw [hpc] at hended
      cases hended
  | lose p rest hpc hq hle hcap =>
    obtain ⟨hdel, hiff⟩ := short_take firstCap (u := s.stream) (p := p) (r := rest) rfl
    have hlong : ¬ Short firstCap ({ s.stream with outQueue := rest }.answer (.next (some p))) := by
      intro hs
      obtain ⟨hs, hlt⟩ := hiff.mp hs
      exact absurd hle (Nat.not_le.mpr (h.first hs ▸ hlt))
    refine ⟨Nat.mul_pos hcap (by decide), fun hs => absurd hs hlong, ?_, fun hs => absurd hs hlong,
      fun hend => ?_, h.told⟩
    · rw [hdel]
      exact hsub.trans (List.sublist_append_left _ _)
    · rw [hpc] at hend
      cases hend
  | stop u hpc hzero hu => exact h.stop hpc hzero hu
  | receive p hpc =>
    rw [hpc] at hsub hshort
    refine ⟨h.cap, h.first, ?_, fun hs => ?_, (fun hend => by cases hend), fun ht => ?_⟩
    · simpa [inHand] using hsub
    · simpa [inHand] using hshort hs
    · have hended := h.told ht
      rw [hpc] at hended
      cases hended
  | tell hpc => exact ⟨h.cap, h.first, hsub, hshort, h.ended, fun _ => by rw [hpc]; rfl⟩

theorem reached_books (h : Reaches (GoChannel.step tmpl batchSize) (initial : State κ) s) :
    Books s :=
  h.invariant (I := Books) books_initial fun _ _ _ _ hi _ hu => hi.step (step_move hu)

end Books

section Order

/-- Once the channel is closed, all plaintexts have been received. -/
theorem received_of_ended (hctx : 0x8000 ≤ tmpl.ctx.length)
    (h : Reaches (step tmpl batchSize) initial s) (hfits : Fits firstCap s.stream.accepted)
    (hbytes : [] ∉ s.stream.accepted) (hended : s.pump.ended = true) : s.stream.txOpen = false ∧
      s.stream.accepted.mapM (decrypt tmpl) = some s.received := by
  have hstream := (reached_stream h).1
  have hbooks := reached_books h
  have hshort := hbooks.short (short_of_fits hctx hstream hfits)
  have hhand : inHand s.pump = [] := by cases hpc : s.pump <;> simp_all [PumpPc.ended, inHand]
  rw [hhand, List.append_nil] at hshort
  rw [hshort]
  exact all_of_ended hctx hstream hbytes (hbooks.ended hended)

end Order

section Serving

/-- The steps of the coordinator, of the goroutine and of the receiver. -/
def serving : Action κ → Bool
  | .stream (.coord _) | .pump | .receive => true
  | _ => false

/-- A receive of the coordinator that is told to time out. -/
def timesOut : Action κ → Bool
  | .stream a => StreamFlush.timesOut a
  | _ => false

omit [DecidableEq κ] in
theorem timesOut_map (as : List (Stream.Action κ)) :
    (as.map Action.stream).countP timesOut = as.countP StreamFlush.timesOut := List.countP_map

/-- A run of the coordinator beside the channel. -/
theorem run_coord {as : List (Stream.Action κ)} {u : Stream.State κ}
    (has : ∀ a ∈ as, ∃ timeout, a = .coord timeout)
    (hrun : run (Stream.step tmpl batchSize) s.stream as = some u) :
    run (step tmpl batchSize) s (as.map .stream) = some { s with stream := u } := by
  induction as generalizing s with
  | nil =>
    cases hrun
    rfl
  | cons a as ih =>
    obtain ⟨⟨timeout, rfl⟩, htail⟩ := List.forall_mem_cons.mp has
    obtain ⟨v, hv, hrest⟩ := run_cons_eq_some.mp hrun
    have hstep : step tmpl batchSize s (.stream (.coord timeout)) =
        some { s with stream := v } := by
      simp only [step, ofOthers, if_true, hv, Option.map_some]
    exact run_cons_eq_some.mpr ⟨_, hstep, ih (s := { s with stream := v }) htail hrest⟩

/-- The goroutine takes a plaintext that fits and the receiver gets it. -/
theorem run_one {p : Bytes} {rest : List Bytes} (hd : s.stream.dropper = .idle)
    (hpc : s.pump = .reading) (hq : s.stream.outQueue = p :: rest) (hp : p ≠ [])
    (hlt : p.length < s.cap) : run (step tmpl batchSize) s [.pump, .receive] = some { s with
      stream := { s.stream with outQueue := rest }.answer (.next (some p))
      cap := firstCap
      received := s.received ++ [p]
      pump := .reading } := by
  have hnext : Stream.step tmpl batchSize s.stream .next =
      some ({ s.stream with outQueue := rest }.answer (.next (some p))) := by
    simp only [Stream.step, if_pos hd, Stream.nextStep, hq]
  have hmin : min p.length s.cap = p.length := Nat.min_eq_left (Nat.le_of_lt hlt)
  have hne : ¬ p.length = 0 := fun hzero => hp (List.length_eq_zero_iff.mp hzero)
  have hpump : step tmpl batchSize s .pump = some { s with
      stream := { s.stream with outQueue := rest }.answer (.next (some p))
      cap := firstCap
      pump := .sending p } := by
    simp only [step, pumpStep, hpc, hnext, Option.map_some, hq, List.head?_cons, streamNext, hmin,
      List.take_length, State.take, turn, if_neg hne, if_pos hlt]
  exact run_cons_eq_some.mpr ⟨_, hpump, rfl⟩

/-- What is on the output channel reaches the receiver. -/
theorem run_all (hctx : 0x8000 ≤ tmpl.ctx.length) (hfits : Fits firstCap s.stream.accepted)
    (hbytes : [] ∉ s.stream.accepted) (h : Reaches (step tmpl batchSize) initial s)
    (hpc : s.pump = .reading) : ∃ as t, (∀ a ∈ as, serving a = true) ∧ as.countP timesOut = 0 ∧
      run (step tmpl batchSize) s as = some t ∧ t.pump = .reading ∧
      t.stream.outQueue = [] ∧ t.stream.accepted = s.stream.accepted ∧
      t.stream.coord = s.stream.coord ∧
      t.stream.delivered = s.stream.delivered ++ s.stream.outQueue := by
  induction hq : s.stream.outQueue generalizing s with
  | nil => exact ⟨[], s, by simp, rfl, rfl, hpc, hq, rfl, rfl, (List.append_nil _).symm⟩
  | cons p rest ih =>
    have hret := StreamOrder.returns_of_ctx hctx
    obtain ⟨hstream, hd⟩ := reached_stream h
    have hmem : p ∈ s.stream.accepted.map (StreamOrder.plainOf tmpl) := by
      have horder : s.stream.accepted.map (StreamOrder.plainOf tmpl) = _ :=
        (StreamOrder.reached_inv hret hstream).2.order.symm
      rw [horder]
      simp [StreamOrder.lineOf, hq]
    have hlt : p.length < s.cap := by
      rw [(reached_books h).first (short_of_fits hctx (reached_stream h).1 hfits)]
      exact plains_lt hctx hfits hmem
    have hne := nonempty_iff.mp (plains_nonempty hctx hbytes hmem)
    have hrun : run (step tmpl batchSize) s [.pump, .receive] = _ := run_one hd hpc hq hne hlt
    obtain ⟨as, t, has, hnone, hrun', hpc', hempty, hacc, hcoord, hdel⟩ :=
      ih (s := { s with
        stream := { s.stream with outQueue := rest }.answer (.next (some p))
        cap := firstCap
        received := s.received ++ [p]
        pump := .reading }) hfits hbytes (h.trans (reaches_of_run hrun)) rfl rfl
    refine ⟨[.pump, .receive] ++ as, t, ?_, hnone, (run_append hrun).trans hrun', hpc', hempty,
      hacc, hcoord, ?_⟩
    · exact List.forall_mem_append.mpr ⟨by simp [serving], has⟩
    · rw [hdel]
      change ({ s.stream with outQueue := rest }.answer (.next (some p))).delivered ++ rest = _
      rw [(short_take firstCap (u := s.stream) (p := p) (r := rest) rfl).1, List.append_assoc]
      rfl

/-- A plaintext at the send is received. -/
theorem run_ready (tmpl : Template) (batchSize : Nat) (hopen : s.pump.ended = false) : ∃ as t,
    (∀ a ∈ as, serving a = true) ∧ as.countP timesOut = 0 ∧
    run (step tmpl batchSize) s as = some t ∧
      t.pump = .reading ∧ t.stream = s.stream := by
  cases hpc : s.pump with
  | reading => exact ⟨[], s, by simp, rfl, rfl, hpc, rfl⟩
  | sending p =>
    have hstep : step tmpl batchSize s .receive =
        some { s with received := s.received ++ [p], pump := .reading } := by
      simp only [step, receiveStep, hpc]
    exact ⟨[.receive], _, by simp [serving], rfl, run_cons_eq_some.mpr ⟨_, hstep, rfl⟩, rfl, rfl⟩
  | done =>
    rw [hpc] at hopen
    cases hopen

/-- At the end of the stream the receiver is told. -/
theorem run_end (hd : s.stream.dropper = .idle) (hpc : s.pump = .reading)
    (hq : s.stream.outQueue = []) (hend : s.stream.coord.ended = true) :
    run (step tmpl batchSize) s [.pump, .receive] = some { s with
      stream := s.stream.answer (.next none)
      cap := firstCap
      pump := .done
      told := true } := by
  have hnext : Stream.step tmpl batchSize s.stream .next = some (s.stream.answer (.next none)) := by
    simp only [Stream.step, if_pos hd, Stream.nextStep, hq, if_pos hend]
  have hpump : step tmpl batchSize s .pump = some { s with
      stream := s.stream.answer (.next none)
      cap := firstCap
      pump := .done } := by
    simp only [step, pumpStep, hpc, hnext, Option.map_some, hq, List.head?_nil, streamNext,
      State.take, turn, if_true]
  exact run_cons_eq_some.mpr ⟨_, hpump, rfl⟩

/-- The coordinator and the goroutine bring all accepted samples to the receiver. -/
theorem run_served (hctx : 0x8000 ≤ tmpl.ctx.length)
    (h : Reaches (step tmpl batchSize) initial s) (hfits : Fits firstCap s.stream.accepted)
    (hbytes : [] ∉ s.stream.accepted) (hpc : s.pump = .reading) :
    ∃ as t, (∀ a ∈ as, serving a = true) ∧ as.countP timesOut ≤ 1 ∧
      run (step tmpl batchSize) s as = some t ∧ t.pump = .reading ∧ t.stream.outQueue = [] ∧
      t.stream.accepted = s.stream.accepted ∧
      s.stream.accepted.mapM (decrypt tmpl) = some t.received ∧
      (s.stream.txOpen = false → t.stream.coord.ended = true) := by
  have hret := StreamOrder.returns_of_ctx hctx
  obtain ⟨as, u, has, hone, hrun, hout, hdec, hclosed⟩ :=
    StreamFlush.coord_flushes hret (reached_stream h).1
  have hcoord := run_coord has hrun
  have hu := h.trans (reaches_of_run hcoord)
  rw [← hout.accepted] at hfits hbytes ⊢
  obtain ⟨bs, t, hbs, hnone, hrun', hpc', hempty, hacc, hend, hdel⟩ :=
    run_all (s := { s with stream := u }) hctx hfits hbytes hu hpc
  have ht := hu.trans (reaches_of_run hrun')
  refine ⟨as.map .stream ++ bs, t, ?_, ?_, (run_append hcoord).trans hrun', hpc', hempty, hacc, ?_,
    fun hopen => by rw [hend]; exact hclosed hopen⟩
  · refine List.forall_mem_append.mpr ⟨fun a ha => ?_, hbs⟩
    obtain ⟨b, hb, rfl⟩ := List.mem_map.mp ha
    obtain ⟨timeout, rfl⟩ := has b hb
    rfl
  · rw [List.countP_append, timesOut_map, hnone]
    exact hone
  · have hshort := (reached_books ht).short (short_of_fits hctx (reached_stream ht).1
      (by rw [hacc]; exact hfits))
    have hhand : inHand t.pump = [] := by rw [hpc']; rfl
    rw [hhand, List.append_nil, hdel] at hshort
    have hplain := hdec.symm.trans (StreamOrder.decryptBatch_eq hret _)
    change some (u.delivered ++ u.outQueue) = _ at hplain
    have hall : (u.delivered ++ u.outQueue).filter nonempty = u.delivered ++ u.outQueue := by
      rw [Option.some.inj hplain]
      exact List.filter_eq_self.mpr fun p hp => plains_nonempty hctx hbytes hp
    exact hdec.trans (congrArg some (hall.symm.trans hshort.symm))

end Serving

section Results

/-- In every run the channel carries plaintexts of accepted samples in order, each at most once.
Where the samples fit the first capacity of Next, it carries all plaintexts with bytes in turn,
and has carried all that were taken when the goroutine asks for more; where all samples have
bytes it is closed only behind the last of them. -/
theorem channel_in_order (tmpl : Template) (batchSize : Nat) (s : State κ)
    (hctx : 0x8000 ≤ tmpl.ctx.length) (h : Reaches (step tmpl batchSize) initial s) :
    ∃ plain, s.stream.accepted.mapM (decrypt tmpl) = some plain ∧ s.received.Sublist plain ∧
      (Fits firstCap s.stream.accepted → s.received <+: plain.filter nonempty ∧
        (s.pump = .reading → s.received = s.stream.delivered.filter nonempty)) ∧
      (Fits firstCap s.stream.accepted → [] ∉ s.stream.accepted → s.told = true →
        s.stream.txOpen = false ∧ s.received = plain) := by
  have hret := StreamOrder.returns_of_ctx hctx
  obtain ⟨-, hline⟩ := StreamOrder.reached_inv hret (reached_stream h).1
  have hbooks := reached_books h
  refine ⟨_, StreamOrder.decryptBatch_eq hret _, ?_, fun hfits => ?_, fun hfits hbytes htold => ?_⟩
  · exact ((List.sublist_append_left _ _).trans hbooks.sub).trans hline.front.sublist
  · have hshort := hbooks.short (short_of_fits hctx (reached_stream h).1 hfits)
    refine ⟨?_, fun hpc => ?_⟩
    · have hprefix := List.prefix_append s.received (inHand s.pump)
      rw [hshort] at hprefix
      exact hprefix.trans (hline.front.filter nonempty)
    · rw [← hshort, hpc]
      exact (List.append_nil _).symm
  · obtain ⟨hopen, hall⟩ := received_of_ended hctx h hfits hbytes (hbooks.told htold)
    exact ⟨hopen, Option.some.inj (hall.symm.trans (StreamOrder.decryptBatch_eq hret _))⟩

/-- Two samples, of which the second has a full block, and the end behind them. -/
theorem channel_in_order_two : ∃ s : State Unit, s.told = true ∧
    s.stream.accepted = [[7], .replicate 17 1] ∧ s.stream.txOpen = false ∧
    ∃ plain, s.stream.accepted.mapM (decrypt eightTemplate) = some plain ∧ s.received = plain := by
  have hctx : 0x8000 ≤ eightTemplate.ctx.length := List.length_replicate.ge
  obtain ⟨s, hrun, hacc, hopen, hpc⟩ : ∃ s, run (step eightTemplate 3) (initial : State Unit)
      ([.stream (.call () (.submit [7])), .stream (.client ()), .stream (.client ()),
        .stream (.call () (.submit (.replicate 17 1))), .stream (.client ()), .stream (.client ()),
        .stream (.call () .finish), .stream (.client ()), .stream (.client ()),
        .stream (.client ())]) = some s ∧ s.stream.accepted = [[7], .replicate 17 1] ∧
      s.stream.txOpen = false ∧ s.pump = .reading := ⟨_, rfl, rfl, rfl, rfl⟩
  have hs := reaches_of_run hrun
  have hfits : Fits firstCap s.stream.accepted := by
    rw [hacc, Fits]
    decide
  have hbytes : [] ∉ s.stream.accepted := by simp [hacc]
  obtain ⟨as, t, -, -, hrun', hpc', hempty, hacc', -, hend⟩ := run_served hctx hs hfits hbytes hpc
  have ht := hs.trans (reaches_of_run hrun')
  let v : State Unit := { t with
    stream := t.stream.answer (.next none), cap := firstCap, pump := .done, told := true }
  have hlast : run (step eightTemplate 3) t [.pump, .receive] = some v :=
    run_end (reached_stream ht).2 hpc' hempty (hend hopen)
  obtain ⟨plain, hplain, -, -, hwhole⟩ :=
    channel_in_order eightTemplate 3 v hctx (ht.trans (reaches_of_run hlast))
  rw [← hacc'] at hfits hbytes hacc
  obtain ⟨hclosed, hall⟩ := hwhole hfits hbytes rfl
  exact ⟨v, rfl, hacc, hclosed, plain, hplain, hall⟩

/-- The channel withholds nothing. From every state reached, with no call of a producer and one
receive of the coordinator that times out at most, the receiver can get the plaintexts of all
accepted samples, where these have bytes and fit the first capacity; and on a closed input it is
told of the end. -/
theorem channel_serves (tmpl : Template) (batchSize : Nat) (s : State κ)
    (hctx : 0x8000 ≤ tmpl.ctx.length) (h : Reaches (step tmpl batchSize) initial s)
    (hfits : Fits firstCap s.stream.accepted) (hbytes : [] ∉ s.stream.accepted) :
    ∃ as t, (∀ a ∈ as, serving a = true) ∧ as.countP timesOut ≤ 1 ∧
      run (step tmpl batchSize) s as = some t ∧ t.stream.accepted = s.stream.accepted ∧
      s.stream.accepted.mapM (decrypt tmpl) = some t.received ∧
      (s.stream.txOpen = false → t.told = true) := by
  cases hended : s.pump.ended with
  | true =>
    have hstep : step tmpl batchSize s .receive = some { s with told := true } := by
      cases hpc : s.pump <;> simp_all [PumpPc.ended, step, receiveStep]
    exact ⟨[.receive], _, by simp [serving], Nat.zero_le 1, run_cons_eq_some.mpr ⟨_, hstep, rfl⟩,
      rfl, (received_of_ended hctx h hfits hbytes hended).2, fun _ => rfl⟩
  | false =>
    obtain ⟨as, u, has, hnone, hrun, hpc, hstream⟩ := run_ready tmpl batchSize hended
    have hu := h.trans (reaches_of_run hrun)
    rw [← hstream] at hfits hbytes ⊢
    obtain ⟨bs, t, hbs, hone, hrun', hpc', hempty, hacc, hall, hend⟩ :=
      run_served hctx hu hfits hbytes hpc
    have ht := hu.trans (reaches_of_run hrun')
    have hserved := List.forall_mem_append.mpr ⟨has, hbs⟩
    have hcount : (as ++ bs).countP timesOut ≤ 1 := by
      rw [List.countP_append, hnone, Nat.zero_add]
      exact hone
    by_cases hopen : u.stream.txOpen = false
    · have hlast : run (step tmpl batchSize) t [.pump, .receive] = _ :=
        run_end (reached_stream ht).2 hpc' hempty (hend hopen)
      have hwhole := (run_append ((run_append hrun).trans hrun')).trans hlast
      let v : State κ := { t with
        stream := t.stream.answer (.next none), cap := firstCap, pump := .done, told := true }
      refine ⟨as ++ bs ++ [.pump, .receive], v, ?_, ?_, hwhole, hacc, hall, fun _ => rfl⟩
      · exact List.forall_mem_append.mpr ⟨hserved, by simp [serving]⟩
      · rw [List.countP_append]
        exact hcount
    · exact ⟨as ++ bs, t, hserved, hcount, (run_append hrun).trans hrun', hacc, hall,
        fun hclosed => absurd hclosed hopen⟩

/-- Two samples wait in the channel of a stream with batches of three. -/
theorem channel_serves_two : ∃ s : State Unit, s.stream.accepted = [[7], .replicate 17 1] ∧
    s.stream.txOpen = true ∧ s.received = [] ∧ ∃ as t, (∀ a ∈ as, serving a = true) ∧
      as.countP timesOut ≤ 1 ∧ run (step eightTemplate 3) s as = some t ∧
      s.stream.accepted.mapM (decrypt eightTemplate) = some t.received := by
  obtain ⟨s, hrun, hacc, hopen, hgot⟩ : ∃ s, run (step eightTemplate 3) (initial : State Unit)
      ([.stream (.call () (.submit [7])), .stream (.client ()), .stream (.client ()),
        .stream (.call () (.submit (.replicate 17 1))), .stream (.client ()),
        .stream (.client ())]) = some s ∧ s.stream.accepted = [[7], .replicate 17 1] ∧
      s.stream.txOpen = true ∧ s.received = [] := ⟨_, rfl, rfl, rfl, rfl⟩
  have hfits : Fits firstCap s.stream.accepted := by
    rw [hacc, Fits]
    decide
  obtain ⟨as, t, has, hone, hrun', -, hall, -⟩ := channel_serves eightTemplate 3 s
    List.length_replicate.ge (reaches_of_run hrun) hfits (by simp [hacc])
  exact ⟨s, hacc, hopen, hgot, as, t, has, hone, hrun', hall⟩

end Results

end Temari.GoChannel
