import Temari.Aiter

/-! The books of asynchronous iteration: what the pump has taken, kept and handed over, and where
the slots of the queue are. -/
namespace Temari.AiterLedger
open RoundMachine Rounds Ffi RetryLoop Transition Aiter
variable {κ : Type} [DecidableEq κ] {tmpl : Template} {batchSize : Nat} {s t : State κ}

/-- The capacity with which `_next_optional` starts. -/
abbrev firstCap : Nat := Binding.python.firstCapacity

section Pump

inductive PumpMove (tmpl : Template) (batchSize : Nat) (s : State κ) : State κ → Prop
  | keep (p : Bytes) (rest : List Bytes) (hpc : s.pump = .reading)
    (hq : s.stream.outQueue = p :: rest) (hp : p ≠ []) (hlt : p.length < s.cap) :
    PumpMove tmpl batchSize s { s with
      stream := { s.stream with outQueue := rest }.answer (.next (some p))
      cap := firstCap
      batch := s.batch ++ [p]
      pump := if chunk ≤ s.batch.length + 1 then .acquire false else .reading }
  | lose (p : Bytes) (rest : List Bytes) (hpc : s.pump = .reading)
    (hq : s.stream.outQueue = p :: rest) (hcap : 0 < s.cap) (hle : s.cap ≤ p.length) :
    PumpMove tmpl batchSize s { s with
      stream := { s.stream with outQueue := rest }.answer (.next (some p))
      cap := s.cap * 2 }
  | stop (u : Stream.State κ) (hpc : s.pump = .reading)
    (hzero : (streamNext s.stream.outQueue.head? s.cap).1 = 0)
    (hu : Stream.step tmpl batchSize s.stream .next = some u) :
    PumpMove tmpl batchSize s { s with
      stream := u
      cap := firstCap
      pump := if s.batch = [] then .closing else .acquire true }
  | acquire (last : Bool) (hpc : s.pump = .acquire last) (hs : 0 < s.space) :
    PumpMove tmpl batchSize s { s with space := s.space - 1, pump := .handing last }
  | hand (last : Bool) (hpc : s.pump = .handing last) : PumpMove tmpl batchSize s { s with
      callbacks := s.callbacks ++ [.batch s.batch]
      handed := s.handed ++ s.batch
      batch := if last then s.batch else []
      pump := if last then .closing else .reading }
  | close (hpc : s.pump = .closing) (hs : 0 < s.space) :
    PumpMove tmpl batchSize s { s with space := s.space - 1, pump := .ending }
  | finish (hpc : s.pump = .ending) : PumpMove tmpl batchSize s { s with
      callbacks := s.callbacks ++ [.sentinel]
      pump := .done }

theorem reading_move {u : Stream.State κ} (hpc : s.pump = .reading)
    (hu : Stream.step tmpl batchSize s.stream .next = some u) :
    PumpMove tmpl batchSize s ({ s with stream := u }.take
      (streamNext s.stream.outQueue.head? s.cap).1
      (streamNext s.stream.outQueue.head? s.cap).2) := by
  have htaken := taken_of_next hu s.cap
  rw [State.take]
  dsimp only
  generalize turn s.cap _ _ = r at htaken ⊢
  cases htaken with
  | got p rest hq hp hlt hv =>
    subst hv
    exact .keep p rest hpc hq hp hlt
  | again p rest hq hcap hle hv =>
    subst hv
    exact .lose p rest hpc hq hcap hle
  | ended hzero hu => exact .stop u hpc hzero hu

theorem pumpStep_move (h : pumpStep tmpl batchSize s = some t) : PumpMove tmpl batchSize s t := by
  unfold pumpStep at h
  split at h
  next hpc =>
    obtain ⟨u, hu, rfl⟩ := Option.map_eq_some_iff.mp h
    exact reading_move hpc hu
  next last hpc =>
    split at h
    · cases h
    next hs =>
      cases h
      exact .acquire last hpc (Nat.pos_of_ne_zero hs)
  next last hpc =>
    cases h
    exact .hand last hpc
  next hpc =>
    split at h
    · cases h
    next hs =>
      cases h
      exact .close hpc (Nat.pos_of_ne_zero hs)
  next hpc =>
    cases h
    exact .finish hpc
  all_goals cases h

theorem PumpMove.started (hm : PumpMove tmpl batchSize s t) : s.pump ≠ .unstarted := by
  intro hu
  cases hm with
  | keep p rest hpc hq hp hlt => cases hu.symm.trans hpc
  | lose p rest hpc hq hcap hle => cases hu.symm.trans hpc
  | stop u hpc hzero hstep => cases hu.symm.trans hpc
  | acquire last hpc hs => cases hu.symm.trans hpc
  | hand last hpc => cases hu.symm.trans hpc
  | close hpc hs => cases hu.symm.trans hpc
  | finish hpc => cases hu.symm.trans hpc

end Pump

section Side

/-- The steps of the event loop and the consumer. -/
def side : Action κ → Bool
  | .loop | .ask | .reader => true
  | _ => false

/-- The stream and the pump are as they were. -/
structure Beside (s t : State κ) : Prop where
  stream : t.stream = s.stream
  pump : t.pump = s.pump
  cap : t.cap = s.cap
  batch : t.batch = s.batch
  handed : t.handed = s.handed
  fresh : t.reader = .fresh → s.reader = .fresh

omit [DecidableEq κ] in
theorem Beside.trans {u : State κ} (h : Beside s t) (h' : Beside t u) : Beside s u :=
  ⟨h'.stream.trans h.stream, h'.pump.trans h.pump, h'.cap.trans h.cap, h'.batch.trans h.batch,
    h'.handed.trans h.handed, fun hr => h.fresh (h'.fresh hr)⟩

inductive SideMove (s : State κ) : State κ → Prop
  | put (item : Item) (rest : List Item) (hc : s.callbacks = item :: rest)
    (hroom : s.queue.length < maxq) :
    SideMove s { s with callbacks := rest, queue := s.queue ++ [item] }
  | queueFull (item : Item) (rest : List Item) (hc : s.callbacks = item :: rest)
    (hfull : maxq ≤ s.queue.length) : SideMove s { s with callbacks := rest }
  | start (hr : s.reader = .fresh) : SideMove s { s with reader := .asked [], pump := .reading }
  | resume (rest : List Bytes) (hr : s.reader = .suspended rest) :
    SideMove s { s with reader := .asked rest }
  | yield (p : Bytes) (rest : List Bytes) (hr : s.reader = .asked (p :: rest)) :
    SideMove s { s with reader := .suspended rest, yielded := s.yielded ++ [p] }
  | get (item : Item) (rest : List Item) (hr : s.reader = .asked [])
    (hq : s.queue = item :: rest) : SideMove s { s with queue := rest, reader := .got item }
  | release (plains : List Bytes) (hr : s.reader = .got (.batch plains)) :
    SideMove s { s with space := s.space + 1, reader := .asked plains }
  | finish (hr : s.reader = .got .sentinel) :
    SideMove s { s with space := s.space + 1, reader := .finished }

omit [DecidableEq κ] in
theorem loopStep_move (h : loopStep s = some t) : SideMove s t := by
  unfold loopStep at h
  split at h
  next item rest hc =>
    split at h
    next hroom =>
      cases h
      exact .put item rest hc hroom
    next hroom =>
      cases h
      exact .queueFull item rest hc (Nat.not_lt.mp hroom)
  next => cases h

omit [DecidableEq κ] in
theorem askStep_move (h : askStep s = some t) : SideMove s t := by
  unfold askStep at h
  split at h
  next hr =>
    cases h
    exact .start hr
  next rest hr =>
    cases h
    exact .resume rest hr
  next => cases h

omit [DecidableEq κ] in
theorem readerStep_move (h : readerStep s = some t) : SideMove s t := by
  unfold readerStep at h
  split at h
  next p rest hr =>
    cases h
    exact .yield p rest hr
  next hr =>
    split at h
    next item rest hq =>
      cases h
      exact .get item rest hr hq
    next => cases h
  next plains hr =>
    cases h
    exact .release plains hr
  next hr =>
    cases h
    exact .finish hr
  next => cases h

theorem side_move {a : Action κ} (ha : side a = true)
    (hu : Aiter.step tmpl batchSize s a = some t) : SideMove s t := by
  cases a with
  | loop => exact loopStep_move hu
  | ask => exact askStep_move hu
  | reader => exact readerStep_move hu
  | _ => cases ha

omit [DecidableEq κ] in
/-- The event loop and the consumer leave the stream and the pump alone, once it is started. -/
theorem SideMove.beside (hm : SideMove s t) :
    s.reader = .fresh ∧ t = { s with reader := .asked [], pump := .reading } ∨ Beside s t := by
  cases hm with
  | start hr => exact .inl ⟨hr, rfl⟩
  | put item rest hc hroom => exact .inr ⟨rfl, rfl, rfl, rfl, rfl, id⟩
  | queueFull item rest hc hfull => exact .inr ⟨rfl, rfl, rfl, rfl, rfl, id⟩
  | _ => exact .inr ⟨rfl, rfl, rfl, rfl, rfl, fun hr => by cases hr⟩

theorem side_step {a : Action κ} (ha : side a = true)
    (hu : Aiter.step tmpl batchSize s a = some t) :
    s.reader = .fresh ∧ t = { s with reader := .asked [], pump := .reading } ∨ Beside s t :=
  (side_move ha hu).beside

theorem stream_step {a : Stream.Action κ}
    (hu : Aiter.step tmpl batchSize s (.stream a) = some t) : ofOthers a = true ∧ ∃ v,
      Stream.step tmpl batchSize s.stream a = some v ∧ t = { s with stream := v } := by
  simp only [Aiter.step] at hu
  split at hu
  next ha =>
    obtain ⟨v, hv, rfl⟩ := Option.map_eq_some_iff.mp hu
    exact ⟨ha, v, hv, rfl⟩
  next => cases hu

end Side

section Ledger

/-- The pump has not met the end of the stream. -/
def inLoop : PumpPc → Bool
  | .unstarted | .reading | .acquire false | .handing false => true
  | _ => false

/-- What the pump has taken is handed over in chunks or in its batch, but for the plaintexts that
did not fit. -/
structure Ledger (s : State κ) : Prop where
  fresh : s.reader = .fresh → s.pump = .unstarted
  cap : 0 < s.cap
  chunks : inLoop s.pump = true → s.handed.length % chunk = 0
  room : s.pump = .unstarted ∨ s.pump = .reading → s.batch.length < chunk
  full : s.pump = .acquire false ∨ s.pump = .handing false → s.batch.length = chunk
  whole : inLoop s.pump = true → Short firstCap s.stream →
    s.cap = firstCap ∧ s.handed ++ s.batch = s.stream.delivered
  lost : inLoop s.pump = true → ¬ Short firstCap s.stream →
    s.handed.length + s.batch.length < s.stream.delivered.length

omit [DecidableEq κ] in
theorem ledger_initial : Ledger (initial : State κ) where
  fresh _ := rfl
  cap := (by decide : 0 < 1 <<< 16)
  chunks _ := rfl
  room _ := (by decide : 0 < 64)
  full := nofun
  whole _ _ := ⟨rfl, rfl⟩
  lost _ h := absurd nofun h

omit [DecidableEq κ] in
theorem Ledger.le (h : Ledger s) (hpc : inLoop s.pump = true) :
    s.handed.length + s.batch.length ≤ s.stream.delivered.length := by
  by_cases hshort : Short firstCap s.stream
  · rw [← (h.whole hpc hshort).2, List.length_append]
  · exact Nat.le_of_lt (h.lost hpc hshort)

omit [DecidableEq κ] in
theorem Ledger.beside (h : Ledger s) (hb : Beside s t) : Ledger t := by
  refine ⟨fun hr => hb.pump ▸ h.fresh (hb.fresh hr), hb.cap ▸ h.cap, ?_, ?_, ?_, ?_, ?_⟩
  · rw [hb.pump, hb.handed]
    exact h.chunks
  · rw [hb.pump, hb.batch]
    exact h.room
  · rw [hb.pump, hb.batch]
    exact h.full
  · rw [hb.pump, hb.cap, hb.handed, hb.batch, hb.stream]
    exact h.whole
  · rw [hb.pump, hb.handed, hb.batch, hb.stream]
    exact h.lost

omit [DecidableEq κ] in
/-- After the end of the stream nothing is asked of the books. -/
theorem ledger_of_end (hr : s.reader ≠ .fresh) (hcap : 0 < s.cap)
    (hend : inLoop s.pump = false) : Ledger s := by
  have hnot : inLoop s.pump ≠ true := by rw [hend]; nofun
  refine ⟨fun h => absurd h hr, hcap, fun h => absurd h hnot, fun h => ?_, fun h => ?_,
    fun h => absurd h hnot, fun h => absurd h hnot⟩
  · obtain h | h := h <;> rw [h] at hend <;> cases hend
  · obtain h | h := h <;> rw [h] at hend <;> cases hend

omit [DecidableEq κ] in
/-- A plaintext that fits goes into the batch. -/
theorem Ledger.keep (h : Ledger s) (hne : s.reader ≠ .fresh) {p : Bytes} {rest : List Bytes}
    (hpc : s.pump = .reading) (hlt : p.length < s.cap) (ht : t = { s with
      stream := { s.stream with outQueue := rest }.answer (.next (some p))
      cap := firstCap
      batch := s.batch ++ [p]
      pump := if chunk ≤ s.batch.length + 1 then .acquire false else .reading }) : Ledger t := by
  have hloop : inLoop s.pump = true := by rw [hpc]; rfl
  have hroom := h.room (.inr hpc)
  have hlen : (s.batch ++ [p]).length = s.batch.length + 1 := by simp
  obtain ⟨hdel, hshort⟩ := short_take firstCap (u := s.stream) (v := t.stream) (by rw [ht])
  subst ht
  refine ⟨fun hf => absurd hf hne, (by decide : 0 < 1 <<< 16), fun _ => h.chunks hloop,
    fun hp => ?_, fun hp => ?_, fun _ hs => ⟨rfl, ?_⟩, fun _ hlong => ?_⟩
  · simp only [hlen]
    by_cases hc : chunk ≤ s.batch.length + 1
    · simp [hc] at hp
    · exact Nat.not_le.mp hc
  · simp only [hlen]
    by_cases hc : chunk ≤ s.batch.length + 1
    · omega
    · simp [hc] at hp
  · rw [hdel, ← (h.whole hloop (hshort.mp hs).1).2, List.append_assoc]
  · have hlost := h.lost hloop fun hs => hlong (hshort.mpr ⟨hs, (h.whole hloop hs).1 ▸ hlt⟩)
    rw [hdel]
    simp only [List.length_append, List.length_singleton]
    omega

omit [DecidableEq κ] in
/-- A plaintext that does not fit is lost. -/
theorem Ledger.lose (h : Ledger s) (hne : s.reader ≠ .fresh) {p : Bytes} {rest : List Bytes}
    (hpc : s.pump = .reading) (hle : s.cap ≤ p.length) (ht : t = { s with
      stream := { s.stream with outQueue := rest }.answer (.next (some p))
      cap := s.cap * 2 }) : Ledger t := by
  have hloop : inLoop s.pump = true := by rw [hpc]; rfl
  have hcount := h.le hloop
  obtain ⟨hdel, hshort⟩ := short_take firstCap (u := s.stream) (v := t.stream) (by rw [ht])
  subst ht
  refine ⟨fun hf => absurd hf hne, Nat.mul_pos h.cap (by decide), fun _ => h.chunks hloop,
    fun _ => h.room (.inr hpc), fun hp => ?_, fun _ hs => ?_, fun _ _ => ?_⟩
  · obtain hp | hp := hp <;> cases hpc.symm.trans hp
  · obtain ⟨hs, hp⟩ := hshort.mp hs
    have hfirst := (h.whole hloop hs).1
    omega
  · rw [hdel, List.length_append, List.length_singleton]
    exact Nat.lt_succ_of_le hcount

omit [DecidableEq κ] in
/-- A full batch is handed over whole. -/
theorem Ledger.hand (h : Ledger s) (hne : s.reader ≠ .fresh) (hpc : s.pump = .handing false) :
    Ledger { s with
      callbacks := s.callbacks ++ [.batch s.batch], handed := s.handed ++ s.batch, batch := []
      pump := .reading } := by
  have hloop : inLoop s.pump = true := by rw [hpc]; rfl
  have hfull := h.full (.inr hpc)
  refine ⟨fun hf => absurd hf hne, h.cap, fun _ => ?_, fun _ => (by decide : 0 < 64), nofun,
    fun _ hs => ?_, fun _ hlong => ?_⟩
  · have hchunks := h.chunks hloop
    rw [List.length_append, hfull, Nat.add_mod_right]
    exact hchunks
  · obtain ⟨hcap, heq⟩ := h.whole hloop hs
    exact ⟨hcap, (List.append_nil _).trans heq⟩
  · have hlost := h.lost hloop hlong
    rw [List.length_append]
    exact hlost

theorem Ledger.pump (h : Ledger s) (hm : PumpMove tmpl batchSize s t) : Ledger t := by
  have hne : s.reader ≠ .fresh := fun hr => hm.started (h.fresh hr)
  cases hm with
  | keep p rest hpc hq hp hlt => exact h.keep hne hpc hlt rfl
  | lose p rest hpc hq hcap hle => exact h.lose hne hpc hle rfl
  | stop u hpc hzero hu =>
    refine ledger_of_end hne (by decide : 0 < 1 <<< 16) ?_
    by_cases hb : s.batch = [] <;> simp [hb, inLoop]
  | acquire last hpc hs =>
    cases last with
    | true => exact ledger_of_end hne h.cap rfl
    | false =>
      have hloop : inLoop s.pump = true := by rw [hpc]; rfl
      exact ⟨fun hf => absurd hf hne, h.cap, fun _ => h.chunks hloop, nofun,
        fun _ => h.full (.inl hpc), fun _ => h.whole hloop, fun _ => h.lost hloop⟩
  | hand last hpc =>
    cases last with
    | true => exact ledger_of_end hne h.cap rfl
    | false => exact h.hand hne hpc
  | close hpc hs => exact ledger_of_end hne h.cap rfl
  | finish hpc => exact ledger_of_end hne h.cap rfl

theorem Ledger.side {a : Action κ} (h : Ledger s) (ha : side a = true)
    (hu : Aiter.step tmpl batchSize s a = some t) : Ledger t := by
  obtain ⟨hr, rfl⟩ | hb := side_step ha hu
  · have hpc := h.fresh hr
    have hloop : inLoop s.pump = true := by rw [hpc]; rfl
    exact ⟨nofun, h.cap, fun _ => h.chunks hloop, fun _ => h.room (.inl hpc), nofun,
      fun _ => h.whole hloop, fun _ => h.lost hloop⟩
  · exact h.beside hb

theorem Ledger.step {a : Action κ} (h : Ledger s) (hu : Aiter.step tmpl batchSize s a = some t) :
    Ledger t := by
  cases a with
  | stream a =>
    obtain ⟨ha, v, hv, rfl⟩ := stream_step hu
    have hdel := delivered_ofOthers ha hv
    refine ⟨h.fresh, h.cap, h.chunks, h.room, h.full, ?_, ?_⟩
    · simp only [Short, hdel]
      exact h.whole
    · simp only [Short, hdel]
      exact h.lost
  | pump => exact h.pump (pumpStep_move hu)
  | loop | ask | reader => exact h.side rfl hu

theorem reached_ledger (h : Reaches (Aiter.step tmpl batchSize) (initial : State κ) s) : Ledger s :=
  h.invariant (I := Ledger) ledger_initial fun _ _ _ _ hi _ hu => hi.step hu

end Ledger

section Slots

/-- The slot a pump has acquired and not yet handed on. -/
def pumpSlot : PumpPc → Nat
  | .handing _ | .ending => 1
  | _ => 0

/-- The slot of the item that the generator has taken out of the queue. -/
def readerSlot : ReaderPc → Nat
  | .got _ => 1
  | _ => 0

/-- Every slot is free, with an item, or with the pump or the generator; the sentinel comes last. -/
structure Slots (s : State κ) : Prop where
  count : s.space + pumpSlot s.pump + s.callbacks.length + s.queue.length +
    readerSlot s.reader = maxq
  noEnd : s.pump ≠ .done → (∀ item ∈ s.callbacks ++ s.queue, item ≠ .sentinel) ∧
    s.reader ≠ .got .sentinel ∧ s.reader ≠ .finished

omit [DecidableEq κ] in
theorem slots_initial : Slots (initial : State κ) :=
  ⟨rfl, fun _ => ⟨by simp [initial], nofun, nofun⟩⟩

omit [DecidableEq κ] in
/-- put_nowait finds room. -/
theorem Slots.room (h : Slots s) {item : Item} {rest : List Item}
    (hc : s.callbacks = item :: rest) : s.queue.length < maxq := by
  have hcount := h.count
  rw [hc, List.length_cons] at hcount
  omega

theorem Slots.pump (h : Slots s) (hm : PumpMove tmpl batchSize s t) : Slots t := by
  have hcount := h.count
  cases hm with
  | keep p rest hpc hq hp hlt =>
    refine ⟨?_, fun _ => h.noEnd (by rw [hpc]; nofun)⟩
    rw [hpc] at hcount
    by_cases hc : chunk ≤ s.batch.length + 1 <;> simpa [hc, pumpSlot] using hcount
  | lose p rest hpc hq hcap hle => exact ⟨hcount, fun _ => h.noEnd (by rw [hpc]; nofun)⟩
  | stop u hpc hzero hu =>
    refine ⟨?_, fun _ => h.noEnd (by rw [hpc]; nofun)⟩
    rw [hpc] at hcount
    by_cases hb : s.batch = [] <;> simpa [hb, pumpSlot] using hcount
  | acquire last hpc hs =>
    refine ⟨?_, fun _ => h.noEnd (by rw [hpc]; nofun)⟩
    rw [hpc] at hcount
    simp only [pumpSlot] at hcount ⊢
    omega
  | hand last hpc =>
    obtain ⟨hitems, hreader⟩ := h.noEnd (by rw [hpc]; nofun)
    refine ⟨?_, fun _ => ⟨?_, hreader⟩⟩
    · have hslot : pumpSlot (if last then .closing else .reading) = 0 := by cases last <;> rfl
      rw [hpc] at hcount
      simp only [hslot, List.length_append, List.length_singleton]
      simp only [pumpSlot] at hcount
      omega
    · simp only [List.mem_append, List.mem_singleton] at hitems ⊢
      rintro item ((hi | rfl) | hi)
      · exact hitems item (.inl hi)
      · nofun
      · exact hitems item (.inr hi)
  | close hpc hs =>
    refine ⟨?_, fun _ => h.noEnd (by rw [hpc]; nofun)⟩
    rw [hpc] at hcount
    simp only [pumpSlot] at hcount ⊢
    omega
  | finish hpc =>
    refine ⟨?_, fun hne => absurd rfl hne⟩
    rw [hpc] at hcount
    simp only [pumpSlot, List.length_append, List.length_singleton] at hcount ⊢
    omega

omit [DecidableEq κ] in
theorem Slots.side (h : Slots s) (hl : Ledger s) (hm : SideMove s t) : Slots t := by
  have hcount := h.count
  cases hm with
  | put item rest hc hroom =>
    refine ⟨?_, fun hne => ⟨fun x hx => (h.noEnd hne).1 x ?_, (h.noEnd hne).2⟩⟩
    · simp only [hc, List.length_append, List.length_cons, List.length_nil] at hcount ⊢
      omega
    · rw [hc]
      simp only [List.mem_append, List.mem_cons, List.not_mem_nil, or_false] at hx ⊢
      tauto
  | queueFull item rest hc hfull => exact absurd (h.room hc) (Nat.not_lt.mpr hfull)
  | start hr =>
    have hpc := hl.fresh hr
    rw [hpc, hr] at hcount
    exact ⟨hcount, fun _ => ⟨(h.noEnd (by rw [hpc]; nofun)).1, nofun, nofun⟩⟩
  | resume rest hr =>
    rw [hr] at hcount
    exact ⟨hcount, fun hne => ⟨(h.noEnd hne).1, nofun, nofun⟩⟩
  | yield p rest hr =>
    rw [hr] at hcount
    exact ⟨hcount, fun hne => ⟨(h.noEnd hne).1, nofun, nofun⟩⟩
  | get item rest hr hq =>
    rw [hr, hq] at hcount
    refine ⟨?_, fun hne => ?_⟩
    · simp only [readerSlot, List.length_cons] at hcount ⊢
      omega
    · have hitems := (h.noEnd hne).1
      rw [hq] at hitems
      refine ⟨fun x hx => hitems x ?_, fun hs => ?_, nofun⟩
      · simp only [List.mem_append, List.mem_cons] at hx ⊢
        tauto
      · cases hs
        exact hitems _ (by simp) rfl
  | release plains hr =>
    rw [hr] at hcount
    refine ⟨?_, fun hne => ⟨(h.noEnd hne).1, nofun, nofun⟩⟩
    simp only [readerSlot] at hcount ⊢
    omega
  | finish hr =>
    rw [hr] at hcount
    refine ⟨?_, fun hne => absurd hr (h.noEnd hne).2.1⟩
    simp only [readerSlot] at hcount ⊢
    omega

theorem Slots.step {a : Action κ} (h : Slots s) (hl : Ledger s)
    (hu : Aiter.step tmpl batchSize s a = some t) : Slots t := by
  cases a with
  | stream a =>
    obtain ⟨-, v, -, rfl⟩ := stream_step hu
    exact ⟨h.count, h.noEnd⟩
  | pump => exact h.pump (pumpStep_move hu)
  | loop | ask | reader => exact h.side hl (side_move rfl hu)

theorem reached_slots (h : Reaches (Aiter.step tmpl batchSize) (initial : State κ) s) : Slots s :=
  h.invariant (I := Slots) slots_initial
    fun _ _ _ hr hi _ hu => hi.step (reached_ledger hr) hu

end Slots

end Temari.AiterLedger
