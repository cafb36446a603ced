import Temari.AiterWithheld
import Temari.StreamFlush

/-! Asynchronous iteration keeps the order. The items between the pump and the iterator are one
line that ends with the sentinel, so nothing overtakes, and the iterator finishes behind the last
plaintext. -/
namespace Temari.AiterOrder
open RoundMachine Rounds Ffi RetryLoop Transition Aiter AiterLedger AiterWithheld
variable {κ : Type} [DecidableEq κ] {tmpl : Template} {batchSize : Nat} {s t : State κ}

section Flow

/-- What is left of the batch that the iterator yields. -/
def restOf : ReaderPc → List Bytes
  | .suspended rest | .asked rest => rest
  | _ => []

/-- The item that the iterator has taken out of the queue. -/
def taken : ReaderPc → List Item
  | .got item => [item]
  | .finished => [.sentinel]
  | _ => []

/-- The sentinel, until the pump has sent it. -/
def toCome : PumpPc → List Item
  | .done => []
  | _ => [.sentinel]

/-- The items on their way, the oldest first. -/
def lineOf (s : State κ) : List Item := taken s.reader ++ s.queue ++ s.callbacks ++ toCome s.pump

/-- What was handed over has been yielded or is on its way in order, and the sentinel is last. -/
def Flow (s : State κ) : Prop :=
  ∃ batches : List (List Bytes), lineOf s = batches.map .batch ++ [.sentinel] ∧
    s.handed = s.yielded ++ restOf s.reader ++ batches.flatten ∧
    (restOf s.reader).length ≤ chunk ∧ ∀ b ∈ batches, b.length ≤ chunk

omit [DecidableEq κ] in
theorem flow_initial : Flow (initial : State κ) :=
  ⟨[], rfl, rfl, Nat.zero_le _, fun _ hb => by cases hb⟩

omit [DecidableEq κ] in
theorem Flow.frame (h : Flow s) (hline : lineOf t = lineOf s) (hhanded : t.handed = s.handed)
    (hyielded : t.yielded = s.yielded) (hrest : restOf t.reader = restOf s.reader) : Flow t := by
  rw [Flow, hline, hhanded, hyielded, hrest]
  exact h

omit [DecidableEq κ] in
/-- A batch that is handed over comes before the sentinel. -/
theorem Flow.hand (h : Flow s) (last : Bool) (hpc : s.pump = .handing last)
    (hsize : s.batch.length ≤ chunk) : Flow { s with
      callbacks := s.callbacks ++ [.batch s.batch]
      handed := s.handed ++ s.batch
      batch := if last then s.batch else []
      pump := if last then .closing else .reading } := by
  obtain ⟨batches, hline, hhanded, hrest, hall⟩ := h
  have hcome : toCome (if last then .closing else .reading) = [.sentinel] := by cases last <;> rfl
  rw [lineOf, hpc] at hline
  have hfront := List.append_cancel_right hline
  refine ⟨batches ++ [s.batch], ?_, ?_, hrest, fun b hb => ?_⟩
  · simp only [lineOf, hcome, List.map_append, ← hfront, List.append_assoc, List.map_cons,
      List.map_nil]
  · simp only [hhanded, List.flatten_append, List.flatten_singleton, List.append_assoc]
  · obtain hb | hb := List.mem_append.mp hb
    · exact hall b hb
    · rwa [List.mem_singleton.mp hb]

theorem Flow.pump (h : Flow s) (hsize : ∀ last, s.pump = .handing last → s.batch.length ≤ chunk)
    (hm : PumpMove tmpl batchSize s t) : Flow t := by
  have hsame : toCome t.pump = toCome s.pump → t.reader = s.reader → t.queue = s.queue →
      t.callbacks = s.callbacks → lineOf t = lineOf s := by
    intro hp hr hq hc
    rw [lineOf, lineOf, hp, hr, hq, hc]
  cases hm with
  | keep p rest hpc hq hp hlt =>
    refine h.frame (hsame ?_ rfl rfl rfl) rfl rfl rfl
    by_cases hc : chunk ≤ s.batch.length + 1 <;> simp [hc, hpc, toCome]
  | lose p rest hpc hq hcap hle => exact h.frame (hsame rfl rfl rfl rfl) rfl rfl rfl
  | stop u hpc hzero hu =>
    refine h.frame (hsame ?_ rfl rfl rfl) rfl rfl rfl
    by_cases hb : s.batch = [] <;> simp [hb, hpc, toCome]
  | acquire last hpc hs => exact h.frame (hsame (by rw [hpc]; rfl) rfl rfl rfl) rfl rfl rfl
  | hand last hpc => exact h.hand last hpc (hsize last hpc)
  | close hpc hs => exact h.frame (hsame (by rw [hpc]; rfl) rfl rfl rfl) rfl rfl rfl
  | finish hpc =>
    refine h.frame ?_ rfl rfl rfl
    simp [lineOf, hpc, toCome]

omit [DecidableEq κ] in
theorem Flow.side (h : Flow s) (hl : Ledger s) (hs : Slots s) (hm : SideMove s t) : Flow t := by
  cases hm with
  | put item rest hc hroom =>
    refine h.frame ?_ rfl rfl rfl
    simp [lineOf, hc]
  | queueFull item rest hc hfull => exact absurd (hs.room hc) (Nat.not_lt.mpr hfull)
  | start hr =>
    refine h.frame ?_ rfl rfl (by rw [hr]; rfl)
    simp [lineOf, hr, hl.fresh hr, taken, toCome]
  | resume rest hr =>
    refine h.frame ?_ rfl rfl (by rw [hr]; rfl)
    simp [lineOf, hr, taken]
  | yield p rest hr =>
    obtain ⟨batches, hline, hhanded, hrest, hall⟩ := h
    simp only [lineOf, hr, taken, restOf, List.length_cons] at hline hhanded hrest
    refine ⟨batches, hline, ?_, Nat.le_of_succ_le hrest, hall⟩
    simp [hhanded, restOf]
  | get item rest hr hq =>
    refine h.frame ?_ rfl rfl (by rw [hr]; rfl)
    simp [lineOf, hr, hq, taken]
  | release plains hr =>
    obtain ⟨batches, hline, hhanded, -, hall⟩ := h
    rw [hr] at hhanded
    simp only [lineOf, hr, taken, List.append_assoc, List.singleton_append] at hline
    cases batches with
    | nil => cases hline
    | cons b batches =>
      simp only [List.map_cons, List.cons_append, List.cons.injEq, Item.batch.injEq] at hline
      obtain ⟨rfl, hline⟩ := hline
      obtain ⟨hb, hall⟩ := List.forall_mem_cons.mp hall
      refine ⟨batches, ?_, ?_, hb, hall⟩
      · simpa [lineOf, taken] using hline
      · simpa [restOf] using hhanded
  | finish hr =>
    refine h.frame ?_ rfl rfl (by rw [hr]; rfl)
    simp [lineOf, hr, taken]

omit [DecidableEq κ] in
/-- Behind the sentinel nothing is on its way. -/
theorem Flow.finished (h : Flow s) (hr : s.reader = .finished) :
    s.pump = .done ∧ s.yielded = s.handed := by
  obtain ⟨batches, hline, hhanded, -⟩ := h
  simp only [lineOf, hr, taken, List.append_assoc, List.singleton_append] at hline
  cases batches with
  | cons b batches => cases hline
  | nil =>
    obtain ⟨-, hrest⟩ := List.append_eq_nil_iff.mp (List.cons.inj hline).2
    obtain ⟨-, hcome⟩ := List.append_eq_nil_iff.mp hrest
    refine ⟨?_, ?_⟩
    · cases hpc : s.pump with
      | done => rfl
      | _ =>
        rw [hpc] at hcome
        cases hcome
    · simpa [hr, restOf] using hhanded.symm

theorem flatten_length_le {n : Nat} {batches : List (List Bytes)}
    (h : ∀ b ∈ batches, b.length ≤ n) : batches.flatten.length ≤ batches.length * n := by
  induction batches with
  | nil => exact Nat.zero_le _
  | cons b batches ih =>
    obtain ⟨hb, hall⟩ := List.forall_mem_cons.mp h
    rw [List.flatten_cons, List.length_append, List.length_cons, Nat.succ_mul, Nat.add_comm]
    exact Nat.add_le_add (ih hall) hb

omit [DecidableEq κ] in
/-- The slots bound what is on its way. -/
theorem Flow.bounded (h : Flow s) (hs : Slots s) :
    s.yielded <+: s.handed ∧ s.handed.length ≤ s.yielded.length + chunk * (maxq + 1) := by
  obtain ⟨batches, hline, hhanded, hrest, hall⟩ := h
  refine ⟨hhanded ▸ ?_, ?_⟩
  · rw [List.append_assoc]
    exact List.prefix_append _ _
  have hcount := hs.count
  have hlen := congrArg List.length hline
  simp only [lineOf, List.length_append, List.length_map, List.length_singleton] at hlen
  have hfew : batches.length ≤ maxq := by
    by_cases hpc : s.pump = .done
    · have htaken : (taken s.reader).length ≤ readerSlot s.reader + 1 := by
        cases s.reader <;> simp [taken, readerSlot]
      rw [hpc, toCome, List.length_nil] at hlen
      omega
    · have hcome : (toCome s.pump).length = 1 := by cases hp : s.pump <;> simp_all [toCome]
      have htaken : (taken s.reader).length = readerSlot s.reader := by
        have hnot := (hs.noEnd hpc).2.2
        cases hr : s.reader <;> simp_all [taken, readerSlot]
      omega
  have hflat := flatten_length_le hall
  have hmul := Nat.mul_le_mul_right chunk hfew
  rw [hhanded, List.length_append, List.length_append, Nat.mul_add, Nat.mul_comm chunk maxq]
  omega

end Flow

section Books

/-- What the pump has in its batch and will hand over. -/
def kept (s : State κ) : List Bytes :=
  match s.pump with
  | .closing | .ending | .done => []
  | _ => s.batch

/-- Nothing the pump takes is reordered, what fits the first capacity is kept, and the pump leaves
its loop at the end of the stream or at a plaintext without bytes. -/
structure Books (s : State κ) : Prop where
  sub : (s.handed ++ kept s).Sublist s.stream.delivered
  short : Short firstCap s.stream → s.handed ++ kept s = s.stream.delivered.filter nonempty
  size : (kept s).length ≤ chunk
  ended : inLoop s.pump = false → s.stream.sawEnd = true ∨ [] ∈ s.stream.delivered
  unstarted : s.pump = .unstarted → s.reader = .fresh

omit [DecidableEq κ] in
theorem books_initial : Books (initial : State κ) :=
  ⟨List.nil_sublist _, fun _ => rfl, Nat.zero_le _, (fun hend => by cases hend), fun _ => rfl⟩

omit [DecidableEq κ] in
theorem kept_reading (h : s.pump = .reading) : kept s = s.batch := by rw [kept, h]

omit [DecidableEq κ] in
/-- The pump has taken p, and has p in its batch or not. -/
theorem Books.take (h : Books s) {p : Bytes} {rest : List Bytes} (hpc : s.pump = .reading)
    (hstream : t.stream = { s.stream with outQueue := rest }.answer (.next (some p)))
    (hhanded : t.handed = s.handed) (hkept : kept t = s.batch ++ if nonempty p ∧ p.length < s.cap
      then [p] else [])
    (hcap : Short firstCap s.stream → s.cap = firstCap) (hsize : (kept t).length ≤ chunk)
    (hended : inLoop t.pump = false → p = []) (hrun : t.pump ≠ .unstarted) : Books t := by
  obtain ⟨hdel, hshort⟩ := short_take firstCap hstream
  have hsub := h.sub
  rw [kept_reading hpc] at hsub
  refine ⟨?_, fun hs => ?_, hsize, fun hend => .inr ?_, fun hp => absurd hp hrun⟩
  · rw [hdel, hhanded, hkept, ← List.append_assoc]
    refine hsub.append ?_
    split
    · exact .refl _
    · exact List.nil_sublist _
  · obtain ⟨hs, hp⟩ := hshort.mp hs
    have hbefore := h.short hs
    rw [kept_reading hpc] at hbefore
    rw [hdel, hhanded, hkept, ← List.append_assoc, hbefore, List.filter_append, hcap hs]
    by_cases hne : nonempty p = true <;> simp [hne, hp]
  · rw [hdel, hended hend]
    exact List.mem_append_right _ (List.mem_singleton_self _)

theorem Books.stop (h : Books s) (hl : Ledger s) {u : Stream.State κ} (hpc : s.pump = .reading)
    (hzero : (streamNext s.stream.outQueue.head? s.cap).1 = 0)
    (hu : Stream.step tmpl batchSize s.stream .next = some u) : Books { s with
      stream := u
      cap := firstCap
      pump := if s.batch = [] then .closing else .acquire true } := by
  have hloop : inLoop s.pump = true := by rw [hpc]; rfl
  have hroom := Nat.le_of_lt (hl.room (.inr hpc))
  have hrun : (if s.batch = [] then PumpPc.closing else .acquire true) ≠ .unstarted := by
    by_cases hb : s.batch = [] <;> simp [hb]
  have hkept : kept { s with
      stream := u
      cap := firstCap
      pump := if s.batch = [] then .closing else .acquire true } = s.batch := by
    by_cases hb : s.batch = [] <;> simp [kept, hb]
  obtain ⟨rest, rfl⟩ | rfl := ended_cases hl.cap hzero hu
  · refine h.take hpc rfl rfl ?_ (fun hs => (hl.whole hloop hs).1) ?_ (fun _ => rfl) hrun
    · rw [hkept]
      exact (List.append_nil _).symm
    · rwa [hkept]
  · obtain ⟨hdel, hend⟩ := delivered_end s.stream
    have hbefore := h.short
    have hsub := h.sub
    rw [kept_reading hpc] at hbefore hsub
    refine ⟨?_, fun hs => ?_, ?_, fun _ => .inl hend, fun hp => absurd hp hrun⟩
    · rw [hkept, hdel]
      exact hsub
    · rw [Short, hdel] at hs
      rw [hkept, hdel]
      exact hbefore hs
    · rwa [hkept]

omit [DecidableEq κ] in
/-- The batch is the same, and the stream. -/
theorem Books.frame (h : Books s) (hstream : t.stream = s.stream)
    (hsame : t.handed ++ kept t = s.handed ++ kept s) (hsize : (kept t).length ≤ chunk)
    (hended : inLoop t.pump = false → inLoop s.pump = false)
    (hun : t.pump = .unstarted → t.reader = .fresh) : Books t := by
  have hshort : Short firstCap t.stream ↔ Short firstCap s.stream := by rw [Short, Short, hstream]
  refine ⟨?_, fun hs => ?_, hsize, fun hend => ?_, hun⟩
  · rw [hsame, hstream]
    exact h.sub
  · rw [hsame, hstream]
    exact h.short (hshort.mp hs)
  · rw [hstream]
    exact h.ended (hended hend)

theorem Books.pump (h : Books s) (hl : Ledger s) (hm : PumpMove tmpl batchSize s t) : Books t := by
  have hsize := h.size
  cases hm with
  | keep p rest hpc hq hp hlt =>
    have hloop : inLoop s.pump = true := by rw [hpc]; rfl
    have hroom := hl.room (.inr hpc)
    have hkept : kept { s with
        stream := { s.stream with outQueue := rest }.answer (.next (some p))
        cap := firstCap
        batch := s.batch ++ [p]
        pump := if chunk ≤ s.batch.length + 1 then .acquire false else .reading } =
          s.batch ++ [p] := by
      by_cases hc : chunk ≤ s.batch.length + 1 <;> simp [kept, hc]
    refine h.take hpc rfl rfl ?_ (fun hs => (hl.whole hloop hs).1) ?_ (fun hend => ?_) ?_
    · rw [hkept, if_pos ⟨by simp [nonempty, hp], hlt⟩]
    · rw [hkept, List.length_append]
      exact hroom
    · by_cases hc : chunk ≤ s.batch.length + 1 <;> simp [hc, inLoop] at hend
    · by_cases hc : chunk ≤ s.batch.length + 1 <;> simp [hc]
  | lose p rest hpc hq hcap hle =>
    have hloop : inLoop s.pump = true := by rw [hpc]; rfl
    refine h.take hpc rfl rfl ?_ (fun hs => (hl.whole hloop hs).1) ?_ (fun hend => ?_) ?_
    · rw [if_neg fun hp => Nat.not_lt.mpr hle hp.2, List.append_nil]
      exact kept_reading hpc
    · exact hsize
    · cases hloop.symm.trans hend
    · rw [hpc]
      intro heq
      cases heq
  | stop u hpc hzero hu => exact h.stop hl hpc hzero hu
  | acquire last hpc hs =>
    rw [kept, hpc] at hsize
    exact h.frame rfl (by simp [kept, hpc]) hsize (by rw [hpc]; cases last <;> exact id) (by simp)
  | hand last hpc =>
    refine h.frame rfl ?_ ?_ (fun hend => ?_) ?_
    · cases last <;> simp [kept, hpc]
    · cases last <;> simp [kept]
    · rw [hpc]
      cases last with
      | true => rfl
      | false => cases hend
    · cases last <;> (intro heq; cases heq)
  | close hpc hs =>
    exact h.frame rfl (by simp [kept, hpc]) (Nat.zero_le _) (fun _ => by rw [hpc]; rfl) (by simp)
  | finish hpc =>
    exact h.frame rfl (by simp [kept, hpc]) (Nat.zero_le _) (fun _ => by rw [hpc]; rfl) (by simp)

theorem Books.step {a : Action κ} (h : Books s) (hl : Ledger s)
    (hu : Aiter.step tmpl batchSize s a = some t) : Books t := by
  cases a with
  | stream a =>
    obtain ⟨ha, v, hv, rfl⟩ := stream_step hu
    have hdel := delivered_ofOthers ha hv
    have hend := sawEnd_ofOthers ha hv
    refine ⟨?_, fun hs => ?_, h.size, ?_, h.unstarted⟩
    · rw [hdel]
      exact h.sub
    · rw [Short, hdel] at hs
      rw [hdel]
      exact h.short hs
    · rw [hend, hdel]
      exact h.ended
  | pump => exact h.pump hl (pumpStep_move hu)
  | loop | ask | reader =>
    obtain ⟨hr, rfl⟩ | hb := side_step rfl hu
    · have hpc := hl.fresh hr
      have hsize := h.size
      rw [kept, hpc] at hsize
      exact h.frame rfl (by simp [kept, hpc]) hsize (fun hend => by cases hend) (by simp)
    · have hkept : kept t = kept s := by rw [kept, kept, hb.pump, hb.batch]
      refine h.frame hb.stream (by rw [hkept, hb.handed]) (hkept ▸ h.size) (hb.pump ▸ id) ?_
      intro hpc
      have hfresh := h.unstarted (hb.pump ▸ hpc)
      have hm : SideMove s t := side_move rfl hu
      cases hm with
      | put item rest hc hroom => exact hfresh
      | queueFull item rest hc hfull => exact hfresh
      | start hr => cases hpc
      | resume rest hr | yield p rest hr | get item rest hr hq | release plains hr | finish hr =>
        cases hfresh.symm.trans hr

end Books

theorem reached_books (h : Reaches (Aiter.step tmpl batchSize) (initial : State κ) s) : Books s :=
  h.invariant (I := Books) books_initial
    fun _ _ _ hr hi _ hu => hi.step (reached_ledger hr) hu

theorem reached_flow (h : Reaches (Aiter.step tmpl batchSize) (initial : State κ) s) : Flow s := by
  refine h.invariant (I := Flow) flow_initial ?_
  intro t a u hr hi _ hu
  cases a with
  | stream a =>
    obtain ⟨-, v, -, rfl⟩ := stream_step hu
    exact hi.frame rfl rfl rfl rfl
  | pump =>
    refine hi.pump (fun last hpc => ?_) (pumpStep_move hu)
    have hsize := (reached_books hr).size
    rwa [kept, hpc] at hsize
  | loop | ask | reader =>
    exact hi.side (reached_ledger hr) (reached_slots hr) (side_move rfl hu)

section Results

/-- The iterator finishes behind the last plaintext. -/
theorem closed_of_finished (hctx : 0x8000 ≤ tmpl.ctx.length)
    (h : Reaches (Aiter.step tmpl batchSize) (initial : State κ) s)
    (hfits : Fits firstCap s.stream.accepted) (hbytes : [] ∉ s.stream.accepted)
    (hfin : s.reader = .finished) : s.stream.txOpen = false ∧
      s.stream.accepted.mapM (decrypt tmpl) = some s.yielded := by
  have hstream := (reached_stream h).1
  have hbooks := reached_books h
  obtain ⟨hdone, hyielded⟩ := (reached_flow h).finished hfin
  have hshort := hbooks.short (short_of_fits hctx hstream hfits)
  rw [kept, hdone, List.append_nil] at hshort
  rw [hyielded, hshort]
  exact all_of_ended hctx hstream hbytes (hbooks.ended (by rw [hdone]; rfl))

/-- In every run the iterator yields plaintexts of accepted samples in order, each at most once,
and the queue has room for each callback. Where the samples fit the first capacity of
`_next_optional`, it yields all plaintexts with bytes in turn, never more than 18 chunks behind
the pump; and where all samples have bytes it finishes only behind the last of them. -/
theorem aiter_in_order (tmpl : Template) (batchSize : Nat) (s : State κ)
    (hctx : 0x8000 ≤ tmpl.ctx.length) (h : Reaches (step tmpl batchSize) initial s) :
    ∃ plain, s.stream.accepted.mapM (decrypt tmpl) = some plain ∧ s.yielded.Sublist plain ∧
      (s.callbacks ≠ [] → s.queue.length < maxq) ∧
      (Fits firstCap s.stream.accepted → s.yielded <+: plain.filter nonempty ∧
        (s.stream.delivered.filter nonempty).length ≤ s.yielded.length + chunk * (maxq + 2)) ∧
      (Fits firstCap s.stream.accepted → [] ∉ s.stream.accepted → s.reader = .finished →
        s.stream.txOpen = false ∧ s.yielded = plain) := by
  have hret := StreamOrder.returns_of_ctx hctx
  obtain ⟨-, hline⟩ := StreamOrder.reached_inv hret (reached_stream h).1
  obtain ⟨hfront, hbound⟩ := (reached_flow h).bounded (reached_slots h)
  have hbooks := reached_books h
  have hplain : s.stream.accepted.mapM (decrypt tmpl) = some _ := StreamOrder.decryptBatch_eq hret _
  refine ⟨_, hplain, ?_, fun hc => ?_, fun hfits => ?_, fun hfits hbytes hfin => ?_⟩
  · have hhanded := (List.sublist_append_left _ _).trans hbooks.sub
    exact (hfront.sublist.trans hhanded).trans hline.front.sublist
  · obtain ⟨item, rest, hc⟩ := List.exists_cons_of_ne_nil hc
    exact (reached_slots h).room hc
  · have hshort := hbooks.short (short_of_fits hctx (reached_stream h).1 hfits)
    have hkept := hbooks.size
    refine ⟨?_, ?_⟩
    · have hprefix := hfront.trans (List.prefix_append s.handed (kept s))
      rw [hshort] at hprefix
      exact hprefix.trans (hline.front.filter nonempty)
    · rw [← hshort, List.length_append]
      rw [Nat.mul_add] at hbound ⊢
      omega
  · obtain ⟨hopen, hall⟩ := closed_of_finished hctx h hfits hbytes hfin
    exact ⟨hopen, Option.some.inj (hall.symm.trans hplain)⟩

/-- Steps of the other threads beside the iteration. -/
theorem run_streams {as : List (Stream.Action κ)} {u : Stream.State κ}
    (has : ∀ a ∈ as, ofOthers a = true)
    (hrun : run (Stream.step tmpl batchSize) s.stream as = some u) :
    run (Aiter.step tmpl batchSize) s (as.map .stream) = some { s with stream := u } ∧
      u.delivered = s.stream.delivered := by
  induction as generalizing s with
  | nil =>
    cases hrun
    exact ⟨rfl, rfl⟩
  | cons a as ih =>
    obtain ⟨ha, htail⟩ := List.forall_mem_cons.mp has
    obtain ⟨v, hv, hrest⟩ := run_cons_eq_some.mp hrun
    have hstep : Aiter.step tmpl batchSize s (.stream a) = some { s with stream := v } := by
      simp only [Aiter.step, if_pos ha, hv, Option.map_some]
    obtain ⟨hrun', hdel⟩ := ih (s := { s with stream := v }) htail hrest
    exact ⟨run_cons_eq_some.mpr ⟨_, hstep, hrun'⟩, hdel.trans (delivered_ofOthers ha hv)⟩

/-- The pump takes two plaintexts out of an ended stream, and its end. -/
theorem run_takes (tmpl : Template) (batchSize : Nat) {u : Stream.State Unit} {p q : Bytes}
    (hd : u.dropper = .idle) (hout : u.outQueue = [p, q]) (hend : u.coord.ended = true)
    (hp : p.length = 1) (hq : q.length = 17) : ∃ v, run (Aiter.step tmpl batchSize)
      { (initial : State Unit) with stream := u, reader := .asked [], pump := .reading }
      [.pump, .pump, .pump] = some { (initial : State Unit) with
        stream := v, reader := .asked [], batch := [p, q], pump := .acquire true } ∧
      v.accepted = u.accepted := by
  simp [run, initial, Aiter.step, pumpStep, Stream.step, Stream.nextStep, Stream.State.answer,
    State.take, turn, streamNext, Binding.firstCapacity, chunk, hd, hout, hend, hp, hq]

/-- They reach the consumer. -/
theorem run_pair (tmpl : Template) (batchSize : Nat) {u : Stream.State Unit} {p q : Bytes}
    (hd : u.dropper = .idle) (hout : u.outQueue = [p, q]) (hend : u.coord.ended = true)
    (hp : p.length = 1) (hq : q.length = 17) : ∃ t, run (Aiter.step tmpl batchSize)
      { (initial : State Unit) with stream := u, reader := .asked [], pump := .reading }
      ([.pump, .pump, .pump] ++ [.pump, .pump, .pump, .pump, .loop, .loop, .reader, .reader,
        .reader, .ask, .reader, .ask, .reader, .reader]) = some t ∧ t.reader = .finished ∧
      t.stream.accepted = u.accepted := by
  obtain ⟨v, hrun, hacc⟩ := run_takes tmpl batchSize hd hout hend hp hq
  exact ⟨_, (run_append hrun).trans rfl, rfl, hacc⟩

/-- Two samples, of which the second has a full block, and the end behind them. -/
theorem aiter_in_order_two : ∃ s : State Unit, s.reader = .finished ∧
    s.stream.txOpen = false ∧ s.stream.accepted = [[7], .replicate 17 1] ∧
    ∃ plain, s.stream.accepted.mapM (decrypt eightTemplate) = some plain ∧ s.yielded = plain := by
  have hctx : 0x8000 ≤ eightTemplate.ctx.length := List.length_replicate.ge
  obtain ⟨cs, v, hcs, hrun, hacc, hopen, hdel, hidle⟩ : ∃ cs v, (∀ a ∈ cs, ofOthers a = true) ∧
      run (Stream.step eightTemplate 3) (Stream.initial : Stream.State Unit) cs = some v ∧
      v.accepted = [[7], .replicate 17 1] ∧ v.txOpen = false ∧ v.delivered = [] ∧
      v.dropper = .idle :=
    ⟨[.call () (.submit [7]), .client (), .client (), .call () (.submit (.replicate 17 1)),
      .client (), .client (), .call () .finish, .client (), .client (), .client ()], _,
      by simp [ofOthers], rfl, rfl, rfl, rfl, rfl⟩
  obtain ⟨as, u, has, -, hrun', hout, hdec, hended⟩ :=
    StreamFlush.coord_flushes (StreamOrder.returns_of_ctx hctx) (reaches_of_run hrun)
  let r : State Unit := { initial with reader := .asked [], pump := .reading }
  have hask : run (Aiter.step eightTemplate 3) (initial : State Unit) [.ask] = some r := rfl
  have hothers : ∀ a ∈ cs ++ as, ofOthers a = true := by
    refine List.forall_mem_append.mpr ⟨hcs, fun a ha => ?_⟩
    obtain ⟨timeout, rfl⟩ := has a ha
    rfl
  obtain ⟨hstream, hdel'⟩ := run_streams (s := r) hothers ((run_append hrun).trans hrun')
  have hplain : u.outQueue = [StreamOrder.plainOf eightTemplate [7],
      StreamOrder.plainOf eightTemplate (.replicate 17 1)] := by
    have hboth := hdec.symm.trans (StreamOrder.decryptBatch_eq (StreamOrder.returns_of_ctx hctx) _)
    rw [hdel', hout.accepted, hacc] at hboth
    exact Option.some.inj hboth
  obtain ⟨t, hlast, hfin, hacc'⟩ := run_pair eightTemplate 3 (hout.dropper.trans hidle) hplain
    (hended hopen) (StreamOrder.plainOf_length hctx _) (StreamOrder.plainOf_length hctx _)
  have ht := (reaches_of_run hask).trans ((reaches_of_run hstream).trans (reaches_of_run hlast))
  rw [hout.accepted, hacc] at hacc'
  obtain ⟨plain, hplain, -, -, -, hend⟩ := aiter_in_order eightTemplate 3 t hctx ht
  obtain ⟨hclosed, hall⟩ := hend (by rw [hacc', Fits]; decide) (by simp [hacc']) hfin
  exact ⟨t, hfin, hclosed, hacc', plain, hplain, hall⟩

end Results

end Temari.AiterOrder
