import Temari.Service
import Temari.PoolRest
import Temari.StreamOrder

/-! The service refines its parts. In every run the pool does a run of the pool on the calls made
so far, and each stream does a run of the stream on its own, in which a batch is decrypted in one
step; so what holds of them alone holds of them together. -/
namespace Temari.ServiceRuns
open RoundMachine Rounds PoolArrivals PoolResults PoolRegions PoolRest Service Transition
variable {μ δ κ : Type} [DecidableEq μ] [DecidableEq δ] [DecidableEq κ] {W : Nat} {g : Setup μ δ}
  {s t : State μ δ κ W} {m n : μ}

section Batches
variable {tmpl : Template} {buffer : List Bytes} {out : Bytes}

/-- The plaintexts are cut as decrypt_par cuts them. -/
theorem batchOutputs_eq (buffer : List Bytes) (out : Bytes) :
    batchOutputs buffer out = Pool.collect buffer out := by
  have hlen : (buffer.zip (Pool.offsOf buffer)).length = buffer.length := by
    simp [offsOf_eq]
  rw [batchOutputs, Pool.collect, ← hlen]
  refine (mapM_range fun i hi => ?_).symm
  have hi' : i < buffer.length := hlen ▸ hi
  have hget : buffer[i]? = some buffer[i] := List.getElem?_eq_getElem hi'
  rw [offs_getElem? _ (Nat.le_of_lt hi'), offs_getElem? _ hi', offAt_succ, lenAt_of_getElem? hget]
  simp [offsOf_eq]

/-- What comes back from the pool is what the stream makes of the batch. -/
theorem batchOutputs_served (hctx : 0x8000 ≤ tmpl.ctx.length) {ws : List Pool.Write}
    (h : Served (batchCall tmpl buffer) out ws) :
    batchOutputs buffer out = Stream.decryptBatch tmpl buffer := by
  rw [batchOutputs_eq]
  refine h.collect_eq hctx ?_
  rw [(batchCall tmpl buffer).sized]
  rfl

end Batches

/-- What ties the parts of a state reached together. -/
structure Linked (g : Setup μ δ) (s : State μ δ κ W) : Prop where
  pool : Reaches (Pool.step s.calls) (Pool.initial s.calls) s.pool
  stream : ∀ m, 0x8000 ≤ (g.tmpl m).ctx.length →
    Reaches (Stream.step (g.tmpl m) (g.batchSize m)) Stream.initial (s.stream m)
  direct : ∀ d, s.calls (.direct d) = g.direct d
  tmpl : ∀ m k, (s.calls (.batch m k)).tmpl = g.tmpl m
  unmade : ∀ m k, s.pool.caller (.batch m k) ≠ .idle →
    k < s.flushed m ∨ k = s.flushed m ∧ s.calling m = true
  live : s.pool.dropper = .idle
  past : ∀ m k, k < s.flushed m → settled (s.pool.caller (.batch m k)) = true
  batch : ∀ m, s.calling m = true → flushing (s.stream m) = true ∧
    s.calls (s.current m) = batchCall (g.tmpl m) (s.stream m).buffer

section Links

theorem linked_initial : Linked g (initial g : State μ δ κ W) where
  pool := .refl
  stream _ _ := .refl
  direct _ := rfl
  tmpl _ _ := rfl
  unmade _ _ h := absurd rfl h
  live := rfl
  past _ _ h := absurd h (Nat.not_lt_zero _)
  batch _ h := by cases h

omit [DecidableEq μ] [DecidableEq δ] [DecidableEq κ] in
theorem current_ne (hne : n ≠ m) : s.current n ≠ s.current m := fun h => by
  cases h
  exact hne rfl

/-- The coordinator of m makes its next call. -/
theorem Linked.enter (h : Linked g s) (hcall : s.calling m = false)
    (hfl : flushing (s.stream m) = true) :
    Linked g (s.enter m (batchCall (g.tmpl m) (s.stream m).buffer)) where
  pool := by
    refine reaches_arrive h.pool ?_ _
    by_contra hidle
    obtain hlt | ⟨-, hc⟩ := h.unmade m (s.flushed m) hidle
    · exact Nat.lt_irrefl _ hlt
    · cases hcall.symm.trans hc
  stream := h.stream
  direct d := (s.enter_calls_ne (c := .direct d) _ nofun).trans (h.direct d)
  tmpl n k := by
    by_cases hc : CallId.batch n k = s.current m
    · cases hc
      exact congrArg Pool.Call.tmpl (s.enter_calls_self m _)
    · rw [s.enter_calls_ne _ hc]
      exact h.tmpl n k
  unmade n k hk := by
    obtain hlt | ⟨heq, hc⟩ := h.unmade n k hk
    · exact Or.inl hlt
    · refine Or.inr ⟨heq, ?_⟩
      obtain rfl | hne := eq_or_ne n m
      · exact Function.update_self ..
      · exact (Function.update_of_ne hne _ _).trans hc
  live := h.live
  past := h.past
  batch n hn := by
    obtain rfl | hne := eq_or_ne n m
    · exact ⟨hfl, s.enter_calls_self n _⟩
    · obtain ⟨hfl', hcalls⟩ := h.batch n ((Function.update_of_ne hne _ _).symm.trans hn)
      exact ⟨hfl', (s.enter_calls_ne _ (current_ne hne)).trans hcalls⟩

/-- The call of m's coordinator comes back. -/
theorem Linked.resume (h : Linked g s) {pc : Stream.CoordPc}
    (hset : settled (s.pool.caller (s.current m)) = true)
    (hstep : 0x8000 ≤ (g.tmpl m).ctx.length →
      Stream.step (g.tmpl m) (g.batchSize m) (s.stream m) (.coord false) =
        some { s.stream m with coord := pc }) : Linked g (s.resume m pc) where
  pool := h.pool
  stream n hctx := by
    change Reaches _ _ (Function.update s.stream m { s.stream m with coord := pc } n)
    obtain rfl | hne := eq_or_ne n m
    · rw [Function.update_self]
      exact .tail (h.stream n hctx) trivial (hstep hctx)
    · rw [Function.update_of_ne hne]
      exact h.stream n hctx
  direct := h.direct
  tmpl := h.tmpl
  unmade n k hk := by
    have hold := h.unmade n k hk
    simp only [State.resume]
    obtain rfl | hne := eq_or_ne n m
    · rw [Function.update_self]
      left
      omega
    · rw [Function.update_of_ne hne, Function.update_of_ne hne]
      exact hold
  live := h.live
  past n k hk := by
    change k < Function.update s.flushed m (s.flushed m + 1) n at hk
    obtain rfl | hne := eq_or_ne n m
    · rw [Function.update_self] at hk
      obtain hlt | rfl := Nat.lt_or_eq_of_le (Nat.le_of_lt_succ hk)
      · exact h.past n k hlt
      · exact hset
    · rw [Function.update_of_ne hne] at hk
      exact h.past n k hk
  batch n hn := by
    simp only [State.resume] at hn
    obtain rfl | hne := eq_or_ne n m
    · rw [Function.update_self] at hn
      cases hn
    · rw [Function.update_of_ne hne] at hn
      obtain ⟨hfl, hcalls⟩ := h.batch n hn
      simp only [State.resume, State.current, Function.update_of_ne hne]
      exact ⟨hfl, hcalls⟩

/-- A thread of stream m takes a step outside the call. -/
theorem Linked.setStream (h : Linked g s) {a : Stream.Action κ} {x : Stream.State κ}
    (hstep : Stream.step (g.tmpl m) (g.batchSize m) (s.stream m) a = some x)
    (hkeep : flushing (s.stream m) = true → flushing x = true ∧ x.buffer = (s.stream m).buffer) :
    Linked g (s.setStream m x) where
  pool := h.pool
  stream n hctx := by
    change Reaches _ _ (Function.update s.stream m x n)
    obtain rfl | hne := eq_or_ne n m
    · rw [Function.update_self]
      exact .tail (h.stream n hctx) trivial hstep
    · rw [Function.update_of_ne hne]
      exact h.stream n hctx
  direct := h.direct
  tmpl := h.tmpl
  unmade := h.unmade
  live := h.live
  past := h.past
  batch n hn := by
    obtain ⟨hfl, hcalls⟩ := h.batch n hn
    change flushing (Function.update s.stream m x n) = true ∧
      s.calls (s.current n) = batchCall (g.tmpl n) (Function.update s.stream m x n).buffer
    obtain rfl | hne := eq_or_ne n m
    · rw [Function.update_self, (hkeep hfl).2]
      exact ⟨(hkeep hfl).1, hcalls⟩
    · rw [Function.update_of_ne hne]
      exact ⟨hfl, hcalls⟩

/-- A thread of the pool takes a step. -/
theorem Linked.poolStep (h : Linked g s) {a : Pool.Action (CallId μ δ) W}
    {p : Pool.State (CallId μ δ) W} (hserves : serves s a = true)
    (hstep : Pool.step s.calls s.pool a = some p) : Linked g { s with pool := p } where
  pool := .tail h.pool trivial hstep
  stream := h.stream
  direct := h.direct
  tmpl := h.tmpl
  unmade n k hk := by
    by_cases hidle : s.pool.caller (.batch n k) = .idle
    · -- only the call itself leaves idle
      have ha : a = .caller (.batch n k) := by
        by_contra hne
        exact hk (idle_of_others hstep hidle hne)
      rw [ha] at hserves
      simp only [serves, Bool.and_eq_true, decide_eq_true_eq] at hserves
      exact Or.inr ⟨hserves.2, hserves.1⟩
    · exact h.unmade n k hidle
  live := by
    refine (dropper_stays hstep ?_).trans h.live
    rintro rfl
    cases hserves
  past n k hk := by
    change settled (p.caller (.batch n k)) = true
    rw [settled_stays hstep (h.past n k hk)]
    exact h.past n k hk
  batch := h.batch

/-- Other threads of a stream leave what its coordinator has in hand. -/
theorem kept_by_others {tmpl : Template} {batchSize : Nat} {x y : Stream.State κ}
    {a : Stream.Action κ} (ha : ∀ b, a ≠ .coord b)
    (hu : Stream.step tmpl batchSize x a = some y) : y.coord = x.coord ∧ y.buffer = x.buffer := by
  cases StreamMoves.step_move hu with
  | coord timeout y hm => exact absurd rfl (ha timeout)
  | client k y hm => cases hm <;> exact ⟨rfl, rfl⟩
  | _ => exact ⟨rfl, rfl⟩

omit [DecidableEq κ] in
theorem flushing_iff {x : Stream.State κ} :
    flushing x = true ↔ x.coord = .flush ∧ x.buffer ≠ [] := by
  unfold flushing
  split
  next hpc => simp [hpc]
  next hpc => simpa using fun h => absurd h hpc

/-- A batch that the pool has served is decrypted. -/
theorem Linked.decrypted (h : Linked g s) (hcall : s.calling m = true)
    (hctx : 0x8000 ≤ (g.tmpl m).ctx.length)
    (hback : s.pool.caller (s.current m) = .returned ∨ s.pool.caller (s.current m) = .bypassed) :
    batchOutputs (s.stream m).buffer (s.pool.out (s.current m)) =
      Stream.decryptBatch (g.tmpl m) (s.stream m).buffer := by
  have hcalls := (h.batch m hcall).2
  have hctx' : 0x8000 ≤ (s.calls (s.current m)).tmpl.ctx.length := by
    rw [hcalls]
    exact hctx
  obtain ⟨ws, hws⟩ : ∃ ws, Served (s.calls (s.current m)) (s.pool.out (s.current m)) ws := by
    obtain hret | hby := hback
    · exact ⟨_, reached_served h.pool hctx' hret⟩
    · exact reached_alone h.pool hctx' hby
  rw [hcalls] at hws
  exact batchOutputs_served hctx hws

/-- On its own the stream decrypts its batch in one step. -/
theorem flush_alone {tmpl : Template} {batchSize : Nat} {x : Stream.State κ}
    (hfl : flushing x = true) (timeout : Bool) :
    Stream.step tmpl batchSize x (.coord timeout) =
      match Stream.decryptBatch tmpl x.buffer with
      | some out => some { x with coord := .sending out }
      | none => some { x with coord := .panicked } := by
  obtain ⟨hpc, hbuffer⟩ := flushing_iff.mp hfl
  rw [Stream.step, Stream.coordStep, hpc]
  exact if_neg hbuffer

theorem Linked.flush (h : Linked g s) (hfl : flushing (s.stream m) = true)
    (hu : flushStep g s m = some t) : Linked g t := by
  unfold flushStep at hu
  by_cases hcall : s.calling m = true
  · rw [if_pos hcall] at hu
    cases hback : s.pool.caller (s.current m) with
    | returned | bypassed =>
      rw [hback] at hu
      dsimp only at hu
      split at hu
      all_goals
        next hout =>
          cases hu
          refine h.resume (by rw [hback]; rfl) fun hctx => ?_
          rw [flush_alone hfl, ← h.decrypted hcall hctx (by simp [hback]), hout]
    | panicked =>
      rw [hback] at hu
      cases hu
      refine h.resume (by rw [hback]; rfl) fun hctx => absurd hback (caller_unharmed h.pool ?_)
      rw [(h.batch m hcall).2]
      exact hctx
    | _ =>
      rw [hback] at hu
      cases hu
  · rw [if_neg hcall] at hu
    cases hu
    exact h.enter (Bool.not_eq_true _ ▸ hcall) hfl

/-- Only the present call of a stream can be inside. -/
theorem Linked.present (h : Linked g s) {k : Nat}
    (hin : PoolTurns.inside (s.pool.caller (.batch m k)) = true) :
    s.calling m = true ∧ k = s.flushed m := by
  have hlive : s.pool.caller (.batch m k) ≠ .idle := fun hidle => by
    rw [hidle] at hin
    cases hin
  obtain hlt | ⟨rfl, hcall⟩ := h.unmade m k hlive
  · have hset := h.past m k hlt
    cases hpc : s.pool.caller (.batch m k) <;> simp_all [settled, PoolTurns.inside]
  · exact ⟨hcall, rfl⟩

theorem Linked.step {a : Action μ δ κ W} (h : Linked g s) (hu : Service.step g s a = some t) :
    Linked g t := by
  cases a with
  | stream m a =>
    have halone (hne : ∀ b, a = .coord b → flushing (s.stream m) = false)
        (hu : (Stream.step (g.tmpl m) (g.batchSize m) (s.stream m) a).map
          (s.setStream m) = some t) : Linked g t := by
      obtain ⟨x, hx, rfl⟩ := Option.map_eq_some_iff.mp hu
      refine h.setStream hx fun hfl => ?_
      obtain ⟨hcoord, hbuffer⟩ := kept_by_others (fun b hb => by
        cases hfl.symm.trans (hne b hb)) hx
      rw [flushing_iff] at hfl ⊢
      rw [hcoord, hbuffer]
      exact ⟨hfl, rfl⟩
    cases hfl : flushing (s.stream m) with
    | false =>
      refine halone (fun _ _ => hfl) ?_
      simpa [Service.step, hfl] using hu
    | true =>
      cases a with
      | coord b => exact h.flush hfl (by simpa [Service.step, hfl] using hu)
      | _ => exact halone nofun hu
  | pool a =>
    simp only [Service.step] at hu
    split at hu
    next hserves =>
      obtain ⟨p, hp, rfl⟩ := Option.map_eq_some_iff.mp hu
      exact h.poolStep hserves hp
    next => cases hu

end Links

theorem Linked.run {as : List (Action μ δ κ W)} (h : Linked g s)
    (hrun : Transition.run (Service.step g) s as = some t) : Linked g t := by
  induction as generalizing s with
  | nil =>
    cases hrun
    exact h
  | cons a as ih =>
    obtain ⟨u, hu, hrest⟩ := run_cons_eq_some.mp hrun
    exact ih (h.step hu) hrest

theorem reached_linked (h : Reaches (Service.step g) (initial g : State μ δ κ W) s) : Linked g s :=
  h.invariant (I := Linked g) linked_initial fun _ _ _ _ ht _ hu => ht.step hu

section Results

/-- In every run the pool does a run of its own, on the calls made so far, and so does each stream
over a loaded template; a coordinator that is in its call has handed its buffer over. -/
theorem service_refines (g : Setup μ δ) (s : State μ δ κ W)
    (h : Reaches (Service.step g) (initial g) s) :
    Reaches (Pool.step s.calls) (Pool.initial s.calls) s.pool ∧
    (∀ d, s.calls (.direct d) = g.direct d) ∧
    (∀ m, s.calling m = true →
      s.calls (s.current m) = batchCall (g.tmpl m) (s.stream m).buffer) ∧
    ∀ m, 0x8000 ≤ (g.tmpl m).ctx.length →
      Reaches (Stream.step (g.tmpl m) (g.batchSize m)) Stream.initial (s.stream m) := by
  have hl := reached_linked h
  exact ⟨hl.pool, hl.direct, fun m hm => (hl.batch m hm).2, hl.stream⟩

theorem service_refines_flush : ∃ s : State (Fin 2) Unit Unit 1,
    (s.stream 0).buffer = [[7], [8]] ∧ s.calls (.batch 0 0) = batchCall eightTemplate [[7], [8]] ∧
      Reaches (Stream.step eightTemplate 2) Stream.initial (s.stream 0) := by
  obtain ⟨s, hrun, hbuffer, hflushed, hcall⟩ : ∃ s, run (Service.step twoStreams)
      (initial twoStreams : State (Fin 2) Unit Unit 1)
      ([.stream 0 (.call () (.submit [7])), .stream 0 (.client ()), .stream 0 (.client ()),
        .stream 0 (.call () (.submit [8])), .stream 0 (.client ()), .stream 0 (.client ())] ++
        .replicate 5 (.stream 0 (.coord false))) = some s ∧ (s.stream 0).buffer = [[7], [8]] ∧
      s.flushed 0 = 0 ∧ s.calling 0 = true := ⟨_, rfl, rfl, rfl, rfl⟩
  obtain ⟨-, -, hbatch, hstream⟩ := service_refines twoStreams s (reaches_of_run hrun)
  refine ⟨s, hbuffer, ?_, hstream 0 List.length_replicate.ge⟩
  have hmade := hbatch 0 hcall
  rwa [State.current, hflushed, hbuffer] at hmade

/-- Whatever shares the pool with them, streams deliver in order and calls get their results. -/
theorem service_in_order (g : Setup μ δ) (s : State μ δ κ W)
    (h : Reaches (Service.step g) (initial g) s) :
    (∀ m, 0x8000 ≤ (g.tmpl m).ctx.length →
      ∃ plain, (s.stream m).accepted.mapM (decrypt (g.tmpl m)) = some plain ∧
        (s.stream m).delivered <+: plain ∧
        ((s.stream m).sawEnd = true → (s.stream m).txOpen = false ∧
          (s.stream m).delivered = plain)) ∧
    ∀ d, 0x8000 ≤ (g.direct d).tmpl.ctx.length →
      (g.direct d).out = List.replicate (g.direct d).out.length 0 →
      s.pool.caller (.direct d) = .returned ∨ s.pool.caller (.direct d) = .bypassed →
      ∃ plain, Pool.collect (g.direct d).samples (s.pool.out (.direct d)) = some plain ∧
        (g.direct d).samples.mapM (decrypt (g.direct d).tmpl) = some plain := by
  have hl := reached_linked h
  refine ⟨fun m hctx => ?_, fun d hctx hzero hback => ?_⟩
  · have hret := StreamOrder.returns_of_ctx hctx
    obtain ⟨-, hline⟩ := StreamOrder.reached_inv hret (hl.stream m hctx)
    exact ⟨_, StreamOrder.decryptBatch_eq hret _, hline.front, hline.complete⟩
  · rw [← hl.direct d] at hctx hzero ⊢
    obtain ⟨ws, hws⟩ : ∃ ws, Served (s.calls (.direct d)) (s.pool.out (.direct d)) ws := by
      obtain hret | hby := hback
      · exact ⟨_, reached_served hl.pool hctx hret⟩
      · exact reached_alone hl.pool hctx hby
    have hplain : (s.calls (.direct d)).samples.mapM
      (decrypt (s.calls (.direct d)).tmpl) = some _ :=
      StreamOrder.decryptBatch_eq (StreamOrder.returns_of_ctx hctx) _
    exact ⟨_, (hws.collect_eq hctx hzero).trans hplain, hplain⟩

theorem service_in_order_two : ∃ s : State (Fin 2) Unit Unit 1,
    (s.stream 0).delivered = [[7], [8]] ∧ ∃ plain,
      (s.stream 0).accepted.mapM (decrypt eightTemplate) = some plain ∧ [[7], [8]] <+: plain := by
  obtain ⟨s, hrun, hgot⟩ : ∃ s, run (Service.step twoStreams)
      (initial twoStreams : State (Fin 2) Unit Unit 1)
      ([.stream 0 (.call () (.submit [7])), .stream 0 (.client ()), .stream 0 (.client ()),
        .stream 0 (.call () (.submit [8])), .stream 0 (.client ()), .stream 0 (.client ())] ++
        .replicate 5 (.stream 0 (.coord false)) ++ .replicate 6 (.pool (.caller (.batch 0 0))) ++
        .replicate 8 (.pool (.worker 0)) ++ .replicate 4 (.pool (.caller (.batch 0 0))) ++
        .replicate 3 (.stream 0 (.coord false)) ++ [.stream 0 .next, .stream 0 .next]) = some s ∧
      (s.stream 0).delivered = [[7], [8]] := ⟨_, rfl, rfl⟩
  obtain ⟨plain, hplain, hpre, -⟩ :=
    (service_in_order twoStreams s (reaches_of_run hrun)).1 0 List.length_replicate.ge
  exact ⟨s, hgot, plain, hplain, hgot ▸ hpre⟩

/-- The call whose buffers a worker uses is inside. -/
theorem inside_of_uses {ι : Type} [DecidableEq ι] {calls : ι → Pool.Call} {p : Pool.State ι W}
    (h : Reaches (Pool.step calls) (Pool.initial calls) p) {w : Fin W} {c : ι}
    (hw : PoolSafety.usesPointers (p.worker w).pc = some c) :
    PoolTurns.inside (p.caller c) = true := by
  have hown : PoolWork.ownOf c (p.worker w).pc ≠ none := by
    cases hpc : (p.worker w).pc <;> simp_all [PoolSafety.usesPointers, PoolWork.ownOf]
  have hcreated : PoolWork.created (p.caller c) = true := by
    refine (PoolWork.reached_inv h).1.refs w c ?_
    cases hpc : (p.worker w).pc <;> simp_all [PoolSafety.usesPointers, PoolWork.refers]
  have hunseen : PoolSafety.seen (p.caller c) = false := by
    by_contra hseen
    exact hown (PoolSafety.no_owner_after h (Bool.not_eq_false _ ▸ hseen) w)
  cases hpc : p.caller c <;> simp_all [PoolWork.created, PoolSafety.seen, PoolTurns.inside]

/-- A worker uses the buffers of a call only while its caller waits for them: a coordinator in the
call of its present batch, whose samples and output are still its own. -/
theorem borrows_live (g : Setup μ δ) (s : State μ δ κ W)
    (h : Reaches (Service.step g) (initial g) s) (w : Fin W) (c : CallId μ δ)
    (hw : PoolSafety.usesPointers (s.pool.worker w).pc = some c) :
    PoolTurns.inside (s.pool.caller c) = true ∧ ∀ m k, c = .batch m k →
      s.calling m = true ∧ k = s.flushed m ∧ (s.stream m).coord = .flush ∧
        s.calls c = batchCall (g.tmpl m) (s.stream m).buffer := by
  have hl := reached_linked h
  have hin := inside_of_uses hl.pool hw
  refine ⟨hin, ?_⟩
  rintro m k rfl
  obtain ⟨hcall, rfl⟩ := hl.present hin
  obtain ⟨hfl, hcalls⟩ := hl.batch m hcall
  exact ⟨hcall, rfl, (flushing_iff.mp hfl).1, hcalls⟩

theorem borrows_live_claimed : ∃ s : State (Fin 2) Unit Unit 1,
    PoolSafety.usesPointers (s.pool.worker 0).pc = some (.batch 0 0) ∧
      (s.stream 0).coord = .flush := by
  obtain ⟨s, hrun, hw⟩ : ∃ s, run (Service.step twoStreams)
      (initial twoStreams : State (Fin 2) Unit Unit 1)
      ([.stream 0 (.call () (.submit [7])), .stream 0 (.client ()), .stream 0 (.client ()),
        .stream 0 (.call () (.submit [8])), .stream 0 (.client ()), .stream 0 (.client ())] ++
        .replicate 5 (.stream 0 (.coord false)) ++ .replicate 6 (.pool (.caller (.batch 0 0))) ++
        .replicate 3 (.pool (.worker 0))) = some s ∧
      PoolSafety.usesPointers (s.pool.worker 0).pc = some (.batch 0 0) := ⟨_, rfl, rfl⟩
  have hlive := borrows_live twoStreams s (reaches_of_run hrun) 0 (.batch 0 0) hw
  exact ⟨s, hw, (hlive.2 0 0 rfl).2.2.1⟩

end Results

end Temari.ServiceRuns
