import Temari.ServiceRuns
import Temari.PoolCompletion
import Temari.StreamCompletion

/-! What a stream completes alone it can complete beside the others, whether or not they are read:
each of its runs can be had in the service, with steps of the workers and of the calls under way.
A call that has missed its notify waits for a spurious wakeup, and one is enough for it. -/
namespace Temari.ServiceCompletion
open RoundMachine Rounds PoolTurns PoolRest PoolWakeup PoolArrivals PoolCompletion Service
  ServiceRuns
open Transition
variable {μ δ κ : Type} [DecidableEq μ] [DecidableEq δ] [DecidableEq κ] {W : Nat} {g : Setup μ δ}
  {s t u : State μ δ κ W} {m n : μ} {P Q : Action μ δ κ W → Prop} {new : Set δ}
  {bs cs : List (Action μ δ κ W)}

/-- The call a spurious wakeup is for. -/
def wakes : Action μ δ κ W → Option (CallId μ δ)
  | .pool a => woken a
  | .stream _ _ => none

/-- The step is not a notify that is missed. -/
def noticed (s : State μ δ κ W) : Action μ δ κ W → Bool
  | .pool a => heard s.pool a
  | .stream _ _ => true

/-- A run of steps of the kind P, in which no direct calls are made but those in new. Spurious
wakeups come to calls that wait, once to each, and to none where no notify has been missed. -/
structure Helped (g : Setup μ δ) (P : Action μ δ κ W → Prop) (new : Set δ) (s : State μ δ κ W)
    (bs : List (Action μ δ κ W)) (t : State μ δ κ W) : Prop where
  run : run (Service.step g) s bs = some t
  only : ∀ b ∈ bs, P b
  idle : ∀ d, d ∉ new → s.pool.caller (.direct d) = .idle → t.pool.caller (.direct d) = .idle
  once : (bs.filterMap wakes).Nodup
  waiting : ∀ c ∈ bs.filterMap wakes, answered (s.pool.caller c) = false
  served : ∀ c ∈ bs.filterMap wakes, answered (t.pool.caller c) = true
  heard : Awaited s.pool → bs.filterMap wakes = [] ∧ Awaited t.pool

section Helping

/-- A stream does nothing to the pool but to bring it a call. -/
theorem pool_of_stream {a : Stream.Action κ} (hu : Service.step g s (.stream m a) = some t) :
    t.pool = s.pool ∨ ∃ c call, t.pool = arrive s.pool c call := by
  have halone (hu : (Stream.step (g.tmpl m) (g.batchSize m) (s.stream m) a).map (s.setStream m) =
      some t) : t.pool = s.pool := by
    obtain ⟨x, -, rfl⟩ := Option.map_eq_some_iff.mp hu
    rfl
  cases hfl : flushing (s.stream m) with
  | false => exact Or.inl (halone (by simpa [Service.step, hfl] using hu))
  | true =>
    cases a with
    | coord b =>
      have hflush : flushStep g s m = some t := by simpa [Service.step, hfl] using hu
      unfold flushStep at hflush
      split at hflush
      · left
        split at hflush
        · split at hflush <;> cases hflush <;> rfl
        · split at hflush <;> cases hflush <;> rfl
        · cases hflush
          rfl
        · cases hflush
      · cases hflush
        exact Or.inr ⟨_, _, rfl⟩
    | _ => exact Or.inl (halone (by simpa [Service.step, hfl] using hu))

theorem caller_of_stream {a : Stream.Action κ} (hu : Service.step g s (.stream m a) = some t) :
    t.pool.caller = s.pool.caller := by
  obtain hpool | ⟨c, call, hpool⟩ := pool_of_stream hu <;> rw [hpool]
  rfl

omit [DecidableEq κ] in
/-- The job of a call that comes is not finished. -/
theorem awaited_arrive {p : Pool.State (CallId μ δ) W} (h : Awaited p)
    (c : CallId μ δ) (call : Pool.Call) : Awaited (arrive p c call) := by
  refine h.frame (fun d hd hf => ⟨hd, ?_⟩) fun _ _ hw => hw
  change (Function.update p.jobs c (Pool.freshJob call) d).finished = true at hf
  obtain rfl | hne := eq_or_ne d c
  · rw [Function.update_self] at hf
    cases hf
  · rwa [Function.update_of_ne hne] at hf

theorem awaited_stream {a : Stream.Action κ} (hu : Service.step g s (.stream m a) = some t)
    (h : Awaited s.pool) : Awaited t.pool := by
  obtain hpool | ⟨c, call, hpool⟩ := pool_of_stream hu <;> rw [hpool]
  · exact h
  · exact awaited_arrive h c call

theorem pool_step {a : Pool.Action (CallId μ δ) W} (hu : Service.step g s (.pool a) = some t) :
    ∃ p, Pool.step s.calls s.pool a = some p ∧ t = { s with pool := p } := by
  simp only [Service.step] at hu
  split at hu
  next =>
    obtain ⟨p, hp, rfl⟩ := Option.map_eq_some_iff.mp hu
    exact ⟨p, hp, rfl⟩
  next => cases hu

/-- In a run in which every notify is heard nobody has missed one. -/
theorem reached_awaited
    (h : Steps (Service.step g) (fun s a => noticed s a = true) (initial g) s) :
    Awaited s.pool := by
  refine h.invariant (I := fun s => Awaited s.pool) (fun _ hc => by cases hc) ?_
  intro t a u _ ht hok hu
  cases a with
  | stream m a => exact awaited_stream hu ht
  | pool a =>
    obtain ⟨p, hp, rfl⟩ := pool_step hu
    exact ht.step hok hp

/-- What is answered stays so. -/
theorem answered_of_run (hrun : Transition.run (Service.step g) s bs = some t) {c : CallId μ δ}
    (hc : answered (s.pool.caller c) = true) : answered (t.pool.caller c) = true := by
  induction bs generalizing s with
  | nil =>
    cases hrun
    exact hc
  | cons b bs ih =>
    obtain ⟨u, hu, hrest⟩ := run_cons_eq_some.mp hrun
    refine ih hrest ?_
    cases b with
    | stream m a => rwa [caller_of_stream hu]
    | pool a =>
      obtain ⟨p, hp, rfl⟩ := pool_step hu
      exact answered_step hp hc

theorem Helped.refl (s : State μ δ κ W) : Helped g P new s [] s where
  run := rfl
  only := nofun
  idle _ _ h := h
  once := List.nodup_nil
  waiting := nofun
  served := nofun
  heard h := ⟨rfl, h⟩

theorem Helped.stream {a : Stream.Action κ} (hP : P (.stream m a))
    (hu : Service.step g s (.stream m a) = some t) : Helped g P new s [.stream m a] t where
  run := run_cons_eq_some.mpr ⟨t, hu, rfl⟩
  only := List.forall_mem_singleton.mpr hP
  idle d _ hd := by rwa [caller_of_stream hu]
  once := List.nodup_nil
  waiting := nofun
  served := nofun
  heard h := ⟨rfl, awaited_stream hu h⟩

theorem Helped.mono (h : Helped g P new s bs t) (hPQ : ∀ b, P b → Q b) : Helped g Q new s bs t :=
  { h with only := fun b hb => hPQ b (h.only b hb) }

/-- The wakeups of the second run are for calls that the first one has left waiting. -/
theorem Helped.trans (h : Helped g P new s bs t) (h' : Helped g P new t cs u) :
    Helped g P new s (bs ++ cs) u where
  run := (run_append h.run).trans h'.run
  only b hb := (List.mem_append.mp hb).elim (h.only b) (h'.only b)
  idle d hd hs := h'.idle d hd (h.idle d hd hs)
  once := by
    rw [List.filterMap_append]
    refine List.nodup_append.mpr ⟨h.once, h'.once, ?_⟩
    rintro c hc _ hc' rfl
    cases (h.served c hc).symm.trans (h'.waiting c hc')
  waiting c hc := by
    rw [List.filterMap_append] at hc
    obtain hc | hc := List.mem_append.mp hc
    · exact h.waiting c hc
    · refine Bool.eq_false_iff.mpr fun hs => ?_
      cases (answered_of_run h.run hs).symm.trans (h'.waiting c hc)
  served c hc := by
    rw [List.filterMap_append] at hc
    obtain hc | hc := List.mem_append.mp hc
    · exact answered_of_run h'.run (h.served c hc)
    · exact h'.served c hc
  heard hs := by
    obtain ⟨hnone, ht⟩ := h.heard hs
    obtain ⟨hnone', hu⟩ := h'.heard ht
    exact ⟨by rw [List.filterMap_append, hnone, hnone', List.append_nil], hu⟩

end Helping

section Pool

/-- Steps of the workers, and of callers with or without a wakeup. -/
def helps : Action μ δ κ W → Prop
  | .pool (.caller _) | .pool (.worker _) | .pool (.wakeCaller _) => True
  | _ => False

/-- The pool's threads run while the streams stand. -/
theorem run_pool {as : List (Pool.Action (CallId μ δ) W)} {p : Pool.State (CallId μ δ) W}
    (has : ∀ a ∈ as, serves s a = true) (hrun : run (Pool.step s.calls) s.pool as = some p) :
    run (Service.step g) s (as.map .pool) = some { s with pool := p } := by
  induction as generalizing s with
  | nil =>
    cases hrun
    rfl
  | cons a as ih =>
    obtain ⟨q, hq, hrest⟩ := run_cons_eq_some.mp hrun
    obtain ⟨ha, has⟩ := List.forall_mem_cons.mp has
    have hstep : Service.step g s (.pool a) = some { s with pool := q } := by
      simp only [Service.step, if_pos ha, hq, Option.map_some]
    refine run_cons_eq_some.mpr ⟨_, hstep, ?_⟩
    exact ih (s := { s with pool := q }) has hrest

omit [DecidableEq μ] [DecidableEq δ] [DecidableEq κ] in
/-- A call that is inside is served. -/
theorem serves_of_inside {F : Finset (CallId μ δ)}
    (hF : ∀ m k, .batch m k ∈ F → s.calling m = true ∧ k = s.flushed m)
    {a : Pool.Action (CallId μ δ) W} (ha : helping F a) : serves s a = true := by
  cases a with
  | caller c =>
    cases c with
    | batch m k =>
      obtain ⟨hcall, rfl⟩ := hF m k ha
      simp [serves, hcall]
    | direct d => rfl
  | drop => cases ha
  | _ => rfl

theorem idle_of_helping {ι : Type} [DecidableEq ι] {calls : ι → Pool.Call} {F : Finset ι}
    {p q : Pool.State ι W} {as : List (Pool.Action ι W)} {c : ι} (has : ∀ a ∈ as, helping F a)
    (hrun : run (Pool.step calls) p as = some q) (hc : c ∉ F) (hidle : p.caller c = .idle) :
    q.caller c = .idle := by
  induction as generalizing p with
  | nil =>
    cases hrun
    exact hidle
  | cons a as ih =>
    obtain ⟨r, hr, hrest⟩ := run_cons_eq_some.mp hrun
    obtain ⟨ha, has⟩ := List.forall_mem_cons.mp has
    refine ih has hrest (idle_of_others hr hidle ?_)
    rintro rfl
    exact hc ha

/-- The calls inside and call c get their results, whatever else is in the service. -/
theorem pool_answers (hl : Linked g s) (hW : 0 < W)
    (hctx : ∀ c, 0x8000 ≤ (s.calls c).tmpl.ctx.length) (c : CallId μ δ)
    (hc : ∀ m k, c = .batch m k → s.calling m = true ∧ k = s.flushed m) :
    ∃ (bs : List (Action μ δ κ W)) (p : Pool.State (CallId μ δ) W),
      Helped g helps {d | c = .direct d} s bs { s with pool := p } ∧
        answered (p.caller c) = true := by
  obtain ⟨F, hF⟩ := reached_within hl.pool
  have hin : Within (insert c F) s.pool := fun d hd => Finset.mem_insert_of_mem ((hF d).mpr hd)
  obtain ⟨as, p, has, hnodup, honce, hheard, hrun, hall⟩ :=
    all_answered hW hctx hl.pool hl.live hin
  have hwakes : (as.map Action.pool).filterMap (wakes (κ := κ)) = as.filterMap woken := by
    rw [List.filterMap_map]
    rfl
  have hfor (d : CallId μ δ) (hd : d ∈ as.filterMap woken) : d ∈ insert c F := by
    obtain ⟨a, ha, hwoken⟩ := List.mem_filterMap.mp hd
    have hhelp := has a ha
    cases a with
    | wakeCaller b =>
      cases hwoken
      exact hhelp
    | _ => cases hwoken
  refine ⟨as.map .pool, p, ⟨?_, ?_, ?_, ?_, ?_, ?_, ?_⟩, hall c (Finset.mem_insert_self c F)⟩
  · refine run_pool (fun a ha => serves_of_inside (fun m k hm => ?_) (has a ha)) hrun
    obtain heq | hmem := Finset.mem_insert.mp hm
    · exact hc m k heq.symm
    · exact hl.present ((hF _).mp hmem)
  · rintro b hb
    obtain ⟨a, ha, rfl⟩ := List.mem_map.mp hb
    have hhelp := has a ha
    cases a with
    | drop | wakeWorker w => cases hhelp
    | _ => trivial
  · intro d hd hidle
    refine idle_of_helping has hrun (fun hmem => ?_) hidle
    obtain heq | hmem := Finset.mem_insert.mp hmem
    · exact hd heq.symm
    · have hinside := (hF _).mp hmem
      rw [hidle] at hinside
      cases hinside
  all_goals rw [hwakes]
  · exact hnodup
  · exact honce
  · exact fun d hd => hall d (hfor d hd)
  · exact hheard

end Pool

section Streams

/-- The templates have the table that both loaders check for. -/
structure Loaded (g : Setup μ δ) : Prop where
  streams : ∀ m, 0x8000 ≤ (g.tmpl m).ctx.length
  direct : ∀ d, 0x8000 ≤ (g.direct d).tmpl.ctx.length

theorem Loaded.calls (hg : Loaded g) (hl : Linked g s) (c : CallId μ δ) :
    0x8000 ≤ (s.calls c).tmpl.ctx.length := by
  cases c with
  | batch m k =>
    rw [hl.tmpl]
    exact hg.streams m
  | direct d =>
    rw [hl.direct]
    exact hg.direct d

/-- The steps of stream m named in as, and steps that help. -/
def only (m : μ) (as : List (Stream.Action κ)) : Action μ δ κ W → Prop
  | .stream n a => n = m ∧ a ∈ as
  | .pool a => helps (.pool a : Action μ δ κ W)

omit [DecidableEq μ] [DecidableEq δ] [DecidableEq κ] in
theorem only_of_helps {as : List (Stream.Action κ)} {b : Action μ δ κ W} (h : helps b) :
    only m as b := by
  cases b with
  | stream n a => cases h
  | pool a => exact h

omit [DecidableEq μ] [DecidableEq δ] [DecidableEq κ] in
theorem only_mono {as as' : List (Stream.Action κ)} {b : Action μ δ κ W} (h : only m as b)
    (hsub : as ⊆ as') : only m as' b := by
  cases b with
  | stream n a => exact ⟨h.1, hsub h.2⟩
  | pool a => exact h

/-- The call under way comes back, and its coordinator goes on. -/
theorem call_returns (hg : Loaded g) (hl : Linked g s) (hW : 0 < W) (hcall : s.calling m = true)
    {b : Bool} {x : Stream.State κ}
    (hx : Stream.step (g.tmpl m) (g.batchSize m) (s.stream m) (.coord b) = some x) :
    ∃ bs t, Helped g (only m [.coord b]) ∅ s bs t ∧ t.stream = Function.update s.stream m x := by
  obtain ⟨hfl, -⟩ := hl.batch m hcall
  obtain ⟨bs, p, hbs, hans⟩ := pool_answers hl hW (hg.calls hl) (s.current m) fun n k hnk => by
    cases hnk
    exact ⟨hcall, rfl⟩
  let u : State μ δ κ W := { s with pool := p }
  have hlu : Linked g u := hl.run hbs.run
  have hback : p.caller (s.current m) = .returned ∨ p.caller (s.current m) = .bypassed := by
    cases hpc : p.caller (s.current m) <;> simp_all [answered]
  obtain ⟨plain, hdec⟩ : ∃ plain,
      Stream.decryptBatch (g.tmpl m) (s.stream m).buffer = some plain :=
    ⟨_, StreamOrder.decryptBatch_eq (StreamOrder.returns_of_ctx (hg.streams m)) _⟩
  have hout : batchOutputs (u.stream m).buffer (u.pool.out (u.current m)) = some plain :=
    (hlu.decrypted hcall (hg.streams m) hback).trans hdec
  rw [flush_alone hfl, hdec] at hx
  cases hx
  have hstep : Service.step g u (.stream m (.coord b)) = some (u.resume m (.sending plain)) := by
    have hflush : flushing (u.stream m) = true := hfl
    have hcall' : u.calling m = true := hcall
    simp only [Service.step, hflush]
    rw [flushStep, if_pos hcall', hout]
    obtain hpool | hpool : u.pool.caller (u.current m) = .returned ∨
        u.pool.caller (u.current m) = .bypassed := hback
    all_goals rw [hpool]
  have hnone : {d : δ | s.current m = .direct d} = ∅ :=
    Set.eq_empty_of_forall_notMem fun d hd => by cases hd
  rw [hnone] at hbs
  exact ⟨_, _, (hbs.mono fun b hb => only_of_helps hb).trans
    (Helped.stream ⟨rfl, List.mem_singleton_self _⟩ hstep), rfl⟩

/-- Each step of a stream alone can be had in the service. -/
theorem step_realised (hg : Loaded g) (hl : Linked g s) (hW : 0 < W) {a : Stream.Action κ}
    {x : Stream.State κ} (hx : Stream.step (g.tmpl m) (g.batchSize m) (s.stream m) a = some x) :
    ∃ bs t, Helped g (only m [a]) ∅ s bs t ∧ t.stream = Function.update s.stream m x := by
  have halone (hstep : Service.step g s (.stream m a) = some (s.setStream m x)) :
      ∃ bs t, Helped g (only m [a]) ∅ s bs t ∧ t.stream = Function.update s.stream m x :=
    ⟨_, _, Helped.stream ⟨rfl, List.mem_singleton_self _⟩ hstep, rfl⟩
  cases hfl : flushing (s.stream m) with
  | false => exact halone (by simp only [Service.step, hfl, hx, Option.map_some])
  | true =>
    cases a with
    | coord b =>
      by_cases hcall : s.calling m = true
      · exact call_returns hg hl hW hcall hx
      · -- the coordinator makes its call first
        have henter : Service.step g s (.stream m (.coord b)) = some
            (s.enter m (batchCall (g.tmpl m) (s.stream m).buffer)) := by
          simp only [Service.step, hfl, flushStep, if_neg hcall]
        obtain ⟨bs, t, hbs, ht⟩ := call_returns hg (hl.step henter) hW
          (s := s.enter m (batchCall (g.tmpl m) (s.stream m).buffer)) (Function.update_self ..) hx
        exact ⟨_, t, (Helped.stream ⟨rfl, List.mem_singleton_self _⟩ henter).trans hbs, ht⟩
    | _ => exact halone (by simp only [Service.step, hx, Option.map_some])

/-- Each run of a stream alone can be had in the service. -/
theorem run_realised (hg : Loaded g) (hl : Linked g s) (hW : 0 < W) {as : List (Stream.Action κ)}
    {x : Stream.State κ}
    (hx : run (Stream.step (g.tmpl m) (g.batchSize m)) (s.stream m) as = some x) :
    ∃ bs t, Helped g (only m as) ∅ s bs t ∧ t.stream = Function.update s.stream m x := by
  induction as generalizing s with
  | nil =>
    cases hx
    exact ⟨[], s, Helped.refl s, (Function.update_eq_self m s.stream).symm⟩
  | cons a as ih =>
    obtain ⟨y, hy, hrest⟩ := run_cons_eq_some.mp hx
    obtain ⟨bs, t, hbs, ht⟩ := step_realised hg hl hW hy
    have hty : t.stream m = y := by rw [ht, Function.update_self]
    obtain ⟨cs, u, hcs, hu⟩ := ih (hl.run hbs.run) (hty ▸ hrest)
    refine ⟨bs ++ cs, u, (hbs.mono fun b hb => only_mono hb (by simp)).trans
      (hcs.mono fun b hb => only_mono hb (List.subset_cons_self a as)), ?_⟩
    rw [hu, ht, Function.update_idem]

/-- From every state reached, whatever a stream can do alone it can do in the service, with the
calls under way and the workers taking part and no other stream: so its drop completes with all
accepted samples decrypted. And each direct call can get its results. A call may need one spurious
wakeup for that, but none does in a run in which every notify is heard. -/
theorem service_completes (g : Setup μ δ) (s : State μ δ κ W) (hg : Loaded g) (hW : 0 < W)
    (h : Reaches (Service.step g) (initial g) s) :
    (∀ m as x, run (Stream.step (g.tmpl m) (g.batchSize m)) (s.stream m) as = some x →
      ∃ bs t, Helped g (only m as) ∅ s bs t ∧ t.stream = Function.update s.stream m x) ∧
    (∀ m, ∃ as bs t, (∀ a ∈ as, StreamCompletion.dropping a = true) ∧
      Helped g (only m as) ∅ s bs t ∧ (t.stream m).dropper = .joined ∧
      (s.stream m).accepted <+: (t.stream m).accepted ∧
      StreamProgress.Decrypted (g.tmpl m) (t.stream m) ∧ ∀ n, n ≠ m → t.stream n = s.stream n) ∧
    (∀ d, ∃ bs t, Helped g helps {d} s bs t ∧ answered (t.pool.caller (.direct d)) = true ∧
      t.stream = s.stream) ∧
    (Steps (Service.step g) (fun s a => noticed s a = true) (initial g) s → Awaited s.pool) := by
  have hl := reached_linked h
  refine ⟨fun m as x hx => run_realised hg hl hW hx, fun m => ?_, fun d => ?_, reached_awaited⟩
  · obtain ⟨as, x, has, hx, hjoined, hacc, hdec⟩ := StreamCompletion.drop_completes
      (StreamOrder.returns_of_ctx (hg.streams m)) (hl.stream m (hg.streams m))
    obtain ⟨bs, t, hbs, ht⟩ := run_realised hg hl hW hx
    have hm : t.stream m = x := by rw [ht, Function.update_self]
    rw [← hm] at hjoined hacc hdec
    exact ⟨as, bs, t, has, hbs, hjoined, hacc, hdec,
      fun n hn => by rw [ht, Function.update_of_ne hn]⟩
  · obtain ⟨bs, p, hbs, hans⟩ := pool_answers hl hW (hg.calls hl) (.direct d) fun _ _ heq => by
      cases heq
    have honly : {e : δ | (CallId.direct d : CallId μ δ) = .direct e} = {d} := by
      ext e
      simp [eq_comm]
    exact ⟨bs, { s with pool := p }, honly ▸ hbs, hans, rfl⟩

/-- The call of a stream's batch is stranded, and still the stream can be dropped. -/
theorem service_completes_flush : ∃ s : State (Fin 2) Unit Unit 1,
    Stranded s.pool (.batch 0 0) ∧ s.calling 0 = true ∧
    ∃ bs t, run (Service.step twoStreams) s bs = some t ∧ (bs.filterMap wakes).Nodup ∧
      (t.stream 0).dropper = .joined ∧ [[7], [8]] <+: (t.stream 0).accepted := by
  obtain ⟨s, hrun, hacc, hcall, hpc, hfin, hw⟩ : ∃ s, run (Service.step twoStreams)
      (initial twoStreams : State (Fin 2) Unit Unit 1)
      ([.stream 0 (.call () (.submit [7])), .stream 0 (.client ()), .stream 0 (.client ()),
        .stream 0 (.call () (.submit [8])), .stream 0 (.client ()), .stream 0 (.client ())] ++
        .replicate 5 (.stream 0 (.coord false)) ++ .replicate 8 (.pool (.caller (.batch 0 0))) ++
        .replicate 8 (.pool (.worker 0)) ++ [.pool (.caller (.batch 0 0))]) = some s ∧
      (s.stream 0).accepted = [[7], [8]] ∧ s.calling 0 = true ∧
      s.pool.caller (.batch 0 0) = .parked ∧ (s.pool.jobs (.batch 0 0)).finished = true ∧
      (s.pool.worker 0).pc = .claim (.batch 0 0) := ⟨_, rfl, rfl, rfl, rfl, rfl, rfl⟩
  have hst : Stranded s.pool (.batch 0 0) :=
    ⟨hpc, hfin, fun w => by rw [Subsingleton.elim w 0, hw]; simp⟩
  have hg : Loaded twoStreams :=
    ⟨fun _ => List.length_replicate.ge, fun _ => List.length_replicate.ge⟩
  obtain ⟨-, hdrop, -⟩ := service_completes twoStreams s hg Nat.zero_lt_one (reaches_of_run hrun)
  obtain ⟨as, bs, t, -, hbs, hjoined, hpre, -⟩ := hdrop 0
  exact ⟨s, hst, hcall, bs, t, hbs.run, hbs.once, hjoined, hacc ▸ hpre⟩

end Streams

end Temari.ServiceCompletion
