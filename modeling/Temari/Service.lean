import Temari.PoolArrivals
import Temari.Stream

/-! The process: any number of streams and of direct batch calls on the one global pool. The
coordinator of a stream makes a call of the pool for each of its batches and waits in it; the
pool is never dropped. -/
namespace Temari.Service
open RoundMachine Rounds PoolArrivals

/-- The streams of the process, and the calls others make of the pool. -/
structure Setup (μ δ : Type) where
  tmpl : μ → Template
  batchSize : μ → Nat
  direct : δ → Pool.Call

/-- Two streams, and a call of two bytes. -/
def twoStreams : Setup (Fin 2) Unit where
  tmpl _ := eightTemplate
  batchSize _ := 2
  direct _ := Pool.twoBytes

/-- The calls on the pool: the k-th batch of stream m, or a direct one. -/
inductive CallId (μ δ : Type) where
  | batch (m : μ) (k : Nat) | direct (d : δ)
  deriving DecidableEq

/-- The call of a coordinator: its buffer, and an output of zeros. -/
def batchCall (tmpl : Template) (buffer : List Bytes) : Pool.Call where
  entry := .parDecryptInto
  tmpl := tmpl
  samples := buffer
  out := List.replicate (buffer.map List.length).sum 0
  sized := List.length_replicate

/-- `out[offs[i]..offs[i] + l]` for each sample of the buffer. -/
def batchOutputs (buffer : List Bytes) (out : Bytes) : Option (List Bytes) :=
  (buffer.zip (Pool.offsOf buffer)).mapM fun (s, off) => slice out off (off + s.length)

structure State (μ δ κ : Type) (W : Nat) where
  pool : Pool.State (CallId μ δ) W
  /-- The arguments of the calls; those of a batch are known once the call is made. -/
  calls : CallId μ δ → Pool.Call
  stream : μ → Stream.State κ
  /-- The batches whose call has returned. -/
  flushed : μ → Nat
  /-- The coordinator is in its call of the pool. -/
  calling : μ → Bool

/-- Whose turn it is: a thread of a stream, or one of the pool. -/
inductive Action (μ δ κ : Type) (W : Nat) where
  | stream (m : μ) (a : Stream.Action κ) | pool (a : Pool.Action (CallId μ δ) W)

variable {μ δ κ : Type} [DecidableEq μ] [DecidableEq δ] [DecidableEq κ] {W : Nat}

def initial (g : Setup μ δ) : State μ δ κ W :=
  let calls : CallId μ δ → Pool.Call
    | .batch m _ => batchCall (g.tmpl m) []
    | .direct d => g.direct d
  { pool := Pool.initial calls
    calls := calls
    stream := fun _ => Stream.initial
    flushed := fun _ => 0
    calling := fun _ => false }

/-- The coordinator has filled a batch and not yet its results. -/
def flushing (s : Stream.State κ) : Bool :=
  match s.coord with
  | .flush => !s.buffer.isEmpty
  | _ => false

namespace State

/-- The call of stream m that is next, or under way. -/
def current (s : State μ δ κ W) (m : μ) : CallId μ δ := .batch m (s.flushed m)

def setStream (s : State μ δ κ W) (m : μ) (x : Stream.State κ) : State μ δ κ W :=
  { s with stream := Function.update s.stream m x }

/-- The coordinator of stream m enters decrypt_par_into with its buffer. -/
def enter (s : State μ δ κ W) (m : μ) (call : Pool.Call) : State μ δ κ W :=
  { s with
    pool := arrive s.pool (s.current m) call
    calls := Function.update s.calls (s.current m) call
    calling := Function.update s.calling m true }

/-- The call has come back, and the coordinator goes on at pc. -/
def resume (s : State μ δ κ W) (m : μ) (pc : Stream.CoordPc) : State μ δ κ W :=
  { s with
    stream := Function.update s.stream m { s.stream m with coord := pc }
    flushed := Function.update s.flushed m (s.flushed m + 1)
    calling := Function.update s.calling m false }

omit [DecidableEq κ] in
theorem enter_calls_self (s : State μ δ κ W) (m : μ) (call : Pool.Call) :
    (s.enter m call).calls (s.current m) = call := Function.update_self ..

omit [DecidableEq κ] in
theorem enter_calls_ne (s : State μ δ κ W) {m : μ} {c : CallId μ δ} (call : Pool.Call)
    (h : c ≠ s.current m) : (s.enter m call).calls c = s.calls c := Function.update_of_ne h ..

end State

/-- The coordinator of stream m with a batch in hand. -/
def flushStep (g : Setup μ δ) (s : State μ δ κ W) (m : μ) : Option (State μ δ κ W) :=
  if s.calling m then
    match s.pool.caller (s.current m) with
    | .returned | .bypassed =>
      match batchOutputs (s.stream m).buffer (s.pool.out (s.current m)) with
      | some out => some (s.resume m (.sending out))
      | none => some (s.resume m .panicked)
    | .panicked => some (s.resume m .panicked)
    | _ => none
  else some (s.enter m (batchCall (g.tmpl m) (s.stream m).buffer))

/-- A batch's call takes steps while its coordinator is in it. The pool lives in a static. -/
def serves (s : State μ δ κ W) : Pool.Action (CallId μ δ) W → Bool
  | .caller (.batch m k) => s.calling m && decide (k = s.flushed m)
  | .drop => false
  | _ => true

def step (g : Setup μ δ) (s : State μ δ κ W) : Action μ δ κ W → Option (State μ δ κ W)
  | .stream m a =>
    match a, flushing (s.stream m) with
    | .coord _, true => flushStep g s m
    | a, _ => (Stream.step (g.tmpl m) (g.batchSize m) (s.stream m) a).map (s.setStream m)
  | .pool a =>
    if serves s a then (Pool.step s.calls s.pool a).map fun p => { s with pool := p } else none

end Temari.Service
