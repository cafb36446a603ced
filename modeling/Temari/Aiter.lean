import Temari.StreamSeats
import Temari.RetryLoop

/-! Asynchronous iteration of the Python binding. A pump thread reads the stream and hands its
plaintexts over in batches, through callbacks of the event loop and a bounded queue; the
iterator yields them. The threads of the stream, the pump, the callbacks and the iterator
take their steps in any order. -/
namespace Temari.Aiter
open RoundMachine Rounds Ffi RetryLoop Transition
variable {κ : Type} [DecidableEq κ]

/-- `CHUNK`. -/
def chunk : Nat := 64

/-- `maxq`. -/
def maxq : Nat := 16

/-- What is put into the queue of the event loop. -/
inductive Item where
  | batch (plains : List Bytes) | sentinel

/-- Where the pump thread is; last marks the batch that is left when its loop has ended. -/
inductive PumpPc where
  | unstarted | reading | acquire (last : Bool) | handing (last : Bool) | closing | ending | done

/-- Where the async generator is: not started, at its yield, asked for the next plaintext, with an
item whose slot it has not released, or finished. -/
inductive ReaderPc where
  | fresh | suspended (rest : List Bytes) | asked (rest : List Bytes) | got (item : Item) | finished

structure State (κ : Type) where
  stream : Stream.State κ
  pump : PumpPc
  /-- The capacity of the pump's next call of stream_next. -/
  cap : Nat
  batch : List Bytes
  /-- The semaphore of free slots. -/
  space : Nat
  /-- Items given to call_soon_threadsafe and not yet in the queue. -/
  callbacks : List Item
  queue : List Item
  reader : ReaderPc
  /-- The plaintexts in the batches given to call_soon_threadsafe so far. -/
  handed : List Bytes
  yielded : List Bytes

inductive Action (κ : Type) where
  | stream (a : Stream.Action κ) | pump | loop | ask | reader

def initial : State κ where
  stream := Stream.initial
  pump := .unstarted
  cap := Binding.python.firstCapacity
  batch := []
  space := maxq
  callbacks := []
  queue := []
  reader := .fresh
  handed := []
  yielded := []

/-- The rest of a turn of the pump's loop, with what stream_next returned and copied. -/
def State.take (s : State κ) (n : Nat) (out : Bytes) : State κ :=
  match turn s.cap n out with
  | .ended => { s with
      cap := Binding.python.firstCapacity
      pump := if s.batch = [] then .closing else .acquire true }
  | .got plain => { s with
      cap := Binding.python.firstCapacity
      batch := s.batch ++ [plain]
      pump := if chunk ≤ s.batch.length + 1 then .acquire false else .reading }
  | .again => { s with cap := s.cap * 2 }

def pumpStep (tmpl : Template) (batchSize : Nat) (s : State κ) : Option (State κ) :=
  match s.pump with
  | .reading =>
    let (n, out) := streamNext s.stream.outQueue.head? s.cap
    (Stream.step tmpl batchSize s.stream .next).map fun t => { s with stream := t }.take n out
  | .acquire last =>
    if s.space = 0 then none else some { s with space := s.space - 1, pump := .handing last }
  | .handing last => some { s with
      callbacks := s.callbacks ++ [.batch s.batch]
      handed := s.handed ++ s.batch
      batch := if last then s.batch else []
      pump := if last then .closing else .reading }
  | .closing => if s.space = 0 then none else some { s with space := s.space - 1, pump := .ending }
  | .ending => some { s with callbacks := s.callbacks ++ [.sentinel], pump := .done }
  | .unstarted | .done => none

/-- A callback runs `queue.put_nowait`, which raises QueueFull on a full queue. -/
def loopStep (s : State κ) : Option (State κ) :=
  match s.callbacks with
  | item :: rest =>
    if s.queue.length < maxq then some { s with callbacks := rest, queue := s.queue ++ [item] }
    else some { s with callbacks := rest }
  | [] => none

/-- The consumer asks for the next plaintext; the first time the pump thread is started. -/
def askStep (s : State κ) : Option (State κ) :=
  match s.reader with
  | .fresh => some { s with reader := .asked [], pump := .reading }
  | .suspended rest => some { s with reader := .asked rest }
  | _ => none

/-- The generator yields, or gets an item, or releases the slot of its item and looks at it. -/
def readerStep (s : State κ) : Option (State κ) :=
  match s.reader with
  | .asked (p :: rest) => some { s with reader := .suspended rest, yielded := s.yielded ++ [p] }
  | .asked [] =>
    match s.queue with
    | item :: rest => some { s with queue := rest, reader := .got item }
    | [] => none
  | .got (.batch plains) => some { s with space := s.space + 1, reader := .asked plains }
  | .got .sentinel => some { s with space := s.space + 1, reader := .finished }
  | _ => none

def step (tmpl : Template) (batchSize : Nat) (s : State κ) : Action κ → Option (State κ)
  | .stream a =>
    if ofOthers a then
      (Stream.step tmpl batchSize s.stream a).map fun t => { s with stream := t }
    else none
  | .pump => pumpStep tmpl batchSize s
  | .loop => loopStep s
  | .ask => askStep s
  | .reader => readerStep s

end Temari.Aiter
