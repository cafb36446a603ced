import Temari.Rounds
import Mathlib.Logic.Function.Basic

/-! The stream: clients send samples into a bounded channel, a coordinator thread takes
them in batches, and the plaintexts leave through a second channel. The mutex around the
sender and each channel operation take one step; a timed receive may time out at any
point. -/
namespace Temari.Stream
open RoundMachine Rounds

/-- Result of a non-blocking try_next. -/
inductive StreamNext (α : Type) where
  | data (a : α) | empty | closed
  deriving DecidableEq

/-- What the consumer has been given, by which call. -/
inductive Answer where
  | next (r : Option Bytes) | tryNext (r : StreamNext Bytes)
  deriving DecidableEq

inductive Op where
  | submit (sample : Bytes) | trySubmit (sample : Bytes) | finish

/-- Where a client thread is in its call. -/
inductive ClientPc where
  | idle | wantLock (op : Op) | locked (op : Op) | mustStore

inductive CoordPc where
  | test | first | fill | flush | sending (rest : List Bytes) | exited | panicked

/-- The thread has ended and dropped its ends of both channels. -/
def CoordPc.ended : CoordPc → Bool
  | .exited | .panicked => true
  | _ => false

inductive DropPc where
  | idle | closed | joined
  deriving DecidableEq

structure State (κ : Type) where
  /-- Who holds the mutex around tx_in. -/
  txLock : Option κ
  /-- tx_in is still Some. -/
  txOpen : Bool
  queue : List Bytes
  outQueue : List Bytes
  closed : Bool
  buffer : List Bytes
  inputOpen : Bool
  coord : CoordPc
  client : κ → ClientPc
  /-- Calls that have started and not returned. -/
  borrows : Nat
  dropper : DropPc
  /-- The samples whose submit or try_submit returned Ok, in order. -/
  accepted : List Bytes
  /-- The samples whose submit or try_submit returned StreamError::Closed. -/
  refused : List Bytes
  answers : List Answer

/-- Whose turn it is; a timed receive of the coordinator may be told to time out. -/
inductive Action (κ : Type) where
  | call (k : κ) (op : Op) | client (k : κ) | coord (timeout : Bool) | next | tryNext | drop

variable {κ : Type} [DecidableEq κ]

def initial : State κ where
  txLock := none
  txOpen := true
  queue := []
  outQueue := []
  closed := false
  buffer := []
  inputOpen := true
  coord := .test
  client := fun _ => .idle
  borrows := 0
  dropper := .idle
  accepted := []
  refused := []
  answers := []

/-- `batch_size.max(1)`. -/
def batchOf (batchSize : Nat) : Nat := max batchSize 1

theorem batchOf_pos (batchSize : Nat) : 0 < batchOf batchSize :=
  Nat.lt_of_lt_of_le Nat.zero_lt_one (Nat.le_max_right _ _)

namespace State

def setClient (s : State κ) (k : κ) (pc : ClientPc) : State κ :=
  { s with client := Function.update s.client k pc }

/-- The call of client k returns and its guard of tx_in is dropped. -/
def release (s : State κ) (k : κ) : State κ :=
  { s with txLock := none, borrows := s.borrows - 1 }.setClient k .idle

def accept (s : State κ) (sample : Bytes) : State κ :=
  { s with queue := s.queue ++ [sample], accepted := s.accepted ++ [sample] }

def refuse (s : State κ) (sample : Bytes) : State κ := { s with refused := s.refused ++ [sample] }

def answer (s : State κ) (a : Answer) : State κ := { s with answers := s.answers ++ [a] }

end State

/-- The next step of client k, in submit, try_submit or finish. -/
def clientStep (batch : Nat) (s : State κ) (k : κ) : Option (State κ) :=
  match s.client k with
  | .idle => none
  | .wantLock op =>
    match s.txLock with
    | none => some ({ s with txLock := some k }.setClient k (.locked op))
    | some _ => none
  | .locked (.submit sample) =>
    if s.txOpen = false ∨ s.coord.ended then some ((s.refuse sample).release k)
    else if s.queue.length < batch * 2 then some ((s.accept sample).release k)
    else none
  | .locked (.trySubmit sample) =>
    if s.txOpen = false ∨ s.coord.ended then some ((s.refuse sample).release k)
    else if s.queue.length < batch * 2 then some ((s.accept sample).release k)
    else some ((s.refuse sample).release k)
  | .locked .finish => some ({ s with txOpen := false, txLock := none }.setClient k .mustStore)
  | .mustStore =>
    some ({ s with closed := true, borrows := s.borrows - 1 }.setClient k .idle)

inductive Recv where
  | ok (sample : Bytes) (rest : List Bytes) | timeout | disconnected

/-- `rx_in.recv_timeout`; it blocks while the channel is empty and its sender lives. -/
def recvTimeout (s : State κ) (timeout : Bool) : Option Recv :=
  if timeout then some .timeout
  else
    match s.queue with
    | sample :: rest => some (.ok sample rest)
    | [] => if s.txOpen then none else some .disconnected

/-- The batch call on the pool, which returns the plaintext of each sample. -/
def decryptBatch (tmpl : Template) (samples : List Bytes) : Option (List Bytes) :=
  samples.mapM (decrypt tmpl)

def coordStep (tmpl : Template) (batch : Nat) (s : State κ) (timeout : Bool) :
    Option (State κ) :=
  match s.coord with
  | .test =>
    if s.inputOpen ∨ s.buffer ≠ [] then
      some { s with coord := if s.buffer = [] then .first else .fill }
    else some { s with coord := .exited }
  | .first =>
    match recvTimeout s timeout with
    | some (.ok sample rest) =>
      some { s with queue := rest, buffer := s.buffer ++ [sample], coord := .fill }
    | some .timeout => some { s with coord := .fill }
    | some .disconnected => some { s with inputOpen := false, coord := .fill }
    | none => none
  | .fill =>
    if s.buffer.length < batch ∧ s.inputOpen then
      match recvTimeout s timeout with
      | some (.ok sample rest) => some { s with queue := rest, buffer := s.buffer ++ [sample] }
      | some .timeout => some { s with coord := .flush }
      | some .disconnected => some { s with inputOpen := false }
      | none => none
    else some { s with coord := .flush }
  | .flush =>
    if s.buffer = [] then some { s with coord := .test }
    else
      match decryptBatch tmpl s.buffer with
      | some out => some { s with coord := .sending out }
      | none => some { s with coord := .panicked }
  | .sending (p :: rest) => some { s with outQueue := s.outQueue ++ [p], coord := .sending rest }
  | .sending [] => some { s with buffer := [], coord := .test }
  | .exited | .panicked => none

/-- `next`: it blocks while there is no plaintext and the coordinator lives. -/
def nextStep (s : State κ) : Option (State κ) :=
  match s.outQueue with
  | p :: rest => some ({ s with outQueue := rest }.answer (.next (some p)))
  | [] => if s.coord.ended then some (s.answer (.next none)) else none

def tryNextStep (s : State κ) : Option (State κ) :=
  match s.outQueue with
  | p :: rest => some ({ s with outQueue := rest }.answer (.tryNext (.data p)))
  | [] =>
    if s.coord.ended then some (s.answer (.tryNext .closed))
    else some (s.answer (.tryNext .empty))

/-- `drop` borrows the stream exclusively, so no call is inside. -/
def dropStep (s : State κ) : Option (State κ) :=
  match s.dropper with
  | .idle => if s.borrows = 0 then some { s with txOpen := false, dropper := .closed } else none
  | .closed => if s.coord.ended then some { s with dropper := .joined } else none
  | .joined => none

/-- A stream over tmpl made with this batch size. -/
def step (tmpl : Template) (batchSize : Nat) (s : State κ) : Action κ → Option (State κ)
  | .call k op =>
    match s.dropper, s.client k with
    | .idle, .idle => some ({ s with borrows := s.borrows + 1 }.setClient k (.wantLock op))
    | _, _ => none
  | .client k => clientStep (batchOf batchSize) s k
  | .coord timeout => coordStep tmpl (batchOf batchSize) s timeout
  | .next => if s.dropper = .idle then nextStep s else none
  | .tryNext => if s.dropper = .idle then tryNextStep s else none
  | .drop => dropStep s

/-- The plaintext an answer carries. -/
def Answer.plain : Answer → Option Bytes
  | .next r => r
  | .tryNext (.data p) => some p
  | .tryNext _ => none

/-- The answer says that the stream is closed and consumed. -/
def Answer.isEnd : Answer → Bool
  | .next none | .tryNext .closed => true
  | _ => false

/-- The plaintexts handed out so far. -/
def State.delivered (s : State κ) : List Bytes := s.answers.filterMap Answer.plain

/-- The consumer has been told that the stream is at its end. -/
def State.sawEnd (s : State κ) : Bool := s.answers.any Answer.isEnd

end Temari.Stream
