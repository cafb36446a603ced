import Temari.Stream

/-! What the C interface hands a consumer, and the loops of the bindings around it. A
consumer sees one answer of the stream for each call of the interface. -/
namespace Temari.Ffi
open RoundMachine Temari.Stream

/-- What stream_next returns, and the bytes it copies to out. -/
def streamNext (r : Option Bytes) (cap : Nat) : Nat × Bytes :=
  match r with
  | some plain =>
    let n := min plain.length cap
    (n, plain.take n)
  | none => (0, [])

/-- What stream_try_next returns, and the bytes it copies to out. -/
def streamTryNext (r : StreamNext Bytes) (cap : Nat) : Int × Bytes :=
  match r with
  | .data plain => (1, plain.take (min plain.length cap))
  | .empty => (0, [])
  | .closed => (-1, [])

/-- A consumer: the capacity of its next call, what it has been returned, and whether it
has been told of the end. -/
structure Consumer where
  cap : Nat
  got : List Bytes
  ended : Bool

def Consumer.start (cap : Nat) : Consumer := { cap, got := [], ended := false }

/-- One turn of the loop in Next, with the first capacity of a call. -/
def nextTurn (first : Nat) (c : Consumer) (r : Option Bytes) : Consumer :=
  if c.ended then c
  else
    let (n, out) := streamNext r c.cap
    if n = 0 then { c with ended := true }
    else if n < c.cap then { c with cap := first, got := c.got ++ [out] }
    else { c with cap := c.cap * 2 }

/-- One turn of the loop in TryNext. -/
def tryNextTurn (first : Nat) (c : Consumer) (r : StreamNext Bytes) : Consumer :=
  if c.ended then c
  else
    let (code, out) := streamTryNext r c.cap
    if code = 1 then
      if out.length < c.cap then { c with cap := first, got := c.got ++ [out] }
      else { c with cap := c.cap * 2 }
    else if code = 0 then { c with cap := first }
    else { c with ended := true }

inductive Binding where
  | go | python

/-- The capacity a call starts with: temari.go and temari/__init__.py. -/
def Binding.firstCapacity : Binding → Nat
  | .go => 4096
  | .python => 1 <<< 16

/-- Next, called until it reports the end. -/
def Binding.collectNext (b : Binding) (rs : List (Option Bytes)) : Consumer :=
  rs.foldl (nextTurn b.firstCapacity) (.start b.firstCapacity)

/-- TryNext, called until it reports the end. -/
def Binding.collectTryNext (b : Binding) (rs : List (StreamNext Bytes)) : Consumer :=
  rs.foldl (tryNextTurn b.firstCapacity) (.start b.firstCapacity)

/-- One turn of a consumer of the C interface that calls stream_next until it returns 0. -/
def drainTurn (c : Consumer) (r : Option Bytes) : Consumer :=
  if c.ended then c
  else
    let (n, out) := streamNext r c.cap
    if n = 0 then { c with ended := true } else { c with got := c.got ++ [out] }

def drain (cap : Nat) (rs : List (Option Bytes)) : Consumer := rs.foldl drainTurn (.start cap)

end Temari.Ffi
