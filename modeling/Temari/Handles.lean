import Temari.Ffi
import Mathlib.Logic.Function.Basic

/-! The native handles of the bindings. A Temari or a Stream holds the address of a value that the
library has allocated. Its methods check the address and hand it to a native function; Close has
the value freed and the address cleared, in Go in this order and in Python in the other. -/
namespace Temari.Handles
open Rounds Ffi

/-- What the library keeps behind a handle: a template, or a stream with its clone of one. -/
inductive Native where
  | template (T : Template) | stream (T : Template)

/-- Where a thread is in a method of an object. -/
inductive Pc (ι : Type) where
  | idle
  /-- The handle was not zero. -/
  | checked (o : ι)
  /-- In a native function, with the address it was given. -/
  | inside (o : ι) (h : Nat)
  /-- In close, past the check (Go). -/
  | closing (o : ι)
  /-- In close, with the handle read and not cleared (Python). -/
  | taken (o : ι) (h : Nat)
  /-- In tmpl_destroy or stream_destroy. -/
  | freeing (o : ι) (h : Nat)
  /-- In close, with the value gone and the handle not cleared (Go). -/
  | freed (o : ι)

namespace Pc
variable {ι : Type}

/-- The object whose method it is. -/
def object : Pc ι → Option ι
  | .idle => none
  | .checked o | .inside o _ | .closing o | .taken o _ | .freeing o _ | .freed o => some o

/-- The object that is being closed. -/
def closes : Pc ι → Option ι
  | .closing o | .taken o _ | .freeing o _ | .freed o => some o
  | _ => none

/-- The address that a native function is at work on. -/
def held : Pc ι → Option (ι × Nat)
  | .inside o h | .freeing o h => some (o, h)
  | _ => none

theorem object_of_closes {pc : Pc ι} {o : ι} (h : pc.closes = some o) : pc.object = some o := by
  cases pc <;> first | exact h | cases h

theorem object_of_held {pc : Pc ι} {o : ι} {a : Nat} (h : pc.held = some (o, a)) :
    pc.object = some o := by
  cases pc <;> first | cases h; rfl | cases h

end Pc

structure State (ι τ : Type) where
  /-- The field h of an object, zero where it is closed or not made yet. -/
  handle : ι → Nat
  /-- What the library made for the object. -/
  made : ι → Option Native
  /-- The object for which the value at an address was made. -/
  heap : Nat → Option ι
  pc : τ → Pc ι

inductive Action (ι τ : Type) where
  /-- FromJSON: tmpl_from_json has returned an address. -/
  | fromJson (u : τ) (o : ι) (addr : Nat) (T : Template)
  | check (u : τ) (o : ι)
  | call (u : τ)
  /-- Next and TryNext go round their loop. -/
  | again (u : τ)
  | ret (u : τ)
  /-- NewStream: stream_new has returned an address. -/
  | newStream (u : τ) (p : ι) (addr : Nat)
  | close (u : τ) (o : ι)
  | destroy (u : τ)
  | free (u : τ)
  | clear (u : τ)

variable {ι τ : Type}

def initial : State ι τ where
  handle := fun _ => 0
  made := fun _ => none
  heap := fun _ => none
  pc := fun _ => .idle

namespace State
variable (s : State ι τ)

/-- What a native function finds at an address. -/
def valueAt (h : Nat) : Option Native := (s.heap h).bind s.made

section Thread
variable [DecidableEq τ] (u : τ) (pc : Pc ι)

def setPc : State ι τ := { s with pc := Function.update s.pc u pc }

@[simp] theorem setPc_handle : (s.setPc u pc).handle = s.handle := rfl

@[simp] theorem setPc_made : (s.setPc u pc).made = s.made := rfl

@[simp] theorem setPc_heap : (s.setPc u pc).heap = s.heap := rfl

@[simp] theorem setPc_self : (s.setPc u pc).pc u = pc := Function.update_self ..

theorem setPc_ne {v : τ} (h : v ≠ u) : (s.setPc u pc).pc v = s.pc v := Function.update_of_ne h ..

end Thread

section Object
variable [DecidableEq ι] (o : ι) (addr : Nat) (n : Native)

/-- A new object around a new value. -/
def build : State ι τ :=
  { s with
    handle := Function.update s.handle o addr
    made := Function.update s.made o (some n)
    heap := Function.update s.heap addr (some o) }

@[simp] theorem build_handle : (s.build o addr n).handle o = addr := Function.update_self ..

@[simp] theorem build_made : (s.build o addr n).made o = some n := Function.update_self ..

@[simp] theorem build_heap : (s.build o addr n).heap addr = some o := Function.update_self ..

end Object

/-- The address can be given out and the object does not exist yet. -/
def fresh (o : ι) (addr : Nat) : Bool := addr ≠ 0 && (s.heap addr).isNone && (s.made o).isNone

end State

def step [DecidableEq ι] [DecidableEq τ] (b : Binding) (s : State ι τ) :
    Action ι τ → Option (State ι τ)
  | .fromJson u o addr T =>
    match s.pc u with
    | .idle => if s.fresh o addr then some (s.build o addr (.template T)) else none
    | _ => none
  | .check u o =>
    match s.pc u with
    | .idle => if s.handle o = 0 then some s else some (s.setPc u (.checked o))
    | _ => none
  | .call u =>
    match s.pc u with
    | .checked o => some (s.setPc u (.inside o (s.handle o)))
    | _ => none
  | .again u =>
    match s.pc u with
    | .inside o _ => some (s.setPc u (.checked o))
    | _ => none
  | .ret u =>
    match s.pc u with
    | .inside _ _ => some (s.setPc u .idle)
    | _ => none
  | .newStream u p addr =>
    match s.pc u with
    | .inside _ h =>
      match s.valueAt h with
      | some (.template T) =>
        if s.fresh p addr then some ((s.build p addr (.stream T)).setPc u .idle) else none
      | _ => none
    | _ => none
  | .close u o =>
    match s.pc u, b with
    | .idle, .go => if s.handle o = 0 then some s else some (s.setPc u (.closing o))
    | .idle, .python =>
      -- an object that was never made is not there to be closed
      if (s.made o).isSome then some (s.setPc u (.taken o (s.handle o))) else none
    | _, _ => none
  | .destroy u =>
    match s.pc u with
    | .closing o => some (s.setPc u (.freeing o (s.handle o)))
    | _ => none
  | .free u =>
    match s.pc u with
    | .freeing o h =>
      -- Box::from_raw; the address is free for the next allocation
      let s := { s with heap := Function.update s.heap h none }
      some (s.setPc u (match b with | .go => .freed o | .python => .idle))
    | _ => none
  | .clear u =>
    match s.pc u with
    | .freed o => some ({ s with handle := Function.update s.handle o 0 }.setPc u .idle)
    | .taken o h =>
      some ({ s with handle := Function.update s.handle o 0 }.setPc u
        (if h = 0 then .idle else .freeing o h))
    | _ => none

/-- Close is called where no method of the object is in progress, and no method of it is called
before Close has returned. -/
def Exclusive (s : State ι τ) : Action ι τ → Prop
  | .check _ o => ∀ v, (s.pc v).closes ≠ some o
  | .close _ o => ∀ v, (s.pc v).object ≠ some o
  | _ => True

end Temari.Handles
