import Temari.Rounds
import Mathlib.Algebra.GroupWithZero.Nat
import Mathlib.Logic.Function.Basic

/-! The worker pool: callers publish one job at a time into the shared slot, workers
claim its pairs from an atomic counter, and the caller waits for the completion flag.
Mutexes, condition variables and atomics take one step each; a notify wakes the
threads that are parked when it happens. -/
namespace Temari.Pool
open RoundMachine Rounds

/-- How a call enters: through par_decrypt_into, or into run directly. -/
inductive Entry where
  | parDecryptInto | run
  deriving DecidableEq

/-- The offsets the callers compute: each sample starts where the previous one ends. -/
def offsOf (samples : List Bytes) : List Nat :=
  (samples.foldl (fun (acc : List Nat × Nat) s => (acc.1 ++ [acc.2], acc.2 + s.length)) ([], 0)).1

/-- The arguments of one call. The output buffer is sized to the samples. -/
structure Call where
  entry : Entry
  tmpl : Template
  samples : List Bytes
  out : Bytes
  sized : out.length = (samples.map List.length).sum

namespace Call

def n (c : Call) : Nat := c.samples.length
def pairs (c : Call) : Nat := (c.n + 1) / 2
def offs (c : Call) : List Nat := offsOf c.samples

end Call

/-- Two samples too short for a block, handed to run. -/
def twoBytes : Call where
  entry := .run
  tmpl := eightTemplate
  samples := [[7], [9]]
  out := [0, 0]
  sized := rfl

/-- The shared counters of a job; its pointers are the arguments of its call. -/
structure Job where
  next : Nat
  pending : Nat
  finished : Bool

def freshJob (c : Call) : Job := { next := 0, pending := c.pairs, finished := false }

/-- The write of one sample's region. -/
structure Write where
  index : Nat
  lo : Nat
  bytes : Bytes

/-- What a worker did for one pair. -/
structure Done (W : Nat) where
  worker : Fin W
  pair : Nat
  writes : List Write

inductive CallerPc where
  | idle | wantRunLock | locked | gotEpoch (e : Nat) | holdJobMutex (e : Nat) | published | wantDone
  | holdDone | aboutPark | parked | woken | leaving | unlocking | returned | bypassed | panicked
  deriving DecidableEq

inductive WorkerPc (ι : Type) where
  | lockJob | holdJob | checkShutdown | aboutPark | parked | claim (j : ι) | claimed
      (j : ι) (p : Nat)
  | loaded (j : ι) (p : Nat) | decrypted (j : ι) (p : Nat) | mustStore (j : ι) | mustNotify (j : ι)
  | exited | panicked (j : ι) (p : Nat)
  deriving DecidableEq

/-- The thread has ended, so a join on it returns. -/
def WorkerPc.ended {ι : Type} : WorkerPc ι → Bool
  | .exited | .panicked _ _ => true
  | _ => false

structure Worker (ι : Type) where
  myEpoch : Nat
  pc : WorkerPc ι

inductive Holder (ι : Type) (W : Nat) where
  | caller (c : ι) | worker (w : Fin W)

inductive DropPc where
  | idle | stored | notified | joined
  deriving DecidableEq

structure State (ι : Type) (W : Nat) where
  runLock : Option ι
  job : Option (ι × Nat)
  jobMutex : Option (Holder ι W)
  doneMutex : Option ι
  epoch : Nat
  shutdown : Bool
  jobs : ι → Job
  out : ι → Bytes
  /-- What the workers did for each call, in order. -/
  log : ι → List (Done W)
  caller : ι → CallerPc
  worker : Fin W → Worker ι
  /-- The shared borrows of the pool: calls that have started and not returned. -/
  borrows : Nat
  dropper : DropPc

/-- Whose turn it is; the last two are spurious wakeups. -/
inductive Action (ι : Type) (W : Nat) where
  | caller (c : ι) | worker (w : Fin W) | drop | wakeCaller (c : ι) | wakeWorker (w : Fin W)

def applyWrites (out : Bytes) (ws : List Write) : Bytes :=
  ws.foldl (fun o w => splice o w.lo w.bytes) out

variable {ι : Type} [DecidableEq ι] {W : Nat}

def initial (calls : ι → Call) : State ι W where
  runLock := none
  job := none
  jobMutex := none
  doneMutex := none
  epoch := 0
  shutdown := false
  jobs := fun c => freshJob (calls c)
  out := fun c => (calls c).out
  log := fun _ => []
  caller := fun _ => .idle
  worker := fun _ => { myEpoch := 0, pc := .lockJob }
  borrows := 0
  dropper := .idle

namespace State

def setCaller (s : State ι W) (c : ι) (pc : CallerPc) : State ι W :=
  { s with caller := Function.update s.caller c pc }

def setPc (s : State ι W) (w : Fin W) (pc : WorkerPc ι) : State ι W :=
  { s with worker := Function.update s.worker w { s.worker w with pc := pc } }

def setJob (s : State ι W) (j : ι) (job : Job) : State ι W :=
  { s with jobs := Function.update s.jobs j job }

/-- Region writes into the output of call j. -/
def write (s : State ι W) (j : ι) (ws : List Write) : State ι W :=
  { s with out := Function.update s.out j (applyWrites (s.out j) ws) }

def record (s : State ι W) (j : ι) (d : Done W) : State ι W :=
  { s with log := Function.update s.log j (s.log j ++ [d]) }

/-- `cv_job.notify_all()`. -/
def notifyJob (s : State ι W) : State ι W :=
  { s with
    worker := fun w =>
      if (s.worker w).pc = .parked then { s.worker w with pc := .lockJob } else s.worker w }

/-- `cv_done.notify_all()`. -/
def notifyDone (s : State ι W) : State ι W :=
  { s with caller := fun c => if s.caller c = .parked then .woken else s.caller c }

variable (s : State ι W) {c d : ι} {v w : Fin W}

theorem setCaller_self (pc : CallerPc) : (s.setCaller c pc).caller c = pc := Function.update_self ..

theorem setCaller_ne (pc : CallerPc) (h : d ≠ c) : (s.setCaller c pc).caller d = s.caller d :=
  Function.update_of_ne h _ _

theorem setJob_self (j : ι) (job : Job) : (s.setJob j job).jobs j = job := Function.update_self ..

theorem setJob_ne {i j : ι} (job : Job) (h : i ≠ j) : (s.setJob j job).jobs i = s.jobs i :=
  Function.update_of_ne h _ _

omit [DecidableEq ι] in
theorem setPc_self (pc : WorkerPc ι) : ((s.setPc w pc).worker w).pc = pc :=
  congrArg Worker.pc (Function.update_self w _ s.worker)

omit [DecidableEq ι] in
theorem setPc_ne (pc : WorkerPc ι) (h : v ≠ w) : (s.setPc w pc).worker v = s.worker v :=
  Function.update_of_ne h _ _

/-- A parked worker is woken, the others stay where they are. -/
theorem notifyJob_pc (v : Fin W) :
    (s.worker v).pc = .parked ∧ (s.notifyJob.worker v).pc = .lockJob ∨
      (s.worker v).pc ≠ .parked ∧ (s.notifyJob.worker v).pc = (s.worker v).pc := by
  simp only [notifyJob]
  split
  next hpark => exact Or.inl ⟨hpark, rfl⟩
  next hpark => exact Or.inr ⟨hpark, rfl⟩

omit [DecidableEq ι] in
theorem notifyDone_caller (c : ι) :
    s.caller c = .parked ∧ s.notifyDone.caller c = .woken ∨
      s.caller c ≠ .parked ∧ s.notifyDone.caller c = s.caller c := by
  simp only [notifyDone]
  split
  next hpark => exact Or.inl ⟨hpark, rfl⟩
  next hpark => exact Or.inr ⟨hpark, rfl⟩

end State

/-- The region of sample i in the output so far, and what the decryption makes of it. -/
def sampleAt (c : Call) (out : Bytes) (i : Nat) : Option (Bytes × Nat × Bytes) := do
  let sample ← c.samples[i]?
  let off ← c.offs[i]?
  let region ← slice out off (off + sample.length)
  return (sample, off, region)

/-- The decryption of pair p: two samples in two lanes, or the odd last one alone. -/
def decryptPair (c : Call) (out : Bytes) (p : Nat) : Option (List Write) := do
  let i1 := p * 2
  let (sample1, off1, out1) ← sampleAt c out i1
  let i2 := i1 + 1
  if i2 < c.n then
    let (sample2, off2, out2) ← sampleAt c out i2
    let (r1, r2) ← decryptRegionPairInto c.tmpl sample1 sample2 out1 out2
    return [⟨i1, off1, r1⟩, ⟨i2, off2, r2⟩]
  else
    let r1 ← decryptRegionInto c.tmpl sample1 out1
    return [⟨i1, off1, r1⟩]

/-- The next step of call c, in par_decrypt_into and run. -/
def callerStep (calls : ι → Call) (s : State ι W) (c : ι) : Option (State ι W) :=
  match s.caller c with
  | .idle =>
    if s.dropper ≠ .idle then none
    else if (calls c).n = 0 then some (s.setCaller c .bypassed)
    else if (calls c).n = 1 ∧ (calls c).entry = .parDecryptInto then
      -- one sample alone is decrypted here, without the pool
      match decryptPair (calls c) (s.out c) 0 with
      | some ws => some ((s.write c ws).setCaller c .bypassed)
      | none => some (s.setCaller c .panicked)
    else some ({ s with borrows := s.borrows + 1 }.setCaller c .wantRunLock)
  | .wantRunLock =>
    if s.runLock = none then some ({ s with runLock := some c }.setCaller c .locked) else none
  | .locked =>
    some (({ s with epoch := s.epoch + 1 }.setJob c (freshJob (calls c))).setCaller c
      (.gotEpoch (s.epoch + 1)))
  | .gotEpoch e =>
    match s.jobMutex with
    | none => some ({ s with jobMutex := some (.caller c) }.setCaller c (.holdJobMutex e))
    | some _ => none
  | .holdJobMutex e => some ({ s with job := some (c, e), jobMutex := none }.setCaller c .published)
  | .published => some (s.notifyJob.setCaller c .wantDone)
  | .wantDone | .woken =>
    if s.doneMutex = none then some ({ s with doneMutex := some c }.setCaller c .holdDone) else none
  | .holdDone =>
    if (s.jobs c).finished then some (s.setCaller c .leaving) else some (s.setCaller c .aboutPark)
  | .aboutPark => some ({ s with doneMutex := none }.setCaller c .parked)
  | .leaving => some ({ s with doneMutex := none }.setCaller c .unlocking)
  | .unlocking =>
    some ({ s with runLock := none, borrows := s.borrows - 1 }.setCaller c .returned)
  | .parked | .returned | .bypassed | .panicked => none

/-- The next step of worker w, in worker_loop. -/
def workerStep (calls : ι → Call) (s : State ι W) (w : Fin W) : Option (State ι W) :=
  match (s.worker w).pc with
  | .lockJob =>
    match s.jobMutex with
    | none => some ({ s with jobMutex := some (.worker w) }.setPc w .holdJob)
    | some _ => none
  | .holdJob =>
    match s.job with
    | some (j, e) =>
      if e ≠ (s.worker w).myEpoch then
        some { s with
          jobMutex := none
          worker := Function.update s.worker w
            { myEpoch := (s.worker w).myEpoch + 1, pc := .claim j } }
      else some (s.setPc w .checkShutdown)
    | none => some (s.setPc w .checkShutdown)
  | .checkShutdown =>
    if s.shutdown then some ({ s with jobMutex := none }.setPc w .exited)
    else some (s.setPc w .aboutPark)
  | .aboutPark => some ({ s with jobMutex := none }.setPc w .parked)
  | .claim j =>
    let p := (s.jobs j).next
    let s := s.setJob j { s.jobs j with next := p + 1 }
    if p ≥ (calls j).pairs then some (s.setPc w .lockJob) else some (s.setPc w (.claimed j p))
  -- the pointers, lengths, offsets and the template are read, the slices are formed
  | .claimed j p => some (s.setPc w (.loaded j p))
  | .loaded j p =>
    match decryptPair (calls j) (s.out j) p with
    | some ws => some (((s.write j ws).record j ⟨w, p, ws⟩).setPc w (.decrypted j p))
    | none => some (s.setPc w (.panicked j p))
  | .decrypted j _ =>
    let pending := (s.jobs j).pending
    let s := s.setJob j { s.jobs j with pending := pending - 1 }
    if pending = 1 then some (s.setPc w (.mustStore j)) else some (s.setPc w (.claim j))
  | .mustStore j => some ((s.setJob j { s.jobs j with finished := true }).setPc w (.mustNotify j))
  | .mustNotify j => some (s.notifyDone.setPc w (.claim j))
  | .parked | .exited | .panicked _ _ => none

/-- Pool::drop. It borrows the pool exclusively, so no call is inside. -/
def dropStep (s : State ι W) : Option (State ι W) :=
  match s.dropper with
  | .idle =>
    if s.borrows = 0 then some { s with shutdown := true, dropper := .stored } else none
  | .stored => some { s.notifyJob with dropper := .notified }
  | .notified =>
    if ∀ w, (s.worker w).pc.ended then
      some { s with dropper := .joined }
    else none
  | .joined => none

def step (calls : ι → Call) (s : State ι W) : Action ι W → Option (State ι W)
  | .caller c => callerStep calls s c
  | .worker w => workerStep calls s w
  | .drop => dropStep s
  | .wakeCaller c => if s.caller c = .parked then some (s.setCaller c .woken) else none
  | .wakeWorker w => if (s.worker w).pc = .parked then some (s.setPc w .lockJob) else none

/-- What decrypt_par returns: the output cut at the offsets. -/
def collect (samples : List Bytes) (out : Bytes) : Option (List Bytes) :=
  let offs := offsOf samples ++ [(samples.map List.length).sum]
  (List.range samples.length).mapM fun i => do slice out (← offs[i]?) (← offs[i + 1]?)

end Temari.Pool
