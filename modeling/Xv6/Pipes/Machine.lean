import Xv6.Shared.RingBuffer
import Xv6.Shared.Runs

set_option autoImplicit false

namespace Xv6.Pipes

def pipeSize : Nat := 512

abbrev Byte := BitVec 8

structure Pipe where
  data : Nat → Byte
  nread : BitVec 32
  nwrite : BitVec 32
  readopen : Bool
  writeopen : Bool

def Pipe.ring (pipe : Pipe) : RingBuffer 32 pipeSize Byte := ⟨pipe.nread, pipe.nwrite, pipe.data⟩

def Pipe.full (pipe : Pipe) : Bool := pipe.nwrite == pipe.nread + 512

def Pipe.empty (pipe : Pipe) : Bool := pipe.nread == pipe.nwrite

-- p->data[p->nwrite++ % PIPESIZE] = byte
def Pipe.store (pipe : Pipe) (byte : Byte) : Pipe :=
  { pipe with
    data := Function.update pipe.data (pipe.nwrite.toNat % pipeSize) byte
    nwrite := pipe.nwrite + 1 }

-- p->data[p->nread++ % PIPESIZE]
def Pipe.next (pipe : Pipe) : Byte := pipe.data (pipe.nread.toNat % pipeSize)

def Pipe.take (pipe : Pipe) : Pipe := { pipe with nread := pipe.nread + 1 }

def Pipe.close (pipe : Pipe) (writable : Bool) : Pipe :=
  if writable then { pipe with writeopen := false } else { pipe with readopen := false }

inductive Chan where
  | nread
  | nwrite
  deriving DecidableEq

inductive ProcState where
  | sleeping
  | runnable
  | running
  deriving DecidableEq

inductive SleepPoint where
  | acquirePtable
  | release
  | fall
  | asleep
  | relock
  deriving DecidableEq

inductive WritePoint where
  | acquire
  | loop
  | full
  | wakeup
  | sleep (point : SleepPoint)
  | wakeupLast
  | unlock (ret : Int)
  deriving DecidableEq

inductive ReadPoint where
  | acquire
  | empty
  | killed
  | sleep (point : SleepPoint)
  | copy
  | wakeupLast
  | unlock (ret : Int)
  deriving DecidableEq

inductive ClosePoint where
  | acquire
  | close
  | wakeup
  | test
  | unlock (last : Bool)
  | free
  deriving DecidableEq

inductive Pc where
  | idle
  | pipewrite (n : Int) (addr : Nat → Byte) (i : Nat) (point : WritePoint)
  | piperead (n : Int) (addr : List Byte) (point : ReadPoint)
  | pipeclose (writable : Bool) (point : ClosePoint)

structure Proc where
  state : ProcState
  -- none: 0 or an address outside the pipe
  chan : Option Chan
  killed : Bool
  pc : Pc
  /-- The number of pipe calls begun. -/
  calls : Nat

structure Entry (P : Type) where
  proc : P
  call : Nat
  byte : Byte
  deriving DecidableEq

structure State (P : Type) where
  pipe : Pipe
  lock : Option P
  ptable : Option P
  freed : Bool
  procs : P → Proc
  stored : List (Entry P)
  handed : List (Entry P)

inductive Effect where
  | stay
  | acquire
  | release
  | store (byte : Byte)
  | take
  | close (writable : Bool)
  | wakeup (chan : Chan)
  | acquirePtable
  | fall (chan : Chan)
  | free

def sleepCode (chan : Chan) (point : SleepPoint) (stay : SleepPoint → Pc) (back : Pc) : Option (Effect × Pc) :=
  match point with
  | .acquirePtable => some (.acquirePtable, stay .release)
  | .release => some (.release, stay .fall)
  | .fall => some (.fall chan, stay .asleep)
  -- Not before the scheduler runs the process again.
  | .asleep => none
  | .relock => some (.acquire, back)

def writeCode (pipe : Pipe) (killed : Bool) (n : Int) (addr : Nat → Byte) (i : Nat) : WritePoint → Option (Effect × Pc)
  | .acquire => some (.acquire, .pipewrite n addr i .loop)
  | .loop =>
    if (i : Int) < n then
      if pipe.full then some (.stay, .pipewrite n addr i .full)
      else some (.store (addr i), .pipewrite n addr (i + 1) .loop)
    else some (.stay, .pipewrite n addr i .wakeupLast)
  | .full =>
    if pipe.readopen = false ∨ killed then some (.stay, .pipewrite n addr i (.unlock (-1)))
    else some (.stay, .pipewrite n addr i .wakeup)
  | .wakeup => some (.wakeup .nread, .pipewrite n addr i (.sleep .acquirePtable))
  -- Back from sleep the while test is made again; i < n has not changed.
  | .sleep point => sleepCode .nwrite point (fun point => .pipewrite n addr i (.sleep point)) (.pipewrite n addr i .loop)
  | .wakeupLast => some (.wakeup .nread, .pipewrite n addr i (.unlock n))
  | .unlock _ => some (.release, .idle)

def readCode (pipe : Pipe) (killed : Bool) (n : Int) (addr : List Byte) : ReadPoint → Option (Effect × Pc)
  | .acquire => some (.acquire, .piperead n addr .empty)
  | .empty =>
    if pipe.empty && pipe.writeopen then some (.stay, .piperead n addr .killed)
    else some (.stay, .piperead n addr .copy)
  | .killed =>
    if killed then some (.stay, .piperead n addr (.unlock (-1)))
    else some (.stay, .piperead n addr (.sleep .acquirePtable))
  | .sleep point => sleepCode .nread point (fun point => .piperead n addr (.sleep point)) (.piperead n addr .empty)
  | .copy =>
    -- The local i is the number of bytes in addr.
    if (addr.length : Int) < n ∧ pipe.empty = false then some (.take, .piperead n (addr ++ [pipe.next]) .copy)
    else some (.stay, .piperead n addr .wakeupLast)
  | .wakeupLast => some (.wakeup .nwrite, .piperead n addr (.unlock addr.length))
  | .unlock _ => some (.release, .idle)

def closeCode (pipe : Pipe) (writable : Bool) : ClosePoint → Option (Effect × Pc)
  | .acquire => some (.acquire, .pipeclose writable .close)
  | .close => some (.close writable, .pipeclose writable .wakeup)
  | .wakeup => some (.wakeup (if writable then .nread else .nwrite), .pipeclose writable .test)
  | .test => some (.stay, .pipeclose writable (.unlock (!pipe.readopen && !pipe.writeopen)))
  | .unlock last => some (.release, if last then .pipeclose writable .free else .idle)
  | .free => some (.free, .idle)

def code (pipe : Pipe) (proc : Proc) : Option (Effect × Pc) :=
  match proc.pc with
  | .idle => none
  | .pipewrite n addr i point => writeCode pipe proc.killed n addr i point
  | .piperead n addr point => readCode pipe proc.killed n addr point
  | .pipeclose writable point => closeCode pipe writable point

variable {P : Type} [DecidableEq P]

def wakeup1 (chan : Chan) (procs : P → Proc) : P → Proc := fun q =>
  if (procs q).state = .sleeping ∧ (procs q).chan = some chan then { procs q with state := .runnable } else procs q

-- An acquire of a taken lock does not go on; wakeup and kill hold ptable.lock from end to end.
def perform (p : P) (s : State P) : Effect → Option (State P)
  | .stay => some s
  | .acquire => if s.lock = none then some { s with lock := some p } else none
  | .release => some { s with lock := none }
  | .store byte => some
      { s with pipe := s.pipe.store byte, stored := s.stored ++ [⟨p, (s.procs p).calls, byte⟩] }
  | .take => some
      { s with pipe := s.pipe.take, handed := s.handed ++ [⟨p, (s.procs p).calls, s.pipe.next⟩] }
  | .close writable => some { s with pipe := s.pipe.close writable }
  | .wakeup chan => if s.ptable = none then some { s with procs := wakeup1 chan s.procs } else none
  | .acquirePtable => if s.ptable = none then some { s with ptable := some p } else none
  | .fall chan => some
      { s with
        ptable := none
        procs := Function.update s.procs p { s.procs p with chan := some chan, state := .sleeping } }
  | .free => some { s with freed := true }

def State.goto (s : State P) (p : P) (pc : Pc) : State P :=
  { s with procs := Function.update s.procs p { s.procs p with pc } }

def statement (p : P) (s : State P) : Option (State P) := do
  let (effect, pc) ← code s.pipe (s.procs p)
  let s' ← perform p s effect
  some (s'.goto p pc)

inductive Call where
  | pipewrite (n : Int) (addr : Nat → Byte)
  | piperead (n : Int)
  | pipeclose (writable : Bool)

def Call.entry : Call → Pc
  | .pipewrite n addr => .pipewrite n addr 0 .acquire
  | .piperead n => .piperead n [] .acquire
  | .pipeclose writable => .pipeclose writable .acquire

def Pc.resume : Pc → Pc
  | .pipewrite n addr i (.sleep .asleep) => .pipewrite n addr i (.sleep .relock)
  | .piperead n addr (.sleep .asleep) => .piperead n addr (.sleep .relock)
  | pc => pc

inductive Action (P : Type) where
  | call (p : P) (call : Call)
  | statement (p : P)
  | kill (p : P)
  | dispatch (p : P)
  | preempt (p : P)

def call (p : P) (call : Call) (s : State P) : Option (State P) :=
  match (s.procs p).pc with
  | .idle => some { s with
      procs := Function.update s.procs p { s.procs p with pc := call.entry, calls := (s.procs p).calls + 1 } }
  | _ => none

def kill (p : P) (s : State P) : Option (State P) :=
  if s.ptable = none then
    some { s with
      procs := Function.update s.procs p { s.procs p with
        killed := true
        state := if (s.procs p).state = .sleeping then .runnable else (s.procs p).state } }
  else none

-- The scheduler takes ptable.lock; sleep clears chan and releases it.
def dispatch (p : P) (s : State P) : Option (State P) :=
  if s.ptable = none ∧ (s.procs p).state = .runnable then
    some { s with
      procs := Function.update s.procs p { s.procs p with
        state := .running
        chan := none
        pc := (s.procs p).pc.resume } }
  else none

-- The timer interrupt; interrupts are off while a spinlock is held.
def preempt (p : P) (s : State P) : Option (State P) :=
  if s.ptable = none ∧ s.lock ≠ some p ∧ (s.procs p).state = .running then
    some { s with procs := Function.update s.procs p { s.procs p with state := .runnable } }
  else none

def step : Action P → State P → Option (State P)
  | .call p c, s => if s.freed = false ∧ (s.procs p).state = .running then call p c s else none
  | .statement p, s => if s.freed = false ∧ (s.procs p).state = .running then statement p s else none
  | .kill p, s => kill p s
  | .dispatch p, s => dispatch p s
  | .preempt p, s => preempt p s

structure Allocated (s : State P) : Prop where
  readopen : s.pipe.readopen = true
  writeopen : s.pipe.writeopen = true
  nwrite : s.pipe.nwrite = 0
  nread : s.pipe.nread = 0
  lock : s.lock = none
  ptable : s.ptable = none
  freed : s.freed = false
  idle : ∀ p, (s.procs p).pc = .idle ∧ (s.procs p).chan = none
  stored : s.stored = []
  handed : s.handed = []

def newPipe (P : Type) : State P where
  pipe := { data := fun _ => 0, nread := 0, nwrite := 0, readopen := true, writeopen := true }
  lock := none
  ptable := none
  freed := false
  procs := fun _ => { state := .running, chan := none, killed := false, pc := .idle, calls := 0 }
  stored := []
  handed := []

theorem newPipe_allocated (P : Type) : Allocated (newPipe P) :=
  ⟨rfl, rfl, rfl, rfl, rfl, rfl, rfl, fun _ => ⟨rfl, rfl⟩, rfl, rfl⟩

end Xv6.Pipes
