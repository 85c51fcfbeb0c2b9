import Xv6.Log.Commit
import Xv6.Shared.Runs

set_option autoImplicit false

namespace Xv6.GroupCommit

open Log

inductive Panic where
  | tooBig
  | outsideOfTrans
  | committing
  deriving DecidableEq

inductive SleepPoint where
  | acquirePtable
  | release
  | fall
  | asleep
  | relock
  deriving DecidableEq

inductive BeginPoint where
  | acquire
  | test
  | sleep (point : SleepPoint)
  | unlock
  deriving DecidableEq

inductive WritePoint where
  | size
  | outstanding
  | acquire
  | absorb
  | unlock
  deriving DecidableEq

/-- end_op; `writeLog` to `erase` are the statements of commit, which holds no lock. -/
inductive EndPoint where
  | acquire
  | test
  | wakeup
  | unlock (doCommit : Bool)
  | commit
  | writeLog (copied : List Nat)
  | writeHead (copied : List Nat)
  | install (tail : Nat)
  | clear
  | erase
  | reacquire
  | settle
  | wakeupAll
  | unlockLast
  deriving DecidableEq

/-- Where a process is: outside of operations, between begin_op and end_op, in a call, or stopped by panic. -/
inductive Pc where
  | outside
  | beginOp (point : BeginPoint)
  | inside
  | logWrite (blockno : Nat) (point : WritePoint)
  | endOp (point : EndPoint)
  | panicked (why : Panic)
  deriving DecidableEq

structure Proc where
  pc : Pc
  -- SLEEPING on &log
  sleeping : Bool
  /-- The blocks that the operation has given to log_write. -/
  asked : List Nat

inductive Event (P : Type) where
  | begin (p : P)
  | write (p : P) (blockno : Nat)
  | finish (p : P)
  /-- write_head of a transaction: the header's block list, and the blocks that write_log copied. -/
  | commit (lh copied : List Nat)

structure State (P : Type) where
  log : LogState
  lock : Option P
  ptable : Option P
  procs : P → Proc
  trace : List (Event P)

inductive Effect where
  | stay
  | acquire
  | release
  | acquirePtable
  | fall
  | resume
  | wakeup
  | enter
  | absorb (blockno : Nat)
  | leave
  | commit (copied : List Nat)
  | clear
  | settle

def sleepCode (point : SleepPoint) : Effect × Pc :=
  match point with
  | .acquirePtable => (.acquirePtable, .beginOp (.sleep .release))
  | .release => (.release, .beginOp (.sleep .fall))
  | .fall => (.fall, .beginOp (.sleep .asleep))
  | .asleep => (.resume, .beginOp (.sleep .relock))
  | .relock => (.acquire, .beginOp .test)

def beginCode (log : LogState) : BeginPoint → Effect × Pc
  | .acquire => (.acquire, .beginOp .test)
  | .test => if mustSleep log then (.stay, .beginOp (.sleep .acquirePtable)) else (.enter, .beginOp .unlock)
  | .sleep point => sleepCode point
  | .unlock => (.release, .inside)

-- The two tests of log_write are made before log.lock is taken.
def writeCode (log : LogState) (blockno : Nat) : WritePoint → Effect × Pc
  | .size =>
    if log.lh.length ≥ logSize ∨ log.lh.length ≥ log.size - 1 then (.stay, .panicked .tooBig)
    else (.stay, .logWrite blockno .outstanding)
  | .outstanding =>
    if log.outstanding < 1 then (.stay, .panicked .outsideOfTrans) else (.stay, .logWrite blockno .acquire)
  | .acquire => (.acquire, .logWrite blockno .absorb)
  | .absorb => (.absorb blockno, .logWrite blockno .unlock)
  | .unlock => (.release, .inside)

def endCode (log : LogState) : EndPoint → Effect × Pc
  | .acquire => (.acquire, .endOp .test)
  | .test =>
    if log.committing then (.leave, .panicked .committing)
    else if log.outstanding - 1 = 0 then (.leave, .endOp (.unlock true))
    else (.leave, .endOp .wakeup)
  | .wakeup => (.wakeup, .endOp (.unlock false))
  | .unlock doCommit => (.release, if doCommit then .endOp .commit else .outside)
  | .commit => if log.lh.length > 0 then (.stay, .endOp (.writeLog [])) else (.stay, .endOp .reacquire)
  | .writeLog copied =>
    match log.lh[copied.length]? with
    | some blockno => (.stay, .endOp (.writeLog (copied ++ [blockno])))
    | none => (.stay, .endOp (.writeHead copied))
  | .writeHead copied => (.commit copied, .endOp (.install 0))
  | .install tail =>
    if tail < log.lh.length then (.stay, .endOp (.install (tail + 1))) else (.stay, .endOp .clear)
  | .clear => (.clear, .endOp .erase)
  | .erase => (.stay, .endOp .reacquire)
  | .reacquire => (.acquire, .endOp .settle)
  | .settle => (.settle, .endOp .wakeupAll)
  | .wakeupAll => (.wakeup, .endOp .unlockLast)
  | .unlockLast => (.release, .outside)

def code (log : LogState) : Pc → Option (Effect × Pc)
  | .outside | .inside | .panicked _ => none
  | .beginOp point => some (beginCode log point)
  | .logWrite blockno point => some (writeCode log blockno point)
  | .endOp point => some (endCode log point)

variable {P : Type} [DecidableEq P]

-- An acquire of a taken lock does not go on; wakeup holds ptable.lock from end to end.
def perform (p : P) (s : State P) : Effect → Option (State P)
  | .stay => some s
  | .acquire => if s.lock = none then some { s with lock := some p } else none
  | .release => some { s with lock := none }
  | .acquirePtable => if s.ptable = none then some { s with ptable := some p } else none
  | .fall => some
      { s with ptable := none, procs := Function.update s.procs p { s.procs p with sleeping := true } }
  | .resume => if s.ptable = none ∧ (s.procs p).sleeping = false then some s else none
  | .wakeup =>
    if s.ptable = none then some { s with procs := fun q => { s.procs q with sleeping := false } } else none
  | .enter => some
      { s with log := { s.log with outstanding := s.log.outstanding + 1 }, trace := .begin p :: s.trace }
  -- block[LOGSIZE] lies outside of the header.
  | .absorb blockno =>
    if (absorb s.log.lh blockno).length ≤ logSize then
      some { s with log := { s.log with lh := absorb s.log.lh blockno }, trace := .write p blockno :: s.trace }
    else none
  | .leave => some
      { s with
        log := { s.log with
          outstanding := s.log.outstanding - 1
          committing := s.log.committing || decide (s.log.outstanding - 1 = 0) }
        trace := .finish p :: s.trace }
  | .commit copied => some { s with trace := .commit s.log.lh copied :: s.trace }
  | .clear => some { s with log := { s.log with lh := [] } }
  | .settle => some { s with log := { s.log with committing := false } }

def State.goto (s : State P) (p : P) (pc : Pc) : State P :=
  { s with procs := Function.update s.procs p { s.procs p with pc } }

def statement (p : P) (s : State P) : Option (State P) := do
  let (effect, pc) ← code s.log (s.procs p).pc
  let s' ← perform p s effect
  some (s'.goto p pc)

inductive Action (P : Type) where
  | beginOp (p : P)
  | logWrite (p : P) (blockno : Nat)
  | endOp (p : P)
  | statement (p : P)
  | kill (p : P)

def call (p : P) (s : State P) (proc : Proc) : State P := { s with procs := Function.update s.procs p proc }

/-- One step of the system: a process begins a call that its bracket allows, goes on in the call it is in,
or is marked killed, which ends its sleep. -/
def step : Action P → State P → Option (State P)
  | .beginOp p, s =>
    if (s.procs p).pc = .outside then
      some (call p s { s.procs p with pc := .beginOp .acquire, asked := [] })
    else none
  | .logWrite p blockno, s =>
    if (s.procs p).pc = .inside then
      some (call p s { s.procs p with pc := .logWrite blockno .size, asked := blockno :: (s.procs p).asked })
    else none
  | .endOp p, s =>
    if (s.procs p).pc = .inside then some (call p s { s.procs p with pc := .endOp .acquire }) else none
  | .statement p, s => statement p s
  | .kill p, s => if s.ptable = none then some (call p s { s.procs p with sleeping := false }) else none

structure Started (s : State P) : Prop where
  outstanding : s.log.outstanding = 0
  committing : s.log.committing = false
  lh : s.log.lh = []
  lock : s.lock = none
  ptable : s.ptable = none
  idle : ∀ p, (s.procs p).pc = .outside ∧ (s.procs p).sleeping = false
  trace : s.trace = []

def fresh (P : Type) (size : Nat) : State P where
  log := { start := 2, size, outstanding := 0, committing := false, lh := [] }
  lock := none
  ptable := none
  procs := fun _ => { pc := .outside, sleeping := false, asked := [] }
  trace := []

theorem fresh_started (P : Type) (size : Nat) : Started (fresh P size) :=
  ⟨rfl, rfl, rfl, rfl, rfl, fun _ => ⟨rfl, rfl⟩, rfl⟩

end Xv6.GroupCommit
