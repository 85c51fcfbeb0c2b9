import Xv6.Shared.Runs

set_option autoImplicit false

namespace Xv6.Sleeplocks

inductive ProcState where
  | sleeping
  | runnable
  | running
  deriving DecidableEq

/-- The next section of sleep(lk, &lk->lk): each ends with an operation on one of the two spinlocks. -/
inductive SleepPoint where
  | acquirePtable
  | release
  | fall
  | asleep
  | tidy
  | relock
  deriving DecidableEq

inductive AcquirePoint where
  | acquire
  | test
  | sleep (point : SleepPoint)
  | take
  | release
  deriving DecidableEq

inductive WakeupPoint where
  | acquirePtable
  | wakeup1
  | releasePtable
  deriving DecidableEq

inductive ReleasePoint where
  | acquire
  | clear
  | wakeup (point : WakeupPoint)
  | release
  deriving DecidableEq

inductive KillPoint where
  | acquirePtable
  | mark
  | releasePtable
  deriving DecidableEq

inductive Pc (P L : Type) where
  | idle
  | acquiresleep (lk : L) (point : AcquirePoint)
  | releasesleep (lk : L) (point : ReleasePoint)
  -- The process that the loop over the table finds, if the pid is there.
  | kill (target : Option P) (point : KillPoint)
  deriving DecidableEq

inductive YieldPoint where
  | fall
  | out
  | releasePtable
  deriving DecidableEq

structure Proc (P L : Type) where
  state : ProcState
  -- none: 0
  chan : Option L
  killed : Bool
  pid : Int
  pc : Pc P L
  yielding : Option YieldPoint
  held : L → Bool

structure Sleeplock (P : Type) where
  -- The holder of the spinlock lk->lk.
  lk : Option P
  locked : Bool
  pid : Int

/-- The holder of ptable.lock; sched hands it over to the scheduler, and the scheduler to the next process. -/
inductive Owner (P : Type) where
  | proc (p : P)
  | scheduler
  deriving DecidableEq

structure State (P L : Type) where
  locks : L → Sleeplock P
  ptable : Option (Owner P)
  procs : P → Proc P L

inductive Effect (P L : Type) where
  | stay
  | acquire (lk : L)
  | release (lk : L)
  | take (lk : L)
  | finish (lk : L)
  | clear (lk : L)
  | acquirePtable
  | releasePtable
  | fall (lk : L)
  | tidy
  | wakeup1 (lk : L)
  | mark (target : Option P)

section Code

variable {P L : Type}

def sleepCode (lk : L) : SleepPoint → Option (Effect P L × Pc P L)
  | .acquirePtable => some (.acquirePtable, .acquiresleep lk (.sleep .release))
  | .release => some (.release lk, .acquiresleep lk (.sleep .fall))
  | .fall => some (.fall lk, .acquiresleep lk (.sleep .asleep))
  -- Not before the scheduler runs the process again.
  | .asleep => none
  | .tidy => some (.tidy, .acquiresleep lk (.sleep .relock))
  | .relock => some (.acquire lk, .acquiresleep lk .test)

def acquiresleepCode (locked : Bool) (lk : L) : AcquirePoint → Option (Effect P L × Pc P L)
  | .acquire => some (.acquire lk, .acquiresleep lk .test)
  | .test => some (.stay, .acquiresleep lk (if locked then .sleep .acquirePtable else .take))
  | .sleep point => sleepCode lk point
  | .take => some (.take lk, .acquiresleep lk .release)
  | .release => some (.finish lk, .idle)

def releasesleepCode (lk : L) : ReleasePoint → Effect P L × Pc P L
  | .acquire => (.acquire lk, .releasesleep lk .clear)
  | .clear => (.clear lk, .releasesleep lk (.wakeup .acquirePtable))
  | .wakeup .acquirePtable => (.acquirePtable, .releasesleep lk (.wakeup .wakeup1))
  | .wakeup .wakeup1 => (.wakeup1 lk, .releasesleep lk (.wakeup .releasePtable))
  | .wakeup .releasePtable => (.releasePtable, .releasesleep lk .release)
  | .release => (.release lk, .idle)

def killCode (target : Option P) : KillPoint → Effect P L × Pc P L
  | .acquirePtable => (.acquirePtable, .kill target .mark)
  | .mark => (.mark target, .kill target .releasePtable)
  | .releasePtable => (.releasePtable, .idle)

def code (locks : L → Sleeplock P) : Pc P L → Option (Effect P L × Pc P L)
  | .idle => none
  | .acquiresleep lk point => acquiresleepCode (locks lk).locked lk point
  | .releasesleep lk point => some (releasesleepCode lk point)
  | .kill target point => some (killCode target point)

end Code

variable {P L : Type} [DecidableEq P] [DecidableEq L]

def State.setProc (s : State P L) (p : P) (proc : Proc P L) : State P L :=
  { s with procs := Function.update s.procs p proc }

def State.setLock (s : State P L) (lk : L) (lock : Sleeplock P) : State P L :=
  { s with locks := Function.update s.locks lk lock }

def State.setSpin (s : State P L) (lk : L) (holder : Option P) : State P L :=
  s.setLock lk { s.locks lk with lk := holder }

def State.setTable (s : State P L) (holder : Option (Owner P)) : State P L := { s with ptable := holder }

def State.goto (s : State P L) (p : P) (pc : Pc P L) : State P L := s.setProc p { s.procs p with pc }

def Proc.wake (proc : Proc P L) : Proc P L :=
  { proc with state := if proc.state = .sleeping then .runnable else proc.state }

def wakeup1 (chan : L) (procs : P → Proc P L) : P → Proc P L := fun q =>
  if (procs q).state = .sleeping ∧ (procs q).chan = some chan then { procs q with state := .runnable } else procs q

-- An acquire of a lock that is taken does not go on.
def perform (p : P) (s : State P L) : Effect P L → Option (State P L)
  | .stay => some s
  | .acquire lk => if (s.locks lk).lk = none then some (s.setSpin lk (some p)) else none
  | .release lk => some (s.setSpin lk none)
  | .take lk => some (s.setLock lk { s.locks lk with locked := true, pid := (s.procs p).pid })
  | .finish lk => some ((s.setSpin lk none).setProc p
      { s.procs p with held := Function.update (s.procs p).held lk true })
  | .clear lk => some (s.setLock lk { s.locks lk with locked := false, pid := 0 })
  | .acquirePtable => if s.ptable = none then some (s.setTable (some (.proc p))) else none
  | .releasePtable => some (s.setTable none)
  | .fall lk => some
      ((s.setProc p { s.procs p with chan := some lk, state := .sleeping }).setTable (some .scheduler))
  | .tidy => some ((s.setProc p { s.procs p with chan := none }).setTable none)
  | .wakeup1 lk => some { s with procs := wakeup1 lk s.procs }
  | .mark none => some s
  | .mark (some q) => some (s.setProc q { (s.procs q).wake with killed := true })

def statement (p : P) (s : State P L) : Option (State P L) := do
  let (effect, pc) ← code s.locks (s.procs p).pc
  let s' ← perform p s effect
  some (s'.goto p pc)

inductive Call (P L : Type) where
  | acquiresleep (lk : L)
  | releasesleep (lk : L)
  | kill (target : Option P)

-- Only the process that has acquired a sleep-lock releases it.
def call (p : P) (s : State P L) : Call P L → Option (State P L)
  | .acquiresleep lk => some (s.goto p (.acquiresleep lk .acquire))
  | .releasesleep lk =>
    if (s.procs p).held lk then
      some (s.setProc p { s.procs p with
        pc := .releasesleep lk .acquire
        held := Function.update (s.procs p).held lk false })
    else none
  | .kill target => some (s.goto p (.kill target .acquirePtable))

def Pc.inLock : Pc P L → Option L
  | .acquiresleep lk .test | .acquiresleep lk (.sleep .acquirePtable) | .acquiresleep lk (.sleep .release)
  | .acquiresleep lk .take | .acquiresleep lk .release | .releasesleep lk .clear | .releasesleep lk (.wakeup _)
  | .releasesleep lk .release => some lk
  | _ => none

def Pc.inTable : Pc P L → Bool
  | .acquiresleep _ (.sleep .release) | .acquiresleep _ (.sleep .fall) | .acquiresleep _ (.sleep .tidy)
  | .releasesleep _ (.wakeup .wakeup1) | .releasesleep _ (.wakeup .releasePtable) | .kill _ .mark
  | .kill _ .releasePtable => true
  | _ => false

-- acquire has switched the interrupts off as long as a spinlock is held.
def Pc.interruptible (pc : Pc P L) : Bool := pc.inLock.isNone && !pc.inTable

def yieldStep (p : P) (s : State P L) : Option (State P L) :=
  match (s.procs p).yielding with
  | none =>
    if (s.procs p).state = .running ∧ (s.procs p).pc.interruptible ∧ s.ptable = none then
      some ((s.setProc p { s.procs p with yielding := some .fall }).setTable (some (.proc p)))
    else none
  | some .fall => some
      ((s.setProc p { s.procs p with state := .runnable, yielding := some .out }).setTable (some .scheduler))
  | some .out => none
  | some .releasePtable => some ((s.setProc p { s.procs p with yielding := none }).setTable none)

-- The scheduler holds ptable.lock and hands it to the process, which goes on behind its sched.
def dispatch (p : P) (s : State P L) : Option (State P L) :=
  if s.ptable = some .scheduler ∧ (s.procs p).state = .runnable then
    match (s.procs p).yielding, (s.procs p).pc with
    | some .out, _ => some ((s.setProc p
        { s.procs p with state := .running, yielding := some .releasePtable }).setTable (some (.proc p)))
    | none, .acquiresleep lk (.sleep .asleep) => some ((s.setProc p
        { s.procs p with state := .running, pc := .acquiresleep lk (.sleep .tidy) }).setTable (some (.proc p)))
    | _, _ => none
  else none

inductive Action (P L : Type) where
  | call (p : P) (call : Call P L)
  | statement (p : P)
  | yieldStep (p : P)
  | dispatch (p : P)
  | schedulerAcquire
  | schedulerRelease

def Proc.onCpu (proc : Proc P L) : Bool := decide (proc.state = .running) && proc.yielding.isNone

def step : Action P L → State P L → Option (State P L)
  | .call p c, s => if (s.procs p).onCpu ∧ (s.procs p).pc = .idle then call p s c else none
  | .statement p, s => if (s.procs p).onCpu then statement p s else none
  | .yieldStep p, s => yieldStep p s
  | .dispatch p, s => dispatch p s
  | .schedulerAcquire, s => if s.ptable = none then some (s.setTable (some .scheduler)) else none
  | .schedulerRelease, s => if s.ptable = some .scheduler then some (s.setTable none) else none

structure Initialised (s : State P L) : Prop where
  locks : ∀ lk, s.locks lk = { lk := none, locked := false, pid := 0 }
  ptable : s.ptable = none
  idle : ∀ p, (s.procs p).pc = .idle ∧ (s.procs p).chan = none ∧ (s.procs p).held = fun _ => false
  ready : ∀ p, (s.procs p).state = .running ∧ (s.procs p).yielding = none ∨
    (s.procs p).state = .runnable ∧ (s.procs p).yielding = some .out

end Xv6.Sleeplocks
