import Xv6.Processes.Table
import Xv6.Shared.Runs

set_option autoImplicit false

namespace Xv6.Processes

inductive Base (n : Nat) where
  -- forkret after its release of ptable.lock; the first process sets up the file system there
  | forkret
  | user
  | syscall
  | forkStack (np : Fin n)
  | forkCopy (np : Fin n)
  | forkRun (np : Fin n)
  | waitScan
  -- masked: called from trap, with interrupts off
  | exiting (masked : Bool)
  deriving DecidableEq

inductive TrapKind where
  | timer
  | ide
  | kbd
  | com1
  | spurious
  | divide
  | unexpected
  deriving DecidableEq

inductive TrapPoint where
  | check
  | deliver (signal : Nat)
  | killed
  | tick
  | last
  deriving DecidableEq

structure Trap where
  kind : TrapKind
  point : TrapPoint
  deriving DecidableEq

/-- Where a process called sched, or forkret for a new one. -/
inductive Switch where
  | yielding
  | sleeping
  | waiting
  | starting
  deriving DecidableEq

structure Thread (n : Nat) where
  base : Base n
  trap : Option Trap
  switch : Option Switch
  deriving DecidableEq

inductive Phase (n : Nat) where
  -- main on the boot cpu, before and in userinit
  | main
  | userinit (p : Fin n)
  | userinitRun (p : Fin n)
  -- scheduler: before acquire, in the loop, in its delivery of signals, after swtch back
  | idle
  | scan (i : Nat)
  | signals (p : Fin n) (signal : Nat)
  | handler (p : Fin n) (signal : Nat)
  | back
  | process
  deriving DecidableEq

structure Cpu (n : Nat) where
  proc : Option (Fin n)
  phase : Phase n

structure Control (n : Nat) (C : Type) where
  threads : Fin n → Thread n
  cpus : C → Cpu n
  lock : Option C

structure State (n : Nat) (C : Type) where
  table : Table n
  control : Control n C

variable {n : Nat} {C : Type} [DecidableEq C]

namespace Control

def thread (k : Control n C) (p : Fin n) (thread : Thread n) : Control n C :=
  { k with threads := Function.update k.threads p thread }

def base (k : Control n C) (p : Fin n) (base : Base n) : Control n C :=
  k.thread p ⟨base, none, none⟩

def cpu (k : Control n C) (c : C) (cpu : Cpu n) : Control n C :=
  { k with cpus := Function.update k.cpus c cpu }

def phase (k : Control n C) (c : C) (phase : Phase n) : Control n C :=
  k.cpu c ⟨(k.cpus c).proc, phase⟩

def acquire (k : Control n C) (c : C) : Control n C := { k with lock := some c }

def release (k : Control n C) : Control n C := { k with lock := none }

def sched (k : Control n C) (c : C) : Control n C := (k.acquire c).phase c .back

def swtch (k : Control n C) (c : C) (p : Fin n) : Control n C := k.cpu c ⟨some p, .process⟩

end Control

inductive WaitResult (n : Nat) where
  | reap (child : Fin n)
  | fail
  | sleep
  deriving DecidableEq

def waitScan (t : Table n) (p : Fin n) : WaitResult n :=
  match t.find fun proc => proc.parent = some p ∧ proc.state = .zombie with
  | some child => .reap child
  | none =>
    if (t.find fun proc => proc.parent = some p) = none ∨ (t.procs p).killed then .fail else .sleep

/-- The size after growproc, none where it returns -1; `memory` says whether kalloc succeeds. -/
def growproc (sz : Nat) (n : Int) (memory : Bool) : Option Nat :=
  let newsz := ((sz + n) % 2 ^ 32).toNat
  if n > 0 then
    if newsz ≥ kernBase then none
    else if newsz < sz then some sz
    else if memory then some newsz
    else none
  else if n < 0 then
    let result := if newsz ≥ sz then sz else newsz
    if result = 0 then none else some result
  else some sz

inductive ProcStep where
  | resume
  | trapret
  | syscall
  | sysret
  | fork
  | forkStack (addr : Nat)
  | forkCopy (copied : Bool)
  | forkRun
  | wait
  | waitScan
  | exit
  | exitLast
  | kill (pid : Int)
  | sleep (addr : Nat)
  | signal (signum : Int) (handler : Nat)
  | exec (sz : Nat)
  | sbrk (n : Int) (memory : Bool)
  | interrupt (kind : TrapKind) (chars : List Char)
  | divide
  | unexpected
  | trap

def Base.interruptible : Base n → Bool
  | .waitScan | .exiting true => false
  | _ => true

def Base.sleeps : Base n → Bool
  | .forkret | .syscall | .exiting _ => true
  | _ => false

/-- consoleintr for the characters that the device has. Case 'C' calls cprintf with cons.lock held, which panics
as long as cons.locking is set. -/
def consoleintr (t : Table n) (myproc : Option (Fin n)) (chars : List Char) : Option (Table n) :=
  if 'C' ∈ chars then
    if t.locking then none
    else
      match myproc with
      | some p => some ((t.receive chars).raise p sigint)
      | none => some (t.receive chars)
  else some (t.receive chars)

/-- The first part of an interrupt. The keyboard branch of trap raises SIGINT for every key. -/
def interrupt (t : Table n) (p : Fin n) (kind : TrapKind) (chars : List Char) : Option (Table n) :=
  match kind with
  | .timer | .ide | .spurious => some t
  | .kbd => (consoleintr t (some p) chars).map fun t' => t'.raise p sigint
  | .com1 => consoleintr t (some p) chars
  | .divide | .unexpected => none

def trapCode (t : Table n) (k : Control n C) (c : C) (p : Fin n) (base : Base n) (kind : TrapKind) :
    TrapPoint → Option (Table n × Control n C)
  | .check =>
    let next := if (t.procs p).pendingSignals = 0 then .killed else .deliver 0
    some (t, k.thread p ⟨base, some ⟨kind, next⟩, none⟩)
  | .deliver signal =>
    if bound : signal < 32 then
      some (t.deliver p ⟨signal, bound⟩, k.thread p ⟨base, some ⟨kind, .deliver (signal + 1)⟩, none⟩)
    else some (t, k.thread p ⟨base, some ⟨kind, .killed⟩, none⟩)
  | .killed =>
    if (t.procs p).killed ∧ base = .user then some (t, k.base p (.exiting true))
    else some (t, k.thread p ⟨base, some ⟨kind, .tick⟩, none⟩)
  | .tick =>
    if kind = .timer ∧ (t.procs p).state = .running then
      -- yield
      if k.lock = none then
        some (t.setState p .runnable, (k.thread p ⟨base, some ⟨kind, .last⟩, some .yielding⟩).sched c)
      else none
    else some (t, k.thread p ⟨base, some ⟨kind, .last⟩, none⟩)
  | .last =>
    if (t.procs p).killed ∧ base = .user then some (t, k.base p (.exiting true))
    else some (t, k.base p base)

def resumeCode (t : Table n) (k : Control n C) (p : Fin n) (base : Base n) (trap : Option Trap) :
    Switch → Table n × Control n C
  | .yielding | .starting => (t, k.release.thread p ⟨base, trap, none⟩)
  | .sleeping => (t.clearChan p, k.release.thread p ⟨base, trap, none⟩)
  | .waiting => (t.clearChan p, k.thread p ⟨base, trap, none⟩)

def processCode (t : Table n) (k : Control n C) (c : C) (p : Fin n) (step : ProcStep) : Option (Table n × Control n C) :=
  match step, k.threads p with
  | .resume, ⟨base, trap, some switch⟩ => some (resumeCode t k p base trap switch)
  | .trapret, ⟨.forkret, none, none⟩ => some (t, k.base p .user)
  | .syscall, ⟨.user, none, none⟩ => some (t, k.base p (if (t.procs p).killed then .exiting false else .syscall))
  | .sysret, ⟨.syscall, none, none⟩ => some (t, k.base p (if (t.procs p).killed then .exiting false else .user))
  | .fork, ⟨.syscall, none, none⟩ =>
    if k.lock = none then
      match t.find fun proc => proc.state = .unused with
      | none => some (t, k)
      | some np => some (t.claim np, k.base p (.forkStack np))
    else none
  | .forkStack addr, ⟨.forkStack np, none, none⟩ =>
    if addr = 0 then some (t.abandon np, k.base p .syscall)
    else some (t.stack np addr, k.base p (.forkCopy np))
  | .forkCopy copied, ⟨.forkCopy np, none, none⟩ =>
    if copied then some (t.copy p np, k.base p (.forkRun np)) else some (t.abandon np, k.base p .syscall)
  | .forkRun, ⟨.forkRun np, none, none⟩ =>
    if k.lock = none then
      some (t.setState np .runnable, (k.base p .syscall).thread np ⟨.forkret, none, some .starting⟩)
    else none
  | .wait, ⟨.syscall, none, none⟩ => if k.lock = none then some (t, (k.acquire c).base p .waitScan) else none
  | .waitScan, ⟨.waitScan, none, none⟩ =>
    match waitScan t p with
    | .reap child => some (t.reap p child, k.release.base p .syscall)
    | .fail => some (t, k.release.base p .syscall)
    | .sleep => some (t.sleepOn p (.proc p), (k.thread p ⟨.waitScan, none, some .waiting⟩).sched c)
  | .exit, ⟨.syscall, none, none⟩ => some (t, k.base p (.exiting false))
  | .exitLast, ⟨.exiting _, none, none⟩ =>
    -- init exiting is a panic
    if k.lock = none ∧ t.initproc ≠ some p then some (t.exit p, k.sched c) else none
  | .kill pid, ⟨.syscall, none, none⟩ =>
    if k.lock = none then some ((t.kill pid).2, k) else none
  | .sleep addr, ⟨base, none, none⟩ =>
    if k.lock = none ∧ base.sleeps then
      some (t.sleepOn p (.other addr), (k.thread p ⟨base, none, some .sleeping⟩).sched c)
    else none
  | .signal signum handler, ⟨.syscall, none, none⟩ =>
    if handler ≥ (t.procs p).sz ∨ handler + 4 > (t.procs p).sz then some (t, k)
    else if bound : 0 ≤ signum ∧ signum.toNat < 32 then some (t.register p ⟨signum.toNat, bound.2⟩ handler, k)
    else some (t, k)
  | .exec sz, ⟨.syscall, none, none⟩ =>
    if sz % pgSize = 0 ∧ 2 * pgSize ≤ sz ∧ sz < kernBase then some (t.exec p sz, k) else none
  | .sbrk n memory, ⟨.syscall, none, none⟩ =>
    match growproc (t.procs p).sz n memory with
    | some sz => some (t.resize p sz, k)
    | none => some (t, k)
  | .interrupt kind chars, ⟨base, none, none⟩ =>
    if base.interruptible then
      (interrupt t p kind chars).map fun t' => (t', k.thread p ⟨base, some ⟨kind, .check⟩, none⟩)
    else none
  | .divide, ⟨.user, none, none⟩ => some (t.raise p sigfpe, k.thread p ⟨.user, some ⟨.divide, .check⟩, none⟩)
  | .unexpected, ⟨.user, none, none⟩ => some (t.markKilled p, k.thread p ⟨.user, some ⟨.unexpected, .check⟩, none⟩)
  | .trap, ⟨base, some ⟨kind, point⟩, none⟩ => trapCode t k c p base kind point
  | _, _ => none

def cpuCode (t : Table n) (k : Control n C) (c : C) (addr : Nat) : Option (Table n × Control n C) :=
  match (k.cpus c).phase with
  | .main =>
    if k.lock = none then
      (t.find fun proc => proc.state = .unused).map fun p => (t.claim p, k.phase c (.userinit p))
    else none
  -- Without a kernel stack for init the machine does not come up.
  | .userinit p => if addr = 0 then none else some ((t.stack p addr).userinit p, k.phase c (.userinitRun p))
  | .userinitRun p =>
    if k.lock = none then
      some (t.setState p .runnable, (k.thread p ⟨.forkret, none, some .starting⟩).phase c .idle)
    else none
  | .idle => if k.lock = none then some (t, (k.acquire c).phase c (.scan 0)) else none
  | .scan i =>
    if bound : i < n then
      let p : Fin n := ⟨i, bound⟩
      if (t.procs p).state ≠ .runnable then some (t, k.phase c (.scan (i + 1)))
      else if (t.procs p).pendingSignals ≠ 0 then some (t, k.phase c (.signals p 0))
      else some (t.setState p .running, k.swtch c p)
    else some (t, k.release.phase c .idle)
  | .signals p signal =>
    if bound : signal < 32 then
      if (t.procs p).pendingSignals.getLsbD signal then
        if (t.procs p).signalHandlers ⟨signal, bound⟩ ≠ 0 then
          some (t.schedulerDeliver p ⟨signal, bound⟩, k.release.phase c (.handler p signal))
        else some (t.schedulerDeliver p ⟨signal, bound⟩, k.phase c (.signals p (signal + 1)))
      else some (t, k.phase c (.signals p (signal + 1)))
    else some (t.setState p .running, k.swtch c p)
  | .handler p signal => if k.lock = none then some (t, (k.acquire c).phase c (.signals p (signal + 1))) else none
  | .back =>
    match (k.cpus c).proc with
    | some p => some (t, k.cpu c ⟨none, .scan (p + 1)⟩)
    | none => none
  | .process => none

inductive Action (C : Type) where
  -- main or scheduler on the cpu; addr is the result of kalloc where there is one
  | cpu (c : C) (addr : Nat)
  | process (c : C) (step : ProcStep)
  -- wakeup of an address outside the table, by any process or interrupt
  | wakeup (addr : Nat)
  -- keyboard or serial interrupt of a cpu without a process
  | input (c : C) (chars : List Char)

def State.current (s : State n C) (c : C) : Option (Fin n) :=
  if (s.control.cpus c).phase = .process then (s.control.cpus c).proc else none

def code (a : Action C) (s : State n C) : Option (Table n × Control n C) :=
  match a with
  | .cpu c addr => cpuCode s.table s.control c addr
  | .process c step => (s.current c).bind fun p => processCode s.table s.control c p step
  | .wakeup addr => if s.control.lock = none then some (s.table.wakeup1 (.other addr), s.control) else none
  | .input c chars =>
    if (s.control.cpus c).phase = .idle then (consoleintr s.table none chars).map fun t' => (t', s.control)
    else none

def step (a : Action C) (s : State n C) : Option (State n C) :=
  (code a s).map fun next => ⟨next.1, next.2⟩

def unusedProc (n : Nat) : Proc n where
  sz := 0
  kstack := 0
  state := .unused
  pid := 0
  parent := none
  chan := none
  killed := false
  signalHandlers := fun _ => 0
  pendingSignals := 0
  image := 0
  registeredBy := fun _ => 0

def boot (n : Nat) (c : C) (locking : Bool) : State n C where
  table :=
    { procs := fun _ => unusedProc n
      initproc := none
      nextpid := 1
      images := 1
      exited := []
      reaped := []
      called := []
      locking
      received := [] }
  control :=
    { threads := fun _ => ⟨.user, none, none⟩
      cpus := fun d => ⟨none, if d = c then .main else .idle⟩
      lock := none }

def Booted (s : State n C) : Prop := ∃ c locking, s = boot n c locking

end Xv6.Processes
