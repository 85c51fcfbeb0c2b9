import Xv6.Processes.Machine

set_option autoImplicit false

namespace Xv6.Processes

variable {n : Nat} {C : Type} [DecidableEq C]

/-- The first signal that the delivery loop of trap may still find pending. -/
def Trap.delivering (trap : Trap) : Option Nat :=
  match trap.point with
  | .check => some 0
  | .deliver signal => some signal
  | _ => none

def Thread.delivering (thread : Thread n) : Option Nat := thread.trap.bind Trap.delivering

def Base.builds : Base n → Option (Fin n)
  | .forkStack np | .forkCopy np | .forkRun np => some np
  | _ => none

theorem Base.builds_unborn {base : Base n} {np : Fin n} (unborn : base = .forkStack np ∨ base = .forkCopy np) :
    base.builds = some np := by
  rcases unborn with is | is <;> rw [is] <;> rfl

/-- Steps from one of these bases to another do nothing but go on. -/
def Base.plain : Base n → Bool
  | .forkret | .user | .syscall | .exiting _ => true
  | _ => false

inductive CpuNext (t : Table n) (k : Control n C) (c : C) : Table n → Control n C → Prop where
  | claim {p : Fin n} (here : (k.cpus c).phase = .main) (free : k.lock = none) (unused : (t.procs p).state = .unused) :
      CpuNext t k c (t.claim p) (k.phase c (.userinit p))
  | userinit {p : Fin n} {addr : Nat} (here : (k.cpus c).phase = .userinit p) (allocated : addr ≠ 0) :
      CpuNext t k c ((t.stack p addr).userinit p) (k.phase c (.userinitRun p))
  | userinitRun {p : Fin n} (here : (k.cpus c).phase = .userinitRun p) (free : k.lock = none) :
      CpuNext t k c (t.setState p .runnable) ((k.thread p ⟨.forkret, none, some .starting⟩).phase c .idle)
  | acquire (here : (k.cpus c).phase = .idle) (free : k.lock = none) :
      CpuNext t k c t ((k.acquire c).phase c (.scan 0))
  | skip {i : Nat} (here : (k.cpus c).phase = .scan i) : CpuNext t k c t (k.phase c (.scan (i + 1)))
  | signals {p : Fin n} (here : (k.cpus c).phase = .scan p) (runnable : (t.procs p).state = .runnable)
      (pending : (t.procs p).pendingSignals ≠ 0) : CpuNext t k c t (k.phase c (.signals p 0))
  | swtch {p : Fin n} (here : (k.cpus c).phase = .scan p) (runnable : (t.procs p).state = .runnable)
      (quiet : (t.procs p).pendingSignals = 0) : CpuNext t k c (t.setState p .running) (k.swtch c p)
  | release {i : Nat} (here : (k.cpus c).phase = .scan i) : CpuNext t k c t (k.release.phase c .idle)
  | deliver {p : Fin n} {signal : Nat} {t' : Table n} {k' : Control n C}
      (here : (k.cpus c).phase = .signals p signal) : CpuNext t k c t' k'
  | handler {p : Fin n} {signal : Nat} {k' : Control n C} (here : (k.cpus c).phase = .handler p signal) :
      CpuNext t k c t k'
  | back {p : Fin n} (here : (k.cpus c).phase = .back) (proc : (k.cpus c).proc = some p) :
      CpuNext t k c t (k.cpu c ⟨none, .scan (p + 1)⟩)

inductive ProcNext (t : Table n) (k : Control n C) (c : C) (p : Fin n) : ProcStep → Table n → Control n C → Prop where
  | resume {base : Base n} {trap : Option Trap} {switch : Switch} (here : k.threads p = ⟨base, trap, some switch⟩)
      (lock : switch = .yielding ∨ switch = .starting) :
      ProcNext t k c p .resume t (k.release.thread p ⟨base, trap, none⟩)
  | wakes {base : Base n} {trap : Option Trap} (here : k.threads p = ⟨base, trap, some .sleeping⟩) :
      ProcNext t k c p .resume (t.clearChan p) (k.release.thread p ⟨base, trap, none⟩)
  | waits {base : Base n} {trap : Option Trap} (here : k.threads p = ⟨base, trap, some .waiting⟩) :
      ProcNext t k c p .resume (t.clearChan p) (k.thread p ⟨base, trap, none⟩)
  | proceed {step : ProcStep} {base base' : Base n} {trap trap' : Option Trap} (here : k.threads p = ⟨base, trap, none⟩)
      (bases : base' = base ∨ base.plain = true ∧ base'.plain = true)
      (traps : trap' = none ∨ ∃ kind point point', trap = some ⟨kind, point⟩ ∧ trap' = some ⟨kind, point'⟩)
      (point : ∀ kind signal, trap ≠ some ⟨kind, .deliver signal⟩)
      (delivering : (trap'.bind Trap.delivering) = trap.bind Trap.delivering) :
      ProcNext t k c p step t (k.thread p ⟨base', trap', none⟩)
  | stay {step : ProcStep} (here : k.threads p = ⟨.syscall, none, none⟩) : ProcNext t k c p step t k
  | claim {np : Fin n} (here : k.threads p = ⟨.syscall, none, none⟩) (free : k.lock = none)
      (unused : (t.procs np).state = .unused) : ProcNext t k c p .fork (t.claim np) (k.base p (.forkStack np))
  | stack {np : Fin n} {addr : Nat} (here : k.threads p = ⟨.forkStack np, none, none⟩) (allocated : addr ≠ 0) :
      ProcNext t k c p (.forkStack addr) (t.stack np addr) (k.base p (.forkCopy np))
  | abandon {step : ProcStep} {base : Base n} {np : Fin n} (here : k.threads p = ⟨base, none, none⟩)
      (unborn : base = .forkStack np ∨ base = .forkCopy np) :
      ProcNext t k c p step (t.abandon np) (k.base p .syscall)
  | copy {np : Fin n} (here : k.threads p = ⟨.forkCopy np, none, none⟩) :
      ProcNext t k c p (.forkCopy true) (t.copy p np) (k.base p (.forkRun np))
  | forkRun {np : Fin n} (here : k.threads p = ⟨.forkRun np, none, none⟩) (free : k.lock = none) :
      ProcNext t k c p .forkRun (t.setState np .runnable)
        ((k.base p .syscall).thread np ⟨.forkret, none, some .starting⟩)
  | wait (here : k.threads p = ⟨.syscall, none, none⟩) (free : k.lock = none) :
      ProcNext t k c p .wait t ((k.acquire c).base p .waitScan)
  | reap {child : Fin n} (here : k.threads p = ⟨.waitScan, none, none⟩) (scanned : waitScan t p = .reap child) :
      ProcNext t k c p .waitScan (t.reap p child) (k.release.base p .syscall)
  | waitFail (here : k.threads p = ⟨.waitScan, none, none⟩) (scanned : waitScan t p = .fail) :
      ProcNext t k c p .waitScan t (k.release.base p .syscall)
  | waitSleep (here : k.threads p = ⟨.waitScan, none, none⟩) (scanned : waitScan t p = .sleep) :
      ProcNext t k c p .waitScan (t.sleepOn p (.proc p)) ((k.thread p ⟨.waitScan, none, some .waiting⟩).sched c)
  | exit {masked : Bool} (here : k.threads p = ⟨.exiting masked, none, none⟩) (free : k.lock = none)
      (other : t.initproc ≠ some p) : ProcNext t k c p .exitLast (t.exit p) (k.sched c)
  | kill {pid : Int} {q : Fin n} (here : k.threads p = ⟨.syscall, none, none⟩) (free : k.lock = none)
      (found : (t.find fun proc => proc.pid = pid) = some q) : ProcNext t k c p (.kill pid) (t.killSlot q) k
  | sleep {addr : Nat} {base : Base n} (here : k.threads p = ⟨base, none, none⟩) (free : k.lock = none)
      (sleeps : base.sleeps = true) : ProcNext t k c p (.sleep addr) (t.sleepOn p (.other addr))
        ((k.thread p ⟨base, none, some .sleeping⟩).sched c)
  | signal {signum : Int} {handler : Nat} (here : k.threads p = ⟨.syscall, none, none⟩)
      (inside : handler + 4 ≤ (t.procs p).sz) (valid : 0 ≤ signum ∧ signum.toNat < 32) :
      ProcNext t k c p (.signal signum handler) (t.register p ⟨signum.toNat, valid.2⟩ handler) k
  | exec {sz : Nat} (here : k.threads p = ⟨.syscall, none, none⟩) (bounds : 2 * pgSize ≤ sz ∧ sz < kernBase) :
      ProcNext t k c p (.exec sz) (t.exec p sz) k
  | sbrk {m : Int} {memory : Bool} {sz : Nat} (here : k.threads p = ⟨.syscall, none, none⟩)
      (grown : growproc (t.procs p).sz m memory = some sz) : ProcNext t k c p (.sbrk m memory) (t.resize p sz) k
  | interrupt {kind : TrapKind} {chars : List Char} {base : Base n} {t' : Table n}
      (here : k.threads p = ⟨base, none, none⟩) (interruptible : base.interruptible = true)
      (taken : interrupt t p kind chars = some t') :
      ProcNext t k c p (.interrupt kind chars) t' (k.thread p ⟨base, some ⟨kind, .check⟩, none⟩)
  | divide (here : k.threads p = ⟨.user, none, none⟩) :
      ProcNext t k c p .divide (t.raise p sigfpe) (k.thread p ⟨.user, some ⟨.divide, .check⟩, none⟩)
  | unexpected (here : k.threads p = ⟨.user, none, none⟩) :
      ProcNext t k c p .unexpected (t.markKilled p) (k.thread p ⟨.user, some ⟨.unexpected, .check⟩, none⟩)
  | quiet {base : Base n} {kind : TrapKind} (here : k.threads p = ⟨base, some ⟨kind, .check⟩, none⟩)
      (nothing : (t.procs p).pendingSignals = 0) :
      ProcNext t k c p .trap t (k.thread p ⟨base, some ⟨kind, .killed⟩, none⟩)
  | deliver {base : Base n} {kind : TrapKind} {i : Fin 32}
      (here : k.threads p = ⟨base, some ⟨kind, .deliver i⟩, none⟩) :
      ProcNext t k c p .trap (t.deliver p i) (k.thread p ⟨base, some ⟨kind, .deliver (i + 1)⟩, none⟩)
  | delivered {base : Base n} {kind : TrapKind} {signal : Nat}
      (here : k.threads p = ⟨base, some ⟨kind, .deliver signal⟩, none⟩) (all : 32 ≤ signal) :
      ProcNext t k c p .trap t (k.thread p ⟨base, some ⟨kind, .killed⟩, none⟩)
  | yield {base : Base n} {kind : TrapKind} (here : k.threads p = ⟨base, some ⟨kind, .tick⟩, none⟩)
      (free : k.lock = none) : ProcNext t k c p .trap (t.setState p .runnable)
        ((k.thread p ⟨base, some ⟨kind, .last⟩, some .yielding⟩).sched c)

variable {t t' : Table n} {k k' : Control n C} {c : C} {p : Fin n} {kind : TrapKind} {chars : List Char}
  {s s' : State n C}

theorem cpuCode_next {addr : Nat} (next : cpuCode t k c addr = some (t', k')) : CpuNext t k c t' k' := by
  unfold cpuCode at next
  split at next
  next here =>
    simp only [Option.ite_none_right_eq_some, Option.map_eq_some_iff] at next
    obtain ⟨free, p, found, same⟩ := next
    cases same
    exact .claim here free (by simpa using Table.find_some found)
  next p here =>
    split_ifs at next with failed
    cases next
    exact .userinit here failed
  next p here =>
    split_ifs at next with free
    cases next
    exact .userinitRun here free
  next here =>
    split_ifs at next with free
    cases next
    exact .acquire here free
  next i here =>
    dsimp only at next
    split_ifs at next with bound idle pending
    · cases next
      exact .skip here
    · cases next
      exact .signals (p := ⟨i, bound⟩) here (not_not.mp idle) pending
    · cases next
      exact .swtch (p := ⟨i, bound⟩) here (not_not.mp idle) (not_not.mp pending)
    · cases next
      exact .release here
  next p signal here => exact .deliver here
  next p signal here =>
    split_ifs at next with free
    cases next
    exact .handler here
  next here =>
    split at next
    next p proc =>
      cases next
      exact .back here proc
    · cases next
  · cases next

theorem trapCode_next {base : Base n} {point : TrapPoint} (here : k.threads p = ⟨base, some ⟨kind, point⟩, none⟩)
    (next : trapCode t k c p base kind point = some (t', k')) : ProcNext t k c p .trap t' k' := by
  cases point with
  | check =>
    simp only [trapCode] at next
    split_ifs at next with quiet
    · cases next
      exact .quiet here quiet
    · cases next
      exact .proceed here (.inl rfl) (.inr ⟨_, _, _, rfl, rfl⟩) (by simp) rfl
  | deliver signal =>
    simp only [trapCode] at next
    split_ifs at next with bound
    · cases next
      exact .deliver (i := ⟨signal, bound⟩) here
    · cases next
      exact .delivered here (not_lt.mp bound)
  | killed =>
    simp only [trapCode] at next
    split_ifs at next with dead
    · cases next
      exact .proceed here (.inr ⟨by rw [dead.2]; rfl, rfl⟩) (.inl rfl) (by simp) rfl
    · cases next
      exact .proceed here (.inl rfl) (.inr ⟨_, _, _, rfl, rfl⟩) (by simp) rfl
  | tick =>
    simp only [trapCode] at next
    split_ifs at next with timer free
    · cases next
      exact .yield here free
    · cases next
      exact .proceed here (.inl rfl) (.inr ⟨_, _, _, rfl, rfl⟩) (by simp) rfl
  | last =>
    simp only [trapCode] at next
    split_ifs at next with dead
    · cases next
      exact .proceed here (.inr ⟨by rw [dead.2]; rfl, rfl⟩) (.inl rfl) (by simp) rfl
    · cases next
      exact .proceed here (.inl rfl) (.inl rfl) (by simp) rfl

theorem processCode_next {step : ProcStep} (next : processCode t k c p step = some (t', k')) :
    ProcNext t k c p step t' k' := by
  unfold processCode at next
  split at next
  next base trap switch here =>
    cases switch <;> cases next
    · exact .resume here (.inl rfl)
    · exact .wakes here
    · exact .waits here
    · exact .resume here (.inr rfl)
  next here =>
    cases next
    exact .proceed here (.inr ⟨rfl, rfl⟩) (.inl rfl) (by simp) rfl
  next here =>
    cases next
    exact .proceed here (.inr ⟨rfl, by split <;> rfl⟩) (.inl rfl) (by simp) rfl
  next here =>
    cases next
    exact .proceed here (.inr ⟨rfl, by split <;> rfl⟩) (.inl rfl) (by simp) rfl
  next here =>
    split_ifs at next with free
    split at next
    · cases next
      exact .stay here
    next np found =>
      cases next
      exact .claim here free (by simpa using Table.find_some found)
  next addr np here =>
    split_ifs at next with failed
    · cases next
      exact .abandon here (.inl rfl)
    · cases next
      exact .stack here failed
  next copied np here =>
    split_ifs at next with done
    · cases next
      subst done
      exact .copy here
    · cases next
      exact .abandon here (.inr rfl)
  next np here =>
    split_ifs at next with free
    cases next
    exact .forkRun here free
  next here =>
    split_ifs at next with free
    cases next
    exact .wait here free
  next here =>
    split at next
    next child scanned =>
      cases next
      exact .reap here scanned
    next scanned =>
      cases next
      exact .waitFail here scanned
    next scanned =>
      cases next
      exact .waitSleep here scanned
  next here =>
    cases next
    exact .proceed here (.inr ⟨rfl, rfl⟩) (.inl rfl) (by simp) rfl
  next masked here =>
    split_ifs at next with free
    cases next
    exact .exit here free.1 free.2
  next pid here =>
    split_ifs at next with free
    cases next
    unfold Table.kill
    split
    next q found => exact .kill here free found
    · exact .stay here
  next addr base here =>
    split_ifs at next with free
    cases next
    exact .sleep here free.1 free.2
  next signum handler here =>
    split_ifs at next with outside valid
    · cases next
      exact .stay here
    · cases next
      exact .signal here (by omega) valid
    · cases next
      exact .stay here
  next sz here =>
    split_ifs at next with bounds
    cases next
    exact .exec here bounds.2
  next m memory here =>
    split at next
    next sz grown =>
      cases next
      exact .sbrk here grown
    · cases next
      exact .stay here
  next kind chars base here =>
    split_ifs at next with interruptible
    obtain ⟨taken, raised, same⟩ := Option.map_eq_some_iff.mp next
    cases same
    exact .interrupt here interruptible raised
  next here =>
    cases next
    exact .divide here
  next here =>
    cases next
    exact .unexpected here
  next base kind point here => exact trapCode_next here next
  · cases next

theorem waitScan_reap {child : Fin n} (scanned : waitScan t p = .reap child) :
    (t.procs child).parent = some p ∧ (t.procs child).state = .zombie := by
  unfold waitScan at scanned
  split at scanned
  next found =>
    cases scanned
    simpa using Table.find_some found
  · split_ifs at scanned

theorem waitScan_finds {q : Fin n} (child : (t.procs q).parent = some p) (zombie : (t.procs q).state = .zombie) :
    ∃ found, waitScan t p = .reap found := by
  unfold waitScan
  split
  next found _ => exact ⟨found, rfl⟩
  next missing => simpa [child, zombie] using Table.find_none missing q

theorem waitScan_sleep (scanned : waitScan t p = .sleep) : (∃ child, (t.procs child).parent = some p) ∧
      ∀ child, (t.procs child).parent = some p → (t.procs child).state ≠ .zombie := by
  unfold waitScan at scanned
  split at scanned
  · cases scanned
  next missing =>
    split_ifs at scanned with fails
    obtain ⟨found, _⟩ := not_or.mp fails
    obtain ⟨child, is⟩ := Option.ne_none_iff_exists'.mp found
    refine ⟨⟨child, by simpa using Table.find_some is⟩, fun child mine zombie => ?_⟩
    simpa [mine, zombie] using Table.find_none missing child

theorem waitScan_fail (scanned : waitScan t p = .fail) :
    (∀ child, (t.procs child).parent ≠ some p) ∨ (t.procs p).killed = true := by
  unfold waitScan at scanned
  split at scanned
  · cases scanned
  · split_ifs at scanned with fails
    exact fails.imp (fun missing child => by simpa using Table.find_none missing child) id

theorem consoleintr_idle (got : consoleintr t none chars = some t') : t' = t.receive chars := by
  unfold consoleintr at got
  split_ifs at got <;> cases got <;> rfl

theorem consoleintr_process (got : consoleintr t (some p) chars = some t') :
    t' = t.receive chars ∨ 'C' ∈ chars ∧ t' = (t.receive chars).raise p sigint := by
  unfold consoleintr at got
  split_ifs at got with shiftC
  · cases got
    exact .inr ⟨shiftC, rfl⟩
  · cases got
    exact .inl rfl

theorem interrupt_cases (taken : interrupt t p kind chars = some t') : (∃ received, t' = t.receive received) ∨
      (kind = .kbd ∨ kind = .com1 ∧ 'C' ∈ chars) ∧ t' = (t.receive chars).raise p sigint := by
  have nothing : t.receive [] = t := by simp [Table.receive]
  cases kind with
  | timer | ide | spurious =>
    cases taken
    exact .inl ⟨[], nothing.symm⟩
  | kbd =>
    obtain ⟨received, got, rfl⟩ := Option.map_eq_some_iff.mp taken
    rcases consoleintr_process got with rfl | ⟨_, rfl⟩
    · exact .inr ⟨.inl rfl, rfl⟩
    · exact .inr ⟨.inl rfl, Table.raise_raise _ p sigint⟩
  | com1 =>
    rcases consoleintr_process taken with rfl | ⟨shiftC, rfl⟩
    · exact .inl ⟨chars, rfl⟩
    · exact .inr ⟨.inr ⟨rfl, shiftC⟩, rfl⟩
  | divide | unexpected => cases taken

inductive Next (s : State n C) : Action C → State n C → Prop where
  | cpu {c : C} {addr : Nat} {t' : Table n} {k' : Control n C} (next : CpuNext s.table s.control c t' k') :
      Next s (.cpu c addr) ⟨t', k'⟩
  | process {c : C} {p : Fin n} {step : ProcStep} {t' : Table n} {k' : Control n C} (current : s.current c = some p)
      (next : ProcNext s.table s.control c p step t' k') : Next s (.process c step) ⟨t', k'⟩
  | wakeup {addr : Nat} (free : s.control.lock = none) :
      Next s (.wakeup addr) ⟨s.table.wakeup1 (.other addr), s.control⟩
  | input {c : C} {chars : List Char} (here : (s.control.cpus c).phase = .idle) :
      Next s (.input c chars) ⟨s.table.receive chars, s.control⟩

theorem step_next {a : Action C} (next : step a s = some s') : Next s a s' := by
  obtain ⟨⟨t', k'⟩, ran, rfl⟩ := Option.map_eq_some_iff.mp next
  cases a with
  | cpu c addr => exact .cpu (cpuCode_next ran)
  | process c step =>
    obtain ⟨p, current, ran⟩ := Option.bind_eq_some_iff.mp ran
    exact .process current (processCode_next ran)
  | wakeup addr =>
    simp only [code] at ran
    split_ifs at ran with free
    cases ran
    exact .wakeup free
  | input c chars =>
    simp only [code] at ran
    split_ifs at ran with here
    obtain ⟨received, got, same⟩ := Option.map_eq_some_iff.mp ran
    cases same
    rw [consoleintr_idle got]
    exact .input here

theorem step_exec {sz : Nat} (next : step (.process c (.exec sz)) s = some s') :
    ∃ p, s.current c = some p ∧ s'.table = s.table.exec p sz := by
  obtain ⟨⟨t', k'⟩, ran, rfl⟩ := Option.map_eq_some_iff.mp next
  obtain ⟨p, current, ran⟩ := Option.bind_eq_some_iff.mp ran
  refine ⟨p, current, ?_⟩
  simp only [processCode] at ran
  split at ran <;> simp_all

theorem step_sbrk {m : Int} {memory : Bool} (next : step (.process c (.sbrk m memory)) s = some s') :
    ∃ p, s.current c = some p ∧
      ∀ sz, growproc (s.table.procs p).sz m memory = some sz → s'.table = s.table.resize p sz := by
  obtain ⟨⟨t', k'⟩, ran, rfl⟩ := Option.map_eq_some_iff.mp next
  obtain ⟨p, current, ran⟩ := Option.bind_eq_some_iff.mp ran
  refine ⟨p, current, fun sz grown => ?_⟩
  simp only [processCode] at ran
  split at ran <;> simp_all

theorem step_interrupt (next : step (.process c (.interrupt kind chars)) s = some s') :
    ∃ p base, s.current c = some p ∧ s.control.threads p = ⟨base, none, none⟩ ∧
      interrupt s.table p kind chars = some s'.table := by
  obtain ⟨⟨t', k'⟩, ran, rfl⟩ := Option.map_eq_some_iff.mp next
  obtain ⟨p, current, ran⟩ := Option.bind_eq_some_iff.mp ran
  simp only [processCode] at ran
  split at ran <;> simp_all

end Xv6.Processes
