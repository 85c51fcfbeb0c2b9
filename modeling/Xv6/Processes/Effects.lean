import Xv6.Processes.Scheduling

set_option autoImplicit false

namespace Xv6.Processes

variable {n : Nat} {C : Type}

structure Table.Private (t t' : Table n) (p : Fin n) : Prop where
  others : ∀ q, q ≠ p → t'.procs q = t.procs q
  state : (t'.procs p).state = .running ∨ (t'.procs p).state = .runnable
  parent : (t'.procs p).parent = (t.procs p).parent
  kstack : (t'.procs p).kstack = (t.procs p).kstack
  pid : (t'.procs p).pid = (t.procs p).pid
  initproc : t'.initproc = t.initproc
  nextpid : t'.nextpid = t.nextpid
  exited : t'.exited = t.exited
  reaped : t'.reaped = t.reaped

variable [DecidableEq C]

/-- What a step from an ordered state does to the tree of processes: everything that concerns a running process
alone is one case. -/
inductive Effect (s : State n C) : Action C → State n C → Prop where
  | own {c : C} {p : Fin n} {step : ProcStep} {s' : State n C} (current : s.current c = some p)
      (own : s.table.Private s'.table p) (threads : ∀ q, q ≠ p → s'.thread q = s.thread q)
      (base : (s'.thread p).base = (s.thread p).base ∨ (s'.thread p).base.builds = none)
      (phases : ∀ d, (s'.cpu d).phase = (s.cpu d).phase ∨
        (s.cpu d).phase.early = false ∧ (s'.cpu d).phase.early = false) : Effect s (.process c step) s'
  | claim {c : C} {p np : Fin n} (current : s.current c = some p) (unused : (s.proc np).state = .unused) :
      Effect s (.process c .fork) ⟨s.table.claim np, s.control.base p (.forkStack np)⟩
  | stack {c : C} {p np : Fin n} {addr : Nat} (current : s.current c = some p)
      (here : s.thread p = ⟨.forkStack np, none, none⟩) :
      Effect s (.process c (.forkStack addr)) ⟨s.table.stack np addr, s.control.base p (.forkCopy np)⟩
  | abandon {c : C} {p np : Fin n} {step : ProcStep} (current : s.current c = some p)
      (unborn : (s.thread p).base = .forkStack np ∨ (s.thread p).base = .forkCopy np) :
      Effect s (.process c step) ⟨s.table.abandon np, s.control.base p .syscall⟩
  | copy {c : C} {p np : Fin n} (current : s.current c = some p) (here : s.thread p = ⟨.forkCopy np, none, none⟩) :
      Effect s (.process c (.forkCopy true)) ⟨s.table.copy p np, s.control.base p (.forkRun np)⟩
  | forkRun {c : C} {p np : Fin n} (current : s.current c = some p) (here : s.thread p = ⟨.forkRun np, none, none⟩) :
      Effect s (.process c .forkRun) ⟨s.table.setState np .runnable,
        (s.control.base p .syscall).thread np ⟨.forkret, none, some .starting⟩⟩
  | reap {c : C} {p child : Fin n} (current : s.current c = some p) (scanned : waitScan s.table p = .reap child) :
      Effect s (.process c .waitScan) ⟨s.table.reap p child, s.control.release.base p .syscall⟩
  | exit {c : C} {p : Fin n} {masked : Bool} (current : s.current c = some p)
      (here : s.thread p = ⟨.exiting masked, none, none⟩) (other : s.table.initproc ≠ some p) :
      Effect s (.process c .exitLast) ⟨s.table.exit p, s.control.sched c⟩
  | kill {c : C} {p q : Fin n} {pid : Int} (current : s.current c = some p)
      (found : (s.table.find fun proc => proc.pid = pid) = some q) :
      Effect s (.process c (.kill pid)) ⟨s.table.killSlot q, s.control⟩
  | sleep {c : C} {p : Fin n} {addr : Nat} {base : Base n} (current : s.current c = some p)
      (here : s.thread p = ⟨base, none, none⟩) :
      Effect s (.process c (.sleep addr)) ⟨s.table.sleepOn p (.other addr),
        (s.control.thread p ⟨base, none, some .sleeping⟩).sched c⟩
  | waitSleep {c : C} {p : Fin n} (current : s.current c = some p) (here : s.thread p = ⟨.waitScan, none, none⟩)
      (scanned : waitScan s.table p = .sleep) :
      Effect s (.process c .waitScan) ⟨s.table.sleepOn p (.proc p),
        (s.control.thread p ⟨.waitScan, none, some .waiting⟩).sched c⟩
  | bootClaim {c : C} {p : Fin n} {addr : Nat} (here : (s.cpu c).phase = .main)
      (unused : (s.proc p).state = .unused) :
      Effect s (.cpu c addr) ⟨s.table.claim p, s.control.phase c (.userinit p)⟩
  | userinit {c : C} {p : Fin n} {addr kstack : Nat} (here : (s.cpu c).phase = .userinit p) :
      Effect s (.cpu c addr) ⟨(s.table.stack p kstack).userinit p, s.control.phase c (.userinitRun p)⟩
  | userinitRun {c : C} {p : Fin n} {addr : Nat} (here : (s.cpu c).phase = .userinitRun p) :
      Effect s (.cpu c addr) ⟨s.table.setState p .runnable,
        (s.control.thread p ⟨.forkret, none, some .starting⟩).phase c .idle⟩
  | swtch {c : C} {p : Fin n} {addr : Nat} (here : (s.cpu c).phase = .scan p)
      (runnable : (s.proc p).state = .runnable) :
      Effect s (.cpu c addr) ⟨s.table.setState p .running, s.control.swtch c p⟩
  | schedules {c : C} {addr : Nat} {s' : State n C} (table : s'.table = s.table)
      (threads : s'.control.threads = s.control.threads)
      (phases : ∀ d, (s'.cpu d).phase = (s.cpu d).phase ∨
        (s.cpu d).phase.early = false ∧ (s'.cpu d).phase.early = false) : Effect s (.cpu c addr) s'
  | wakeup {addr : Nat} : Effect s (.wakeup addr) ⟨s.table.wakeup1 (.other addr), s.control⟩
  | input {c : C} {chars : List Char} : Effect s (.input c chars) ⟨s.table.receive chars, s.control⟩

section

variable {s s' : State n C} {c : C} {p : Fin n} {t t' : Table n} {k' : Control n C}

theorem ProcNext.phases {k : Control n C} {step : ProcStep} (here : (k.cpus c).phase = .process)
    (next : ProcNext t k c p step t' k') (d : C) :
    (k'.cpus d).phase = (k.cpus d).phase ∨ (k.cpus d).phase.early = false ∧ (k'.cpus d).phase.early = false := by
  rcases next.cpus with same | back
  · exact .inl (by rw [same])
  · by_cases same : d = c
    · subst same
      rw [back, here]
      simp [Phase.early]
    · exact .inl (by rw [back, Function.update_of_ne same])

theorem private_modify {change : Proc n → Proc n}
    (state : (change (t.procs p)).state = .running ∨ (change (t.procs p)).state = .runnable)
    (tree : (change (t.procs p)).parent = (t.procs p).parent ∧ (change (t.procs p)).kstack = (t.procs p).kstack ∧
      (change (t.procs p)).pid = (t.procs p).pid) : t.Private (t.modify p change) p :=
  ⟨fun q different => Table.modify_ne t change different, by rwa [Table.modify_self],
    by rw [Table.modify_self]; exact tree.1, by rw [Table.modify_self]; exact tree.2.1,
    by rw [Table.modify_self]; exact tree.2.2, rfl, rfl, rfl, rfl⟩

theorem Table.Private.refl (state : (t.procs p).state = .running ∨ (t.procs p).state = .runnable) : t.Private t p :=
  ⟨fun _ _ => rfl, state, rfl, rfl, rfl, rfl, rfl, rfl, rfl⟩

theorem deliver_private (running : (t.procs p).state = .running) (signal : Fin 32) :
    t.Private (t.deliver p signal) p := by
  unfold Table.deliver
  split_ifs
  all_goals
    refine ⟨fun q different => ?_, .inl ?_, ?_, ?_, ?_, rfl, rfl, rfl, rfl⟩ <;>
      simp [Table.clearSignal, Table.markKilled, *]

theorem interrupt_private {kind : TrapKind} {chars : List Char} (running : (t.procs p).state = .running)
    (taken : interrupt t p kind chars = some t') : t.Private t' p := by
  rcases interrupt_cases taken with ⟨received, rfl⟩ | ⟨_, rfl⟩
  · exact ⟨fun _ _ => rfl, .inl running, rfl, rfl, rfl, rfl, rfl, rfl, rfl⟩
  · refine ⟨fun q different => ?_, .inl ?_, ?_, ?_, ?_, rfl, rfl, rfl, rfl⟩ <;> simp [Table.raise, Table.receive, *]

theorem ProcNext.effect (ordered : Ordered s) (current : s.current c = some p) {step : ProcStep}
    (next : ProcNext s.table s.control c p step t' k') : Effect s (.process c step) ⟨t', k'⟩ := by
  have running : (s.table.procs p).state = .running := ordered.runs current
  have phases := next.phases (current_eq_some.mp current).1
  have refl : s.table.Private s.table p := .refl (.inl running)
  -- The cases of the process alone: its slot changes by `change`, and its thread by `thread`.
  have own {step : ProcStep} {t' : Table n} {k : Control n C} {thread : Thread n}
      (slots : s.table.Private t' p) (threads : k.threads = s.control.threads)
      (base : thread.base = (s.thread p).base ∨ thread.base.builds = none)
      (phases : ∀ d, (k.cpus d).phase = (s.cpu d).phase ∨
        (s.cpu d).phase.early = false ∧ (k.cpus d).phase.early = false) :
      Effect s (.process c step) ⟨t', k.thread p thread⟩ := by
    refine .own current slots (fun q different => ?_) ?_ phases
    · simp [State.thread, Control.thread, threads, different]
    · simpa [State.thread, Control.thread] using base
  have still {step : ProcStep} {t' : Table n} (slots : s.table.Private t' p) :
      Effect s (.process c step) ⟨t', s.control⟩ := .own current slots (fun _ _ => rfl) (.inl rfl) fun _ => .inl rfl
  cases next with
  | resume here lock | quiet here nothing | delivered here all =>
    exact own refl rfl (.inl (by rw [State.thread, here])) phases
  | wakes here | waits here =>
    exact own (private_modify (.inl running) ⟨rfl, rfl, rfl⟩) rfl (.inl (by rw [State.thread, here])) phases
  | @proceed _ base base' trap trap' here bases traps point delivering =>
    refine own refl rfl ?_ phases
    rw [State.thread, here]
    rcases bases with same | ⟨_, plain⟩
    · exact .inl same
    · exact .inr (by cases base' <;> cases plain <;> rfl)
  | stay here => exact still refl
  | claim here free unused => exact .claim current unused
  | stack here allocated => exact .stack current here
  | abandon here unborn => exact .abandon current (by rw [State.thread, here]; exact unborn)
  | copy here => exact .copy current here
  | forkRun here free => exact .forkRun current here
  | wait here free => exact own refl rfl (.inr rfl) phases
  | reap here scanned => exact .reap current scanned
  | waitFail here scanned => exact own refl rfl (.inr rfl) phases
  | waitSleep here scanned => exact .waitSleep current here scanned
  | exit here free other => exact .exit current here other
  | kill here free found => exact .kill current found
  | sleep here free sleeps => exact .sleep current here
  | signal here inside valid | sbrk here grown => exact still (private_modify (.inl running) ⟨rfl, rfl, rfl⟩)
  | @exec sz here bounds =>
    refine still ⟨fun q different => ?_, .inl ?_, ?_, ?_, ?_, rfl, rfl, rfl, rfl⟩ <;> simp [Table.exec, *]
  | interrupt here interruptible taken =>
    exact own (interrupt_private running taken) rfl (.inl (by rw [State.thread, here])) phases
  | divide here | unexpected here =>
    exact own (private_modify (.inl running) ⟨rfl, rfl, rfl⟩) rfl (.inr rfl) phases
  | deliver here => exact own (deliver_private running _) rfl (.inl (by rw [State.thread, here])) phases
  | @«yield» base kind here free =>
    have ready : s.table.Private (s.table.setState p .runnable) p := private_modify (.inr rfl) ⟨rfl, rfl, rfl⟩
    refine .own current ready (fun q different => ?_) (.inl ?_) phases
    · exact Function.update_of_ne different ..
    · rw [State.thread, State.thread, here]
      simp [Control.sched, Control.phase, Control.cpu, Control.acquire, Control.thread]

theorem CpuNext.effect (ordered : Ordered s) {addr : Nat} (next : CpuNext s.table s.control c t' k') :
    Effect s (.cpu c addr) ⟨t', k'⟩ := by
  have facts := ordered.cpu c
  have phases (was : (s.cpu c).phase.early = false) {k : Control n C} {cpu : Cpu n} (is : cpu.phase.early = false)
      (cpus : k.cpus = s.control.cpus) (d : C) : ((k.cpu c cpu).cpus d).phase = (s.cpu d).phase ∨
        (s.cpu d).phase.early = false ∧ ((k.cpu c cpu).cpus d).phase.early = false := by
    by_cases same : d = c
    · subst same
      exact .inr ⟨was, by simpa [Control.cpu] using is⟩
    · exact .inl (by simp [Control.cpu, State.cpu, cpus, same])
  cases next with
  | claim here free unused => exact .bootClaim here unused
  | userinit here allocated => exact .userinit here
  | userinitRun here free => exact .userinitRun here
  | acquire here free | skip here | release here | back here proc =>
    exact .schedules rfl rfl (phases (by rw [State.cpu, here]; rfl) rfl rfl)
  | @signals p here runnable pending =>
    obtain ⟨_, _, running, _⟩ := ordered.pending p pending
    rw [State.proc, runnable] at running
    cases running
  | swtch here runnable quiet => exact .swtch here runnable
  | deliver here => simp [CpuFacts, here] at facts
  | handler here => simp [CpuFacts, here] at facts

theorem step_effect {a : Action C} (ordered : Ordered s) (next : step a s = some s') : Effect s a s' := by
  have effect := step_next next
  clear next
  cases effect with
  | cpu next => exact next.effect ordered
  | process current next => exact next.effect ordered current
  | wakeup free => exact .wakeup
  | input here => exact .input

end

end Xv6.Processes
