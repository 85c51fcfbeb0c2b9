import Xv6.Processes.Tree

set_option autoImplicit false

namespace Xv6.Processes

variable {n : Nat} {C : Type}

def Unborn (proc : Proc n) : Prop := proc.state = .unused ∨ proc.state = .embryo

def Waiting (s : State n C) (q : Fin n) : Prop :=
  (s.proc q).state = .sleeping ∧ (s.thread q).switch = some .waiting

/-- A step on the slot of a process that is not born yet. -/
structure Forms (s s' : State n C) (np : Fin n) : Prop where
  unborn : Unborn (s.proc np)
  others : ∀ q, q ≠ np → s'.proc q = s.proc q
  state : (s'.proc np).state ≠ .sleeping ∧ (s'.proc np).state ≠ .zombie
  killed : (s'.proc np).killed = (s.proc np).killed
  parent : (s'.proc np).parent = (s.proc np).parent ∨ ∃ p, (s.thread p).base = .forkCopy np
  pid : (s'.proc np).state ≠ .unused → (s'.proc np).pid = s.table.nextpid ∨
    (s.proc np).state ≠ .unused ∧ (s'.proc np).pid = (s.proc np).pid
  nextpid : s.table.nextpid ≤ s'.table.nextpid
  logs : s'.table.exited = s.table.exited ∧ s'.table.reaped = s.table.reaped
  threads : ∀ q, q ≠ np → s'.thread q = s.thread q ∨ (s'.thread q).switch = none

/-- A step in which no process is born or dies. -/
structure Settles (s : State n C) (a : Action C) (s' : State n C) : Prop where
  slots : ∀ q, Settled (s.proc q) (s'.proc q)
  killed : ∀ q, Unborn (s.proc q) → (s'.proc q).killed = (s.proc q).killed ∨
    ∃ c pid, a = .process c (.kill pid) ∧ (s.table.find fun proc => proc.pid = pid) = some q
  asleep : ∀ q, Waiting s' q → Waiting s q ∧ (s'.proc q).chan = (s.proc q).chan ∨
    waitScan s.table q = .sleep ∧ (s'.proc q).chan = some (.proc q)
  nextpid : s'.table.nextpid = s.table.nextpid
  logs : s'.table.exited = s.table.exited ∧ s'.table.reaped = s.table.reaped

inductive Outcome (s : State n C) : Action C → State n C → Prop where
  | settles {a : Action C} {s' : State n C} (settles : Settles s a s') : Outcome s a s'
  | forms {a : Action C} {s' : State n C} {np : Fin n} (forms : Forms s s' np) : Outcome s a s'
  | reap {c : C} {p child : Fin n} {k' : Control n C} (current : s.current c = some p)
      (parent : (s.proc child).parent = some p) (zombie : (s.proc child).state = .zombie)
      (threads : ∀ q, k'.threads q = s.thread q ∨ (k'.threads q).switch = none) :
      Outcome s (.process c .waitScan) ⟨s.table.reap p child, k'⟩
  | exit {c : C} {p : Fin n} {k' : Control n C} (running : (s.proc p).state = .running)
      (other : s.table.initproc ≠ some p) (threads : k'.threads = s.control.threads) :
      Outcome s (.process c .exitLast) ⟨s.table.exit p, k'⟩

section

variable {s s' : State n C} {a : Action C} {p np : Fin n} {k' : Control n C}

theorem Settled.unborn {before after : Proc n} (settled : Settled before after) : Unborn after ↔ Unborn before :=
  or_congr settled.unused (settled.state.dead_iff rfl)

theorem claim_forms (unused : (s.proc np).state = .unused)
    (threads : ∀ q, q ≠ np → k'.threads q = s.thread q ∨ (k'.threads q).switch = none) :
    Forms s ⟨s.table.claim np, k'⟩ np := by
  refine ⟨.inl unused, fun q other => Table.claim_ne other, ?_, ?_, .inl ?_, fun _ => .inl ?_,
    Int.le_add_of_nonneg_right (by decide), ⟨rfl, rfl⟩, threads⟩ <;> simp [State.proc, Table.claim]

theorem run_forms (embryo : (s.proc np).state = .embryo)
    (threads : ∀ q, q ≠ np → k'.threads q = s.thread q ∨ (k'.threads q).switch = none) :
    Forms s ⟨s.table.setState np .runnable, k'⟩ np := by
  refine ⟨.inr embryo, fun q other => Table.setState_ne other, ?_, ?_, .inl ?_, fun _ => .inr ⟨by rw [embryo]; simp, ?_⟩,
    Int.le_refl _, ⟨rfl, rfl⟩, threads⟩ <;> simp [State.proc, Table.setState]

theorem base_threads (k : Control n C) (p q : Fin n) (base : Base n) :
    (k.base p base).threads q = k.threads q ∨ ((k.base p base).threads q).switch = none := by
  by_cases same : q = p
  · exact .inr (by simp [Control.base, Control.thread, same])
  · exact .inl (by simp [Control.base, Control.thread, same])

theorem Settles.quiet (procs : s'.table.procs = s.table.procs) (threads : s'.control.threads = s.control.threads)
    (nextpid : s'.table.nextpid = s.table.nextpid)
    (logs : s'.table.exited = s.table.exited ∧ s'.table.reaped = s.table.reaped) : Settles s a s' := by
  have same (q : Fin n) : s'.proc q = s.proc q := congrFun procs q
  refine ⟨fun q => same q ▸ .refl _, fun q _ => .inl (by rw [same]), fun q waiting => .inl ?_, nextpid, logs⟩
  rw [Waiting, same, State.thread, threads] at waiting
  exact ⟨waiting, by rw [same]⟩

theorem Settles.slot (slots : ∀ q, Settled (s.proc q) (s'.proc q)) (born : ¬ Unborn (s.proc p))
    (others : ∀ q, q ≠ p → s'.proc q = s.proc q) (threads : ∀ q, q ≠ p → s'.thread q = s.thread q)
    (own : Waiting s' p → waitScan s.table p = .sleep ∧ (s'.proc p).chan = some (.proc p))
    (nextpid : s'.table.nextpid = s.table.nextpid)
    (logs : s'.table.exited = s.table.exited ∧ s'.table.reaped = s.table.reaped) : Settles s a s' := by
  refine ⟨slots, fun q unborn => .inl ?_, fun q waiting => ?_, nextpid, logs⟩
  · rw [others q fun same => born (same ▸ unborn)]
  · by_cases same : q = p
    · subst same
      exact .inr (own waiting)
    · rw [Waiting, others q same, threads q same] at waiting
      exact .inl ⟨waiting, by rw [others q same]⟩

variable [DecidableEq C]

theorem step_outcome (ordered : Ordered s) (next : step a s = some s') : Outcome s a s' := by
  have effect := step_effect ordered next
  clear next
  have born {r : Fin n} (running : (s.proc r).state = .running) : ¬ Unborn (s.proc r) := by simp [Unborn, running]
  cases effect with
  | @own c p _ _ current own threads base phases =>
    have running := ordered.runs current
    refine .settles (.slot (own.settled running) (born running) own.others threads (fun waiting => ?_) own.nextpid
      ⟨own.exited, own.reaped⟩)
    rcases own.state with is | is <;> rw [Waiting, State.proc, is] at waiting <;> cases waiting.1
  | claim current unused => exact .forms (claim_forms unused fun q _ => base_threads s.control _ q _)
  | @stack c p np addr current here =>
    have embryo := (ordered.building p np (by rw [here]; rfl)).1
    refine .forms ⟨.inr embryo, fun q other => Table.stack_ne other, ?_, ?_, .inl ?_, fun _ => .inr ⟨?_, ?_⟩,
      Int.le_refl _, ⟨rfl, rfl⟩, fun q _ => base_threads s.control p q _⟩ <;> simp [State.proc, Table.stack, embryo]
  | @abandon c p np _ current unborn =>
    have embryo := (ordered.building p np (Base.builds_unborn unborn)).1
    refine .forms ⟨.inr embryo, fun q other => Table.abandon_ne other, ?_, ?_, .inl ?_, fun taken => absurd ?_ taken,
      Int.le_refl _, ⟨rfl, rfl⟩, fun q _ => base_threads s.control p q _⟩ <;> simp [State.proc, Table.abandon]
  | @copy c p np current here =>
    have embryo := (ordered.building p np (by rw [here]; rfl)).1
    refine .forms ⟨.inr embryo, fun q other => Table.copy_ne other, ?_, ?_, .inr ⟨p, by rw [here]⟩,
      fun _ => .inr ⟨?_, ?_⟩, Int.le_refl _, ⟨rfl, rfl⟩, fun q _ => base_threads s.control p q _⟩ <;>
      simp [State.proc, Table.copy, embryo]
  | @forkRun c p np current here =>
    refine .forms (run_forms (ordered.building p np (by rw [here]; rfl)).1 fun q other => ?_)
    simp only [Control.thread, Function.update_of_ne other]
    exact base_threads s.control p q _
  | reap current scanned =>
    obtain ⟨parent, zombie⟩ := waitScan_reap scanned
    exact .reap current parent zombie fun q => base_threads s.control.release _ q _
  | exit current here other => exact .exit (ordered.runs current) other rfl
  | @kill c p q pid current found =>
    refine .settles ⟨killSlot_settled s.table q, fun r _ => ?_, fun r waiting => .inl ?_, rfl, rfl, rfl⟩
    · by_cases same : r = q
      · exact .inr ⟨c, pid, rfl, same ▸ found⟩
      · exact .inl (by rw [State.proc, Table.killSlot_ne same])
    · by_cases same : r = q
      · subst same
        simp only [Waiting, State.proc, Table.killSlot, Table.modify_self] at waiting ⊢
        split at waiting <;> simp_all
      · rw [Waiting, State.proc, Table.killSlot_ne same] at waiting
        exact ⟨waiting, by rw [State.proc, Table.killSlot_ne same]⟩
  | @sleep c p addr base current here =>
    have running := ordered.runs current
    refine .settles (.slot (sleepOn_settled running _) (born running) (fun q other => Table.sleepOn_ne other)
      (fun q other => ?_) (fun waiting => ?_) rfl ⟨rfl, rfl⟩)
    · simp [State.thread, Control.sched, Control.phase, Control.cpu, Control.acquire, Control.thread, other]
    · simp [Waiting, State.thread, Control.sched, Control.phase, Control.cpu, Control.acquire, Control.thread] at waiting
  | @waitSleep c p current here scanned =>
    have running := ordered.runs current
    refine .settles (.slot (sleepOn_settled running _) (born running) (fun q other => Table.sleepOn_ne other)
      (fun q other => ?_) (fun _ => ⟨scanned, by simp [State.proc, Table.sleepOn]⟩) rfl ⟨rfl, rfl⟩)
    simp [State.thread, Control.sched, Control.phase, Control.cpu, Control.acquire, Control.thread, other]
  | bootClaim here unused => exact .forms (claim_forms unused fun _ _ => .inl rfl)
  | @userinit c p _ _ here =>
    have embryo := (ordered.booting c p (by rw [here]; rfl)).1
    refine .forms ⟨.inr embryo, fun q other => (Table.userinit_ne other).trans (Table.stack_ne other), ?_, ?_, .inl ?_,
      fun _ => .inr ⟨?_, ?_⟩, Int.le_refl _, ⟨rfl, rfl⟩, fun _ _ => .inl rfl⟩ <;>
      simp [State.proc, Table.userinit, Table.stack, embryo]
  | @userinitRun c p _ here =>
    refine .forms (run_forms (ordered.booting c p (by rw [here]; rfl)).1 fun q other => .inl ?_)
    simp [State.thread, Control.phase, Control.cpu, Control.thread, other]
  | swtch here runnable =>
    exact .settles (.slot (swtch_settled runnable) (by simp [Unborn, runnable]) (fun q other => Table.setState_ne other)
      (fun _ _ => rfl) (by simp [Waiting, State.proc, Table.setState]) rfl ⟨rfl, rfl⟩)
  | schedules table threads phases => exact .settles (.quiet (by rw [table]) threads (by rw [table]) (by simp [table]))
  | @wakeup addr =>
    refine .settles ⟨wakeup1_settled s.table _, fun q _ => .inl (s.table.wakeup1_passed _ q).1.killed,
      fun q waiting => .inl ?_, rfl, rfl, rfl⟩
    have passed := (s.table.wakeup1_passed (.other addr) q).1
    refine ⟨⟨?_, waiting.2⟩, passed.chan⟩
    rcases passed.state with same | ⟨was, _⟩
    · exact same ▸ waiting.1
    · exact was
  | input => exact .settles (.quiet rfl rfl rfl ⟨rfl, rfl⟩)

end

end Xv6.Processes
