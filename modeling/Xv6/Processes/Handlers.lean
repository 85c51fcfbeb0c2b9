import Xv6.Processes.Tree

set_option autoImplicit false

namespace Xv6.Processes

variable {n : Nat} {C : Type}

structure Shrinks (before after : Proc n) : Prop where
  sz : after.sz = before.sz
  image : after.image = before.image
  registeredBy : after.registeredBy = before.registeredBy
  handlers : ∀ i, after.signalHandlers i = before.signalHandlers i ∨ after.signalHandlers i = 0

theorem Shrinks.refl (proc : Proc n) : Shrinks proc proc := ⟨rfl, rfl, rfl, fun _ => .inl rfl⟩

theorem Table.Passed.shrinks {before after : Proc n} (passed : Table.Passed before after) : Shrinks before after :=
  ⟨passed.sz, passed.image, passed.registeredBy, fun i => .inl (by rw [passed.signalHandlers])⟩

theorem shrinks_modify {t : Table n} {p : Fin n} {change : Proc n → Proc n}
    (slot : Shrinks (t.procs p) (change (t.procs p))) (q : Fin n) :
    Shrinks (t.procs q) ((t.modify p change).procs q) := by
  by_cases same : q = p
  · subst same
    rw [Table.modify_self]
    exact slot
  · rw [Table.modify_ne _ _ same]
    exact .refl _

inductive Reprograms (s : State n C) : Action C → State n C → Prop where
  | shrinks {a : Action C} {s' : State n C} (images : s'.table.images = s.table.images)
      (initproc : s'.table.initproc = s.table.initproc) (slots : ∀ q, Shrinks (s.proc q) (s'.proc q)) : Reprograms s a s'
  | copy {c : C} {p np : Fin n} {s' : State n C} (current : s.current c = some p)
      (here : (s.thread p).base = .forkCopy np) (table : s'.table = s.table.copy p np) :
      Reprograms s (.process c (.forkCopy true)) s'
  | signal {c : C} {p : Fin n} {signum : Int} {i : Fin 32} {handler : Nat} {s' : State n C}
      (current : s.current c = some p) (inside : handler + 4 ≤ (s.proc p).sz)
      (table : s'.table = s.table.register p i handler) : Reprograms s (.process c (.signal signum handler)) s'
  | exec {c : C} {p : Fin n} {sz : Nat} {s' : State n C} (current : s.current c = some p) (bound : sz < kernBase)
      (table : s'.table = s.table.exec p sz) : Reprograms s (.process c (.exec sz)) s'
  | sbrk {c : C} {p : Fin n} {m : Int} {memory : Bool} {sz : Nat} {s' : State n C} (current : s.current c = some p)
      (grown : growproc (s.proc p).sz m memory = some sz) (table : s'.table = s.table.resize p sz) :
      Reprograms s (.process c (.sbrk m memory)) s'
  | userinit {c : C} {p : Fin n} {addr kstack : Nat} {s' : State n C} (here : (s.cpu c).phase = .userinit p)
      (table : s'.table = (s.table.stack p kstack).userinit p)
      (after : (s'.cpu c).phase = .userinitRun p) : Reprograms s (.cpu c addr) s'

theorem deliver_shrinks (t : Table n) (p : Fin n) (signal : Fin 32) (q : Fin n) :
    Shrinks (t.procs q) ((t.deliver p signal).procs q) := by
  by_cases same : q = p
  · subst same
    unfold Table.deliver
    split_ifs
    · refine ⟨by simp [Table.clearSignal], by simp [Table.clearSignal], by simp [Table.clearSignal], fun i => ?_⟩
      by_cases mine : i = signal <;> simp [Table.clearSignal, mine]
    · refine ⟨?_, ?_, ?_, fun i => .inl ?_⟩ <;> simp [Table.clearSignal, Table.markKilled]
    · refine ⟨?_, ?_, ?_, fun i => .inl ?_⟩ <;> simp [Table.clearSignal]
    · exact .refl _
  · rw [Table.deliver_ne t signal same]
    exact .refl _

theorem interrupt_shrinks {t t' : Table n} {p : Fin n} {kind : TrapKind} {chars : List Char}
    (taken : interrupt t p kind chars = some t') (q : Fin n) : Shrinks (t.procs q) (t'.procs q) := by
  rcases interrupt_cases taken with ⟨received, rfl⟩ | ⟨_, rfl⟩
  · exact .refl _
  · have slot (r : Fin n) : Shrinks ((t.receive chars).procs r) (((t.receive chars).raise p sigint).procs r) :=
      shrinks_modify ⟨rfl, rfl, rfl, fun _ => .inl rfl⟩ r
    exact slot q

theorem deliver_rest (t : Table n) (p : Fin n) (signal : Fin 32) :
    (t.deliver p signal).images = t.images ∧ (t.deliver p signal).initproc = t.initproc := by
  unfold Table.deliver
  split_ifs <;> exact ⟨rfl, rfl⟩

theorem interrupt_rest {t t' : Table n} {p : Fin n} {kind : TrapKind} {chars : List Char}
    (taken : interrupt t p kind chars = some t') : t'.images = t.images ∧ t'.initproc = t.initproc := by
  rcases interrupt_cases taken with ⟨received, rfl⟩ | ⟨_, rfl⟩ <;> exact ⟨rfl, rfl⟩

theorem claim_shrinks (t : Table n) (p q : Fin n) : Shrinks (t.procs q) ((t.claim p).procs q) := by
  by_cases same : q = p
  · subst same
    refine ⟨?_, ?_, ?_, fun i => .inr ?_⟩ <;> simp [Table.claim]
  · rw [Table.claim_ne same]
    exact .refl _

theorem reap_shrinks (t : Table n) (caller child q : Fin n) : Shrinks (t.procs q) ((t.reap caller child).procs q) := by
  by_cases same : q = child
  · subst same
    refine ⟨?_, ?_, ?_, fun i => .inl ?_⟩ <;> simp [Table.reap]
  · rw [Table.reap_ne same]
    exact .refl _

theorem setState_shrinks (t : Table n) (p : Fin n) (state : ProcState) (q : Fin n) :
    Shrinks (t.procs q) ((t.setState p state).procs q) := shrinks_modify ⟨rfl, rfl, rfl, fun _ => .inl rfl⟩ q

theorem exit_shrinks (t : Table n) (p q : Fin n) : Shrinks (t.procs q) ((t.exit p).procs q) := by
  by_cases same : q = p
  · subst same
    have exited := (t.exit_self q).1
    exact ⟨exited.sz, exited.image, exited.registeredBy, fun i => .inr (by rw [exited.signalHandlers])⟩
  · exact (t.exit_ne same).1.shrinks

section

variable [DecidableEq C] {s s' : State n C} {c : C} {p : Fin n}

theorem ProcNext.reprograms (current : s.current c = some p) {step : ProcStep} {t' : Table n} {k' : Control n C}
    (next : ProcNext s.table s.control c p step t' k') : Reprograms s (.process c step) ⟨t', k'⟩ := by
  have alone {change : Proc n → Proc n} {r : Fin n} (slot : Shrinks (s.proc r) (change (s.proc r)))
      {step : ProcStep} {k' : Control n C} : Reprograms s (.process c step) ⟨s.table.modify r change, k'⟩ :=
    .shrinks rfl rfl (shrinks_modify slot)
  cases next with
  | resume | proceed | stay | wait | waitFail | quiet | delivered => exact .shrinks rfl rfl fun _ => .refl _
  | wakes | waits | stack | abandon | forkRun | waitSleep | kill | sleep | divide | unexpected | «yield» =>
    exact alone ⟨rfl, rfl, rfl, fun _ => .inl rfl⟩
  | claim => exact .shrinks rfl rfl (claim_shrinks s.table _)
  | reap => exact .shrinks rfl rfl (reap_shrinks s.table _ _)
  | copy here => exact .copy current (by rw [State.thread, here]) rfl
  | exit =>
    obtain ⟨_, rest⟩ := s.table.exit_rest p
    exact .shrinks (by simp only [rest]) (by simp only [rest]) (exit_shrinks s.table p)
  | signal here inside valid => exact .signal current inside rfl
  | exec here bounds => exact .exec current bounds.2 rfl
  | sbrk here grown => exact .sbrk current grown rfl
  | interrupt here interruptible taken => exact .shrinks (interrupt_rest taken).1 (interrupt_rest taken).2 (interrupt_shrinks taken)
  | deliver here => exact .shrinks (deliver_rest s.table p _).1 (deliver_rest s.table p _).2 (deliver_shrinks s.table p _)

theorem CpuNext.reprograms (ordered : Ordered s) {t' : Table n} {k' : Control n C} {addr : Nat}
    (next : CpuNext s.table s.control c t' k') : Reprograms s (.cpu c addr) ⟨t', k'⟩ := by
  have facts := ordered.cpu c
  cases next with
  | claim => exact .shrinks rfl rfl (claim_shrinks s.table _)
  | userinit here allocated => exact .userinit here rfl (by simp [State.cpu, Control.phase, Control.cpu])
  | userinitRun | swtch => exact .shrinks rfl rfl (setState_shrinks s.table _ _)
  | deliver here => simp [CpuFacts, here] at facts
  | handler here => simp [CpuFacts, here] at facts
  | _ => exact .shrinks rfl rfl fun _ => .refl _

theorem step_reprograms {a : Action C} (ordered : Ordered s) (next : step a s = some s') : Reprograms s a s' := by
  have effect := step_next next
  clear next
  cases effect with
  | cpu next => exact next.reprograms ordered
  | process current next => exact next.reprograms current
  | wakeup free => exact .shrinks rfl rfl fun q => (s.table.wakeup1_passed _ q).1.shrinks
  | input here => exact .shrinks rfl rfl fun _ => .refl _

end

theorem growproc_le {sz sz' : Nat} {m : Int} {memory : Bool} (small : sz < kernBase)
    (grown : growproc sz m memory = some sz') : sz' < kernBase := by
  unfold growproc at grown
  dsimp only at grown
  split_ifs at grown <;> cases grown <;> omega

structure Programs (s : State n C) : Prop where
  sz : ∀ p, (s.proc p).sz < kernBase
  handlers : ∀ p i, (s.proc p).signalHandlers i < kernBase
  image : ∀ p, (s.proc p).image < s.table.images
  quiet : s.table.initproc = none → ∀ p i, (s.proc p).signalHandlers i = 0

def Inside (proc : Proc n) : Prop :=
  ∀ i, proc.signalHandlers i ≠ 0 → proc.signalHandlers i < proc.sz ∧ proc.registeredBy i = proc.image

/-- exec or sbrk takes the image away from under a registered handler. -/
def Strands (s : State n C) : Action C → Prop
  | .process c (.exec _) => ∃ p i, s.current c = some p ∧ (s.proc p).signalHandlers i ≠ 0
  | .process c (.sbrk m memory) => ∃ p i sz, s.current c = some p ∧ growproc (s.proc p).sz m memory = some sz ∧
      (s.proc p).signalHandlers i ≠ 0 ∧ sz ≤ (s.proc p).signalHandlers i
  | _ => False

section

variable [DecidableEq C] {s s' : State n C} {c : C} {p : Fin n}

omit [DecidableEq C] in
theorem Tree.rooted (tree : Tree s) (ordered : Ordered s) (current : s.current c = some p) :
    s.table.initproc ≠ none := by
  intro none
  have empty := tree.rootless none p
  rw [ordered.runs current] at empty
  cases empty

theorem step_programs {a : Action C} (ordered : Ordered s) (tree : Tree s) (programs : Programs s)
    (next : step a s = some s') : Programs s' := by
  have effect := step_reprograms ordered next
  clear next
  -- A change of one slot: its bounds are the goal, the rest is as before.
  have slot {r : Fin n} {change : Proc n → Proc n} (table : s'.table.procs = (s.table.modify r change).procs)
      (images : s.table.images ≤ s'.table.images) (sz : (change (s.proc r)).sz < kernBase)
      (handlers : ∀ i, (change (s.proc r)).signalHandlers i < kernBase)
      (image : (change (s.proc r)).image < s'.table.images)
      (quiet : s'.table.initproc = none → ∀ p i, (s'.proc p).signalHandlers i = 0) : Programs s' := by
    have proc (q : Fin n) : s'.proc q = if q = r then change (s.proc r) else s.proc q := by
      rw [State.proc, table]
      by_cases same : q = r
      · subst same
        simp
      · simp [same]
    refine ⟨fun q => ?_, fun q => ?_, fun q => ?_, quiet⟩ <;> rw [proc q] <;> split
    · exact sz
    · exact programs.sz q
    · exact handlers
    · exact programs.handlers q
    · exact image
    · exact lt_of_lt_of_le (programs.image q) images
  have rooted {c : C} {p : Fin n} (current : s.current c = some p) (initproc : s'.table.initproc = s.table.initproc) :
      s'.table.initproc = none → ∀ p i, (s'.proc p).signalHandlers i = 0 :=
    fun none => absurd (initproc ▸ none) (tree.rooted ordered current)
  cases effect with
  | shrinks images initproc slots =>
    refine ⟨fun q => ?_, fun q i => ?_, fun q => ?_, fun none q i => ?_⟩
    · rw [(slots q).sz]
      exact programs.sz q
    · rcases (slots q).handlers i with same | reset
      · rw [same]
        exact programs.handlers q i
      · rw [reset]
        decide
    · rw [(slots q).image, images]
      exact programs.image q
    · rcases (slots q).handlers i with same | reset
      · rw [same]
        exact programs.quiet (initproc ▸ none) q i
      · exact reset
  | @copy c p np _ current here table =>
    exact slot (congrArg Table.procs table) (by rw [table]; rfl) (programs.sz p) (programs.handlers p)
      (by rw [table]; exact programs.image p) (rooted current (by rw [table]; rfl))
  | @signal c p signum i handler _ current inside table =>
    refine slot (congrArg Table.procs table) (by rw [table]; rfl) (programs.sz p) (fun j => ?_)
      (by rw [table]; exact programs.image p) (rooted current (by rw [table]; rfl))
    have small := programs.sz p
    by_cases same : j = i
    · simp only [same, Function.update_self]
      omega
    · simp only [Function.update_of_ne same]
      exact programs.handlers p j
  | @exec c p sz _ current bound table =>
    have procs : s'.table.procs = (s.table.modify p fun proc => { proc with sz, image := s.table.images }).procs := by
      rw [table]
      rfl
    have images : s'.table.images = s.table.images + 1 := by rw [table]; rfl
    exact slot procs (by omega) bound (programs.handlers p) (by rw [images]; exact Nat.lt_succ_self _)
      (rooted current (by rw [table]; rfl))
  | @sbrk c p m memory sz _ current grown table =>
    exact slot (congrArg Table.procs table) (by rw [table]; rfl) (growproc_le (programs.sz p) grown)
      (programs.handlers p) (by rw [table]; exact programs.image p) (rooted current (by rw [table]; rfl))
  | @userinit c p addr kstack _ here table after =>
    have procs : s'.table.procs =
        (s.table.modify p fun proc => { proc with kstack, sz := pgSize, image := s.table.images }).procs := by
      rw [table]
      simp [Table.userinit, Table.stack, Table.modify]
    have images : s'.table.images = s.table.images + 1 := by rw [table]; rfl
    have root : s'.table.initproc = some p := by rw [table]; rfl
    refine slot procs (by omega) (show pgSize < kernBase by decide) (programs.handlers p) (by rw [images]; exact Nat.lt_succ_self _)
      fun none => ?_
    rw [root] at none
    cases none

theorem Inside.shrinks {before after : Proc n} (inside : Inside before) (slot : Shrinks before after) : Inside after := by
  intro i used
  have same := (slot.handlers i).resolve_right used
  rw [same] at used ⊢
  rw [slot.sz, slot.registeredBy, slot.image]
  exact inside i used

theorem step_inside {a : Action C} (ordered : Ordered s) (tree : Tree s) (programs : Programs s)
    (inside : ∀ p, Inside (s.proc p)) (fine : ¬ Strands s a) (next : step a s = some s') :
    ∀ p, Inside (s'.proc p) := by
  have effect := step_reprograms ordered next
  clear next
  have slot {r : Fin n} (others : ∀ q, q ≠ r → s'.proc q = s.proc q) (own : Inside (s'.proc r)) (q : Fin n) :
      Inside (s'.proc q) := by
    by_cases same : q = r
    · exact same ▸ own
    · rw [others q same]
      exact inside q
  cases effect with
  | shrinks images initproc slots => exact fun q => (inside q).shrinks (slots q)
  | @copy c p np _ current here table =>
    refine slot (r := np) (fun q other => by rw [State.proc, table]; exact Table.copy_ne other) ?_
    rw [State.proc, table]
    simpa [Inside, Table.copy] using inside p
  | @signal c p signum i handler _ current bound table =>
    refine slot (r := p) (fun q other => by rw [State.proc, table]; exact Table.modify_ne _ _ other) fun j used => ?_
    simp only [State.proc, table, Table.register, Table.modify_self] at used bound ⊢
    by_cases same : j = i
    · subst same
      simp only [Function.update_self, and_true]
      omega
    · simp only [Function.update_of_ne same] at used ⊢
      exact inside p j used
  | @exec c p sz _ current bound table =>
    refine slot (r := p) (fun q other => by simp [State.proc, table, Table.exec, other]) fun i used => ?_
    simp only [State.proc, table, Table.exec, Table.modify_self] at used
    exact absurd ⟨p, i, current, used⟩ fine
  | @sbrk c p m memory sz _ current grown table =>
    refine slot (r := p) (fun q other => by rw [State.proc, table]; exact Table.modify_ne _ _ other) fun i used => ?_
    simp only [State.proc, table, Table.resize, Table.modify_self] at used ⊢
    refine ⟨?_, (inside p i used).2⟩
    by_contra stranded
    exact fine ⟨p, i, sz, current, grown, used, not_lt.mp stranded⟩
  | @userinit c p addr kstack _ here table after =>
    refine slot (r := p) (fun q other => ?_) fun i used => ?_
    · rw [State.proc, table]
      exact (Table.userinit_ne other).trans (Table.stack_ne other)
    · simp only [State.proc, table, Table.userinit, Table.stack, Table.modify_self] at used
      exact absurd (programs.quiet (tree.before c (.inr ⟨p, here⟩)) p i) used

theorem step_strands {a : Action C} (ordered : Ordered s) (programs : Programs s)
    (inside : ∀ p, Inside (s.proc p)) (strands : Strands s a) (next : step a s = some s') :
    ∃ p, (s'.proc p).state.live = true ∧ ¬ Inside (s'.proc p) := by
  have live {c : C} {p : Fin n} (current : s.current c = some p) : (s.table.procs p).state.live = true := by
    rw [ordered.runs current]
    rfl
  match a with
  | .process c (.exec sz) =>
    obtain ⟨p, i, current, used⟩ := strands
    obtain ⟨q, same, table⟩ := step_exec next
    rw [current] at same
    cases same
    refine ⟨p, by simpa [State.proc, table, Table.exec] using live current, fun all => ?_⟩
    have registered := (all i (by simpa [State.proc, table, Table.exec] using used)).2
    simp only [State.proc, table, Table.exec, Table.modify_self] at registered
    -- The handler belongs to an earlier image.
    have earlier := programs.image p
    rw [State.proc, ← (inside p i used).2] at earlier
    exact absurd registered earlier.ne
  | .process c (.sbrk m memory) =>
    obtain ⟨p, i, sz, current, grown, used, outside⟩ := strands
    obtain ⟨q, same, table⟩ := step_sbrk next
    rw [current] at same
    cases same
    have table := table sz grown
    refine ⟨p, by simpa [State.proc, table, Table.resize] using live current, fun all => ?_⟩
    have below := (all i (by simpa [State.proc, table, Table.resize] using used)).1
    simp only [State.proc, table, Table.resize, Table.modify_self] at below
    exact absurd below (not_lt.mpr outside)

theorem booted_programs (booted : Booted s) : Programs s ∧ ∀ p, Inside (s.proc p) := by
  obtain ⟨c, locking, rfl⟩ := booted
  refine ⟨⟨fun _ => ?_, fun _ _ => ?_, fun _ => ?_, fun _ _ _ => rfl⟩, fun p i used => absurd rfl used⟩
  · show 0 < kernBase
    decide
  · show 0 < kernBase
    decide
  · show 0 < 1
    decide

theorem reachable_programs {allowed : State n C → Action C → Prop} (reached : Runs.Reachable step allowed Booted s) :
    Programs s := (reached.invariant (fun s => (Ordered s ∧ Tree s) ∧ Programs s)
    (fun _ booted => ⟨⟨booted_ordered booted, booted_tree booted⟩, (booted_programs booted).1⟩)
    fun _ _ _ inv _ next => ⟨⟨step_ordered inv.1.1 next, step_tree inv.1.1 inv.1.2 next⟩,
      step_programs inv.1.1 inv.1.2 inv.2 next⟩).2

theorem reachable_inside (reached : Runs.Reachable step (fun s a => ¬ Strands s a) Booted s) (p : Fin n) :
    Inside (s.proc p) := by
  induction reached generalizing p with
  | start booted => exact (booted_programs booted).2 p
  | step before fine next ih =>
    exact step_inside (reachable_ordered before) (reachable_tree before) (reachable_programs before) ih fine next p

/-- On runs whose execs and sbrks strand no handler, all handlers stay inside the current image; the first step that
strands one takes it outside. -/
theorem handlers_inside_image (s : State n C) (reached : Runs.Reachable step (fun s a => ¬ Strands s a) Booted s) :
    (∀ p, (s.proc p).state.live = true → Inside (s.proc p)) ∧
      ∀ a s', step a s = some s' →
        ((∀ p, (s'.proc p).state.live = true → Inside (s'.proc p)) ↔ ¬ Strands s a) := by
  have ordered := reachable_ordered reached
  have programs := reachable_programs reached
  have inside := reachable_inside reached
  refine ⟨fun p _ => inside p, fun a s' next => ⟨fun all strands => ?_, fun fine p _ => ?_⟩⟩
  · obtain ⟨p, live, outside⟩ := step_strands ordered programs inside strands next
    exact outside (all p live)
  · exact step_inside ordered (reachable_tree reached) programs inside fine next p

def signalRun : List (Action Bool) :=
  bootRun ++ [ProcStep.resume, .trapret, .syscall, .signal 8 100].map (.process true)

theorem handlers_inside_image_init : ∃ s : State 1 Bool, Runs.run step signalRun (boot 1 false true) = some s ∧
      (s.proc 0).signalHandlers sigfpe = 100 ∧ (s.proc 0).signalHandlers sigfpe < (s.proc 0).sz := by
  refine ⟨_, rfl, rfl, ?_⟩
  have along : Runs.Along step (fun s a => ¬ Strands s a) signalRun (boot 1 false true) :=
    Runs.along_of_forall signalRun (by simp [signalRun, bootRun, Strands]) _
  exact ((handlers_inside_image _ (Runs.reachable_along (.start ⟨false, true, rfl⟩) signalRun along rfl)).1 0 rfl
    sigfpe (by decide)).1

/-- exec keeps the handler for the next program. -/
theorem exec_keeps_handler :
    ∃ s : State 1 Bool, Runs.run step (signalRun ++ [.process true (.exec 8192)]) (boot 1 false true) = some s ∧
      (s.proc 0).state = .running ∧ (s.proc 0).signalHandlers sigfpe = 100 ∧
      (s.proc 0).registeredBy sigfpe ≠ (s.proc 0).image := by
  refine ⟨_, rfl, rfl, rfl, ?_⟩
  decide

end

/-- The step is a turn of a delivery loop that finds the signal pending and a handler registered. -/
def CallsHandler (s : State n C) : Action C → Prop
  | .process c .trap => ∃ p base kind, ∃ i : Fin 32, s.current c = some p ∧
      s.thread p = ⟨base, some ⟨kind, .deliver i⟩, none⟩ ∧
      (s.proc p).pendingSignals.getLsbD i = true ∧ (s.proc p).signalHandlers i ≠ 0
  | .cpu c _ => ∃ p, ∃ i : Fin 32, (s.cpu c).phase = .signals p i ∧
      (s.proc p).pendingSignals.getLsbD i = true ∧ (s.proc p).signalHandlers i ≠ 0
  | _ => False

section

variable [DecidableEq C] {s s' : State n C} {c : C} {p : Fin n}

omit [DecidableEq C] in
theorem CallsHandler.thread {step : ProcStep} (calls : CallsHandler s (.process c step)) (current : s.current c = some p) :
    ∃ base kind, ∃ i : Fin 32, s.control.threads p = ⟨base, some ⟨kind, .deliver i⟩, none⟩ ∧
      (s.proc p).pendingSignals.getLsbD i = true ∧ (s.proc p).signalHandlers i ≠ 0 := by
  cases step <;> try exact calls.elim
  obtain ⟨q, base, kind, i, same, thread, raised, used⟩ := calls
  rw [current] at same
  cases same
  exact ⟨base, kind, i, thread, raised, used⟩

theorem deliver_called (t : Table n) (p : Fin n) (i : Fin 32) : (t.deliver p i).called =
      if (t.procs p).pendingSignals.getLsbD i = true ∧ (t.procs p).signalHandlers i ≠ 0 then
        t.called ++ [(t.procs p).signalHandlers i] else t.called := by
  unfold Table.deliver
  split_ifs <;> first | rfl | simp_all

theorem step_called {a : Action C} (ordered : Ordered s) (programs : Programs s) (next : step a s = some s') :
    (CallsHandler s a ∧ ∃ addr < kernBase, s'.table.called = s.table.called ++ [addr]) ∨
      ¬ CallsHandler s a ∧ s'.table.called = s.table.called := by
  have effect := step_next next
  clear next
  cases effect with
  | @cpu c addr t' k' next =>
    have facts := ordered.cpu c
    have quiet : ¬ CallsHandler s (.cpu c addr) := by
      rintro ⟨p, i, here, _⟩
      simp [CpuFacts, here] at facts
    refine .inr ⟨quiet, ?_⟩
    cases next with
    | deliver here => simp [CpuFacts, here] at facts
    | _ => rfl
  | @process c p step t' k' current next =>
    have quiet (other : ∀ base kind signal, s.control.threads p = ⟨base, some ⟨kind, .deliver signal⟩, none⟩ →
        32 ≤ signal) : ¬ CallsHandler s (.process c step) := by
      intro calls
      obtain ⟨base, kind, i, thread, _⟩ := calls.thread current
      exact absurd (other base kind i thread) (not_le.mpr i.isLt)
    have silent {base : Base n} {trap : Option Trap} {switch : Option Switch}
        (here : s.control.threads p = ⟨base, trap, switch⟩)
        (point : ∀ kind signal, trap = some ⟨kind, .deliver signal⟩ → switch = none → 32 ≤ signal) :
        ¬ CallsHandler s (.process c step) := by
      refine quiet fun base kind signal thread => ?_
      rw [here] at thread
      cases thread
      exact point kind signal rfl rfl
    cases next with
    | @deliver base kind i here =>
      rw [show (⟨s.table.deliver p i, _⟩ : State n C).table.called = _ from deliver_called s.table p i]
      split_ifs with calls
      · exact .inl ⟨⟨p, base, kind, i, current, here, calls.1, calls.2⟩, _, programs.handlers p i, rfl⟩
      · refine .inr ⟨fun also => calls ?_, rfl⟩
        obtain ⟨_, _, j, thread, raised, used⟩ := also.thread current
        rw [here] at thread
        have same : i = j := by
          simp only [Thread.mk.injEq, Option.some.injEq, Trap.mk.injEq, TrapPoint.deliver.injEq] at thread
          exact Fin.ext thread.2.1.2
        subst same
        exact ⟨raised, used⟩
    | resume here lock | wakes here | waits here => exact .inr ⟨silent here (by simp), rfl⟩
    | proceed here bases traps point delivering =>
      exact .inr ⟨silent here fun kind signal is _ => absurd is (point kind signal), rfl⟩
    | delivered here all =>
      refine .inr ⟨silent here fun kind signal is _ => ?_, rfl⟩
      cases is
      exact all
    | exit here free other =>
      obtain ⟨_, rest⟩ := s.table.exit_rest p
      exact .inr ⟨silent here (by simp), by simp only [rest]⟩
    | interrupt here interruptible taken =>
      refine .inr ⟨silent here (by simp), ?_⟩
      rcases interrupt_cases taken with ⟨received, rfl⟩ | ⟨_, rfl⟩ <;> rfl
    | stay here | claim here | stack here | abandon here | copy here | forkRun here | wait here | reap here
    | waitFail here | waitSleep here | kill here | sleep here | signal here | exec here | sbrk here | divide here
    | unexpected here | quiet here | «yield» here => exact .inr ⟨silent here (by simp), rfl⟩
  | wakeup | input => exact .inr ⟨id, rfl⟩

theorem run_called {actions : List (Action C)} (reached : Runs.Reachable step (fun _ _ => True) Booted s)
    (runs : Runs.run step actions s = some s') :
    ∃ calls, s'.table.called = s.table.called ++ calls ∧ (∀ addr ∈ calls, addr < kernBase) ∧
      (calls = [] ↔ Runs.Along step (fun s a => ¬ CallsHandler s a) actions s) := by
  induction actions generalizing s with
  | nil =>
    cases runs
    exact ⟨[], by simp, by simp, iff_of_true rfl trivial⟩
  | cons a rest ih =>
    obtain ⟨mid, first, later⟩ := Option.bind_eq_some_iff.mp runs
    obtain ⟨calls, called, user, none⟩ := ih (.step reached trivial first) later
    have along : Runs.Along step (fun s a => ¬ CallsHandler s a) (a :: rest) s ↔
        ¬ CallsHandler s a ∧ Runs.Along step (fun s a => ¬ CallsHandler s a) rest mid := by
      refine and_congr_right fun _ => ⟨fun all => all mid first, fun tail t next => ?_⟩
      rw [first] at next
      cases next
      exact tail
    rw [along]
    rcases step_called (reachable_ordered reached) (reachable_programs reached) first with
      ⟨calling, addr, small, grown⟩ | ⟨silent, same⟩
    · refine ⟨addr :: calls, by rw [called, grown]; simp, by simpa using ⟨small, user⟩, ?_⟩
      exact iff_of_false (by simp) fun both => both.1 calling
    · refine ⟨calls, by rw [called, same], user, ?_⟩
      rw [none]
      exact ⟨fun tail => ⟨silent, tail⟩, fun both => both.2⟩

/-- The kernel calls kernel addresses only exactly on the runs that deliver no signal to a registered handler. -/
theorem kernel_calls_kernel (c : C) (locking : Bool) (actions : List (Action C)) (s : State n C)
    (runs : Runs.run step actions (boot n c locking) = some s) :
    (∀ addr ∈ s.table.called, kernBase ≤ addr) ↔
      Runs.Along step (fun s a => ¬ CallsHandler s a) actions (boot n c locking) := by
  obtain ⟨calls, called, user, none⟩ := run_called (.start ⟨c, locking, rfl⟩) runs
  have all : s.table.called = calls := by rw [called]; rfl
  rw [← none, all]
  constructor
  · intro kernel
    refine List.eq_nil_iff_forall_not_mem.mpr fun addr mem => ?_
    exact absurd (kernel addr mem) (not_le.mpr (user addr mem))
  · rintro rfl
    simp

theorem kernel_calls_kernel_boot : ∃ s : State 1 Bool, Runs.run step bootRun (boot 1 false true) = some s ∧
      Runs.Along step (fun s a => ¬ CallsHandler s a) bootRun (boot 1 false true) := by
  refine ⟨_, rfl, ?_⟩
  exact (kernel_calls_kernel false true bootRun _ rfl).mp fun addr mem => absurd mem List.not_mem_nil

def divideRun : List (Action Bool) :=
  signalRun ++ ([ProcStep.sysret, .divide] ++ List.replicate 10 ProcStep.trap).map (.process true)

theorem trap_calls_user_address :
    ∃ s : State 1 Bool, Runs.run step divideRun (boot 1 false true) = some s ∧ s.table.called = [100] ∧
      100 < kernBase :=
  ⟨_, rfl, rfl, by decide⟩

end

end Xv6.Processes
