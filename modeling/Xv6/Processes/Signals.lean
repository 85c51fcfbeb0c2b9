import Xv6.Processes.Effects

set_option autoImplicit false

namespace Xv6.Processes

variable {n : Nat} {C : Type}

abbrev State.pending (s : State n C) (p : Fin n) (i : Nat) : Bool := (s.proc p).pendingSignals.getLsbD i

inductive RaisedBy (s s' : State n C) (q : Fin n) : Action C → Nat → Prop where
  | divide {c : C} (current : s.current c = some q) (trap : (s'.thread q).trap = some ⟨.divide, .check⟩) :
      RaisedBy s s' q (.process c .divide) sigfpe
  | sigint {c : C} {kind : TrapKind} {chars : List Char} (current : s.current c = some q)
      (source : kind = .kbd ∨ kind = .com1 ∧ 'C' ∈ chars) (trap : (s'.thread q).trap = some ⟨kind, .check⟩)
      (received : s'.table.received = s.table.received ++ chars) :
      RaisedBy s s' q (.process c (.interrupt kind chars)) sigint

section

variable {s s' : State n C} {c : C} {p : Fin n} {i : Nat}

theorem Sane.running_of_pending (sane : Sane s) (raised : s.pending p i = true) :
    (s.proc p).state = .running ∧ ∃ j, (s.thread p).delivering = some j := by
  have some : (s.proc p).pendingSignals ≠ 0 := by
    intro none
    rw [State.pending, none] at raised
    exact absurd raised (by simp)
  obtain ⟨j, delivering, running, _⟩ := sane.pending p some
  exact ⟨running, j, delivering⟩

variable [DecidableEq C]

theorem Effect.pending_other (ordered : Ordered s) {a : Action C} (effect : Effect s a s') {q : Fin n}
    (other : ∀ c step, a = .process c step → s.current c ≠ some q) (raised : s'.pending q i = true) :
    s.pending q i = true ∧ s'.thread q = s.thread q := by
  have differs {c : C} {p : Fin n} {step : ProcStep} (is : a = .process c step) (current : s.current c = some p) :
      q ≠ p := fun same => other c step is (same ▸ current)
  -- The signals are as before, so the process was running and is none of those whose thread changes.
  have kept (same : (s'.proc q).pendingSignals = (s.proc q).pendingSignals)
      (thread : (s.proc q).state = .running → s'.thread q = s.thread q) :
      s.pending q i = true ∧ s'.thread q = s.thread q := by
    rw [State.pending, same] at raised
    exact ⟨raised, thread (ordered.running_of_pending raised).1⟩
  have apart {p : Fin n} (embryo : (s.proc p).state = .embryo) (running : (s.proc q).state = .running) : q ≠ p := by
    rintro rfl
    rw [embryo] at running
    cases running
  have base {p : Fin n} (different : q ≠ p) (k : Control n C) (b : Base n) : (k.base p b).threads q = k.threads q := by
    simp [Control.base, Control.thread, different]
  cases effect with
  | own current own threads _ _ =>
    have different := differs rfl current
    exact kept (by rw [State.proc, own.others q different]) fun _ => threads q different
  | @claim c p np current unused =>
    by_cases same : q = np
    · subst same
      simp [State.pending, State.proc, Table.claim] at raised
    · exact kept (by rw [State.proc, Table.claim_ne same]) fun _ => base (differs rfl current) _ _
  | @stack c p np addr current here =>
    exact kept (Table.modify_field Proc.pendingSignals q rfl rfl) fun _ => base (differs rfl current) _ _
  | @abandon c p np _ current unborn =>
    exact kept (Table.modify_field Proc.pendingSignals q rfl rfl) fun _ => base (differs rfl current) _ _
  | @copy c p np current here =>
    exact kept (Table.modify_field Proc.pendingSignals q rfl rfl) fun _ => base (differs rfl current) _ _
  | @forkRun c p np current here =>
    have embryo := (ordered.building p np (by rw [here]; rfl)).1
    refine kept (Table.modify_field Proc.pendingSignals q rfl rfl) fun running => ?_
    simp [State.thread, Control.base, Control.thread, apart embryo running, differs rfl current]
  | @reap c p child current scanned =>
    refine kept ?_ fun _ => base (differs rfl current) _ _
    by_cases same : q = child <;> simp [State.proc, Table.reap, same]
  | exit current here _ => exact kept (s.table.exit_ne (differs rfl current)).1.pendingSignals fun _ => rfl
  | @kill c p r pid current found =>
    exact kept (Table.modify_field Proc.pendingSignals q rfl rfl) fun _ => rfl
  | sleep current here | waitSleep current here scanned =>
    have different := differs rfl current
    exact kept (by rw [State.proc, Table.sleepOn_ne different]) fun _ => Function.update_of_ne different ..
  | @bootClaim c p _ here unused =>
    by_cases same : q = p
    · subst same
      simp [State.pending, State.proc, Table.claim] at raised
    · exact kept (by rw [State.proc, Table.claim_ne same]) fun _ => rfl
  | @userinit c p _ _ here =>
    refine kept ?_ fun _ => rfl
    by_cases same : q = p <;> simp [State.proc, Table.userinit, Table.stack, same]
  | @userinitRun c p _ here =>
    have embryo := (ordered.booting c p (by rw [here]; rfl)).1
    refine kept (Table.modify_field Proc.pendingSignals q rfl rfl) fun running => ?_
    exact Function.update_of_ne (apart embryo running) ..
  | @swtch c p _ here runnable =>
    exact kept (Table.modify_field Proc.pendingSignals q rfl rfl) fun _ => rfl
  | schedules table threads _ =>
    exact kept (by rw [State.proc, State.proc, table]) fun _ => by rw [State.thread, State.thread, threads]
  | wakeup => exact kept (s.table.wakeup1_passed _ q).1.pendingSignals fun _ => rfl
  | input => exact kept rfl fun _ => rfl

theorem ProcNext.pending_own (ordered : Ordered s) (current : s.current c = some p) {step : ProcStep} {t' : Table n}
    {k' : Control n C} (next : ProcNext s.table s.control c p step t' k')
    (raised : (⟨t', k'⟩ : State n C).pending p i = true) :
    (s.pending p i = true ∧ ((k'.threads p).trap.map Trap.kind) = (s.thread p).trap.map Trap.kind) ∨
      RaisedBy s ⟨t', k'⟩ p (.process c step) i := by
  have running := ordered.runs current
  -- Outside of a delivery loop nothing is pending, so a step that raises nothing has nothing pending after it.
  have calm (silent : (s.thread p).delivering = none)
      (kept : (t'.procs p).pendingSignals = (s.proc p).pendingSignals) : False := by
    rw [State.pending, State.proc, kept, ordered.quiet silent] at raised
    exact absurd raised (by simp)
  have silent {base : Base n} {switch : Option Switch} (here : s.control.threads p = ⟨base, none, switch⟩) :
      (s.thread p).delivering = none := by
    rw [State.thread, here]
    rfl
  have raises {signal : Fin 32} (received : List Char) (calmly : (s.thread p).delivering = none)
      (table : t' = (s.table.receive received).raise p signal) : i = signal := by
    have none := ordered.quiet calmly
    rw [State.proc] at none
    by_contra other
    simp [State.pending, State.proc, table, Table.raise, Table.receive, none, Ne.symm other] at raised
  cases next with
  | @resume base trap _ here _ | @wakes base trap here | @waits base trap here =>
    refine .inl ⟨by simpa [State.pending, State.proc, Table.clearChan] using raised, ?_⟩
    simp [Control.thread, State.thread, here]
  | @proceed _ base base' trap trap' here bases traps point delivering =>
    refine .inl ⟨raised, ?_⟩
    obtain ⟨_, j, busy⟩ := ordered.running_of_pending raised
    rw [State.thread, here] at busy ⊢
    rcases traps with none | ⟨kind, _, _, was, is⟩
    · rw [none] at delivering
      exact absurd (delivering.trans busy) (by simp)
    · simp [Control.thread, was, is]
  | stay here | wait here | waitFail here => exact (calm (silent here) rfl).elim
  | @claim np here free unused =>
    have different := ordered.differs current unused (by simp)
    exact (calm (silent here) (by rw [Table.claim_ne different.symm])).elim
  | @reap child here => exact (calm (silent here) (by by_cases same : p = child <;> simp [Table.reap, same])).elim
  | stack here | abandon here | copy here | forkRun here | kill here =>
    exact (calm (silent here) (Table.modify_field Proc.pendingSignals p rfl rfl)).elim
  | waitSleep here | sleep here => exact (calm (silent here) (by simp [Table.sleepOn])).elim
  | exit here =>
    exact (calm (silent here) (s.table.exit_self p).1.pendingSignals).elim
  | signal here => exact (calm (silent here) (by simp [Table.register])).elim
  | exec here => exact (calm (silent here) (by simp [Table.exec])).elim
  | sbrk here => exact (calm (silent here) (by simp [Table.resize])).elim
  | unexpected here => exact (calm (silent here) (by simp [Table.markKilled])).elim
  | @interrupt kind chars base _ here interruptible taken =>
    rcases interrupt_cases taken with ⟨received, rfl⟩ | ⟨source, rfl⟩
    · exact (calm (silent here) rfl).elim
    · cases raises chars (silent here) rfl
      exact .inr (.sigint current source (by simp [State.thread, Control.thread]) rfl)
  | divide here =>
    have is : i = (sigfpe : Fin 32) := raises [] (silent here) (by simp [Table.receive])
    subst is
    exact .inr (.divide current (by simp [State.thread, Control.thread]))
  | quiet here nothing =>
    rw [State.pending, State.proc, nothing] at raised
    exact absurd raised (by simp)
  | @deliver base kind signal here =>
    rw [State.pending, State.proc, s.table.deliver_pending p signal i, Bool.and_eq_true] at raised
    exact .inl ⟨raised.1, by simp [Control.thread, State.thread, here]⟩
  | delivered here all => exact .inl ⟨raised, by simp [Control.thread, State.thread, here]⟩
  | «yield» here free => exact (calm (by rw [State.thread, here]; rfl) (by simp [Table.setState])).elim

theorem step_pending {a : Action C} (ordered : Ordered s) (next : step a s = some s') {q : Fin n}
    (raised : s'.pending q i = true) :
    (s.pending q i = true ∧ (s'.thread q).trap.map Trap.kind = (s.thread q).trap.map Trap.kind) ∨
      RaisedBy s s' q a i := by
  have effect := step_effect ordered next
  by_cases own : ∃ c step, a = .process c step ∧ s.current c = some q
  · obtain ⟨c, stp, rfl, current⟩ := own
    cases step_next next with
    | @process _ p _ _ _ same next =>
      rw [current] at same
      cases same
      exact next.pending_own ordered current raised
  · have other (c : C) (stp : ProcStep) (is : a = .process c stp) : s.current c ≠ some q :=
      fun current => own ⟨c, stp, is, current⟩
    obtain ⟨before, thread⟩ := effect.pending_other ordered other raised
    exact .inl ⟨before, by rw [thread]⟩

end

/-- Signal 8 is pending in a divide trap only, and signal 2 in others. -/
def Kinds (s : State n C) : Prop :=
  ∀ q i, s.pending q i = true → ∃ trap, (s.thread q).trap = some trap ∧
    (i = sigfpe ∧ trap.kind = .divide ∨ i = sigint ∧ trap.kind ≠ .divide)

inductive KillReason (s : State n C) (q : Fin n) : Action C → Prop where
  | kill {c : C} : KillReason s q (.process c (.kill (s.proc q).pid))
  | unexpected {c : C} (current : s.current c = some q) : KillReason s q (.process c .unexpected)
  | sigfpe {c : C} (current : s.current c = some q) (trap : (s.thread q).trap = some ⟨.divide, .deliver sigfpe⟩)
      (default : (s.proc q).signalHandlers sigfpe = 0) : KillReason s q (.process c .trap)
  | sigint {c : C} {kind : TrapKind} (current : s.current c = some q)
      (trap : (s.thread q).trap = some ⟨kind, .deliver sigint⟩) (pending : s.pending q sigint = true)
      (default : (s.proc q).signalHandlers sigint = 0) : KillReason s q (.process c .trap)

/-- A keyboard interrupt of a running process that brings no 'C'. -/
def BlindKeyboard : Action C → Prop
  | .process _ (.interrupt .kbd chars) => 'C' ∉ chars
  | _ => False

/-- SIGINT is pending only after a 'C'. -/
def Heard (s : State n C) : Prop := ∀ q, s.pending q sigint = true → 'C' ∈ s.table.received

section

variable [DecidableEq C] {s s' : State n C} {c : C} {p : Fin n} {a : Action C}

theorem step_kinds (ordered : Ordered s) (kinds : Kinds s) (next : step a s = some s') : Kinds s' := by
  intro q i raised
  rcases step_pending ordered next raised with ⟨before, same⟩ | raise
  · obtain ⟨trap, was, kind⟩ := kinds q i before
    rw [was] at same
    obtain ⟨trap', is, equal⟩ := Option.map_eq_some_iff.mp same
    exact ⟨trap', is, by rw [equal]; exact kind⟩
  · cases raise with
    | divide current trap => exact ⟨_, trap, .inl ⟨rfl, rfl⟩⟩
    | sigint current source trap received =>
      refine ⟨_, trap, .inr ⟨rfl, ?_⟩⟩
      rcases source with rfl | ⟨rfl, _⟩ <;> simp

theorem deliver_killed {t : Table n} {q : Fin n} {signal : Fin 32} (alive : (t.procs q).killed = false)
    (dead : ((t.deliver p signal).procs q).killed = true) :
    q = p ∧ (t.procs p).pendingSignals.getLsbD signal = true ∧ (t.procs p).signalHandlers signal = 0 ∧
      (signal = sigint ∨ signal = sigfpe) := by
  have same : q = p := by
    by_contra different
    rw [Table.deliver_ne t signal different, alive] at dead
    cases dead
  subst same
  unfold Table.deliver at dead
  split_ifs at dead with raised used kills
  · simp [Table.clearSignal, alive] at dead
  · exact ⟨rfl, raised, not_not.mp used, kills⟩
  · simp [Table.clearSignal, alive] at dead
  · rw [alive] at dead
    cases dead

theorem step_killed (ordered : Ordered s) (kinds : Kinds s) (next : step a s = some s') {q : Fin n}
    (alive : (s.proc q).killed = false) (dead : (s'.proc q).killed = true) : KillReason s q a := by
  have effect := step_next next
  clear next
  have kept (same : (s'.proc q).killed = (s.proc q).killed) : False := by
    rw [same, alive] at dead
    cases dead
  cases effect with
  | @cpu c addr t' k' next =>
    have facts := ordered.cpu c
    refine (kept ?_).elim
    cases next with
    | @userinit p => by_cases same : q = p <;> simp [State.proc, Table.userinit, Table.stack, same]
    | @claim p => by_cases same : q = p <;> simp [State.proc, Table.claim, same]
    | userinitRun | swtch => exact Table.modify_field Proc.killed q rfl rfl
    | deliver here => simp [CpuFacts, here] at facts
    | _ => rfl
  | @process c p step t' k' current next =>
    cases next with
    | @kill pid r here free found =>
      have same : q = r := by
        by_contra different
        exact kept (by rw [State.proc, Table.killSlot_ne different])
      subst same
      have target : (s.proc q).pid = pid := by simpa using Table.find_some found
      exact target ▸ .kill
    | unexpected here =>
      have same : q = p := by
        by_contra different
        exact kept (by simp [State.proc, Table.markKilled, different])
      exact .unexpected (same ▸ current)
    | @deliver base kind signal here =>
      obtain ⟨rfl, raised, default, which⟩ := deliver_killed alive dead
      have trap : (s.thread q).trap = some ⟨kind, .deliver signal⟩ := by rw [State.thread, here]
      rcases which with rfl | rfl
      · exact .sigint current trap raised default
      · obtain ⟨_, same, ⟨_, divide⟩ | ⟨wrong, _⟩⟩ := kinds q _ raised
        · rw [trap] at same
          cases same
          cases divide
          exact .sigfpe current trap default
        · exact absurd wrong (by decide)
    | @exit masked here free other =>
      refine (kept ?_).elim
      by_cases same : q = p
      · subst same
        exact (s.table.exit_self q).1.killed
      · exact (s.table.exit_ne same).1.killed
    | @reap child =>
      by_cases same : q = child
      · simp [State.proc, Table.reap, same] at dead
      · exact (kept (by rw [State.proc, Table.reap_ne same])).elim
    | interrupt here interruptible taken =>
      refine (kept ?_).elim
      rcases interrupt_cases taken with ⟨received, rfl⟩ | ⟨_, rfl⟩
      · rfl
      · by_cases same : q = p <;> simp [State.proc, Table.raise, Table.receive, same]
    | resume | proceed | stay | wait | waitFail | quiet | delivered => exact (kept rfl).elim
    | @claim np => exact (kept (by by_cases same : q = np <;> simp [State.proc, Table.claim, same])).elim
    | exec => exact (kept (by by_cases same : q = p <;> simp [State.proc, Table.exec, same])).elim
    | wakes | waits | stack | abandon | copy | forkRun | waitSleep | sleep | signal | sbrk | divide | «yield» =>
       exact (kept (Table.modify_field Proc.killed q rfl rfl)).elim
  | wakeup free => exact (kept (s.table.wakeup1_passed _ q).1.killed).elim
  | input here => exact (kept rfl).elim

theorem step_received (ordered : Ordered s) (next : step a s = some s') :
    ∃ chars, s'.table.received = s.table.received ++ chars := by
  have effect := step_next next
  clear next
  have kept (same : s'.table.received = s.table.received) : ∃ chars, s'.table.received = s.table.received ++ chars :=
    ⟨[], by rw [same, List.append_nil]⟩
  cases effect with
  | @cpu c addr t' k' next =>
    have facts := ordered.cpu c
    refine kept ?_
    cases next with
    | deliver here => simp [CpuFacts, here] at facts
    | _ => rfl
  | @process c p step t' k' current next =>
    cases next with
    | interrupt here interruptible taken =>
      rcases interrupt_cases taken with ⟨received, rfl⟩ | ⟨_, rfl⟩
      · exact ⟨received, rfl⟩
      · exact ⟨_, rfl⟩
    | deliver here =>
      refine kept ?_
      unfold Table.deliver
      split_ifs <;> rfl
    | exit =>
      obtain ⟨_, rest⟩ := s.table.exit_rest p
      exact kept (by simp only [rest])
    | _ => exact kept rfl
  | wakeup free => exact kept rfl
  | input here => exact ⟨_, rfl⟩

theorem step_sigint (ordered : Ordered s) (next : step a s = some s') {q : Fin n}
    (raised : s'.pending q sigint = true) :
    s.pending q sigint = true ∨ ∃ c kind chars, a = .process c (.interrupt kind chars) ∧
      (kind = .kbd ∨ kind = .com1 ∧ 'C' ∈ chars) ∧ s'.table.received = s.table.received ++ chars := by
  rcases step_pending ordered next raised with ⟨before, _⟩ | raise
  · exact .inl before
  · generalize index : ((sigint : Fin 32) : Nat) = i at raise
    cases raise with
    | divide current trap => exact absurd index (by decide)
    | @sigint c kind chars current source trap received => exact .inr ⟨c, kind, chars, rfl, source, received⟩

theorem step_heard (ordered : Ordered s) (heard : Heard s) (fine : ¬ BlindKeyboard a) (next : step a s = some s') :
    Heard s' := by
  intro q raised
  rcases step_sigint ordered next raised with before | ⟨c, kind, chars, rfl, source, received⟩
  · obtain ⟨chars, grown⟩ := step_received ordered next
    rw [grown]
    exact List.mem_append_left _ (heard q before)
  · rw [received]
    refine List.mem_append_right _ ?_
    rcases source with rfl | ⟨_, shiftC⟩
    · exact not_not.mp fine
    · exact shiftC

theorem booted_kinds (booted : Booted s) : Kinds s ∧ Heard s := by
  obtain ⟨c, locking, rfl⟩ := booted
  have nothing (q : Fin n) (i : Nat) : (boot n c locking).pending q i = false := BitVec.getLsbD_zero
  constructor
  · intro q i raised
    rw [nothing] at raised
    cases raised
  · intro q raised
    rw [nothing] at raised
    cases raised

theorem reachable_kinds {allowed : State n C → Action C → Prop} (reached : Runs.Reachable step allowed Booted s) :
    Kinds s := (reached.invariant (fun s => Ordered s ∧ Kinds s)
    (fun _ booted => ⟨booted_ordered booted, (booted_kinds booted).1⟩)
    fun _ _ _ inv _ next => ⟨step_ordered inv.1 next, step_kinds inv.1 inv.2 next⟩).2

theorem reachable_heard (reached : Runs.Reachable step (fun _ a => ¬ BlindKeyboard a) Booted s) : Heard s :=
  (reached.invariant (fun s => Ordered s ∧ Heard s)
    (fun _ booted => ⟨booted_ordered booted, (booted_kinds booted).2⟩)
    fun _ _ _ inv fine next => ⟨step_ordered inv.1 next, step_heard inv.1 inv.2 fine next⟩).2

theorem step_blind (ordered : Ordered s) (blind : BlindKeyboard a) (next : step a s = some s') :
    ∃ q c chars, a = .process c (.interrupt .kbd chars) ∧ 'C' ∉ chars ∧ s.pending q sigint = false ∧
      s'.pending q sigint = true := by
  match a with
  | .process c (.interrupt .kbd chars) =>
    obtain ⟨p, base, current, here, taken⟩ := step_interrupt next
    have none : (s.proc p).pendingSignals = 0 := ordered.quiet (by rw [State.thread, here]; rfl)
    refine ⟨p, c, chars, rfl, blind, by rw [State.pending, none]; exact BitVec.getLsbD_zero, ?_⟩
    obtain ⟨received, _, table⟩ := Option.map_eq_some_iff.mp taken
    simp [State.pending, State.proc, ← table, Table.raise]

/-- Processes die for a stated reason; SIGINT is tied to 'C' exactly as long as every keyboard interrupt of a running
process brings one. -/
theorem deaths_have_reasons (s : State n C) (reached : Runs.Reachable step (fun _ a => ¬ BlindKeyboard a) Booted s) :
    (∀ a s' q, step a s = some s' → (s.proc q).killed = false → (s'.proc q).killed = true → KillReason s q a) ∧
      ('C' ∉ s.table.received → ∀ q, s.pending q sigint = false) ∧
      ∀ a s', step a s = some s' → ((∀ q, s.pending q sigint = false → s'.pending q sigint = true →
        ∃ c kind chars, a = .process c (.interrupt kind chars) ∧ 'C' ∈ chars) ↔ ¬ BlindKeyboard a) := by
  have ordered := reachable_ordered reached
  refine ⟨fun a s' q next alive dead => step_killed ordered (reachable_kinds reached) next alive dead,
    fun silent q => ?_, fun a s' next => ⟨fun all blind => ?_, fun fine q before after => ?_⟩⟩
  · by_contra raised
    exact silent (reachable_heard reached q (Bool.not_eq_false _ ▸ raised))
  · obtain ⟨q, c, chars, rfl, missing, before, after⟩ := step_blind ordered blind next
    obtain ⟨_, _, _, same, shiftC⟩ := all q before after
    cases same
    exact missing shiftC
  · rcases step_sigint ordered next after with was | ⟨c, kind, chars, rfl, source, _⟩
    · rw [before] at was
      cases was
    · refine ⟨c, kind, chars, rfl, ?_⟩
      rcases source with rfl | ⟨_, shiftC⟩
      · exact not_not.mp fine
      · exact shiftC

def fpeRun : List (Action Bool) :=
  bootRun ++ ([ProcStep.resume, .trapret, .divide] ++ List.replicate 9 ProcStep.trap).map (.process true)

theorem deaths_have_reasons_divide :
    ∃ s s' : State 1 Bool, Runs.run step fpeRun (boot 1 false true) = some s ∧ step (.process true .trap) s = some s' ∧
      (s'.proc 0).killed = true ∧ KillReason s 0 (.process true .trap) := by
  refine ⟨_, _, rfl, rfl, rfl, ?_⟩
  have along : Runs.Along step (fun _ a => ¬ BlindKeyboard a) fpeRun (boot 1 false true) :=
    Runs.along_of_forall fpeRun (by simp [fpeRun, bootRun, BlindKeyboard]) _
  exact (deaths_have_reasons _ (Runs.reachable_along (.start ⟨false, true, rfl⟩) fpeRun along rfl)).1 _ _ 0 rfl rfl rfl

def keyRun : List (Action Bool) :=
  bootRun ++ ([ProcStep.resume, .trapret, .interrupt .kbd ['a']] ++ List.replicate 4 ProcStep.trap).map (.process true)

theorem any_key_kills :
    ∃ s : State 1 Bool, Runs.run step keyRun (boot 1 false true) = some s ∧ (s.proc 0).killed = true ∧
      s.table.received = ['a'] :=
  ⟨_, rfl, rfl, rfl⟩

end

end Xv6.Processes
