import Xv6.Processes.Invariant

set_option autoImplicit false

namespace Xv6.Processes

variable {n : Nat} {C : Type} {s s' : State n C} {c : C} {p : Fin n} {t' : Table n} {np : Fin n} {base : Base n}
  {k' k : Control n C} {trap : Option Trap}

theorem interrupt_slots {t : Table n} {kind : TrapKind} {chars : List Char}
    (taken : interrupt t p kind chars = some t') :
    (∀ q, q ≠ p → t'.procs q = t.procs q) ∧ (t'.procs p).state = (t.procs p).state := by
  rcases interrupt_cases taken with ⟨received, rfl⟩ | ⟨_, rfl⟩
  · exact ⟨fun _ _ => rfl, rfl⟩
  · exact ⟨fun q different => by simp [Table.raise, Table.receive, different], by simp [Table.raise, Table.receive]⟩

theorem Sane.forkClaim (sane : Sane s) (current : s.current c = some p) (here : s.thread p = ⟨.syscall, none, none⟩)
    (unused : (s.proc np).state = .unused) : Sane ⟨s.table.claim np, s.control.base p (.forkStack np)⟩ := by
  have different := sane.differs current unused (by simp)
  refine sane.forks current here (by simp) (Function.update_self ..) (by simp) rfl rfl
    (by simp [State.proc, Table.claim, different.symm]) (fun q other => ?_)
    (.inr (.inr ⟨np, rfl, unused, by simp [State.proc, Table.claim]⟩)) fun q other => ?_
  · have thread : (s.control.base p (.forkStack np)).threads q = s.thread q := Function.update_of_ne other ..
    by_cases same : q = np
    · subst same
      exact .claimed unused (by simp [State.proc, Table.claim]) thread
    · exact .same (by simp [State.proc, Table.claim, same]) thread
  · by_cases same : q = np
    · exact .inr (by simp [State.proc, Table.claim, same])
    · exact .inl (by simp [State.proc, Table.claim, same])

theorem Sane.forkFills (sane : Sane s) (current : s.current c = some p) {base' : Base n}
    (here : s.thread p = ⟨base, none, none⟩) (was : base.builds = some np) (now : base'.builds = some np)
    (others : ∀ q, q ≠ np → t'.procs q = s.proc q) (state : (t'.procs np).state = (s.proc np).state)
    (pending : (t'.procs np).pendingSignals = (s.proc np).pendingSignals) : Sane ⟨t', s.control.base p base'⟩ := by
  have different := sane.differs current (sane.building p np (by rw [here]; exact was)).1 (by simp)
  have outside {base : Base n} (builds : base.builds = some np) : base ≠ .waitScan := by
    rintro rfl
    cases builds
  refine sane.forks current here (outside was) (Function.update_self ..) (outside now) rfl rfl
    (others p different.symm) (fun q other => .same ?_ (Function.update_of_ne other ..))
    (.inr (.inl (now.trans was.symm))) fun q other => .inl ?_
  · by_cases same : q = np
    · rw [same]
      exact state
    · exact congrArg Proc.state (others q same)
  · by_cases same : q = np
    · rw [same]
      exact pending
    · exact congrArg Proc.pendingSignals (others q same)

theorem Sane.forkAbandon (sane : Sane s) (current : s.current c = some p) (here : s.thread p = ⟨base, none, none⟩)
    (unborn : base = .forkStack np ∨ base = .forkCopy np) : Sane ⟨s.table.abandon np, s.control.base p .syscall⟩ := by
  have builds : (s.thread p).base.builds = some np := by
    rw [here]
    rcases unborn with rfl | rfl <;> rfl
  have outside : base ≠ .waitScan := by rcases unborn with rfl | rfl <;> simp
  have different := sane.differs current (sane.building p np builds).1 (by simp)
  refine sane.forks current here outside (Function.update_self ..) (by simp) rfl rfl
    (by simp [State.proc, Table.abandon, different.symm]) (fun q other => ?_) (.inl rfl) fun q other => .inl ?_
  · have thread : (s.control.base p .syscall).threads q = s.thread q := Function.update_of_ne other ..
    by_cases same : q = np
    · subst same
      refine .abandoned builds (by simp [State.proc, Table.abandon]) ?_ thread
      simp [State.thread, Control.base, Control.thread, Base.builds]
    · exact .same (by simp [State.proc, Table.abandon, same]) thread
  · by_cases same : q = np <;> simp [State.proc, Table.abandon, same]

theorem Sane.forkRun (sane : Sane s) (current : s.current c = some p) (here : s.thread p = ⟨.forkRun np, none, none⟩) :
    Sane ⟨s.table.setState np .runnable, (s.control.base p .syscall).thread np ⟨.forkret, none, some .starting⟩⟩ := by
  have builds : (s.thread p).base.builds = some np := by rw [here]; rfl
  have different := sane.differs current (sane.building p np builds).1 (by simp)
  have own : ((s.control.base p .syscall).thread np ⟨.forkret, none, some .starting⟩).threads p =
      ⟨.syscall, none, none⟩ := by
    simp [Control.base, Control.thread, different.symm]
  refine sane.forks current here (by simp) own (by simp) rfl rfl
    (by simp [State.proc, Table.setState, different.symm]) (fun q other => ?_) (.inl rfl) fun q _ => .inl ?_
  · by_cases same : q = np
    · subst same
      refine .born builds (by simp [State.proc, Table.setState]) ?_ ?_ ?_
      · rw [State.thread, own]
        rfl
      · simp [State.thread, Control.thread]
      · simp [State.thread, Control.thread, Base.builds]
    · exact .same (by simp [State.proc, Table.setState, same])
        (by simp [State.thread, Control.base, Control.thread, same, other])
  · by_cases same : q = np <;> simp [State.proc, Table.setState, same]

/-- wait enters its scan, or goes on with it after sleep: either way with ptable.lock. -/
theorem Sane.scans (sane : Sane s) (current : s.current c = some p) (silent : (s.thread p).delivering = none)
    (cpus : k'.cpus = s.control.cpus) (lock : k'.lock = some c) (others : ∀ d, d ≠ c → s.control.lock ≠ some d)
    (procs : ∀ q, (t'.procs q).state = (s.proc q).state ∧ (t'.procs q).pendingSignals = (s.proc q).pendingSignals)
    (threads : k'.threads = Function.update s.control.threads p ⟨.waitScan, none, none⟩) : Sane ⟨t', k'⟩ := by
  have mine : (⟨t', k'⟩ : State n C).thread p = ⟨.waitScan, none, none⟩ := by
    rw [State.thread, threads]
    exact Function.update_self ..
  have rest (q : Fin n) (different : q ≠ p) : (⟨t', k'⟩ : State n C).thread q = s.thread q := by
    rw [State.thread, threads]
    exact Function.update_of_ne different ..
  refine Proceeds.sane sane (c := c) (p := p) ⟨current, cpus, ?_, fun d apart => ?_,
    (procs p).1.trans (sane.runs current), fun q other => .same (procs q).1 (rest q other), ?_,
    fun q _ => .inl (procs q).2, fun raised => ?_⟩
  · simp [mine, lock]
  · simp [lock, apart.symm, others d apart]
  · rw [mine]
    exact .inl rfl
  · exact absurd ((procs p).2.trans (sane.quiet silent)) raised

theorem Sane.traps (sane : Sane s) (current : s.current c = some p) {trap' : Option Trap}
    (here : s.thread p = ⟨base, trap, none⟩) (others : ∀ q, q ≠ p → t'.procs q = s.proc q)
    (state : (t'.procs p).state = (s.proc p).state)
    (delivering : (t'.procs p).pendingSignals ≠ 0 → ∃ j, trap'.bind Trap.delivering = some j ∧
      ∀ i < j, (t'.procs p).pendingSignals.getLsbD i = false) : Sane ⟨t', s.control.thread p ⟨base, trap', none⟩⟩ :=
  sane.own current others state (by rw [here]) rfl (by rw [here]) (by rw [here]) delivering

theorem Sane.enters (sane : Sane s) (current : s.current c = some p) {kind : TrapKind}
    (here : s.thread p = ⟨base, none, none⟩) (others : ∀ q, q ≠ p → t'.procs q = s.proc q)
    (state : (t'.procs p).state = (s.proc p).state) :
    Sane ⟨t', s.control.thread p ⟨base, some ⟨kind, .check⟩, none⟩⟩ :=
  sane.traps current here others state fun _ => ⟨0, rfl, fun i before => absurd before (Nat.not_lt_zero i)⟩

theorem Sane.resumes (sane : Sane s) (steady : (s.thread p).Steady) (current : s.current c = some p) {switch : Switch}
    (here : s.thread p = ⟨base, trap, some switch⟩) (elsewhere : switch ≠ .waiting)
    (procs : ∀ q, (t'.procs q).state = (s.proc q).state ∧ (t'.procs q).pendingSignals = (s.proc q).pendingSignals) :
    Sane ⟨t', s.control.release.thread p ⟨base, trap, none⟩⟩ := by
  have held := sane.lock_switch current (by rw [here]; simp)
  have outside : base ≠ .waitScan := by
    intro scans
    rw [here] at steady
    rcases (steady.1 scans).2 with off | waits
    · cases off
    · exact elsewhere (Option.some.inj waits)
  exact sane.released current held (fun q _ => .inl (procs q).1) (procs p).1 (fun q => (procs q).2) rfl outside
    (.inr (by rw [here])) (by rw [here]; rfl)

theorem Table.clearChan_procs (t : Table n) (q : Fin n) : ((t.clearChan p).procs q).state = (t.procs q).state ∧
      ((t.clearChan p).procs q).pendingSignals = (t.procs q).pendingSignals := by
  by_cases same : q = p <;> simp [Table.clearChan, same]

variable [DecidableEq C]

theorem ProcNext.sane (sane : Sane s) (steady : (s.thread p).Steady) (current : s.current c = some p)
    {step : ProcStep} (next : ProcNext s.table s.control c p step t' k') : Sane ⟨t', k'⟩ := by
  cases next with
  | resume here lock =>
    exact sane.resumes steady current here (by rcases lock with rfl | rfl <;> simp) fun _ => ⟨rfl, rfl⟩
  | wakes here => exact sane.resumes steady current here (by simp) s.table.clearChan_procs
  | @waits base trap here =>
    have held := sane.lock_switch current (by rw [State.thread, here]; simp)
    rw [State.thread, here] at steady
    obtain rfl : base = .waitScan := steady.2 rfl
    obtain rfl : trap = none := (steady.1 rfl).1
    refine sane.scans current (by rw [State.thread, here]; rfl) rfl held (fun d apart => ?_)
      s.table.clearChan_procs rfl
    rw [held]
    exact fun same => apart (Option.some.inj same).symm
  | @proceed _ base base' trap trap' here bases traps point delivering =>
    have scans : base' = .waitScan ↔ base = .waitScan := by
      rcases bases with same | ⟨plain, plain'⟩
      · rw [same]
      · constructor <;> rintro rfl
        · cases plain'
        · cases plain
    have builds : base'.builds = base.builds := by
      rcases bases with same | ⟨plain, plain'⟩
      · rw [same]
      · cases base <;> cases plain <;> cases base' <;> cases plain' <;> rfl
    refine sane.own current (fun _ _ => rfl) rfl (by rw [State.thread, here]) rfl
      (by rw [State.thread, here]; exact scans) (by rw [State.thread, here]; exact builds) fun raised => ?_
    obtain ⟨j, level, _, clear⟩ := sane.pending p raised
    rw [State.thread, here] at level
    exact ⟨j, delivering.trans level, clear⟩
  | stay here => exact sane
  | claim here free unused => exact sane.forkClaim current here unused
  | stack here allocated =>
    exact sane.forkFills current here rfl rfl (fun q other => by simp [Table.stack, other])
      (by simp [Table.stack, State.proc]) (by simp [Table.stack, State.proc])
  | abandon here unborn => exact sane.forkAbandon current here unborn
  | copy here =>
    exact sane.forkFills current here rfl rfl (fun q other => by simp [Table.copy, other])
      (by simp [Table.copy, State.proc]) (by simp [Table.copy, State.proc])
  | forkRun here free => exact sane.forkRun current here
  | wait here free =>
    refine sane.scans current (by rw [State.thread, here]; rfl) rfl rfl (fun d _ => ?_) (fun _ => ⟨rfl, rfl⟩) rfl
    rw [free]
    simp
  | @reap child here scanned =>
    have held := (sane.lock_wait current (by rw [State.thread, here])).mpr (by rw [State.thread, here])
    have zombie := (waitScan_reap scanned).2
    have different := sane.differs current zombie (by simp)
    refine sane.released current held (fun q other => ?_) ?_ (fun q => ?_) rfl (by simp) (.inl rfl)
      (by rw [State.thread, here]; rfl)
    · by_cases same : q = child
      · subst same
        exact .inr ⟨zombie, by simp [Table.reap]⟩
      · exact .inl (by simp [Table.reap, same])
    · simp [Table.reap, different.symm]
    · by_cases same : q = child <;> simp [Table.reap, same]
  | waitFail here scanned =>
    have held := (sane.lock_wait current (by rw [State.thread, here])).mpr (by rw [State.thread, here])
    exact sane.released current held (fun _ _ => .inl rfl) rfl (fun _ => rfl) rfl (by simp) (.inl rfl)
      (by rw [State.thread, here]; rfl)
  | waitSleep here scanned =>
    have held := (sane.lock_wait current (by rw [State.thread, here])).mpr (by rw [State.thread, here])
    exact sane.parks current (.inr held) (fun q other => by simp [Table.sleepOn, other])
      (.inr (by simp [Table.sleepOn])) (by simp [Table.sleepOn]) (by simp) (by rw [State.thread, here])
      (.inl (by rw [State.thread, here]; rfl)) (by rw [State.thread, here]; rfl)
  | exit here free other => exact sane.exit current here free
  | @kill pid q here free found =>
    refine sane.woken rfl (fun r => ?_) fun r => ?_
    · by_cases same : r = q
      · subst same
        simp only [State.proc, Table.killSlot, Table.modify_self]
        split
        next asleep => exact .inr ⟨asleep, rfl⟩
        · exact .inl rfl
      · exact .inl (by simp [State.proc, Table.killSlot, same])
    · by_cases same : r = q <;> simp [State.proc, Table.killSlot, same]
  | @sleep addr base here free sleeps =>
    have builds : base.builds = none := by cases base <;> cases sleeps <;> rfl
    exact sane.parks current (.inl free) (fun q other => by simp [Table.sleepOn, other])
      (.inr (by simp [Table.sleepOn])) (by simp [Table.sleepOn]) (by simp) (by rw [State.thread, here])
      (.inl (by rw [State.thread, here]; exact builds)) (by rw [State.thread, here]; rfl)
  | signal here inside valid =>
    refine sane.woken rfl (fun r => .inl ?_) fun r => ?_ <;>
      by_cases same : r = p <;> simp [State.proc, Table.register, same]
  | exec here bounds =>
    refine sane.woken rfl (fun r => .inl ?_) fun r => ?_ <;>
      by_cases same : r = p <;> simp [State.proc, Table.exec, same]
  | sbrk here grown =>
    refine sane.woken rfl (fun r => .inl ?_) fun r => ?_ <;>
      by_cases same : r = p <;> simp [State.proc, Table.resize, same]
  | interrupt here interruptible taken =>
    obtain ⟨others, state⟩ := interrupt_slots taken
    exact sane.enters current here others state
  | divide here =>
    exact sane.enters current here (fun q other => by simp [Table.raise, other]) (by simp [Table.raise])
  | unexpected here =>
    exact sane.enters current here (fun q other => by simp [Table.markKilled, other]) (by simp [Table.markKilled])
  | quiet here nothing =>
    exact sane.traps current here (fun _ _ => rfl) rfl fun raised => absurd nothing raised
  | @deliver base kind i here =>
    refine sane.traps current here (fun q other => s.table.deliver_ne i other) (s.table.deliver_state p i)
      fun _ => ⟨i + 1, rfl, fun j before => ?_⟩
    rw [s.table.deliver_pending p i j]
    by_cases last : j = i
    · simp [last]
    · rw [sane.cleared (by rw [State.thread, here]; rfl) (by omega)]
      rfl
  | @delivered base kind signal here all =>
    refine sane.traps current here (fun _ _ => rfl) rfl fun raised => absurd ?_ raised
    -- The loop has been through all 32 bits.
    apply BitVec.eq_of_getLsbD_eq
    intro i bound
    rw [sane.cleared (by rw [State.thread, here]; rfl) (by omega)]
    exact BitVec.getLsbD_zero.symm
  | «yield» here free =>
    exact sane.parks current (.inl free) (fun q other => by simp [Table.setState, other])
      (.inl (by simp [Table.setState])) (by simp [Table.setState]) (by simp) (by rw [State.thread, here])
      (.inr (by simp [Table.setState])) (by rw [State.thread, here]; rfl)

theorem CpuNext.sane (sane : Sane s) (next : CpuNext s.table s.control c t' k') : Sane ⟨t', k'⟩ := by
  have facts := sane.cpu c
  have cpu (phase : Phase n) (k : Control n C) : (k.phase c phase).cpus c = ⟨(k.cpus c).proc, phase⟩ :=
    Function.update_self ..
  have cpus (d : C) (different : d ≠ c) (phase : Phase n) (k : Control n C) :
      (k.phase c phase).cpus d = k.cpus d := Function.update_of_ne different ..
  cases next with
  | @claim p here free unused =>
    have none : (s.cpu c).proc = none := by simpa [CpuFacts, here] using facts
    refine Boots.sane sane (c := c) (p := p) ⟨by rw [here]; rfl, fun d different => cpus d different _ _, ?_, rfl,
      fun q other => ?_, .inl unused, .inl ⟨.inl ?_, ?_, rfl⟩, .inr ?_⟩
    · rw [State.cpu, cpu]
      exact none
    · simp [State.proc, State.thread, Table.claim, Control.phase, Control.cpu, other]
    · rw [State.cpu, cpu]
    · simp [State.proc, Table.claim]
    · simp [State.proc, Table.claim]
  | @userinit p addr here allocated =>
    have none : (s.cpu c).proc = none := by simpa [CpuFacts, here] using facts
    have boots : (s.cpu c).phase.boots = some p := by rw [here]; rfl
    refine Boots.sane sane (c := c) (p := p) ⟨by rw [here]; rfl, fun d different => cpus d different _ _, ?_, rfl,
      fun q other => ?_, .inr boots, .inl ⟨.inr ?_, ?_, rfl⟩, .inl ?_⟩
    · rw [State.cpu, cpu]
      exact none
    · simp [State.proc, State.thread, Table.userinit, Table.stack, Control.phase, Control.cpu, other]
    · rw [State.cpu, cpu]
    · simpa [State.proc, Table.userinit, Table.stack] using (sane.booting c p boots).1
    · simp [State.proc, Table.userinit, Table.stack]
  | @userinitRun p here free =>
    have none : (s.cpu c).proc = none := by simpa [CpuFacts, here] using facts
    have boots : (s.cpu c).phase.boots = some p := by rw [here]; rfl
    refine Boots.sane sane (c := c) (p := p) ⟨by rw [here]; rfl, fun d different => cpus d different _ _, ?_, rfl,
      fun q other => ?_, .inr boots, .inr ⟨?_, ?_, ?_, ?_⟩, .inl ?_⟩
    · rw [State.cpu, cpu]
      exact none
    · simp [State.proc, State.thread, Table.setState, Control.phase, Control.cpu, Control.thread, other]
    · rw [State.cpu, cpu]
    · simp [State.proc, Table.setState]
    · simp [State.thread, Control.phase, Control.cpu, Control.thread]
    · simp [State.thread, Control.phase, Control.cpu, Control.thread, Base.builds]
    · simp [State.proc, Table.setState]
  | acquire here free =>
    have none : (s.cpu c).proc = none := by simpa [CpuFacts, here] using facts
    refine Schedules.sane sane (c := c) ⟨rfl, rfl, fun d different => cpus d different _ _, ?_, ?_,
      .inr ⟨⟨0, ?_⟩, rfl⟩, fun d different => ?_⟩
    · rw [here]
      exact ⟨by simp, rfl⟩
    · rw [State.cpu, cpu]
      exact none
    · rw [State.cpu, cpu]
    · simp [Control.phase, Control.cpu, Control.acquire, free, different.symm]
  | @skip i here =>
    have none : (s.cpu c).proc = none := by simpa [CpuFacts, here] using facts
    refine Schedules.sane sane (c := c) ⟨rfl, rfl, fun d different => cpus d different _ _, ?_, ?_,
      .inr ⟨⟨i + 1, ?_⟩, (sane.scanning here).1⟩, fun d _ => Iff.rfl⟩
    · rw [here]
      exact ⟨by simp, rfl⟩
    · rw [State.cpu, cpu]
      exact none
    · rw [State.cpu, cpu]
  | @signals p here runnable pending =>
    obtain ⟨_, _, running, _⟩ := sane.pending p pending
    rw [State.proc, runnable] at running
    cases running
  | swtch here runnable quiet => exact sane.swtch here runnable
  | release here =>
    have none : (s.cpu c).proc = none := by simpa [CpuFacts, here] using facts
    refine Schedules.sane sane (c := c) ⟨rfl, rfl, fun d different => cpus d different _ _, ?_, ?_,
      .inl ⟨?_, ?_⟩, fun d different => ?_⟩
    · rw [here]
      exact ⟨by simp, rfl⟩
    · rw [State.cpu, cpu]
      exact none
    · rw [State.cpu, cpu]
    · simp [Control.phase, Control.cpu, Control.release]
    · simp [Control.phase, Control.cpu, Control.release, (sane.scanning here).1, different.symm]
  | deliver here => simp [CpuFacts, here] at facts
  | handler here => simp [CpuFacts, here] at facts
  | @back p here proc =>
    have held : s.control.lock = some c := (sane.lock c).mpr (by simp [Holds, here])
    refine Schedules.sane sane (c := c) ⟨rfl, rfl, fun d different => Function.update_of_ne different .., ?_, ?_,
      .inr ⟨⟨p + 1, ?_⟩, held⟩, fun d _ => Iff.rfl⟩
    · rw [here]
      exact ⟨by simp, rfl⟩
    · simp [State.cpu, Control.cpu]
    · simp [State.cpu, Control.cpu]

omit [DecidableEq C] in
theorem Control.thread_steady (steady : ∀ q, (k.threads q).Steady) {thread : Thread n} (own : thread.Steady)
    (q : Fin n) : ((k.thread p thread).threads q).Steady := by
  by_cases same : q = p
  · simpa [Control.thread, same] using own
  · simpa [Control.thread, same] using steady q

theorem steady_of_ne {switch : Option Switch} (outside : base ≠ .waitScan) (elsewhere : switch ≠ some .waiting) :
    Thread.Steady ⟨base, trap, switch⟩ := ⟨fun scans => absurd scans outside, fun waits => absurd waits elsewhere⟩

theorem ProcNext.steady {t : Table n} {step : ProcStep} (steady : ∀ q, (k.threads q).Steady)
    (next : ProcNext t k c p step t' k') (q : Fin n) : (k'.threads q).Steady := by
  have own := steady p
  cases next with
  | @resume base trap _ here _ | @wakes base trap here | @waits base trap here =>
    rw [here] at own
    have mine : Thread.Steady ⟨base, trap, none⟩ := ⟨fun scans => ⟨(own.1 scans).1, .inl rfl⟩, by simp⟩
    exact Control.thread_steady steady mine q
  | @proceed _ base base' trap trap' here bases traps point delivering =>
    rw [here] at own
    refine Control.thread_steady steady ⟨fun (scans : base' = .waitScan) => ⟨?_, .inl rfl⟩, by simp⟩ q
    rcases bases with same | ⟨_, plain⟩
    · have calm : trap = none := (own.1 (same.symm.trans scans)).1
      refine traps.resolve_right fun ⟨_, _, _, was, _⟩ => ?_
      rw [calm] at was
      cases was
    · rw [scans] at plain
      cases plain
  | stay | kill | signal | exec | sbrk | exit => exact steady q
  | wait here free => exact Control.thread_steady steady ⟨fun _ => ⟨rfl, .inl rfl⟩, by simp⟩ q
  | claim | stack | abandon | copy | reap | waitFail =>
    exact Control.thread_steady steady (steady_of_ne (by simp) (by simp)) q
  | forkRun here free =>
    exact Control.thread_steady (Control.thread_steady steady (steady_of_ne (by simp) (by simp)))
      (steady_of_ne (by simp) (by simp)) q
  | waitSleep here scanned => exact Control.thread_steady steady ⟨fun _ => ⟨rfl, .inr rfl⟩, fun _ => rfl⟩ q
  | @sleep addr base here free sleeps =>
    have outside : base ≠ .waitScan := by
      rintro rfl
      cases sleeps
    exact Control.thread_steady steady (steady_of_ne outside (by simp)) q
  | @interrupt kind chars base t' here interruptible taken =>
    have outside : base ≠ .waitScan := by
      rintro rfl
      cases interruptible
    exact Control.thread_steady steady (steady_of_ne outside (by simp)) q
  | divide | unexpected => exact Control.thread_steady steady (steady_of_ne (by simp) (by simp)) q
  | @quiet base _ here _ | @deliver base _ _ here | @delivered base _ _ here _ | @«yield» base _ here _ =>
    have outside : base ≠ .waitScan := by
      rintro rfl
      rw [here] at own
      simpa using (own.1 rfl).1
    exact Control.thread_steady steady (steady_of_ne outside (by simp)) q

theorem CpuNext.steady (sane : Sane s) (steady : ∀ q, (s.thread q).Steady) (next : CpuNext s.table s.control c t' k')
    (q : Fin n) : (k'.threads q).Steady := by
  have facts := sane.cpu c
  cases next with
  | userinitRun here free => exact Control.thread_steady steady (steady_of_ne (by simp) (by simp)) q
  | deliver here => simp [CpuFacts, here] at facts
  | handler here => simp [CpuFacts, here] at facts
  | _ => exact steady q

structure Ordered (s : State n C) : Prop extends Sane s where
  steady : ∀ p, (s.thread p).Steady

theorem step_ordered {a : Action C} (ordered : Ordered s) (next : step a s = some s') : Ordered s' := by
  have effect := step_next next
  clear next
  cases effect with
  | cpu next => exact ⟨next.sane ordered.toSane, next.steady ordered.toSane ordered.steady⟩
  | process current next =>
    exact ⟨next.sane ordered.toSane (ordered.steady _) current, next.steady ordered.steady⟩
  | wakeup free =>
    exact ⟨ordered.toSane.woken rfl (fun q => (s.table.wakeup1_passed _ q).1.state)
      fun q => (s.table.wakeup1_passed _ q).1.pendingSignals, ordered.steady⟩
  | input here => exact ⟨ordered.toSane.woken rfl (fun _ => .inl rfl) fun _ => rfl, ordered.steady⟩

theorem booted_ordered (booted : Booted s) : Ordered s := by
  obtain ⟨c, locking, rfl⟩ := booted
  have cpu (d : C) : ((boot n c locking).cpu d).proc = none ∧
      ((boot n c locking).cpu d).phase = if d = c then .main else .idle := ⟨rfl, rfl⟩
  refine ⟨⟨fun d => ?_, nofun, fun d e p first => ?_, fun d => ?_, nofun, nofun, nofun, fun d p boots => ?_,
    fun d e first second => ?_, fun p raised => ?_⟩, fun p => steady_of_ne (by simp) (by simp)⟩
  · simp only [CpuFacts, (cpu d).2, (cpu d).1]
    split_ifs <;> trivial
  · rw [(cpu d).1] at first
    cases first
  · have outside : ¬ Holds (boot n c locking) d := by
      simp only [Holds, (cpu d).2]
      split_ifs <;> exact id
    exact ⟨(by rintro ⟨⟩), fun held => absurd held outside⟩
  · rw [(cpu d).2] at boots
    split_ifs at boots <;> cases boots
  · have same (d : C) (early : ((boot n c locking).cpu d).phase.early = true) : d = c := by
      rw [(cpu d).2] at early
      by_contra other
      rw [if_neg other] at early
      cases early
    rw [same d first, same e second]
  · exact absurd rfl raised

theorem reachable_ordered {allowed : State n C → Action C → Prop}
    (reached : Runs.Reachable step allowed Booted s) : Ordered s :=
  reached.invariant Ordered (fun _ => booted_ordered) fun _ _ _ ordered _ => step_ordered ordered

theorem ProcNext.cpus {t : Table n} {step : ProcStep} (next : ProcNext t k c p step t' k') :
    k'.cpus = k.cpus ∨ k'.cpus = Function.update k.cpus c ⟨(k.cpus c).proc, .back⟩ := by
  cases next with
  | waitSleep | exit | sleep | «yield» => exact .inr rfl
  | _ => exact .inl rfl

theorem Next.switches {a : Action C} (ordered : Ordered s) (next : Next s a s')
    (before : s.current c ≠ some p) (after : s'.current c = some p) : (s.proc p).state = .runnable := by
  have unmoved (cpus : s'.cpu c = s.cpu c) : False := by
    rw [current_eq_some, cpus] at after
    exact before (current_eq_some.mpr after)
  obtain ⟨phase, proc⟩ := current_eq_some.mp after
  cases next with
  | @cpu d _ _ k' next =>
    have same : c = d := by
      by_contra different
      have facts := ordered.cpu d
      refine unmoved ?_
      cases next with
      | deliver here => simp [CpuFacts, here] at facts
      | handler here => simp [CpuFacts, here] at facts
      | _ => exact Function.update_of_ne different ..
    subst same
    have facts := ordered.cpu c
    cases next with
    | @swtch q here runnable quiet =>
      have chosen : (⟨some q, .process⟩ : Cpu n).proc = some p := by
        simpa [State.cpu, Control.swtch, Control.cpu] using proc
      cases chosen
      exact runnable
    | deliver here => simp [CpuFacts, here] at facts
    | handler here => simp [CpuFacts, here] at facts
    | _ => simp [State.cpu, Control.phase, Control.cpu] at phase
  | @process d _ _ _ k' _ next =>
    rcases next.cpus with same | back
    · exact (unmoved (congrFun same c)).elim
    · by_cases here : c = d
      · subst here
        simp [State.cpu, back] at phase
      · refine (unmoved ?_).elim
        show k'.cpus c = s.control.cpus c
        rw [back]
        exact Function.update_of_ne here ..
  | wakeup | input => exact (unmoved rfl).elim

/-- Every running process has a cpu to itself, and scheduler only ever switches to runnable ones. -/
theorem one_cpu_per_process (s : State n C) (reached : Runs.Reachable step (fun _ _ => True) Booted s) :
    (∀ p, (s.proc p).state = .running → ∃! c, (s.cpu c).proc = some p) ∧
      (∀ c d p, (s.cpu c).proc = some p → (s.cpu d).proc = some p → c = d) ∧
      ∀ a s' c p, step a s = some s' → s.current c ≠ some p → s'.current c = some p →
        (s.proc p).state = .runnable := by
  have ordered := reachable_ordered reached
  refine ⟨fun p running => ?_, ordered.alone, fun a s' c p next before after =>
    (step_next next).switches ordered before after⟩
  obtain ⟨c, current⟩ := ordered.running p running
  have on := (current_eq_some.mp current).2
  exact ⟨c, on, fun d other => ordered.alone d c p other on⟩

def bootRun : List (Action Bool) :=
  [.cpu false 0, .cpu false 4096, .cpu false 0, .cpu true 0, .cpu true 0]

theorem one_cpu_per_process_init :
    ∃ s : State 1 Bool, Runs.run step bootRun (boot 1 false true) = some s ∧ (s.proc 0).state = .running ∧
      ∃! c, (s.cpu c).proc = some 0 := by
  refine ⟨_, rfl, rfl, ?_⟩
  exact (one_cpu_per_process _ (Runs.reachable_run (.start ⟨false, true, rfl⟩) bootRun rfl)).1 0 rfl

end Xv6.Processes
