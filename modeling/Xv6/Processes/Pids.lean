import Xv6.Processes.Machine

set_option autoImplicit false

namespace Xv6.Processes.Pids

variable {n : Nat}

abbrev nproc : Nat := 64

-- nextpid is a 32-bit int.
def wrap (pid : Int) : Int := pid.bmod (2 ^ 32)

/-- ptable, with the process that creates each embryo, how many pids allocproc has given out, and what fork has
returned to the parents of the children that it created. -/
structure State (n : Nat) where
  table : Table n
  creator : Fin n → Fin n
  allocated : Nat
  forked : List Int

def State.setTable (s : State n) (table : Table n) : State n := { s with table }

def State.Forking (s : State n) (p : Fin n) : Prop := ∃ np, (s.table.procs np).state = .embryo ∧ s.creator np = p

instance (s : State n) (p : Fin n) : Decidable (s.Forking p) := inferInstanceAs (Decidable (∃ _, _))

inductive Action (n : Nat) where
  | fork (p : Fin n)
  -- kalloc or copyuvm fails, or fork goes on to its end
  | forkFails (np : Fin n)
  | forkRuns (np : Fin n) (kstack : Nat)
  | exit (p : Fin n)
  | wait (p : Fin n)
  | kill (p : Fin n) (pid : Int)
  | sleep (p : Fin n) (addr : Nat)
  | wakeup (addr : Nat)
  | yield (p : Fin n)
  | dispatch (p : Fin n)

def State.claim (s : State n) (p np : Fin n) : State n where
  table := { s.table.claim np with nextpid := wrap (s.table.nextpid + 1) }
  creator := Function.update s.creator np p
  allocated := s.allocated + 1
  forked := s.forked

-- allocproc under ptable.lock.
def allocproc (s : State n) (p : Fin n) : Option (State n) :=
  (s.table.find fun proc => proc.state = .unused).map (s.claim p)

def forkRuns (s : State n) (np : Fin n) (kstack : Nat) : State n :=
  { s with
    table := ((s.table.stack np kstack).copy (s.creator np) np).setState np .runnable
    forked := (s.table.procs np).pid :: s.forked }

def wait (t : Table n) (p : Fin n) : Table n :=
  match waitScan t p with
  | .reap child => t.reap p child
  | .fail => t
  | .sleep => t.sleepOn p (.proc p)

def calls (s : State n) (p : Fin n) : Bool := decide ((s.table.procs p).state = .running ∧ ¬s.Forking p)

def step : Action n → State n → Option (State n)
  | .fork p, s => if calls s p then allocproc s p else none
  | .forkFails np, s => if (s.table.procs np).state = .embryo then some (s.setTable (s.table.abandon np)) else none
  | .forkRuns np kstack, s => if (s.table.procs np).state = .embryo then some (forkRuns s np kstack) else none
  | .exit p, s =>
    if calls s p ∧ s.table.initproc ≠ some p then some (s.setTable (s.table.exit p)) else none
  | .wait p, s => if calls s p then some (s.setTable (wait s.table p)) else none
  | .kill p pid, s => if calls s p then some (s.setTable (s.table.kill pid).2) else none
  | .sleep p addr, s => if calls s p then some (s.setTable (s.table.sleepOn p (.other addr))) else none
  | .wakeup addr, s => some (s.setTable (s.table.wakeup1 (.other addr)))
  | .yield p, s =>
    if (s.table.procs p).state = .running then some (s.setTable (s.table.setState p .runnable)) else none
  | .dispatch p, s =>
    if (s.table.procs p).state = .runnable then some (s.setTable ((s.table.setState p .running).clearChan p)) else none

structure Booted (s : State n) (init : Fin n) : Prop where
  initproc : s.table.initproc = some init
  runs : (s.table.procs init).state = .running ∧ (s.table.procs init).pid = 1
  rest : ∀ q, q ≠ init → (s.table.procs q).state = .unused
  nextpid : s.table.nextpid = 2
  counts : s.allocated = 1 ∧ s.forked = []

/-- allocproc gives out no more than `limit` pids. -/
def atMost (limit : Nat) (s : State n) : Action n → Prop
  | .fork _ => s.allocated < limit
  | _ => True

abbrev Reachable (limit : Nat) (s : State n) : Prop :=
  Runs.Reachable step (atMost limit) (fun s => ∃ init, Booted s init) s

def Live (t : Table n) (p : Fin n) : Prop := (t.procs p).state ≠ .unused

structure PidsRight (s : State n) : Prop where
  unique : ∀ p q, Live s.table p → Live s.table q → (s.table.procs p).pid = (s.table.procs q).pid → p = q
  positive : ∀ pid ∈ s.forked, 0 < pid

def Keeps (t t' : Table n) : Prop := ∀ q, Live t' q → Live t q ∧ (t'.procs q).pid = (t.procs q).pid

variable {t : Table n} {p : Fin n}

theorem keeps_modify {change : Proc n → Proc n}
    (fine : (change (t.procs p)).state ≠ .unused → Live t p ∧ (change (t.procs p)).pid = (t.procs p).pid) :
    Keeps t (t.modify p change) := by
  intro q live
  by_cases same : q = p
  · subst same
    rw [Live, Table.modify_self] at live
    rw [Table.modify_self]
    exact fine live
  · rw [Live, Table.modify_ne _ _ same] at live
    rw [Table.modify_ne _ _ same]
    exact ⟨live, rfl⟩

theorem Keeps.trans {t' t'' : Table n} (first : Keeps t t') (later : Keeps t' t'') : Keeps t t'' := by
  intro q live
  obtain ⟨before, pid⟩ := later q live
  obtain ⟨start, same⟩ := first q before
  exact ⟨start, pid.trans same⟩

theorem passed_keeps {q : Fin n} {proc : Proc n} (passed : Table.Passed (t.procs q) proc)
    (live : proc.state ≠ .unused) : Live t q ∧ proc.pid = (t.procs q).pid := by
  refine ⟨fun unused => live ?_, passed.pid⟩
  rw [passed.awake (by simp [unused]), unused]

theorem exit_keeps (live : Live t p) : Keeps t (t.exit p) := by
  intro q after
  by_cases same : q = p
  · subst same
    exact ⟨live, (Table.exit_self t q).1.pid⟩
  · exact passed_keeps (Table.exit_ne t same).1 after

theorem wait_keeps (live : Live t p) : Keeps t (wait t p) := by
  unfold wait
  split
  next child _ =>
    intro q after
    by_cases same : q = child
    · subst same
      simp [Live, Table.reap] at after
    · rw [Live, Table.reap_ne same] at after
      rw [Table.reap_ne same]
      exact ⟨after, rfl⟩
  · exact fun q after => ⟨after, rfl⟩
  · exact keeps_modify fun _ => ⟨live, rfl⟩

theorem kill_keeps (pid : Int) : Keeps t (t.kill pid).2 := by
  unfold Table.kill
  split
  next q _ =>
    change Keeps t (t.killSlot q)
    unfold Table.killSlot
    refine keeps_modify fun after => ⟨fun unused => after ?_, rfl⟩
    simp [unused]
  · exact fun q after => ⟨after, rfl⟩

structure Invariant (s : State n) : Prop where
  nextpid : s.table.nextpid = wrap (s.allocated + 1)
  unique : ∀ p q, Live s.table p → Live s.table q → (s.table.procs p).pid = (s.table.procs q).pid → p = q
  given : ∀ p, Live s.table p → 0 < (s.table.procs p).pid ∧ (s.table.procs p).pid ≤ s.allocated
  positive : ∀ pid ∈ s.forked, 0 < pid

variable {s s' : State n}

theorem Invariant.keep (inv : Invariant s) (keeps : Keeps s.table t) (counter : t.nextpid = s.table.nextpid) :
    Invariant (s.setTable t) where
  nextpid := counter.trans inv.nextpid
  unique p q livep liveq same := by
    obtain ⟨p_live, p_pid⟩ := keeps p livep
    obtain ⟨q_live, q_pid⟩ := keeps q liveq
    exact inv.unique p q p_live q_live (p_pid.symm.trans (same.trans q_pid))
  given p live := by
    obtain ⟨before, pid⟩ := keeps p live
    rw [State.setTable, pid]
    exact inv.given p before
  positive := inv.positive

theorem wrap_small {k : Nat} (small : k < 2 ^ 31) : wrap k = k := by
  rw [wrap, Int.bmod_eq_of_le] <;> omega

variable {limit : Nat} {init free : Fin n}

theorem allocproc_invariant (small : limit < 2 ^ 31) (inv : Invariant s) (room : s.allocated < limit)
    (next : allocproc s p = some s') : Invariant s' := by
  obtain ⟨np, found, rfl⟩ := Option.map_eq_some_iff.mp next
  have free : (s.table.procs np).state = .unused := of_decide_eq_true (Table.find_some found)
  have fresh : s.table.nextpid = s.allocated + 1 := by
    rw [inv.nextpid]
    exact_mod_cast wrap_small (k := s.allocated + 1) (by omega)
  have mine : ((s.table.claim np).procs np).pid = s.allocated + 1 := by
    rw [← fresh]
    simp [Table.claim]
  -- The older pids are smaller than the new one.
  have old {q : Fin n} (other : q ≠ np) (live : Live (s.table.claim np) q) :
      Live s.table q ∧ ((s.table.claim np).procs q).pid = (s.table.procs q).pid := by
    rw [Live, Table.claim_ne other] at live
    rw [Table.claim_ne other]
    exact ⟨live, rfl⟩
  refine ⟨?_, fun p q livep liveq same => ?_, fun q live => ?_, inv.positive⟩
  · change wrap (s.table.nextpid + 1) = wrap ((s.allocated + 1 : Nat) + 1)
    rw [fresh]
    rfl
  · change ((s.table.claim np).procs p).pid = ((s.table.claim np).procs q).pid at same
    by_cases p_new : p = np <;> by_cases q_new : q = np
    · rw [p_new, q_new]
    · obtain ⟨live, pid⟩ := old q_new liveq
      have := inv.given q live
      rw [p_new, mine, pid] at same
      omega
    · obtain ⟨live, pid⟩ := old p_new livep
      have := inv.given p live
      rw [q_new, mine, pid] at same
      omega
    · obtain ⟨p_live, p_pid⟩ := old p_new livep
      obtain ⟨q_live, q_pid⟩ := old q_new liveq
      exact inv.unique p q p_live q_live (p_pid.symm.trans (same.trans q_pid))
  · change 0 < ((s.table.claim np).procs q).pid ∧ ((s.table.claim np).procs q).pid ≤ (s.allocated + 1 : Nat)
    by_cases new : q = np
    · rw [new, mine]
      omega
    · obtain ⟨before, pid⟩ := old new live
      have := inv.given q before
      rw [pid]
      omega

theorem forkRuns_keeps {np : Fin n} (live : Live t np) (parent : Fin n) (kstack : Nat) :
    Keeps t (((t.stack np kstack).copy parent np).setState np .runnable) := by
  have stacked : Keeps t (t.stack np kstack) := keeps_modify fun _ => ⟨live, rfl⟩
  have here : Live (t.stack np kstack) np := by simpa [Live, Table.stack] using live
  refine stacked.trans (Keeps.trans (keeps_modify fun _ => ⟨here, rfl⟩) (keeps_modify fun _ => ⟨?_, rfl⟩))
  simpa [Live] using here

theorem step_invariant (small : limit < 2 ^ 31) (inv : Invariant s) {a : Action n} (may : atMost limit s a)
    (next : step a s = some s') : Invariant s' := by
  have running {p : Fin n} (able : calls s p = true) : Live s.table p := by
    rw [Live, (of_decide_eq_true able).1]
    simp
  cases a <;> simp only [step, Option.ite_none_right_eq_some, Option.some.injEq] at next
  case fork p => exact allocproc_invariant small inv may next.2
  case forkFails np =>
    obtain ⟨able, rfl⟩ := next
    exact inv.keep (keeps_modify fun live => absurd rfl live) rfl
  case forkRuns np kstack =>
    obtain ⟨able, rfl⟩ := next
    have live : Live s.table np := by
      rw [Live, able]
      simp
    have kept := inv.keep (forkRuns_keeps live (s.creator np) kstack) rfl
    refine ⟨kept.nextpid, kept.unique, kept.given, fun pid member => ?_⟩
    rcases List.mem_cons.mp member with rfl | older
    · exact (inv.given np live).1
    · exact inv.positive pid older
  case exit p =>
    obtain ⟨able, rfl⟩ := next
    obtain ⟨procs, rest⟩ := Table.exit_rest s.table p
    exact inv.keep (exit_keeps (running able.1)) (by rw [rest])
  case wait p =>
    obtain ⟨able, rfl⟩ := next
    refine inv.keep (wait_keeps (running able)) ?_
    unfold wait
    split <;> rfl
  case kill p pid =>
    obtain ⟨able, rfl⟩ := next
    refine inv.keep (kill_keeps pid) ?_
    unfold Table.kill
    split <;> rfl
  case sleep p addr =>
    obtain ⟨able, rfl⟩ := next
    exact inv.keep (keeps_modify fun _ => ⟨running able, rfl⟩) rfl
  case wakeup addr =>
    subst next
    exact inv.keep (fun q live => passed_keeps (Table.wakeup1_passed s.table _ q).1 live) rfl
  case yield p =>
    obtain ⟨able, rfl⟩ := next
    refine inv.keep (keeps_modify fun _ => ⟨?_, rfl⟩) rfl
    rw [Live, able]
    simp
  case dispatch p =>
    obtain ⟨able, rfl⟩ := next
    have live : Live s.table p := by
      rw [Live, able]
      simp
    refine inv.keep (Keeps.trans (keeps_modify fun _ => ⟨live, rfl⟩) (keeps_modify fun _ => ⟨?_, rfl⟩)) rfl
    simp [Live]

theorem reachable_invariant (small : limit < 2 ^ 31) (reached : Reachable limit s) : Invariant s := by
  refine reached.invariant Invariant ?_ fun s a s' inv may next => step_invariant small inv may next
  rintro s ⟨init, booted⟩
  have only {p : Fin n} (live : Live s.table p) : p = init := by
    by_contra other
    exact live (booted.rest p other)
  refine ⟨?_, fun p q livep liveq _ => (only livep).trans (only liveq).symm, fun p live => ?_, ?_⟩
  · rw [booted.nextpid, booted.counts.1]
    rfl
  · rw [only live, booted.runs.2, booted.counts.1]
    decide
  · simp [booted.counts.2]

structure Alone (s : State n) (init : Fin n) : Prop where
  initproc : s.table.initproc = some init
  runs : (s.table.procs init).state = .running
  rest : ∀ q, q ≠ init → (s.table.procs q).state = .unused
  nextpid : s.table.nextpid = wrap (s.allocated + 1)

theorem Alone.calls (alone : Alone s init) : calls s init = true := by
  refine decide_eq_true ⟨alone.runs, ?_⟩
  rintro ⟨np, embryo, _⟩
  by_cases same : np = init
  · rw [same, alone.runs] at embryo
    cases embryo
  · rw [alone.rest np same] at embryo
    cases embryo

theorem Alone.claims (alone : Alone s init) (reached : Reachable limit s) (room : s.allocated < limit)
    (other : free ≠ init) : ∃ np, np ≠ init ∧ Reachable limit (s.claim init np) := by
  obtain ⟨np, found⟩ : ∃ np, s.table.find (fun proc => proc.state = .unused) = some np := by
    cases result : s.table.find (fun proc => proc.state = .unused) with
    | none =>
      have := Table.find_none result free
      simp [alone.rest free other] at this
    | some np => exact ⟨np, rfl⟩
  have unused : (s.table.procs np).state = .unused := of_decide_eq_true (Table.find_some found)
  have apart : np ≠ init := by
    rintro rfl
    rw [alone.runs] at unused
    cases unused
  have claimed : step (.fork init) s = some (s.claim init np) := by
    simp [step, alone.calls, allocproc, found]
  exact ⟨np, apart, .step reached (a := .fork init) room claimed⟩

theorem Alone.fails (alone : Alone s init) (reached : Reachable limit s) (room : s.allocated < limit)
    (other : free ≠ init) : ∃ s' : State n, Reachable limit s' ∧ Alone s' init ∧ s'.allocated = s.allocated + 1 := by
  obtain ⟨np, apart, claimed⟩ := alone.claims reached room other
  have embryo : ((s.claim init np).table.procs np).state = .embryo := by simp [State.claim, Table.claim]
  refine ⟨_, .step claimed (a := .forkFails np) trivial (if_pos embryo), ⟨alone.initproc, ?_, fun q notInit => ?_, ?_⟩,
    rfl⟩
  · simp [State.setTable, State.claim, Table.abandon, Table.claim, apart.symm, alone.runs]
  · by_cases new : q = np <;> simp [State.setTable, State.claim, Table.abandon, Table.claim, new, alone.rest q notInit]
  · change wrap (s.table.nextpid + 1) = _
    rw [alone.nextpid]
    simp [wrap, State.setTable, State.claim]

theorem Alone.forks (alone : Alone s init) (reached : Reachable limit s) (room : s.allocated < limit)
    (other : free ≠ init) : ∃ s' : State n, Reachable limit s' ∧ wrap (s.allocated + 1) ∈ s'.forked := by
  obtain ⟨np, apart, claimed⟩ := alone.claims reached room other
  have embryo : ((s.claim init np).table.procs np).state = .embryo := by simp [State.claim, Table.claim]
  refine ⟨_, .step claimed (a := .forkRuns np 0) trivial (if_pos embryo), ?_⟩
  simp [forkRuns, State.claim, Table.claim, alone.nextpid]

theorem alone_reaches (other : free ≠ init) (booted : Booted s init) (k : Nat) (few : k + 1 ≤ limit) :
    ∃ s', Reachable limit s' ∧ Alone s' init ∧ s'.allocated = k + 1 := by
  induction k with
  | zero =>
    refine ⟨s, .start ⟨init, booted⟩, ⟨booted.initproc, booted.runs.1, booted.rest, ?_⟩, booted.counts.1⟩
    rw [booted.nextpid, booted.counts.1]
    rfl
  | succ k ih =>
    obtain ⟨s₁, reached₁, alone₁, count₁⟩ := ih (by omega)
    obtain ⟨s₂, reached₂, alone₂, count₂⟩ := alone₁.fails reached₁ (by omega) other
    exact ⟨s₂, reached₂, alone₂, by omega⟩

theorem forks_negative (other : free ≠ init) (booted : Booted s init) (many : 2 ^ 31 ≤ limit) :
    ∃ s' : State n, Reachable limit s' ∧ wrap (2 ^ 31) ∈ s'.forked := by
  have few : 2 ^ 31 - 2 + 1 ≤ limit := by omega
  obtain ⟨s₁, reached₁, alone, count⟩ := alone_reaches other booted (2 ^ 31 - 2) few
  obtain ⟨s₂, reached₂, returned⟩ := alone.forks reached₁ (by omega) other
  rw [count] at returned
  exact ⟨s₂, reached₂, returned⟩

def boot : State nproc where
  table :=
    { procs := fun p =>
        { sz := 0, kstack := 0, state := if p = 0 then .running else .unused, pid := if p = 0 then 1 else 0,
          parent := none, chan := none, killed := false, signalHandlers := fun _ => 0, pendingSignals := 0, image := 0,
          registeredBy := fun _ => 0 }
      initproc := some 0, nextpid := 2, images := 1, exited := [], reaped := [], called := [], locking := true,
      received := [] }
  creator := fun _ => 0
  allocated := 1
  forked := []

theorem boot_booted : Booted boot 0 where
  initproc := rfl
  runs := ⟨rfl, rfl⟩
  rest q other := by simp [boot, other]
  nextpid := rfl
  counts := ⟨rfl, rfl⟩

/-- The pids are right in all runs with at most `limit` of them exactly if the limit is below 2^31. -/
theorem pids_right_iff (limit : Nat) : (∀ s : State nproc, Reachable limit s → PidsRight s) ↔ limit < 2 ^ 31 := by
  constructor
  · intro right
    by_contra many
    have other : (1 : Fin nproc) ≠ 0 := by decide
    obtain ⟨s, reached, returned⟩ := forks_negative other boot_booted (Nat.le_of_not_lt many)
    exact absurd ((right s reached).positive _ returned) (by decide)
  · intro small s reached
    have inv := reachable_invariant small reached
    exact ⟨inv.unique, inv.positive⟩

/-- The fork after 2^31 - 1 pids returns -2^31. -/
theorem fork_returns_negative : ∃ s : State nproc, Reachable (2 ^ 31) s ∧ ¬PidsRight s := by
  have other : (1 : Fin nproc) ≠ 0 := by decide
  obtain ⟨s, reached, returned⟩ := forks_negative other boot_booted (Nat.le_refl _)
  exact ⟨s, reached, fun right => absurd (right.positive _ returned) (by decide)⟩

end Xv6.Processes.Pids
