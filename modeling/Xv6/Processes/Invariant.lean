import Xv6.Processes.Steps

set_option autoImplicit false

namespace Xv6.Processes

variable {n : Nat} {C : Type}

abbrev State.proc (s : State n C) (p : Fin n) : Proc n := s.table.procs p

abbrev State.thread (s : State n C) (p : Fin n) : Thread n := s.control.threads p

abbrev State.cpu (s : State n C) (c : C) : Cpu n := s.control.cpus c

/-- What c->proc is in each phase of a cpu; scheduler never gets to its delivery of signals. -/
def CpuFacts (s : State n C) (c : C) : Prop :=
  match (s.cpu c).phase with
  | .process => ∃ p, (s.cpu c).proc = some p ∧ (s.proc p).state = .running
  | .back => ∃ p, (s.cpu c).proc = some p ∧
      ((s.proc p).state = .runnable ∨ (s.proc p).state = .sleeping ∨ (s.proc p).state = .zombie)
  | .signals .. | .handler .. => False
  | _ => (s.cpu c).proc = none

def Holds (s : State n C) (c : C) : Prop :=
  match (s.cpu c).phase with
  | .scan _ | .back => True
  | .process => ∃ p, (s.cpu c).proc = some p ∧ ((s.thread p).switch ≠ none ∨ (s.thread p).base = .waitScan)
  | _ => False

def Phase.boots : Phase n → Option (Fin n)
  | .userinit p | .userinitRun p => some p
  | _ => none

def Phase.early : Phase n → Bool
  | .main | .userinit _ | .userinitRun _ => true
  | _ => false

structure Sane (s : State n C) : Prop where
  cpu : ∀ c, CpuFacts s c
  running : ∀ p, (s.proc p).state = .running → ∃ c, s.current c = some p
  alone : ∀ c d p, (s.cpu c).proc = some p → (s.cpu d).proc = some p → c = d
  lock : ∀ c, s.control.lock = some c ↔ Holds s c
  parked : ∀ p, (s.proc p).state = .runnable ∨ (s.proc p).state = .sleeping → (s.thread p).switch ≠ none
  building : ∀ p np, (s.thread p).base.builds = some np →
    (s.proc np).state = .embryo ∧ ((s.proc p).state = .running ∨ (s.proc p).state = .runnable)
  builder : ∀ p q np, (s.thread p).base.builds = some np → (s.thread q).base.builds = some np → p = q
  booting : ∀ c p, (s.cpu c).phase.boots = some p →
    (s.proc p).state = .embryo ∧ ∀ q, (s.thread q).base.builds ≠ some p
  oneBoot : ∀ c d, (s.cpu c).phase.early = true → (s.cpu d).phase.early = true → c = d
  pending : ∀ p, (s.proc p).pendingSignals ≠ 0 → ∃ j, (s.thread p).delivering = some j ∧
    (s.proc p).state = .running ∧ ∀ i < j, (s.proc p).pendingSignals.getLsbD i = false

/-- wait alone sleeps with ptable.lock, and it is not interrupted while it has it. -/
def Thread.Steady (thread : Thread n) : Prop :=
  (thread.base = .waitScan → thread.trap = none ∧ (thread.switch = none ∨ thread.switch = some .waiting)) ∧
    (thread.switch = some .waiting → thread.base = .waitScan)

theorem current_eq_some {s : State n C} {c : C} {p : Fin n} :
    s.current c = some p ↔ (s.cpu c).phase = .process ∧ (s.cpu c).proc = some p := by
  simp [State.current]

/-- How a slot other than the stepping process's own can change in a step of `p` on the cpu `c`. -/
inductive Change (s s' : State n C) (c : C) (p q : Fin n) : Prop where
  | same (state : (s'.proc q).state = (s.proc q).state) (thread : s'.thread q = s.thread q)
  | woken (was : (s.proc q).state = .sleeping) (now : (s'.proc q).state = .runnable) (thread : s'.thread q = s.thread q)
  | claimed (was : (s.proc q).state = .unused) (now : (s'.proc q).state = .embryo) (thread : s'.thread q = s.thread q)
  | abandoned (was : (s.thread p).base.builds = some q) (now : (s'.proc q).state = .unused)
      (ended : (s'.thread p).base.builds = none) (thread : s'.thread q = s.thread q)
  | born (was : (s.thread p).base.builds = some q) (now : (s'.proc q).state = .runnable)
      (ended : (s'.thread p).base.builds = none) (parked : (s'.thread q).switch ≠ none)
      (idle : (s'.thread q).base.builds = none)
  | reaped (was : (s.proc q).state = .zombie) (now : (s'.proc q).state = .unused) (held : s.control.lock = some c)
      (thread : s'.thread q = s.thread q)

structure Proceeds (s s' : State n C) (c : C) (p : Fin n) : Prop where
  current : s.current c = some p
  cpus : s'.control.cpus = s.control.cpus
  lock : s'.control.lock = some c ↔ (s'.thread p).switch ≠ none ∨ (s'.thread p).base = .waitScan
  locks : ∀ d, d ≠ c → (s'.control.lock = some d ↔ s.control.lock = some d)
  running : (s'.proc p).state = .running
  others : ∀ q, q ≠ p → Change s s' c p q
  builds : (s'.thread p).base.builds = none ∨ (s'.thread p).base.builds = (s.thread p).base.builds ∨
    ∃ np, (s'.thread p).base.builds = some np ∧ (s.proc np).state = .unused ∧ (s'.proc np).state = .embryo
  pending : ∀ q, q ≠ p → (s'.proc q).pendingSignals = (s.proc q).pendingSignals ∨ (s'.proc q).pendingSignals = 0
  delivering : (s'.proc p).pendingSignals ≠ 0 → ∃ j, (s'.thread p).delivering = some j ∧
    ∀ i < j, (s'.proc p).pendingSignals.getLsbD i = false

structure Leaves (s s' : State n C) (c : C) (p : Fin n) : Prop where
  current : s.current c = some p
  back : s'.cpu c = ⟨some p, .back⟩
  cpus : ∀ d, d ≠ c → s'.cpu d = s.cpu d
  before : s.control.lock = none ∨ s.control.lock = some c
  lock : s'.control.lock = some c
  off : (s'.proc p).state = .runnable ∨ (s'.proc p).state = .sleeping ∨ (s'.proc p).state = .zombie
  others : ∀ q, q ≠ p → s'.thread q = s.thread q ∧ ((s'.proc q).state = (s.proc q).state ∨
    (s.proc q).state = .sleeping ∧ (s'.proc q).state = .runnable)
  parked : (s'.proc p).state = .zombie ∨ (s'.thread p).switch ≠ none
  builds : (s'.thread p).base.builds = (s.thread p).base.builds ∧
    ((s.thread p).base.builds = none ∨ (s'.proc p).state = .runnable)
  pending : ∀ q, (s'.proc q).pendingSignals = (s.proc q).pendingSignals
  silent : (s.thread p).delivering = none

structure Schedules (s s' : State n C) (c : C) : Prop where
  table : s'.table = s.table
  threads : s'.control.threads = s.control.threads
  cpus : ∀ d, d ≠ c → s'.cpu d = s.cpu d
  before : (s.cpu c).phase ≠ .process ∧ (s.cpu c).phase.boots = none
  after : (s'.cpu c).proc = none
  lock : ((s'.cpu c).phase = .idle ∧ s'.control.lock ≠ some c) ∨
    ((∃ i, (s'.cpu c).phase = .scan i) ∧ s'.control.lock = some c)
  locks : ∀ d, d ≠ c → (s'.control.lock = some d ↔ s.control.lock = some d)

structure Boots (s s' : State n C) (c : C) (p : Fin n) : Prop where
  early : (s.cpu c).phase.early = true
  cpus : ∀ d, d ≠ c → s'.cpu d = s.cpu d
  proc : (s'.cpu c).proc = none
  lock : s'.control.lock = s.control.lock
  others : ∀ q, q ≠ p → (s'.proc q).state = (s.proc q).state ∧
    (s'.proc q).pendingSignals = (s.proc q).pendingSignals ∧ s'.thread q = s.thread q
  own : (s.proc p).state = .unused ∨ (s.cpu c).phase.boots = some p
  after : ((s'.cpu c).phase = .userinit p ∨ (s'.cpu c).phase = .userinitRun p) ∧ (s'.proc p).state = .embryo ∧
      s'.thread p = s.thread p ∨
    (s'.cpu c).phase = .idle ∧ (s'.proc p).state = .runnable ∧ (s'.thread p).switch ≠ none ∧
      (s'.thread p).base.builds = none
  pending : (s'.proc p).pendingSignals = (s.proc p).pendingSignals ∨ (s'.proc p).pendingSignals = 0

section

variable {s s' : State n C} {c : C} {p q : Fin n}

theorem current_congr (cpu : s'.cpu c = s.cpu c) : s'.current c = s.current c := by
  simp only [State.current, show s'.control.cpus c = s.control.cpus c from cpu]

theorem CpuFacts.kept (facts : CpuFacts s c) (cpu : s'.cpu c = s.cpu c)
    (running : ∀ q, (s.cpu c).proc = some q → (s.proc q).state = .running → (s'.proc q).state = .running)
    (off : (s.cpu c).phase = .back → ∀ q,
      (s.proc q).state = .runnable ∨ (s.proc q).state = .sleeping ∨ (s.proc q).state = .zombie →
      (s'.proc q).state = .runnable ∨ (s'.proc q).state = .sleeping ∨ (s'.proc q).state = .zombie) :
    CpuFacts s' c := by
  simp only [CpuFacts, cpu] at facts ⊢
  split at facts
  · obtain ⟨q, on, is⟩ := facts
    exact ⟨q, on, running q on is⟩
  next back =>
    obtain ⟨q, on, is⟩ := facts
    exact ⟨q, on, off back q is⟩
  · exact facts.elim
  · exact facts.elim
  · exact facts

theorem Holds.congr (cpu : s'.cpu c = s.cpu c) (thread : ∀ q, s.current c = some q → s'.thread q = s.thread q) :
    Holds s' c ↔ Holds s c := by
  simp only [Holds, cpu]
  split
  · exact Iff.rfl
  · exact Iff.rfl
  next here =>
    refine exists_congr fun q => and_congr_right fun on => ?_
    rw [thread q (current_eq_some.mpr ⟨here, on⟩)]
  · exact Iff.rfl

-- What holds of one cpu at most still does when it comes to hold of no other.
theorem cpu_unique (P : Cpu n → Prop) (cpus : ∀ d, d ≠ c → s'.cpu d = s.cpu d) (none : ¬P (s'.cpu c))
    (unique : ∀ d e, P (s.cpu d) → P (s.cpu e) → d = e) {d e : C} (first : P (s'.cpu d)) (second : P (s'.cpu e)) :
    d = e := by
  have apart {d : C} (is : P (s'.cpu d)) : d ≠ c := by
    rintro rfl
    exact none is
  exact unique d e (cpus d (apart first) ▸ first) (cpus e (apart second) ▸ second)

theorem Sane.runs (sane : Sane s) (current : s.current c = some p) : (s.proc p).state = .running := by
  obtain ⟨phase, proc⟩ := current_eq_some.mp current
  have facts := sane.cpu c
  simp only [CpuFacts, phase] at facts
  obtain ⟨q, same, running⟩ := facts
  rw [proc] at same
  exact Option.some.inj same ▸ running

theorem Sane.quiet (sane : Sane s) (silent : (s.thread p).delivering = none) : (s.proc p).pendingSignals = 0 := by
  by_contra raised
  obtain ⟨j, delivering, _⟩ := sane.pending p raised
  rw [silent] at delivering
  cases delivering

theorem Sane.cleared (sane : Sane s) {i j : Nat} (delivering : (s.thread p).delivering = some j) (before : i < j) :
    (s.proc p).pendingSignals.getLsbD i = false := by
  by_cases none : (s.proc p).pendingSignals = 0
  · rw [none]
    exact BitVec.getLsbD_zero
  · obtain ⟨k, level, _, clear⟩ := sane.pending p none
    rw [delivering] at level
    cases level
    exact clear i before

theorem Proceeds.kept (sane : Sane s) (step : Proceeds s s' c p) (different : q ≠ p)
    (live : (s.proc q).state = .running ∨ (s.proc q).state = .runnable) :
    (s'.proc q).state = (s.proc q).state ∧ s'.thread q = s.thread q := by
  have unbuilt (was : (s.thread p).base.builds = some q) : False := by
    have embryo := (sane.building p q was).1
    rcases live with is | is <;> rw [embryo] at is <;> cases is
  cases step.others q different with
  | same state thread => exact ⟨state, thread⟩
  | woken was _ _ | claimed was _ _ | reaped was _ _ _ => rcases live with is | is <;> rw [was] at is <;> cases is
  | abandoned was _ _ _ => exact (unbuilt was).elim
  | born was _ _ _ _ => exact (unbuilt was).elim

theorem Proceeds.embryo (sane : Sane s) (step : Proceeds s s' c p) (embryo : (s.proc q).state = .embryo)
    (mine : (s.thread p).base.builds = some q → (s'.thread p).base.builds = some q) :
    (s'.proc q).state = .embryo := by
  have different : q ≠ p := by
    rintro rfl
    rw [sane.runs step.current] at embryo
    cases embryo
  cases step.others q different with
  | same state _ => rw [state, embryo]
  | woken was _ _ => rw [embryo] at was; cases was
  | claimed _ now _ => exact now
  | abandoned was _ ended _ => rw [mine was] at ended; cases ended
  | born was _ ended _ _ => rw [mine was] at ended; cases ended
  | reaped was _ _ _ => rw [embryo] at was; cases was

theorem Proceeds.thread_builds (step : Proceeds s s' c p) (different : q ≠ p) {np : Fin n}
    (builds : (s'.thread q).base.builds = some np) : (s.thread q).base.builds = some np ∧ s'.thread q = s.thread q := by
  cases step.others q different with
  | born _ _ _ _ idle => rw [idle] at builds; cases builds
  | same _ thread | woken _ _ thread | claimed _ _ thread | abandoned _ _ _ thread | reaped _ _ _ thread =>
    exact ⟨thread ▸ builds, thread⟩

theorem Proceeds.own_builds (step : Proceeds s s' c p) {np : Fin n} (builds : (s'.thread p).base.builds = some np) :
    (s.thread p).base.builds = some np ∨ (s.proc np).state = .unused ∧ (s'.proc np).state = .embryo := by
  rcases step.builds with none | same | ⟨claimed, now, was, is⟩
  · rw [none] at builds
    cases builds
  · exact .inl (same ▸ builds)
  · rw [now] at builds
    cases builds
    exact .inr ⟨was, is⟩

theorem Proceeds.cpuFacts (sane : Sane s) (step : Proceeds s s' c p) (d : C) : CpuFacts s' d := by
  obtain ⟨phase, proc⟩ := current_eq_some.mp step.current
  refine (sane.cpu d).kept (congrFun step.cpus d) (fun q _ running => ?_) fun here q off => ?_
  · by_cases same : q = p
    · exact same ▸ step.running
    · rw [(step.kept sane same (.inl running)).1, running]
  · have different : q ≠ p := by
      rintro rfl
      rw [sane.runs step.current] at off
      rcases off with off | off | off <;> cases off
    cases step.others q different with
    | same state _ => rwa [state]
    | woken _ now _ => exact .inl now
    | claimed was _ _ => rw [was] at off; rcases off with off | off | off <;> cases off
    | abandoned was _ _ _ =>
      rw [(sane.building p q was).1] at off
      rcases off with off | off | off <;> cases off
    | born _ now _ _ _ => exact .inl now
    | reaped _ _ held _ =>
      -- The cpu that is on its way back has the lock, so wait does not.
      have holds : s.control.lock = some d := (sane.lock d).mpr (by simp [Holds, here])
      rw [held] at holds
      cases holds
      rw [phase] at here
      cases here

theorem Proceeds.holds (sane : Sane s) (step : Proceeds s s' c p) (d : C) :
    s'.control.lock = some d ↔ Holds s' d := by
  obtain ⟨phase, proc⟩ := current_eq_some.mp step.current
  have cpu : s'.cpu d = s.cpu d := congrFun step.cpus d
  by_cases same : d = c
  · subst same
    rw [step.lock]
    simp [Holds, cpu, phase, proc]
  · rw [step.locks d same, sane.lock d, Holds.congr cpu]
    intro q current
    have on := (current_eq_some.mp current).2
    have different : q ≠ p := fun equal => same (sane.alone d c q on (equal ▸ proc))
    exact (step.kept sane different (.inl (sane.runs current))).2

theorem Proceeds.sane (sane : Sane s) (step : Proceeds s s' c p) : Sane s' := by
  have cpu (d : C) : s'.cpu d = s.cpu d := congrFun step.cpus d
  have stillCurrent (d : C) : s'.current d = s.current d := current_congr (cpu d)
  refine ⟨step.cpuFacts sane, fun q running => ?_, fun d e q first second => ?_, step.holds sane, fun q parked => ?_,
    fun q np builds => ?_, fun q r np first second => ?_, fun d r boots => ?_, fun d e first second => ?_,
    fun q raised => ?_⟩
  · by_cases same : q = p
    · exact ⟨c, same ▸ (stillCurrent c).trans step.current⟩
    · cases step.others q same with
      | same state _ =>
        obtain ⟨d, current⟩ := sane.running q (state ▸ running)
        exact ⟨d, (stillCurrent d).trans current⟩
      | woken _ now _ | claimed _ now _ | abandoned _ now _ _ | born _ now _ _ _ | reaped _ now _ _ =>
        rw [running] at now
        cases now
  · rw [cpu] at first second
    exact sane.alone d e q first second
  · by_cases same : q = p
    · subst same
      rw [step.running] at parked
      rcases parked with is | is <;> cases is
    · cases step.others q same with
      | same state thread =>
        rw [thread]
        exact sane.parked q (state ▸ parked)
      | woken was _ thread =>
        rw [thread]
        exact sane.parked q (.inr was)
      | born _ _ _ off _ => exact off
      | claimed _ now _ | abandoned _ now _ _ | reaped _ now _ _ =>
        rw [now] at parked
        rcases parked with is | is <;> cases is
  · by_cases same : q = p
    · subst same
      rcases step.own_builds builds with old | ⟨_, now⟩
      · exact ⟨step.embryo sane (sane.building q np old).1 fun _ => builds, .inl step.running⟩
      · exact ⟨now, .inl step.running⟩
    · obtain ⟨old, _⟩ := step.thread_builds same builds
      obtain ⟨embryo, live⟩ := sane.building q np old
      refine ⟨step.embryo sane embryo fun mine => absurd (sane.builder q p np old mine) same, ?_⟩
      rwa [(step.kept sane same live).1]
  · -- A slot that is claimed now was unused, so nobody else was building it.
    have fresh {r : Fin n} (different : r ≠ p) (other : (s'.thread r).base.builds = some np)
        (mine : (s'.thread p).base.builds = some np) : False := by
      obtain ⟨old, _⟩ := step.thread_builds different other
      rcases step.own_builds mine with own | ⟨unused, _⟩
      · exact different (sane.builder r p np old own)
      · rw [(sane.building r np old).1] at unused
        cases unused
    by_cases same : q = p
    · subst same
      by_cases equal : r = q
      · exact equal.symm
      · exact (fresh equal second first).elim
    · by_cases equal : r = p
      · subst equal
        exact (fresh same first second).elim
      · exact sane.builder q r np (step.thread_builds same first).1 (step.thread_builds equal second).1
  · rw [cpu] at boots
    obtain ⟨embryo, unbuilt⟩ := sane.booting d r boots
    refine ⟨step.embryo sane embryo fun mine => absurd mine (unbuilt p), fun q builds => ?_⟩
    by_cases same : q = p
    · subst same
      rcases step.own_builds builds with old | ⟨unused, _⟩
      · exact unbuilt q old
      · rw [embryo] at unused
        cases unused
    · exact unbuilt q (step.thread_builds same builds).1
  · rw [cpu] at first second
    exact sane.oneBoot d e first second
  · by_cases same : q = p
    · subst same
      obtain ⟨j, delivering, clear⟩ := step.delivering raised
      exact ⟨j, delivering, step.running, clear⟩
    · rcases step.pending q same with kept | none
      · rw [kept] at raised ⊢
        obtain ⟨j, delivering, running, clear⟩ := sane.pending q raised
        obtain ⟨state, thread⟩ := step.kept sane same (.inl running)
        exact ⟨j, by rw [thread]; exact delivering, by rw [state]; exact running, clear⟩
      · exact absurd none raised

theorem Leaves.others_kept (step : Leaves s s' c p) (different : q ≠ p) (awake : (s.proc q).state ≠ .sleeping) :
    (s'.proc q).state = (s.proc q).state := (step.others q different).2.resolve_right fun woken => awake woken.1

theorem Leaves.thread_builds (step : Leaves s s' c p) (q : Fin n) :
    (s'.thread q).base.builds = (s.thread q).base.builds := by
  by_cases same : q = p
  · exact same ▸ step.builds.1
  · rw [(step.others q same).1]

theorem Leaves.exclusive (sane : Sane s) (step : Leaves s s' c p) {d : C} (different : d ≠ c) : ¬ Holds s d := by
  rw [← sane.lock d]
  intro held
  rcases step.before with free | mine
  · rw [free] at held
    cases held
  · rw [mine] at held
    exact different (Option.some.inj held).symm

theorem Leaves.embryo (sane : Sane s) (step : Leaves s s' c p) (embryo : (s.proc q).state = .embryo) :
    (s'.proc q).state = .embryo := by
  have different : q ≠ p := by
    rintro rfl
    rw [sane.runs step.current] at embryo
    cases embryo
  rw [step.others_kept different (by rw [embryo]; simp), embryo]

theorem Leaves.sane (sane : Sane s) (step : Leaves s s' c p) : Sane s' := by
  obtain ⟨phase, proc⟩ := current_eq_some.mp step.current
  have runs := sane.runs step.current
  have elsewhere (d : C) (q : Fin n) (different : d ≠ c) (on : (s.cpu d).proc = some q) : q ≠ p :=
    fun equal => different (sane.alone d c q on (equal ▸ proc))
  have procs (d : C) : (s'.cpu d).proc = (s.cpu d).proc := by
    by_cases same : d = c
    · subst same
      rw [step.back, proc]
    · rw [step.cpus d same]
  have holds (d : C) (different : d ≠ c) : ¬ Holds s' d := by
    rw [Holds.congr (step.cpus d different)]
    · exact step.exclusive sane different
    · exact fun q current => (step.others q (elsewhere d q different (current_eq_some.mp current).2)).1
  refine ⟨fun d => ?_, fun q running => ?_, fun d e q first second => ?_, fun d => ?_, fun q parked => ?_,
    fun q np builds => ?_, fun q r np first second => ?_, fun d r boots => ?_, fun d e first second => ?_,
    fun q raised => ?_⟩
  · by_cases same : d = c
    · subst same
      simp only [CpuFacts, step.back]
      exact ⟨p, rfl, step.off⟩
    · have free := step.exclusive sane same
      refine (sane.cpu d).kept (step.cpus d same) (fun q on running => ?_) fun here => absurd (by simp [Holds, here]) free
      rw [step.others_kept (elsewhere d q same on) (by rw [running]; simp), running]
  · have different : q ≠ p := by
      rintro rfl
      rcases step.off with is | is | is <;> rw [running] at is <;> cases is
    have was : (s.proc q).state = .running := by
      rcases (step.others q different).2 with same | ⟨_, now⟩
      · rw [← same, running]
      · rw [running] at now
        cases now
    obtain ⟨d, current⟩ := sane.running q was
    have apart : d ≠ c := by
      rintro rfl
      rw [step.current] at current
      exact different (Option.some.inj current).symm
    exact ⟨d, (current_congr (step.cpus d apart)).trans current⟩
  · rw [procs] at first second
    exact sane.alone d e q first second
  · by_cases same : d = c
    · subst same
      simp [step.lock, Holds, step.back]
    · rw [step.lock]
      exact ⟨fun held => absurd (Option.some.inj held).symm same, fun held => absurd held (holds d same)⟩
  · by_cases same : q = p
    · subst same
      refine step.parked.resolve_left fun dead => ?_
      rw [dead] at parked
      rcases parked with is | is <;> cases is
    · rw [(step.others q same).1]
      rcases (step.others q same).2 with kept | ⟨was, _⟩
      · exact sane.parked q (kept ▸ parked)
      · exact sane.parked q (.inr was)
  · rw [step.thread_builds] at builds
    obtain ⟨embryo, live⟩ := sane.building q np builds
    refine ⟨step.embryo sane embryo, ?_⟩
    by_cases same : q = p
    · subst same
      exact .inr (step.builds.2.resolve_left (by rw [builds]; simp))
    · rwa [step.others_kept same (by rcases live with is | is <;> rw [is] <;> simp)]
  · rw [step.thread_builds] at first second
    exact sane.builder q r np first second
  · have apart : d ≠ c := by
      rintro rfl
      rw [step.back] at boots
      cases boots
    rw [step.cpus d apart] at boots
    obtain ⟨embryo, unbuilt⟩ := sane.booting d r boots
    exact ⟨step.embryo sane embryo, fun q => by rw [step.thread_builds]; exact unbuilt q⟩
  · refine cpu_unique (·.phase.early = true) step.cpus ?_ sane.oneBoot first second
    rw [step.back]
    simp [Phase.early]
  · rw [step.pending] at raised ⊢
    obtain ⟨j, delivering, running, clear⟩ := sane.pending q raised
    have different : q ≠ p := by
      rintro rfl
      rw [step.silent] at delivering
      cases delivering
    refine ⟨j, ?_, ?_, clear⟩
    · rw [(step.others q different).1]
      exact delivering
    · rw [step.others_kept different (by rw [running]; simp), running]

theorem Schedules.sane (sane : Sane s) (step : Schedules s s' c) : Sane s' := by
  have proc (q : Fin n) : s'.proc q = s.proc q := by simp [State.proc, step.table]
  have thread (q : Fin n) : s'.thread q = s.thread q := congrFun step.threads q
  have facts (d : C) (same : d = c) : (s'.cpu d).proc = none ∧ (s'.cpu d).phase.boots = none ∧
      ((s'.cpu d).phase = .idle ∨ ∃ i, (s'.cpu d).phase = .scan i) := by
    subst same
    refine ⟨step.after, ?_⟩
    rcases step.lock with ⟨idle, _⟩ | ⟨⟨i, scan⟩, _⟩
    · exact ⟨by rw [idle]; rfl, .inl idle⟩
    · exact ⟨by rw [scan]; rfl, .inr ⟨i, scan⟩⟩
  refine ⟨fun d => ?_, fun q running => ?_, fun d e q first second => ?_, fun d => ?_, fun q parked => ?_,
    fun q np builds => ?_, fun q r np first second => ?_, fun d r boots => ?_, fun d e first second => ?_,
    fun q raised => ?_⟩
  · by_cases same : d = c
    · obtain ⟨none, _, idle | ⟨i, scan⟩⟩ := facts d same
      · simp [CpuFacts, idle, none]
      · simp [CpuFacts, scan, none]
    · have before := sane.cpu d
      simp only [CpuFacts, step.cpus d same, proc] at before ⊢
      exact before
  · rw [proc] at running
    obtain ⟨d, current⟩ := sane.running q running
    have apart : d ≠ c := by
      rintro rfl
      exact step.before.1 (current_eq_some.mp current).1
    exact ⟨d, (current_congr (step.cpus d apart)).trans current⟩
  · refine cpu_unique (·.proc = some q) step.cpus ?_ (fun d e => sane.alone d e q) first second
    simp [step.after]
  · by_cases same : d = c
    · subst same
      rcases step.lock with ⟨idle, free⟩ | ⟨⟨i, scan⟩, held⟩
      · simp [Holds, idle, free]
      · simp [Holds, scan, held]
    · rw [step.locks d same, sane.lock d, Holds.congr (step.cpus d same) fun q _ => thread q]
  · rw [thread]
    exact sane.parked q (by simpa only [proc] using parked)
  · rw [thread] at builds
    simpa only [proc] using sane.building q np builds
  · rw [thread] at first second
    exact sane.builder q r np first second
  · have apart : d ≠ c := by
      intro same
      rw [(facts d same).2.1] at boots
      cases boots
    rw [step.cpus d apart] at boots
    simpa only [proc, thread] using sane.booting d r boots
  · refine cpu_unique (·.phase.early = true) step.cpus ?_ sane.oneBoot first second
    rcases (facts c rfl).2.2 with is | ⟨i, is⟩ <;> simp [is, Phase.early]
  · rw [proc] at raised
    simpa only [proc, thread] using sane.pending q raised

theorem Boots.unborn (sane : Sane s) (step : Boots s s' c p) :
    ((s.proc p).state = .unused ∨ (s.proc p).state = .embryo) ∧ ∀ q, (s.thread q).base.builds ≠ some p := by
  rcases step.own with unused | boots
  · refine ⟨.inl unused, fun q builds => ?_⟩
    rw [(sane.building q p builds).1] at unused
    cases unused
  · obtain ⟨embryo, unbuilt⟩ := sane.booting c p boots
    exact ⟨.inr embryo, unbuilt⟩

theorem Boots.thread_builds (sane : Sane s) (step : Boots s s' c p) {np : Fin n}
    (builds : (s'.thread q).base.builds = some np) : q ≠ p ∧ np ≠ p ∧ (s.thread q).base.builds = some np := by
  obtain ⟨unborn, unbuilt⟩ := step.unborn sane
  have different : q ≠ p := by
    rintro rfl
    rcases step.after with ⟨_, _, thread⟩ | ⟨_, _, _, none⟩
    · rw [thread] at builds
      rcases (sane.building q np builds).2 with is | is <;> rcases unborn with was | was <;> rw [was] at is <;> cases is
    · rw [none] at builds
      cases builds
  rw [(step.others q different).2.2] at builds
  exact ⟨different, fun same => unbuilt q (same ▸ builds), builds⟩

theorem Boots.sane (sane : Sane s) (step : Boots s s' c p) : Sane s' := by
  obtain ⟨unborn, unbuilt⟩ := step.unborn sane
  have live (q : Fin n) (is : (s.proc q).state = .running ∨ (s.proc q).state = .runnable ∨
      (s.proc q).state = .sleeping ∨ (s.proc q).state = .zombie) : q ≠ p := by
    rintro rfl
    rcases unborn with was | was <;> rw [was] at is <;> rcases is with is | is | is | is <;> cases is
  have phase : (s'.cpu c).phase = .userinit p ∨ (s'.cpu c).phase = .userinitRun p ∨ (s'.cpu c).phase = .idle := by
    rcases step.after with ⟨first | second, _⟩ | ⟨idle, _⟩
    · exact .inl first
    · exact .inr (.inl second)
    · exact .inr (.inr idle)
  refine ⟨fun d => ?_, fun q running => ?_, fun d e q first second => ?_, fun d => ?_, fun q parked => ?_,
    fun q np builds => ?_, fun q r np first second => ?_, fun d r boots => ?_, fun d e first second => ?_,
    fun q raised => ?_⟩
  · by_cases same : d = c
    · subst same
      rcases phase with is | is | is <;> simp [CpuFacts, is, step.proc]
    · refine (sane.cpu d).kept (step.cpus d same) (fun q _ running => ?_) fun _ q off => ?_
      · rw [(step.others q (live q (.inl running))).1, running]
      · rwa [(step.others q (live q (.inr off))).1]
  · have different : q ≠ p := by
      rintro rfl
      rcases step.after with ⟨_, is, _⟩ | ⟨_, is, _⟩ <;> rw [running] at is <;> cases is
    rw [(step.others q different).1] at running
    obtain ⟨d, current⟩ := sane.running q running
    have apart : d ≠ c := by
      rintro rfl
      have early := step.early
      rw [(current_eq_some.mp current).1] at early
      cases early
    exact ⟨d, (current_congr (step.cpus d apart)).trans current⟩
  · refine cpu_unique (·.proc = some q) step.cpus ?_ (fun d e => sane.alone d e q) first second
    simp [step.proc]
  · rw [step.lock, sane.lock d]
    by_cases same : d = c
    · subst same
      have outside : ¬ Holds s d := by
        have early := step.early
        unfold Holds
        split <;> simp_all [Phase.early]
      have stillOutside : ¬ Holds s' d := by
        rcases phase with is | is | is <;> simp [Holds, is]
      exact ⟨fun held => absurd held outside, fun held => absurd held stillOutside⟩
    · exact (Holds.congr (step.cpus d same) fun q current =>
        (step.others q (live q (.inl (sane.runs current)))).2.2).symm
  · by_cases same : q = p
    · subst same
      rcases step.after with ⟨_, is, _⟩ | ⟨_, _, off, _⟩
      · rw [is] at parked
        rcases parked with is | is <;> cases is
      · exact off
    · obtain ⟨state, _, thread⟩ := step.others q same
      rw [thread]
      exact sane.parked q (state ▸ parked)
  · obtain ⟨different, other, old⟩ := step.thread_builds sane builds
    rw [(step.others np other).1, (step.others q different).1]
    exact sane.building q np old
  · exact sane.builder q r np (step.thread_builds sane first).2.2 (step.thread_builds sane second).2.2
  · by_cases same : d = c
    · subst same
      have slot : r = p ∧ (s'.proc p).state = .embryo := by
        rcases step.after with ⟨is | is, embryo, _⟩ | ⟨is, _⟩ <;> rw [is] at boots
        · exact ⟨(Option.some.inj boots).symm, embryo⟩
        · exact ⟨(Option.some.inj boots).symm, embryo⟩
        · cases boots
      refine ⟨slot.1 ▸ slot.2, fun q builds => ?_⟩
      exact (step.thread_builds sane builds).2.1 slot.1
    · rw [step.cpus d same] at boots
      refine absurd (sane.oneBoot d c ?_ step.early) same
      revert boots
      cases (s.cpu d).phase <;> simp [Phase.boots, Phase.early]
  · have early (d : C) (is : (s'.cpu d).phase.early = true) : d = c := by
      by_contra apart
      rw [step.cpus d apart] at is
      exact apart (sane.oneBoot d c is step.early)
    rw [early d first, early e second]
  · by_cases same : q = p
    · subst same
      rcases step.pending with kept | none
      · rw [kept] at raised
        obtain ⟨_, _, running, _⟩ := sane.pending q raised
        exact absurd rfl (live q (.inl running))
      · exact absurd none raised
    · obtain ⟨state, pending, thread⟩ := step.others q same
      rw [pending] at raised ⊢
      rw [state, thread]
      exact sane.pending q raised

theorem Sane.woken (sane : Sane s) (control : s'.control = s.control)
    (states : ∀ q, (s'.proc q).state = (s.proc q).state ∨
      (s.proc q).state = .sleeping ∧ (s'.proc q).state = .runnable)
    (pending : ∀ q, (s'.proc q).pendingSignals = (s.proc q).pendingSignals) : Sane s' := by
  have cpu (d : C) : s'.cpu d = s.cpu d := by simp [State.cpu, control]
  have thread (q : Fin n) : s'.thread q = s.thread q := by simp [State.thread, control]
  have current (d : C) : s'.current d = s.current d := by simp [State.current, control]
  have awake (q : Fin n) (up : (s.proc q).state ≠ .sleeping) : (s'.proc q).state = (s.proc q).state :=
    (states q).resolve_right fun woken => up woken.1
  refine ⟨fun d => ?_, fun q running => ?_, fun d e q first second => ?_, fun d => ?_, fun q parked => ?_,
    fun q np builds => ?_, fun q r np first second => ?_, fun d r boots => ?_, fun d e first second => ?_,
    fun q raised => ?_⟩
  · refine (sane.cpu d).kept (cpu d) (fun q _ running => ?_) fun _ q off => ?_
    · rw [awake q (by rw [running]; simp), running]
    · rcases states q with same | ⟨_, now⟩
      · rwa [same]
      · exact .inl now
  · simp only [current]
    rcases states q with same | ⟨_, now⟩
    · exact sane.running q (same ▸ running)
    · rw [running] at now
      cases now
  · rw [cpu] at first second
    exact sane.alone d e q first second
  · rw [control, sane.lock d, Holds.congr (cpu d) fun q _ => thread q]
  · rw [thread]
    rcases states q with same | ⟨was, _⟩
    · exact sane.parked q (same ▸ parked)
    · exact sane.parked q (.inr was)
  · rw [thread] at builds
    obtain ⟨embryo, live⟩ := sane.building q np builds
    refine ⟨by rw [awake np (by rw [embryo]; simp), embryo], ?_⟩
    rwa [awake q (by rcases live with is | is <;> rw [is] <;> simp)]
  · rw [thread] at first second
    exact sane.builder q r np first second
  · rw [cpu] at boots
    obtain ⟨embryo, unbuilt⟩ := sane.booting d r boots
    exact ⟨by rw [awake r (by rw [embryo]; simp), embryo], fun q => by rw [thread]; exact unbuilt q⟩
  · rw [cpu] at first second
    exact sane.oneBoot d e first second
  · rw [pending] at raised ⊢
    rw [thread]
    obtain ⟨j, delivering, running, clear⟩ := sane.pending q raised
    exact ⟨j, delivering, by rw [awake q (by rw [running]; simp), running], clear⟩

theorem Sane.own (sane : Sane s) (current : s.current c = some p) {t' : Table n} {thread : Thread n}
    (others : ∀ q, q ≠ p → t'.procs q = s.proc q) (state : (t'.procs p).state = (s.proc p).state)
    (here : (s.thread p).switch = none) (stays : thread.switch = none)
    (base : thread.base = .waitScan ↔ (s.thread p).base = .waitScan)
    (builds : thread.base.builds = (s.thread p).base.builds)
    (delivering : (t'.procs p).pendingSignals ≠ 0 → ∃ j, thread.delivering = some j ∧
      ∀ i < j, (t'.procs p).pendingSignals.getLsbD i = false) : Sane ⟨t', s.control.thread p thread⟩ := by
  obtain ⟨phase, proc⟩ := current_eq_some.mp current
  set s' : State n C := ⟨t', s.control.thread p thread⟩
  have mine : s'.thread p = thread := Function.update_self ..
  have rest (q : Fin n) (different : q ≠ p) : s'.thread q = s.thread q := Function.update_of_ne different ..
  have other (q : Fin n) (different : q ≠ p) : s'.proc q = s.proc q := others q different
  refine Proceeds.sane sane (c := c) (p := p) ⟨current, rfl, ?_, fun d _ => Iff.rfl, ?_, fun q different => ?_,
    ?_, fun q different => ?_, ?_⟩
  · rw [mine, stays, base]
    show s.control.lock = some c ↔ _
    rw [sane.lock c]
    simp [Holds, phase, proc, here]
  · exact state.trans (sane.runs current)
  · exact .same (by rw [other q different]) (rest q different)
  · exact .inr (.inl (by rw [mine, builds]))
  · exact .inl (by rw [other q different])
  · rw [mine]
    exact delivering

theorem Sane.differs (sane : Sane s) (current : s.current c = some p) {q : Fin n} {state : ProcState}
    (is : (s.proc q).state = state) (off : state ≠ .running) : q ≠ p := by
  rintro rfl
  exact off (is.symm.trans (sane.runs current))

theorem Sane.lock_switch (sane : Sane s) (current : s.current c = some p) (off : (s.thread p).switch ≠ none) :
    s.control.lock = some c := by
  obtain ⟨phase, proc⟩ := current_eq_some.mp current
  rw [sane.lock c]
  simp [Holds, phase, proc, off]

theorem Sane.lock_wait (sane : Sane s) (current : s.current c = some p) (here : (s.thread p).switch = none) :
    s.control.lock = some c ↔ (s.thread p).base = .waitScan := by
  obtain ⟨phase, proc⟩ := current_eq_some.mp current
  rw [sane.lock c]
  simp [Holds, phase, proc, here]

theorem Sane.scanning (sane : Sane s) {i : Nat} (here : (s.cpu c).phase = .scan i) :
    s.control.lock = some c ∧ ∀ d, d ≠ c → ¬ Holds s d := by
  have held : s.control.lock = some c := (sane.lock c).mpr (by simp [Holds, here])
  refine ⟨held, fun d different holds => different ?_⟩
  rw [← sane.lock d, held] at holds
  exact (Option.some.inj holds).symm

theorem Sane.released (sane : Sane s) (current : s.current c = some p) (held : s.control.lock = some c)
    {t' : Table n} {thread : Thread n} (others : ∀ q, q ≠ p → (t'.procs q).state = (s.proc q).state ∨
      (s.proc q).state = .zombie ∧ (t'.procs q).state = .unused) (state : (t'.procs p).state = (s.proc p).state)
    (pending : ∀ q, (t'.procs q).pendingSignals = (s.proc q).pendingSignals)
    (stays : thread.switch = none) (base : thread.base ≠ .waitScan)
    (builds : thread.base.builds = none ∨ thread.base.builds = (s.thread p).base.builds)
    (delivering : thread.delivering = (s.thread p).delivering) : Sane ⟨t', s.control.release.thread p thread⟩ := by
  set s' : State n C := ⟨t', s.control.release.thread p thread⟩
  have mine : s'.thread p = thread := Function.update_self ..
  have rest (q : Fin n) (different : q ≠ p) : s'.thread q = s.thread q := Function.update_of_ne different ..
  have free : s'.control.lock = none := rfl
  refine Proceeds.sane sane (c := c) (p := p) ⟨current, rfl, ?_, fun d different => ?_, ?_, fun q different => ?_,
    ?_, fun q _ => .inl (pending q), ?_⟩
  · rw [mine, stays, free]
    simp [base]
  · rw [free, held]
    simp [different.symm]
  · exact state.trans (sane.runs current)
  · rcases others q different with same | ⟨was, now⟩
    · exact .same same (rest q different)
    · exact .reaped was now held (rest q different)
  · rw [mine]
    exact builds.imp_right .inl
  · intro raised
    rw [mine, delivering]
    have same : (s'.proc p).pendingSignals = (s.proc p).pendingSignals := pending p
    rw [same] at raised ⊢
    obtain ⟨j, level, _, clear⟩ := sane.pending p raised
    exact ⟨j, level, clear⟩

theorem Sane.forks (sane : Sane s) (current : s.current c = some p) {base base' : Base n}
    (here : s.thread p = ⟨base, none, none⟩) (was : base ≠ .waitScan) (now : s'.thread p = ⟨base', none, none⟩)
    (is : base' ≠ .waitScan) (cpus : s'.control.cpus = s.control.cpus) (lock : s'.control.lock = s.control.lock)
    (own : s'.proc p = s.proc p) (others : ∀ q, q ≠ p → Change s s' c p q)
    (builds : base'.builds = none ∨ base'.builds = base.builds ∨
      ∃ np, base'.builds = some np ∧ (s.proc np).state = .unused ∧ (s'.proc np).state = .embryo)
    (pending : ∀ q, q ≠ p → (s'.proc q).pendingSignals = (s.proc q).pendingSignals ∨ (s'.proc q).pendingSignals = 0) :
    Sane s' := by
  obtain ⟨phase, proc⟩ := current_eq_some.mp current
  refine Proceeds.sane sane (c := c) (p := p) ⟨current, cpus, ?_, fun d _ => by rw [lock], ?_, others, ?_, pending, ?_⟩
  · rw [lock, sane.lock c, now]
    simp [Holds, phase, proc, here, was, is]
  · rw [own]
    exact sane.runs current
  · rw [now, here]
    exact builds
  · intro raised
    rw [own, sane.quiet (by rw [here]; rfl)] at raised
    exact absurd rfl raised

end

section

variable [DecidableEq C] {s : State n C} {c : C} {p : Fin n}

theorem Sane.swtch (sane : Sane s) (here : (s.cpu c).phase = .scan p) (runnable : (s.proc p).state = .runnable) :
    Sane ⟨s.table.setState p .running, s.control.swtch c p⟩ := by
  obtain ⟨held, free⟩ := sane.scanning here
  set s' : State n C := ⟨s.table.setState p .running, s.control.swtch c p⟩
  have now : (s'.proc p).state = .running := by simp [s', State.proc, Table.setState]
  have quiet : (s'.proc p).pendingSignals = (s.proc p).pendingSignals := by simp [s', State.proc, Table.setState]
  have other (q : Fin n) (different : q ≠ p) : s'.proc q = s.proc q := by
    simp [s', State.proc, Table.setState, different]
  have cpu : s'.cpu c = ⟨some p, .process⟩ := Function.update_self ..
  have cpus (d : C) (different : d ≠ c) : s'.cpu d = s.cpu d := Function.update_of_ne different ..
  have busy (q : Fin n) {state : ProcState} (is : (s.proc q).state = state) (off : state ≠ .runnable) : q ≠ p := by
    rintro rfl
    exact off (is.symm.trans runnable)
  -- No cpu has the process yet: one that runs it would find it running, one on its way back has the lock.
  have untaken (d : C) (on : (s.cpu d).proc = some p) : False := by
    have facts := sane.cpu d
    by_cases same : d = c
    · simp [CpuFacts, same, here] at facts
      rw [same, facts] at on
      cases on
    · have outside := free d same
      unfold CpuFacts at facts
      split at facts
      · obtain ⟨q, is, running⟩ := facts
        rw [on] at is
        exact busy q running (by simp) (Option.some.inj is).symm
      next back => exact outside (by simp [Holds, back])
      · exact facts.elim
      · exact facts.elim
      · rw [facts] at on
        cases on
  refine ⟨fun d => ?_, fun q running => ?_, fun d e q first second => ?_, fun d => ?_, fun q parked => ?_,
    fun q np builds => ?_, sane.builder, fun d r boots => ?_, fun d e first second => ?_, fun q raised => ?_⟩
  · by_cases same : d = c
    · subst same
      simp only [CpuFacts, cpu]
      exact ⟨p, rfl, now⟩
    · refine (sane.cpu d).kept (cpus d same) (fun q _ running => ?_) fun back => absurd (by simp [Holds, back]) (free d same)
      rw [other q (busy q running (by simp)), running]
  · by_cases same : q = p
    · exact ⟨c, current_eq_some.mpr (by rw [cpu, same]; exact ⟨rfl, rfl⟩)⟩
    · rw [other q same] at running
      obtain ⟨d, current⟩ := sane.running q running
      have apart : d ≠ c := by
        rintro rfl
        rw [(current_eq_some.mp current).1] at here
        cases here
      exact ⟨d, (current_congr (cpus d apart)).trans current⟩
  · have mine (d : C) (on : (s'.cpu d).proc = some q) : d = c ∧ q = p ∨ d ≠ c ∧ q ≠ p ∧ (s.cpu d).proc = some q := by
      by_cases same : d = c
      · subst same
        rw [cpu] at on
        exact .inl ⟨rfl, (Option.some.inj on).symm⟩
      · rw [cpus d same] at on
        exact .inr ⟨same, fun equal => untaken d (equal ▸ on), on⟩
    rcases mine d first with ⟨is, chosen⟩ | ⟨_, rest, on⟩ <;> rcases mine e second with ⟨is', _⟩ | ⟨_, rest', on'⟩
    · exact is.trans is'.symm
    · exact absurd chosen rest'
    · exact absurd ‹q = p› rest
    · exact sane.alone d e q on on'
  · by_cases same : d = c
    · subst same
      have off := sane.parked p (.inl runnable)
      simp only [Holds, cpu]
      exact ⟨fun _ => ⟨p, rfl, .inl off⟩, fun _ => held⟩
    · rw [Holds.congr (cpus d same) fun q _ => rfl]
      exact sane.lock d
  · by_cases same : q = p
    · subst same
      rw [now] at parked
      rcases parked with is | is <;> cases is
    · rw [other q same] at parked
      exact sane.parked q parked
  · obtain ⟨embryo, live⟩ := sane.building q np builds
    refine ⟨by rw [other np (busy np embryo (by simp)), embryo], ?_⟩
    by_cases same : q = p
    · subst same
      exact .inl now
    · rwa [other q same]
  · have apart : d ≠ c := by
      rintro rfl
      rw [cpu] at boots
      cases boots
    rw [cpus d apart] at boots
    obtain ⟨embryo, unbuilt⟩ := sane.booting d r boots
    exact ⟨by rw [other r (busy r embryo (by simp)), embryo], unbuilt⟩
  · refine cpu_unique (·.phase.early = true) cpus ?_ sane.oneBoot first second
    rw [cpu]
    simp [Phase.early]
  · have different : q ≠ p := by
      rintro rfl
      rw [quiet] at raised
      obtain ⟨_, _, running, _⟩ := sane.pending q raised
      exact busy q running (by simp) rfl
    rw [other q different] at raised ⊢
    exact sane.pending q raised

theorem Sane.parks (sane : Sane s) (current : s.current c = some p)
    (before : s.control.lock = none ∨ s.control.lock = some c) {t' : Table n} {thread : Thread n}
    (others : ∀ q, q ≠ p → t'.procs q = s.proc q)
    (off : (t'.procs p).state = .runnable ∨ (t'.procs p).state = .sleeping)
    (pending : (t'.procs p).pendingSignals = (s.proc p).pendingSignals) (leaves : thread.switch ≠ none)
    (builds : thread.base.builds = (s.thread p).base.builds)
    (ready : (s.thread p).base.builds = none ∨ (t'.procs p).state = .runnable)
    (silent : (s.thread p).delivering = none) : Sane ⟨t', (s.control.thread p thread).sched c⟩ := by
  obtain ⟨phase, proc⟩ := current_eq_some.mp current
  set s' : State n C := ⟨t', (s.control.thread p thread).sched c⟩
  have mine : s'.thread p = thread := Function.update_self ..
  have rest (q : Fin n) (different : q ≠ p) : s'.thread q = s.thread q := Function.update_of_ne different ..
  have other (q : Fin n) (different : q ≠ p) : s'.proc q = s.proc q := others q different
  refine Leaves.sane sane (c := c) (p := p) ⟨current, ?_, fun d different => ?_, before, rfl,
    off.imp_right .inl, fun q different => ?_, ?_, ?_, fun q => ?_, silent⟩
  · have back : s'.cpu c = ⟨(s.cpu c).proc, .back⟩ := Function.update_self ..
    rw [back, proc]
  · exact Function.update_of_ne different ..
  · exact ⟨rest q different, .inl (by rw [other q different])⟩
  · rw [mine]
    exact .inr leaves
  · rw [mine]
    exact ⟨builds, ready⟩
  · by_cases same : q = p
    · exact same ▸ pending
    · rw [other q same]

theorem Sane.exit (sane : Sane s) (current : s.current c = some p) {masked : Bool}
    (here : s.thread p = ⟨.exiting masked, none, none⟩) (free : s.control.lock = none) :
    Sane ⟨s.table.exit p, s.control.sched c⟩ := by
  obtain ⟨phase, proc⟩ := current_eq_some.mp current
  set s' : State n C := ⟨s.table.exit p, s.control.sched c⟩
  obtain ⟨zombie, _, _, _, _, pending, _, _⟩ := (s.table.exit_self p).1
  have thread (q : Fin n) : s'.thread q = s.thread q := rfl
  refine Leaves.sane sane (c := c) (p := p) ⟨current, ?_, fun d different => ?_, .inl free, rfl, .inr (.inr zombie),
    fun q different => ?_, .inl zombie, ?_, fun q => ?_, ?_⟩
  · have back : s'.cpu c = ⟨(s.cpu c).proc, .back⟩ := Function.update_self ..
    rw [back, proc]
  · exact Function.update_of_ne different ..
  · exact ⟨thread q, (s.table.exit_ne different).1.state⟩
  · rw [thread, here]
    exact ⟨rfl, .inl rfl⟩
  · by_cases same : q = p
    · subst same
      exact pending
    · exact (s.table.exit_ne same).1.pendingSignals
  · rw [here]
    rfl

end

end Xv6.Processes
