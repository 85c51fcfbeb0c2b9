import Xv6.Processes.Effects

set_option autoImplicit false

namespace Xv6.Processes

variable {n : Nat} {C : Type}

def ProcState.live : ProcState → Bool
  | .sleeping | .runnable | .running => true
  | _ => false

def ProcState.occupied : ProcState → Bool
  | .unused | .embryo => false
  | _ => true

theorem ProcState.occupied_of_live {state : ProcState} (live : state.live = true) : state.occupied = true := by
  cases state <;> first | rfl | cases live

def ProcState.Settles (before after : ProcState) : Prop := after = before ∨ before.live = true ∧ after.live = true

section

variable {before after state : ProcState}

theorem ProcState.Settles.live (settles : before.Settles after) : after.live = before.live := by
  rcases settles with same | ⟨was, is⟩
  · rw [same]
  · rw [was, is]

theorem ProcState.Settles.occupied (settles : before.Settles after) : after.occupied = before.occupied := by
  rcases settles with same | ⟨was, is⟩
  · rw [same]
  · rw [occupied_of_live was, occupied_of_live is]

theorem ProcState.Settles.dead_iff (settles : before.Settles after) (dead : state.live = false) :
    after = state ↔ before = state := by
  rcases settles with same | ⟨was, is⟩
  · rw [same]
  · constructor <;> rintro rfl
    · simp [dead] at is
    · simp [dead] at was

end

/-- The links between the slots, with the pids as the order in which the processes came. -/
structure Tree (s : State n C) : Prop where
  unused : ∀ p, (s.proc p).state = .unused → (s.proc p).parent = none ∧ (s.proc p).kstack = 0
  orphan : ∀ p np, (s.thread p).base = .forkStack np ∨ (s.thread p).base = .forkCopy np → (s.proc np).parent = none
  child : ∀ p np, (s.thread p).base = .forkRun np → (s.proc np).parent = some p
  younger : ∀ p np, (s.thread p).base.builds = some np → (s.proc p).pid < (s.proc np).pid
  placed : ∀ p, (s.proc p).state.occupied = true → s.table.initproc ≠ some p →
    ∃ q, (s.proc p).parent = some q ∧ (s.proc q).state.live = true ∧ (s.proc q).pid < (s.proc p).pid
  root : ∀ i, s.table.initproc = some i → (s.proc i).parent = none ∧
    ((s.proc i).state.live = true ∨ ∃ c, (s.cpu c).phase = .userinitRun i) ∧
    ∀ p, (s.proc p).state.occupied = true → p ≠ i → (s.proc i).pid < (s.proc p).pid
  rootless : s.table.initproc = none → ∀ p, (s.proc p).state.occupied = false
  boots : ∀ c p, (s.cpu c).phase.boots = some p → (s.proc p).parent = none
  starts : ∀ c p, (s.cpu c).phase = .userinitRun p →
    s.table.initproc = some p ∧ ∀ q, (s.proc q).state.occupied = false
  before : ∀ c, ((s.cpu c).phase = .main ∨ ∃ p, (s.cpu c).phase = .userinit p) → s.table.initproc = none
  distinct : ∀ p q, (s.proc p).state ≠ .unused → (s.proc q).state ≠ .unused → (s.proc p).pid = (s.proc q).pid → p = q
  bound : ∀ p, (s.proc p).pid < s.table.nextpid
  positive : 0 < s.table.nextpid

structure Settled (before after : Proc n) : Prop where
  parent : after.parent = before.parent
  kstack : after.kstack = before.kstack
  pid : after.pid = before.pid
  state : before.state.Settles after.state

theorem Settled.refl (proc : Proc n) : Settled proc proc := ⟨rfl, rfl, rfl, .inl rfl⟩

variable {before after : Proc n}

theorem Settled.live (settled : Settled before after) : after.state.live = before.state.live := settled.state.live

theorem Settled.occupied (settled : Settled before after) : after.state.occupied = before.state.occupied :=
  settled.state.occupied

theorem Settled.unused (settled : Settled before after) : after.state = .unused ↔ before.state = .unused :=
  settled.state.dead_iff rfl

theorem Settled.zombie (settled : Settled before after) : after.state = .zombie ↔ before.state = .zombie :=
  settled.state.dead_iff rfl

structure Calm (s s' : State n C) : Prop where
  slots : ∀ q, Settled (s.proc q) (s'.proc q)
  initproc : s'.table.initproc = s.table.initproc
  nextpid : s'.table.nextpid = s.table.nextpid
  bases : ∀ q, (s'.thread q).base = (s.thread q).base ∨ (s'.thread q).base.builds = none
  phases : ∀ d, (s'.cpu d).phase = (s.cpu d).phase ∨
    (s.cpu d).phase.early = false ∧ (s'.cpu d).phase.early = false

section

variable {s s' : State n C} {p np : Fin n}

theorem Calm.base (calm : Calm s s') {q : Fin n} (builds : (s'.thread q).base.builds = some np) :
    (s'.thread q).base = (s.thread q).base :=
  (calm.bases q).resolve_right fun none => by rw [none] at builds; cases builds

theorem Calm.phase (calm : Calm s s') {d : C}
    (early : (s'.cpu d).phase.early = true ∨ (s.cpu d).phase.early = true) : (s'.cpu d).phase = (s.cpu d).phase := by
  refine (calm.phases d).resolve_right fun off => ?_
  rw [off.1, off.2] at early
  rcases early with is | is <;> cases is

theorem early_of_boots {phase : Phase n} (boots : phase.boots = some p) : phase.early = true := by
  cases phase <;> first | rfl | cases boots

theorem Tree.calm (tree : Tree s) (calm : Calm s s') : Tree s' := by
  have slot := calm.slots
  refine ⟨fun p is => ?_, fun p np here => ?_, fun p np here => ?_, fun p np builds => ?_, fun p is other => ?_,
    fun i is => ?_, fun none p => ?_, fun c p here => ?_, fun c p here => ?_, fun c here => ?_,
    fun p q first second same => ?_, fun p => ?_, ?_⟩
  · rw [(slot p).parent, (slot p).kstack]
    exact tree.unused p ((slot p).unused.mp is)
  · have builds := Base.builds_unborn here
    rw [calm.base builds] at here
    rw [(slot np).parent]
    exact tree.orphan p np here
  · rw [calm.base (by rw [here]; rfl)] at here
    rw [(slot np).parent]
    exact tree.child p np here
  · rw [calm.base builds] at builds
    rw [(slot p).pid, (slot np).pid]
    exact tree.younger p np builds
  · rw [(slot p).occupied] at is
    rw [calm.initproc] at other
    obtain ⟨q, parent, live, pid⟩ := tree.placed p is other
    exact ⟨q, by rw [(slot p).parent, parent], by rw [(slot q).live, live], by rw [(slot q).pid, (slot p).pid]; exact pid⟩
  · rw [calm.initproc] at is
    obtain ⟨parent, live, oldest⟩ := tree.root i is
    refine ⟨by rw [(slot i).parent, parent], ?_, fun p occupied other => ?_⟩
    · rcases live with live | ⟨c, here⟩
      · exact .inl (by rw [(slot i).live, live])
      · exact .inr ⟨c, by rw [calm.phase (.inr (by rw [here]; rfl)), here]⟩
    · rw [(slot p).occupied] at occupied
      rw [(slot i).pid, (slot p).pid]
      exact oldest p occupied other
  · rw [(slot p).occupied]
    exact tree.rootless (calm.initproc ▸ none) p
  · rw [calm.phase (.inl (early_of_boots here))] at here
    rw [(slot p).parent]
    exact tree.boots c p here
  · rw [calm.phase (.inl (by rw [here]; rfl))] at here
    rw [calm.initproc]
    exact ⟨(tree.starts c p here).1, fun q => by rw [(slot q).occupied]; exact (tree.starts c p here).2 q⟩
  · have early : (s'.cpu c).phase.early = true := by rcases here with is | ⟨p, is⟩ <;> rw [is] <;> rfl
    rw [calm.phase (.inl early)] at here
    rw [calm.initproc]
    exact tree.before c here
  · rw [(slot p).pid, (slot q).pid] at same
    exact tree.distinct p q (fun is => first ((slot p).unused.mpr is)) (fun is => second ((slot q).unused.mpr is)) same
  · rw [(slot p).pid, calm.nextpid]
    exact tree.bound p
  · rw [calm.nextpid]
    exact tree.positive

/-- A step that changes one slot, in which no process lives. -/
structure Replaces (s s' : State n C) (np : Fin n) : Prop where
  dead : (s.proc np).state.live = false
  others : ∀ q, q ≠ np → s'.proc q = s.proc q
  initproc : s'.table.initproc = s.table.initproc
  other : s.table.initproc ≠ some np
  nextpid : s.table.nextpid ≤ s'.table.nextpid
  bases : ∀ q r, (s'.thread q).base.builds = some r → r ≠ np → (s'.thread q).base = (s.thread q).base
  phases : ∀ d, (s'.cpu d).phase = (s.cpu d).phase ∨ (s.cpu d).phase = .main ∧ (s'.cpu d).phase = .userinit np
  unused : (s'.proc np).state = .unused → (s'.proc np).parent = none ∧ (s'.proc np).kstack = 0
  occupied : (s'.proc np).state.occupied = true → ∃ q, (s'.proc np).parent = some q ∧
    (s.proc q).state.live = true ∧ (s.proc q).pid < (s'.proc np).pid
  orphan : ∀ q, (s'.thread q).base = .forkStack np ∨ (s'.thread q).base = .forkCopy np → (s'.proc np).parent = none
  child : ∀ q, (s'.thread q).base = .forkRun np → (s'.proc np).parent = some q
  younger : ∀ q, (s'.thread q).base.builds = some np → q ≠ np ∧ (s.proc q).pid < (s'.proc np).pid
  boots : ∀ d, (s'.cpu d).phase.boots = some np → (s'.proc np).parent = none
  distinct : ∀ q, q ≠ np → (s'.proc np).state ≠ .unused → (s.proc q).state ≠ .unused →
    (s'.proc np).pid ≠ (s.proc q).pid
  bound : (s'.proc np).pid < s'.table.nextpid

theorem Replaces.phase (step : Replaces s s' np) {d : C} (other : (s'.cpu d).phase ≠ .userinit np) :
    (s'.cpu d).phase = (s.cpu d).phase := (step.phases d).resolve_right fun started => other started.2

theorem Tree.replaces (tree : Tree s) (ordered : Ordered s) (np : Fin n) (step : Replaces s s' np) : Tree s' := by
  have alive {q : Fin n} (live : (s.proc q).state.live = true) : q ≠ np := by
    rintro rfl
    rw [step.dead] at live
    cases live
  have empty (before : ∀ q, (s.proc q).state.occupied = false) (q : Fin n) :
      (s'.proc q).state.occupied = false := by
    by_cases same : q = np
    · subst same
      by_contra occupied
      obtain ⟨r, _, live, _⟩ := step.occupied (Bool.not_eq_false _ ▸ occupied)
      exact absurd (ProcState.occupied_of_live live) (by rw [before r]; simp)
    · rw [step.others q same]
      exact before q
  refine ⟨fun p is => ?_, fun p r here => ?_, fun p r here => ?_, fun p r builds => ?_, fun p is other => ?_,
    fun i is => ?_, fun none p => ?_, fun c p here => ?_, fun c p here => ?_, fun c here => ?_,
    fun p q first second same => ?_, fun p => ?_, ?_⟩
  · by_cases same : p = np
    · subst same
      exact step.unused is
    · rw [step.others p same] at is ⊢
      exact tree.unused p is
  · by_cases same : r = np
    · subst same
      exact step.orphan p here
    · have builds := Base.builds_unborn here
      rw [step.bases p r builds same] at here
      rw [step.others r same]
      exact tree.orphan p r here
  · by_cases same : r = np
    · subst same
      exact step.child p here
    · rw [step.bases p r (by rw [here]; rfl) same] at here
      rw [step.others r same]
      exact tree.child p r here
  · by_cases same : r = np
    · subst same
      obtain ⟨different, pid⟩ := step.younger p builds
      rw [step.others p different]
      exact pid
    · rw [step.bases p r builds same] at builds
      have live : (s.proc p).state.live = true := by
        rcases (ordered.building p r builds).2 with is | is <;> rw [is] <;> rfl
      rw [step.others p (alive live), step.others r same]
      exact tree.younger p r builds
  · by_cases same : p = np
    · subst same
      obtain ⟨q, parent, live, pid⟩ := step.occupied is
      exact ⟨q, parent, by rw [step.others q (alive live)]; exact live, by rw [step.others q (alive live)]; exact pid⟩
    · rw [step.others p same] at is ⊢
      obtain ⟨q, parent, live, pid⟩ := tree.placed p is (step.initproc ▸ other)
      exact ⟨q, parent, by rw [step.others q (alive live)]; exact live, by rw [step.others q (alive live)]; exact pid⟩
  · rw [step.initproc] at is
    have different : i ≠ np := fun same => step.other (same ▸ is)
    obtain ⟨parent, live, oldest⟩ := tree.root i is
    rw [step.others i different]
    refine ⟨parent, live.imp_right ?_, fun p occupied other => ?_⟩
    · rintro ⟨c, here⟩
      refine ⟨c, ?_⟩
      rcases step.phases c with same | ⟨main, _⟩
      · rw [same, here]
      · rw [here] at main
        cases main
    · by_cases same : p = np
      · subst same
        obtain ⟨q, _, live, pid⟩ := step.occupied occupied
        by_cases first : q = i
        · exact first ▸ pid
        · exact lt_trans (oldest q (ProcState.occupied_of_live live) first) pid
      · rw [step.others p same] at occupied ⊢
        exact oldest p occupied other
  · exact empty (tree.rootless (step.initproc ▸ none)) p
  · by_cases same : p = np
    · subst same
      exact step.boots c here
    · have kept := step.phase (d := c) (by rintro is; rw [is] at here; exact same (Option.some.inj here).symm)
      rw [kept] at here
      rw [step.others p same]
      exact tree.boots c p here
  · rw [step.phase (by rw [here]; simp)] at here
    rw [step.initproc]
    exact ⟨(tree.starts c p here).1, empty (tree.starts c p here).2⟩
  · rw [step.initproc]
    rcases step.phases c with same | ⟨main, _⟩
    · exact tree.before c (same ▸ here)
    · exact tree.before c (.inl main)
  · by_cases firstSame : p = np
    · by_cases secondSame : q = np
      · exact firstSame.trans secondSame.symm
      · subst firstSame
        rw [step.others q secondSame] at second same
        exact absurd same (step.distinct q secondSame first second)
    · by_cases secondSame : q = np
      · subst secondSame
        rw [step.others p firstSame] at first same
        exact absurd same.symm (step.distinct p firstSame second first)
      · rw [step.others p firstSame] at first same
        rw [step.others q secondSame] at second same
        exact tree.distinct p q first second same
  · by_cases same : p = np
    · subst same
      exact step.bound
    · rw [step.others p same]
      exact lt_of_lt_of_le (tree.bound p) step.nextpid
  · exact lt_of_lt_of_le tree.positive step.nextpid

variable {t : Table n}

theorem Table.Private.settled {t' : Table n} (own : t.Private t' p) (running : (t.procs p).state = .running)
    (q : Fin n) : Settled (t.procs q) (t'.procs q) := by
  by_cases same : q = p
  · subst same
    refine ⟨own.parent, own.kstack, own.pid, .inr ⟨by rw [running]; rfl, ?_⟩⟩
    rcases own.state with is | is <;> rw [is] <;> rfl
  · rw [own.others q same]
    exact .refl _

theorem settled_modify {change : Proc n → Proc n} (settled : Settled (t.procs p) (change (t.procs p))) (q : Fin n) :
    Settled (t.procs q) ((t.modify p change).procs q) := by
  by_cases same : q = p
  · subst same
    rw [Table.modify_self]
    exact settled
  · rw [Table.modify_ne _ _ same]
    exact .refl _

theorem killSlot_settled (t : Table n) (p q : Fin n) : Settled (t.procs q) ((t.killSlot p).procs q) := by
  refine settled_modify ⟨rfl, rfl, rfl, ?_⟩ q
  dsimp only
  split
  next asleep => exact .inr ⟨by rw [asleep]; rfl, rfl⟩
  · exact .inl rfl

theorem sleepOn_settled (running : (t.procs p).state = .running) (chan : Chan n) (q : Fin n) :
    Settled (t.procs q) ((t.sleepOn p chan).procs q) :=
  settled_modify ⟨rfl, rfl, rfl, .inr ⟨by rw [running]; rfl, rfl⟩⟩ q

theorem swtch_settled (runnable : (t.procs p).state = .runnable) (q : Fin n) :
    Settled (t.procs q) ((t.setState p .running).procs q) :=
  settled_modify ⟨rfl, rfl, rfl, .inr ⟨by rw [runnable]; rfl, rfl⟩⟩ q

theorem Table.Passed.settles (passed : Table.Passed before after) : before.state.Settles after.state :=
  passed.state.imp_right fun ⟨was, is⟩ => ⟨by rw [was]; rfl, by rw [is]; rfl⟩

theorem wakeup1_settled (t : Table n) (chan : Chan n) (q : Fin n) :
    Settled (t.procs q) ((t.wakeup1 chan).procs q) := by
  obtain ⟨passed, parent⟩ := t.wakeup1_passed chan q
  exact ⟨parent, passed.kstack, passed.pid, passed.settles⟩

theorem Tree.claim (tree : Tree s) (ordered : Ordered s) (unused : (s.proc np).state = .unused) {k' : Control n C}
    (bases : ∀ q, (k'.threads q).base = (s.thread q).base ∨ q ≠ np ∧ (k'.threads q).base = .forkStack np)
    (phases : ∀ d, (k'.cpus d).phase = (s.cpu d).phase ∨
      (s.cpu d).phase = .main ∧ (k'.cpus d).phase = .userinit np) : Tree ⟨s.table.claim np, k'⟩ := by
  have unbuilt (q : Fin n) : (s.thread q).base.builds ≠ some np := by
    intro builds
    rw [(ordered.building q np builds).1] at unused
    cases unused
  have orphan := (tree.unused np unused).1
  have other : s.table.initproc ≠ some np := by
    intro is
    rcases (tree.root np is).2.1 with live | ⟨c, here⟩
    · rw [unused] at live
      cases live
    · rw [(ordered.booting c np (by rw [here]; rfl)).1] at unused
      cases unused
  have slot : ((s.table.claim np).procs np).state = .embryo ∧ ((s.table.claim np).procs np).pid = s.table.nextpid ∧
      ((s.table.claim np).procs np).parent = (s.proc np).parent := by
    simp [Table.claim]
  refine tree.replaces ordered np ⟨by rw [unused]; rfl, fun q different => ?_, rfl, other, ?_,
    fun q r builds different => ?_, phases, fun is => ?_, fun is => ?_, fun q here => ?_, fun q here => ?_,
    fun q builds => ?_, fun d _ => ?_, fun q _ _ _ => ?_, ?_⟩
  · simp [State.proc, Table.claim, different]
  · show s.table.nextpid ≤ s.table.nextpid + 1
    omega
  · refine (bases q).resolve_right fun claimed => ?_
    rw [State.thread, claimed.2] at builds
    exact different (Option.some.inj builds).symm
  · rw [State.proc, slot.1] at is
    cases is
  · rw [State.proc, slot.1] at is
    cases is
  · rw [State.proc, slot.2.2]
    exact orphan
  · rcases bases q with same | ⟨_, is⟩
    · refine absurd ?_ (unbuilt q)
      rw [← same, here]
      rfl
    · rw [State.thread, is] at here
      cases here
  · rcases bases q with same | ⟨different, _⟩
    · rw [State.thread, same] at builds
      exact absurd builds (unbuilt q)
    · refine ⟨different, ?_⟩
      show _ < ((s.table.claim np).procs np).pid
      rw [slot.2.1]
      exact tree.bound q
  · rw [State.proc, slot.2.2]
    exact orphan
  · show ((s.table.claim np).procs np).pid ≠ _
    rw [slot.2.1]
    exact (tree.bound q).ne'
  · rw [State.proc, slot.2.1]
    show s.table.nextpid < s.table.nextpid + 1
    omega

theorem Tree.root_state (tree : Tree s) (ordered : Ordered s) (is : s.table.initproc = some np) :
    (s.proc np).state.live = true ∨ (s.proc np).state = .embryo ∧ ∀ q, (s.thread q).base.builds ≠ some np := by
  rcases (tree.root np is).2.1 with live | ⟨c, here⟩
  · exact .inl live
  · exact .inr (ordered.booting c np (by rw [here]; rfl))

theorem Tree.zombie_ne_root (tree : Tree s) (ordered : Ordered s) (zombie : (s.proc np).state = .zombie) :
    s.table.initproc ≠ some np := by
  intro root
  rcases tree.root_state ordered root with live | ⟨embryo, _⟩
  · rw [zombie] at live
    cases live
  · rw [zombie] at embryo
    cases embryo

theorem Tree.builder (tree : Tree s) (ordered : Ordered s) (builds : (s.thread p).base.builds = some np)
    (others : ∀ q, q ≠ np → s'.proc q = s.proc q) (initproc : s'.table.initproc = s.table.initproc)
    (nextpid : s'.table.nextpid = s.table.nextpid) (pid : (s'.proc np).pid = (s.proc np).pid)
    (bases : ∀ q, q ≠ p → (s'.thread q).base = (s.thread q).base ∨ (s'.thread q).base.builds = none)
    (own : (s'.thread p).base.builds = none ∨ (s'.thread p).base.builds = some np)
    (phases : ∀ d, (s'.cpu d).phase = (s.cpu d).phase)
    (unused : (s'.proc np).state = .unused → (s'.proc np).parent = none ∧ (s'.proc np).kstack = 0)
    (occupied : (s'.proc np).state.occupied = true → (s'.proc np).parent = some p)
    (orphan : (s'.thread p).base = .forkStack np ∨ (s'.thread p).base = .forkCopy np → (s'.proc np).parent = none)
    (child : (s'.thread p).base = .forkRun np → (s'.proc np).parent = some p) : Tree s' := by
  obtain ⟨embryo, live⟩ := ordered.building p np builds
  have alive : (s.proc p).state.live = true := by rcases live with is | is <;> rw [is] <;> rfl
  have different : p ≠ np := by
    rintro rfl
    rw [embryo] at alive
    cases alive
  have mine (q : Fin n) (also : (s'.thread q).base.builds = some np) : q = p := by
    by_contra other
    rcases bases q other with same | none
    · exact other (ordered.builder q p np (same ▸ also) builds)
    · rw [none] at also
      cases also
  refine tree.replaces ordered np ⟨by rw [embryo]; rfl, others, initproc, fun is => ?_, nextpid.ge,
    fun q r also other => ?_, fun d => .inl (phases d), unused,
    fun is => ⟨p, occupied is, alive, by rw [pid]; exact tree.younger p np builds⟩,
    fun q here => ?_, fun q here => ?_, fun q also => ?_, fun d boots => ?_, fun q other _ used => ?_, ?_⟩
  · rcases tree.root_state ordered is with live | ⟨_, unbuilt⟩
    · rw [embryo] at live
      cases live
    · exact unbuilt p builds
  · by_cases same : q = p
    · subst same
      rcases own with none | some
      · rw [none] at also
        cases also
      · rw [some] at also
        exact absurd (Option.some.inj also).symm other
    · exact (bases q same).resolve_right fun none => by rw [none] at also; cases also
  · have same := mine q (Base.builds_unborn here)
    exact orphan (same ▸ here)
  · have same := mine q (by rw [here]; rfl)
    rw [same]
    exact child (same ▸ here)
  · rw [mine q also, pid]
    exact ⟨different, tree.younger p np builds⟩
  · rw [phases d] at boots
    exact absurd builds ((ordered.booting d np boots).2 p)
  · rw [pid]
    exact fun same => other (tree.distinct np q (by rw [embryo]; simp) used same).symm
  · rw [pid, nextpid]
    exact tree.bound np

theorem Tree.reap (tree : Tree s) (ordered : Ordered s) {child : Fin n} (zombie : (s.proc child).state = .zombie) :
    Tree ⟨s.table.reap p child, s.control.release.base p .syscall⟩ := by
  have slot : ((s.table.reap p child).procs child).state = .unused ∧
      ((s.table.reap p child).procs child).pid = 0 ∧ ((s.table.reap p child).procs child).parent = none ∧
      ((s.table.reap p child).procs child).kstack = 0 := by
    simp [Table.reap]
  have base (q r : Fin n) (builds : ((s.control.release.base p .syscall).threads q).base.builds = some r) :
      ((s.control.release.base p .syscall).threads q).base = (s.thread q).base := by
    by_cases same : q = p
    · simp [Control.base, Control.thread, same, Base.builds] at builds
    · simp [Control.base, Control.thread, Control.release, State.thread, same]
  have unbuilt (q : Fin n) : ((s.control.release.base p .syscall).threads q).base.builds ≠ some child := by
    intro builds
    rw [base q child builds] at builds
    rw [(ordered.building q child builds).1] at zombie
    cases zombie
  refine tree.replaces ordered child ⟨by rw [zombie]; rfl, fun q other => ?_, rfl, tree.zombie_ne_root ordered zombie, le_rfl,
    fun q r builds _ => base q r builds, fun _ => .inl rfl, fun _ => slot.2.2, fun is => ?_, fun q here => ?_,
    fun q here => ?_, fun q builds => absurd builds (unbuilt q), fun d boots => slot.2.2.1, fun q _ used => ?_, ?_⟩
  · simp [State.proc, Table.reap, other]
  · rw [State.proc, slot.1] at is
    cases is
  · exact slot.2.2.1
  · refine absurd ?_ (unbuilt q)
    rw [State.thread] at here
    rw [here]
    rfl
  · exact absurd slot.1 used
  · show ((s.table.reap p child).procs child).pid < s.table.nextpid
    rw [slot.2.1]
    exact tree.positive

end

section

variable [DecidableEq C] {s s' : State n C} {c : C} {p np : Fin n}

theorem Tree.sleepOn (tree : Tree s) (ordered : Ordered s) (current : s.current c = some p) {chan : Chan n}
    {thread : Thread n} (same : thread.base = (s.thread p).base) :
    Tree ⟨s.table.sleepOn p chan, (s.control.thread p thread).sched c⟩ := by
  refine tree.calm ⟨sleepOn_settled (ordered.runs current) chan, rfl, rfl, fun q => .inl ?_, fun d => ?_⟩
  · by_cases mine : q = p
    · subst mine
      simpa [State.thread, Control.sched, Control.phase, Control.cpu, Control.acquire, Control.thread] using same
    · simp [State.thread, Control.sched, Control.phase, Control.cpu, Control.acquire, Control.thread, mine]
  · by_cases mine : d = c
    · subst mine
      exact .inr ⟨by rw [(current_eq_some.mp current).1]; rfl,
        by simp [State.cpu, Control.sched, Control.phase, Control.cpu, Phase.early]⟩
    · exact .inl (by simp [State.cpu, Control.sched, Control.phase, Control.cpu, Control.acquire, Control.thread, mine])

theorem Tree.swtch (tree : Tree s) (here : (s.cpu c).phase = .scan p) (runnable : (s.proc p).state = .runnable) :
    Tree ⟨s.table.setState p .running, s.control.swtch c p⟩ := by
  refine tree.calm ⟨swtch_settled runnable, rfl, rfl, fun _ => .inl rfl, fun d => ?_⟩
  by_cases mine : d = c
  · subst mine
    exact .inr ⟨by rw [here]; rfl, by simp [State.cpu, Control.swtch, Control.cpu, Phase.early]⟩
  · exact .inl (by simp [State.cpu, Control.swtch, Control.cpu, mine])

variable {before after : Proc n}

theorem Table.Passed.unused (passed : Table.Passed before after) : after.state = .unused ↔ before.state = .unused :=
  passed.settles.dead_iff rfl

theorem Tree.exit (tree : Tree s) (ordered : Ordered s) (current : s.current c = some p) {masked : Bool}
    (here : s.thread p = ⟨.exiting masked, none, none⟩) (other : s.table.initproc ≠ some p) :
    Tree ⟨s.table.exit p, s.control.sched c⟩ := by
  set s' : State n C := ⟨s.table.exit p, s.control.sched c⟩
  have running := ordered.runs current
  have alive : (s.proc p).state.live = true := by rw [running]; rfl
  have passed (q : Fin n) (different : q ≠ p) : Table.Passed (s.proc q) (s'.proc q) := (s.table.exit_ne different).1
  have adopted (q : Fin n) (different : q ≠ p) :
      (s'.proc q).parent = if (s.proc q).parent = some p then s.table.initproc else (s.proc q).parent :=
    (s.table.exit_ne different).2
  obtain ⟨⟨zombie, _, ownPid, _⟩, ownParent⟩ := s.table.exit_self p
  have initproc : s'.table.initproc = s.table.initproc := by
    obtain ⟨_, rest⟩ := s.table.exit_rest p
    simp only [s', rest]
  have nextpid : s'.table.nextpid = s.table.nextpid := by
    obtain ⟨_, rest⟩ := s.table.exit_rest p
    simp only [s', rest]
  have pid (q : Fin n) : (s'.proc q).pid = (s.proc q).pid := by
    by_cases same : q = p
    · exact same ▸ ownPid
    · exact (passed q same).pid
  have occupied (q : Fin n) : (s'.proc q).state.occupied = (s.proc q).state.occupied := by
    by_cases same : q = p
    · subst same
      rw [show (s'.proc q).state = .zombie from zombie, running]
      rfl
    · exact (passed q same).settles.occupied
  have unborn {q : Fin n} (embryo : (s.proc q).state = .embryo) : q ≠ p := ordered.differs current embryo (by simp)
  have orphaned {q : Fin n} (different : q ≠ p) (orphan : (s.proc q).parent = none) : (s'.proc q).parent = none := by
    rw [adopted q different, if_neg (by rw [orphan]; simp), orphan]
  have phase {d : C} (early : (s'.cpu d).phase.early = true) : (s'.cpu d).phase = (s.cpu d).phase := by
    by_cases same : d = c
    · subst same
      simp [s', State.cpu, Control.sched, Control.phase, Control.cpu, Phase.early] at early
    · simp [s', State.cpu, Control.sched, Control.phase, Control.cpu, Control.acquire, same]
  have started (d : C) (i : Fin n) : (s.cpu d).phase ≠ .userinitRun i := by
    intro is
    have none := (tree.starts d i is).2 p
    rw [ProcState.occupied_of_live alive] at none
    cases none
  refine ⟨fun q is => ?_, fun q np there => ?_, fun q np there => ?_, fun q np builds => ?_, fun q is notRoot => ?_,
    fun i is => ?_, fun none q => ?_, fun d q boots => ?_, fun d q there => ?_, fun d there => ?_,
    fun q r first second same => ?_, fun q => ?_, ?_⟩
  · have different : q ≠ p := by
      rintro rfl
      rw [show (s'.proc q).state = .zombie from zombie] at is
      cases is
    obtain ⟨parent, kstack⟩ := tree.unused q ((passed q different).unused.mp is)
    exact ⟨orphaned different parent, (passed q different).kstack.trans kstack⟩
  · have embryo := (ordered.building q np (Base.builds_unborn there)).1
    exact orphaned (unborn embryo) (tree.orphan q np there)
  · change (s.thread q).base = _ at there
    have different : q ≠ p := by
      rintro rfl
      rw [here] at there
      cases there
    have parent := tree.child q np there
    rw [adopted np (unborn (ordered.building q np (by rw [there]; rfl)).1), if_neg (by rw [parent]; simp [different]), parent]
  · rw [pid, pid]
    exact tree.younger q np builds
  · rw [occupied] at is
    rw [initproc] at notRoot
    obtain ⟨r, parent, live, older⟩ := tree.placed q is notRoot
    by_cases mine : r = p
    · -- A child of the process that exits goes to init.
      subst mine
      have different : q ≠ r := by
        rintro rfl
        exact lt_irrefl _ older
      obtain ⟨i, root⟩ : ∃ i, s.table.initproc = some i := by
        by_contra missing
        have empty := tree.rootless (Option.eq_none_iff_forall_ne_some.mpr (not_exists.mp missing)) r
        rw [ProcState.occupied_of_live alive] at empty
        cases empty
      obtain ⟨_, rootLive, oldest⟩ := tree.root i root
      have apart : i ≠ r := fun same => other (same ▸ root)
      refine ⟨i, by rw [adopted q different, if_pos parent, root], ?_, ?_⟩
      · rw [(passed i apart).settles.live]
        exact rootLive.resolve_right (not_exists.mpr fun d => started d i)
      · rw [pid, pid]
        exact oldest q is fun same => notRoot (same ▸ root)
    · refine ⟨r, ?_, by rw [(passed r mine).settles.live]; exact live, by rw [pid, pid]; exact older⟩
      by_cases same : q = p
      · subst same
        rw [show (s'.proc q).parent = _ from ownParent, parent, if_neg (by simp [mine])]
      · rw [adopted q same, parent, if_neg (by simp [mine])]
  · rw [initproc] at is
    obtain ⟨parent, live, oldest⟩ := tree.root i is
    have apart : i ≠ p := fun same => other (same ▸ is)
    refine ⟨orphaned apart parent, .inl ?_, fun q occ different => ?_⟩
    · rw [(passed i apart).settles.live]
      exact live.resolve_right (not_exists.mpr fun d => started d i)
    · rw [occupied] at occ
      rw [pid, pid]
      exact oldest q occ different
  · rw [occupied]
    exact tree.rootless (initproc ▸ none) q
  · rw [phase (early_of_boots boots)] at boots
    exact orphaned (unborn (ordered.booting d q boots).1) (tree.boots d q boots)
  · rw [phase (by rw [there]; rfl)] at there
    exact absurd there (started d q)
  · have early : (s'.cpu d).phase.early = true := by rcases there with is | ⟨q, is⟩ <;> rw [is] <;> rfl
    rw [phase early] at there
    rw [initproc]
    exact tree.before d there
  · have used {q : Fin n} (is : (s'.proc q).state ≠ .unused) : (s.proc q).state ≠ .unused := by
      intro was
      have different : q ≠ p := ordered.differs current was (by simp)
      exact is ((passed q different).unused.mpr was)
    rw [pid, pid] at same
    exact tree.distinct q r (used first) (used second) same
  · rw [pid, nextpid]
    exact tree.bound q
  · rw [nextpid]
    exact tree.positive

theorem Tree.userinit (tree : Tree s) (ordered : Ordered s) (here : (s.cpu c).phase = .userinit p) (kstack : Nat) :
    Tree ⟨(s.table.stack p kstack).userinit p, s.control.phase c (.userinitRun p)⟩ := by
  set s' : State n C := ⟨(s.table.stack p kstack).userinit p, s.control.phase c (.userinitRun p)⟩
  have boots : (s.cpu c).phase.boots = some p := by rw [here]; rfl
  have embryo := (ordered.booting c p boots).1
  have none := tree.before c (.inr ⟨p, here⟩)
  have empty := tree.rootless none
  have slot (q : Fin n) : (s'.proc q).state = (s.proc q).state ∧ (s'.proc q).pid = (s.proc q).pid ∧
      (s'.proc q).parent = (s.proc q).parent ∧ (q ≠ p → (s'.proc q).kstack = (s.proc q).kstack) := by
    by_cases same : q = p <;> simp [s', State.proc, Table.userinit, Table.stack, same]
  have phase (d : C) (different : d ≠ c) : (s'.cpu d).phase = (s.cpu d).phase := by
    simp [s', State.cpu, Control.phase, Control.cpu, different]
  have now : (s'.cpu c).phase = .userinitRun p := by simp [s', State.cpu, Control.phase, Control.cpu]
  have sole (d : C) (early : (s'.cpu d).phase.early = true) : d = c := by
    by_contra different
    rw [phase d different] at early
    exact different (ordered.oneBoot d c early (by rw [here]; rfl))
  refine ⟨fun q is => ?_, fun q np there => ?_, fun q np there => ?_, fun q np builds => ?_, fun q is _ => ?_,
    fun i is => ?_, (by rintro ⟨⟩), fun d q there => ?_, fun d q there => ?_, fun d there => ?_,
    fun q r first second same => ?_, fun q => ?_, tree.positive⟩
  · rw [(slot q).1] at is
    have different : q ≠ p := by
      rintro rfl
      rw [embryo] at is
      cases is
    rw [(slot q).2.2.1, (slot q).2.2.2 different]
    exact tree.unused q is
  · rw [(slot np).2.2.1]
    exact tree.orphan q np there
  · rw [(slot np).2.2.1]
    exact tree.child q np there
  · rw [(slot q).2.1, (slot np).2.1]
    exact tree.younger q np builds
  · rw [(slot q).1, empty q] at is
    cases is
  · have same : p = i := Option.some.inj is
    subst same
    refine ⟨by rw [(slot p).2.2.1]; exact tree.boots c p boots, .inr ⟨c, now⟩, fun q is _ => ?_⟩
    rw [(slot q).1, empty q] at is
    cases is
  · have same := sole d (early_of_boots there)
    subst same
    rw [now] at there
    cases there
    rw [(slot p).2.2.1]
    exact tree.boots d p boots
  · have same := sole d (by rw [there]; rfl)
    subst same
    rw [now] at there
    cases there
    exact ⟨rfl, fun q => by rw [(slot q).1]; exact empty q⟩
  · have same := sole d (by rcases there with is | ⟨q, is⟩ <;> rw [is] <;> rfl)
    subst same
    rw [now] at there
    rcases there with is | ⟨q, is⟩ <;> cases is
  · rw [(slot q).1] at first
    rw [(slot r).1] at second
    rw [(slot q).2.1, (slot r).2.1] at same
    exact tree.distinct q r first second same
  · rw [(slot q).2.1]
    exact tree.bound q

theorem Tree.userinitRun (tree : Tree s) (ordered : Ordered s) (here : (s.cpu c).phase = .userinitRun p) :
    Tree ⟨s.table.setState p .runnable, (s.control.thread p ⟨.forkret, none, some .starting⟩).phase c .idle⟩ := by
  set s' : State n C :=
    ⟨s.table.setState p .runnable, (s.control.thread p ⟨.forkret, none, some .starting⟩).phase c .idle⟩
  obtain ⟨root, empty⟩ := tree.starts c p here
  have embryo := (ordered.booting c p (by rw [here]; rfl)).1
  have slot (q : Fin n) : (s'.proc q).pid = (s.proc q).pid ∧ (s'.proc q).parent = (s.proc q).parent ∧
      (s'.proc q).kstack = (s.proc q).kstack ∧ (q ≠ p → (s'.proc q).state = (s.proc q).state) := by
    by_cases same : q = p <;> simp [s', State.proc, Table.setState, same]
  have now : (s'.proc p).state = .runnable := by simp [s', State.proc, Table.setState]
  have base (q : Fin n) : (s'.thread q).base = (s.thread q).base ∨ (s'.thread q).base = .forkret := by
    by_cases same : q = p <;> simp [s', State.thread, Control.phase, Control.cpu, Control.thread, same]
  have off (d : C) : (s'.cpu d).phase.early = false := by
    by_cases same : d = c
    · subst same
      simp [s', State.cpu, Control.phase, Control.cpu, Phase.early]
    · rw [show (s'.cpu d).phase = (s.cpu d).phase by
        simp [s', State.cpu, Control.phase, Control.cpu, Control.thread, same]]
      by_contra early
      exact same (ordered.oneBoot d c (Bool.not_eq_false _ ▸ early) (by rw [here]; rfl))
  have alone (q : Fin n) (is : (s'.proc q).state.occupied = true) : q = p := by
    by_contra different
    rw [(slot q).2.2.2 different, empty q] at is
    cases is
  refine ⟨fun q is => ?_, fun q np there => ?_, fun q np there => ?_, fun q np builds => ?_, fun q is notRoot => ?_,
    fun i is => ?_, fun none => ?_, fun d q there => ?_, fun d q there => ?_, fun d there => ?_,
    fun q r first second same => ?_, fun q => ?_, tree.positive⟩
  · have different : q ≠ p := by
      rintro rfl
      rw [now] at is
      cases is
    rw [(slot q).2.1, (slot q).2.2.1]
    exact tree.unused q ((slot q).2.2.2 different ▸ is)
  · rw [(slot np).2.1]
    rcases base q with same | is
    · exact tree.orphan q np (same ▸ there)
    · rw [is] at there
      rcases there with is | is <;> cases is
  · rw [(slot np).2.1]
    rcases base q with same | is
    · exact tree.child q np (same ▸ there)
    · rw [is] at there
      cases there
  · rw [(slot q).1, (slot np).1]
    rcases base q with same | is
    · exact tree.younger q np (same ▸ builds)
    · rw [is] at builds
      cases builds
  · exact absurd root (alone q is ▸ notRoot)
  · have same : p = i := Option.some.inj (root.symm.trans is)
    subst same
    exact ⟨by rw [(slot p).2.1]; exact (tree.root p root).1, .inl (by rw [now]; rfl),
      fun q is different => absurd (alone q is) different⟩
  · exact absurd (root.symm.trans none) (by simp)
  · have early := early_of_boots there
    rw [off d] at early
    cases early
  · have early := off d
    rw [there] at early
    cases early
  · have early := off d
    rcases there with is | ⟨q, is⟩ <;> rw [is] at early <;> cases early
  · have used {q : Fin n} (is : (s'.proc q).state ≠ .unused) : (s.proc q).state ≠ .unused := by
      by_cases mine : q = p
      · subst mine
        rw [embryo]
        simp
      · rwa [(slot q).2.2.2 mine] at is
    rw [(slot q).1, (slot r).1] at same
    exact tree.distinct q r (used first) (used second) same
  · rw [(slot q).1]
    exact tree.bound q

theorem step_tree {a : Action C} (ordered : Ordered s) (tree : Tree s) (next : step a s = some s') : Tree s' := by
  have effect := step_effect ordered next
  clear next
  cases effect with
  | @own c p _ _ current own threads base phases =>
    refine tree.calm ⟨own.settled (ordered.runs current), own.initproc, own.nextpid, fun q => ?_, phases⟩
    by_cases same : q = p
    · exact same ▸ base
    · exact .inl (by rw [threads q same])
  | @claim c p np current unused =>
    refine tree.claim ordered unused (fun q => ?_) fun _ => .inl rfl
    by_cases same : q = p
    · subst same
      exact .inr ⟨(ordered.differs current unused (by simp)).symm, by simp [Control.base, Control.thread]⟩
    · exact .inl (by simp [Control.base, Control.thread, State.thread, same])
  | @stack c p np addr current here =>
    have builds : (s.thread p).base.builds = some np := by rw [here]; rfl
    refine tree.builder ordered builds (fun q other => Table.stack_ne other) rfl rfl
      (by simp [State.proc, Table.stack]) (fun q other => .inl ?_) (.inr ?_) (fun _ => rfl) (fun is => ?_)
      (fun is => ?_) (fun _ => ?_) fun is => ?_
    · simp [State.thread, Control.base, Control.thread, other]
    · simp [State.thread, Control.base, Control.thread, Base.builds]
    · simp [State.proc, Table.stack, (ordered.building p np builds).1] at is
    · simp [State.proc, Table.stack, (ordered.building p np builds).1, ProcState.occupied] at is
    · simpa [State.proc, Table.stack] using tree.orphan p np (.inl (by rw [here]))
    · simp [State.thread, Control.base, Control.thread] at is
  | @abandon c p np _ current unborn =>
    have builds := Base.builds_unborn unborn
    refine tree.builder ordered builds (fun q other => Table.abandon_ne other) rfl rfl
      (by simp [State.proc, Table.abandon]) (fun q other => .inl ?_) (.inl ?_) (fun _ => rfl) (fun _ => ⟨?_, ?_⟩)
      (fun is => ?_) (fun is => ?_) fun is => ?_
    · simp [State.thread, Control.base, Control.thread, other]
    · simp [State.thread, Control.base, Control.thread, Base.builds]
    · simpa [State.proc, Table.abandon] using tree.orphan p np unborn
    · simp [State.proc, Table.abandon]
    · simp [State.proc, Table.abandon, ProcState.occupied] at is
    · simp [State.thread, Control.base, Control.thread] at is
    · simp [State.thread, Control.base, Control.thread] at is
  | @copy c p np current here =>
    have builds : (s.thread p).base.builds = some np := by rw [here]; rfl
    refine tree.builder ordered builds (fun q other => Table.copy_ne other) rfl rfl
      (by simp [State.proc, Table.copy]) (fun q other => .inl ?_) (.inr ?_) (fun _ => rfl) (fun is => ?_)
      (fun _ => ?_) (fun is => ?_) fun _ => ?_
    · simp [State.thread, Control.base, Control.thread, other]
    · simp [State.thread, Control.base, Control.thread, Base.builds]
    · simp [State.proc, Table.copy, (ordered.building p np builds).1] at is
    · simp [State.proc, Table.copy]
    · simp [State.thread, Control.base, Control.thread] at is
    · simp [State.proc, Table.copy]
  | @forkRun c p np current here =>
    have builds : (s.thread p).base.builds = some np := by rw [here]; rfl
    have different := ordered.differs current (ordered.building p np builds).1 (by simp)
    have own : (((s.control.base p .syscall).thread np ⟨.forkret, none, some .starting⟩).threads p).base =
        .syscall := by
      simp [Control.base, Control.thread, different.symm]
    refine tree.builder ordered builds (fun q other => Table.setState_ne other) rfl rfl
      (by simp [State.proc, Table.setState]) (fun q other => ?_) (.inl ?_) (fun _ => rfl) (fun is => ?_)
      (fun _ => ?_) (fun is => ?_) fun is => ?_
    · by_cases same : q = np
      · exact .inr (by simp [State.thread, Control.thread, same, Base.builds])
      · exact .inl (by simp [State.thread, Control.base, Control.thread, same, other])
    · rw [State.thread, own]
      rfl
    · simp [State.proc, Table.setState] at is
    · simpa [State.proc, Table.setState] using tree.child p np (by rw [here])
    · simp [State.thread, own] at is
    · simp [State.thread, own] at is
  | reap current scanned => exact tree.reap ordered (waitScan_reap scanned).2
  | exit current here other => exact tree.exit ordered current here other
  | kill current found =>
    exact tree.calm ⟨killSlot_settled s.table _, rfl, rfl, fun _ => .inl rfl, fun _ => .inl rfl⟩
  | sleep current here | waitSleep current here scanned => exact tree.sleepOn ordered current (by rw [here])
  | @bootClaim c p _ here unused =>
    refine tree.claim ordered unused (fun _ => .inl rfl) fun d => ?_
    by_cases same : d = c
    · subst same
      exact .inr ⟨here, by simp [Control.phase, Control.cpu]⟩
    · exact .inl (by simp [Control.phase, Control.cpu, State.cpu, same])
  | userinit here => exact tree.userinit ordered here _
  | userinitRun here => exact tree.userinitRun ordered here
  | swtch here runnable => exact tree.swtch here runnable
  | schedules table threads phases =>
    refine tree.calm ⟨fun q => ?_, by rw [table], by rw [table], fun q => .inl ?_, phases⟩
    · rw [State.proc, State.proc, table]
      exact .refl _
    · rw [State.thread, State.thread, threads]
  | wakeup =>
    exact tree.calm ⟨wakeup1_settled s.table _, rfl, rfl, fun _ => .inl rfl, fun _ => .inl rfl⟩
  | input => exact tree.calm ⟨fun _ => .refl _, rfl, rfl, fun _ => .inl rfl, fun _ => .inl rfl⟩

theorem booted_tree (booted : Booted s) : Tree s := by
  obtain ⟨c, locking, rfl⟩ := booted
  have phase (d : C) : ((boot n c locking).cpu d).phase = if d = c then .main else .idle := rfl
  refine ⟨fun _ _ => ⟨rfl, rfl⟩, nofun, nofun, nofun, nofun, nofun, fun _ _ => rfl, fun _ _ _ => rfl,
    fun d p here => ?_, fun _ _ => rfl, nofun, fun p => ?_, ?_⟩
  · rw [phase] at here
    split_ifs at here
  · show (0 : Int) < 1
    decide
  · show (0 : Int) < 1
    decide

theorem reachable_tree {allowed : State n C → Action C → Prop} (reached : Runs.Reachable step allowed Booted s) :
    Tree s :=
  (reached.invariant (fun s => Ordered s ∧ Tree s) (fun _ booted => ⟨booted_ordered booted, booted_tree booted⟩)
    fun _ _ _ inv _ next => ⟨step_ordered inv.1 next, step_tree inv.1 inv.2 next⟩).2

end

def ParentOf (t : Table n) (p q : Fin n) : Prop := (t.procs p).parent = some q

/-- sys_getppid; none where it follows a null pointer. -/
def sysGetppid (t : Table n) (p : Fin n) : Option Int := (t.procs p).parent.map fun q => (t.procs q).pid

section

variable {s : State n C} {p : Fin n}

theorem Tree.older (tree : Tree s) (occupied : (s.proc p).state.occupied = true) {q : Fin n}
    (path : Relation.TransGen (ParentOf s.table) p q) : (s.proc q).state.live = true ∧ (s.proc q).pid < (s.proc p).pid := by
  have link {p q : Fin n} (occupied : (s.proc p).state.occupied = true) (parent : ParentOf s.table p q) :
      (s.proc q).state.live = true ∧ (s.proc q).pid < (s.proc p).pid := by
    have other : s.table.initproc ≠ some p := by
      intro root
      rw [ParentOf, (tree.root p root).1] at parent
      cases parent
    obtain ⟨r, is, live, older⟩ := tree.placed p occupied other
    rw [ParentOf, is] at parent
    cases parent
    exact ⟨live, older⟩
  induction path with
  | single parent => exact link occupied parent
  | tail _ parent ih =>
    obtain ⟨live, older⟩ := link (ProcState.occupied_of_live ih.1) parent
    exact ⟨live, older.trans ih.2⟩

theorem Tree.reaches_root (tree : Tree s) {i : Fin n} (root : s.table.initproc = some i)
    (occupied : (s.proc p).state.occupied = true) : Relation.ReflTransGen (ParentOf s.table) p i := by
  -- The distance in pids to initproc drops with every link.
  generalize size : ((s.proc p).pid - (s.proc i).pid).toNat = d
  induction d using Nat.strong_induction_on generalizing p with
  | _ d ih =>
    by_cases same : p = i
    · exact same ▸ .refl
    · obtain ⟨q, parent, live, older⟩ := tree.placed p occupied fun other => same (Option.some.inj (other.symm.trans root))
      have occupiedQ := ProcState.occupied_of_live live
      have first : (s.proc i).pid ≤ (s.proc q).pid := by
        by_cases equal : q = i
        · rw [equal]
        · exact ((tree.root i root).2.2 q occupiedQ equal).le
      exact .head parent (ih _ (by omega) occupiedQ rfl)

variable [DecidableEq C]

def forkRun : List (Action Bool) :=
  bootRun ++ [ProcStep.resume, .trapret, .syscall, .fork, .forkStack 8192, .forkCopy true, .forkRun].map (.process true)

end

end Xv6.Processes
