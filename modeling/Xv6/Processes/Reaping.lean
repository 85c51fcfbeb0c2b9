import Xv6.Processes.Outcomes

set_option autoImplicit false

namespace Xv6.Processes

variable {n : Nat} {C : Type}

/-- A process asleep in wait has something to wait for, and nothing it could have reaped. -/
structure Waits (s : State n C) : Prop where
  chan : ∀ q, Waiting s q → (s.proc q).chan = some (.proc q)
  child : ∀ q, Waiting s q → ∃ child, (s.proc child).parent = some q
  alive : ∀ q, Waiting s q → ∀ child, (s.proc child).parent = some q → (s.proc child).state ≠ .zombie

structure History (s : State n C) : Prop where
  known : ∀ pid ∈ s.table.exited, pid < s.table.nextpid
  running : ∀ q, (s.proc q).state ≠ .unused → (s.proc q).state ≠ .zombie → (s.proc q).pid ∉ s.table.exited
  zombie : ∀ q, (s.proc q).state = .zombie →
    (s.proc q).pid ∈ s.table.exited ∧ (s.proc q).pid ∉ s.table.reaped.map Prod.fst
  kept : ∀ pid ∈ s.table.exited, pid ∉ s.table.reaped.map Prod.fst →
    ∃ q, (s.proc q).state = .zombie ∧ (s.proc q).pid = pid
  dead : ∀ pid ∈ s.table.reaped.map Prod.fst, pid ∈ s.table.exited
  once : (s.table.reaped.map Prod.fst).Nodup
  exits : s.table.exited.Nodup

section

variable {s s' : State n C} {p : Fin n}

theorem Waits.frame (waits : Waits s) (asleep : ∀ q, Waiting s' q → Waiting s q ∧ (s'.proc q).chan = (s.proc q).chan)
    (kids : ∀ q, Waiting s' q → ∀ r, (s.proc r).parent = some q → (s'.proc r).parent = some q)
    (zombies : ∀ q, Waiting s' q → ∀ r, (s'.proc r).parent = some q → (s'.proc r).state = .zombie →
      (s.proc r).parent = some q ∧ (s.proc r).state = .zombie) : Waits s' := by
  refine ⟨fun q waiting => ?_, fun q waiting => ?_, fun q waiting child mine zombie => ?_⟩
  · obtain ⟨was, chan⟩ := asleep q waiting
    rw [chan]
    exact waits.chan q was
  · obtain ⟨child, mine⟩ := waits.child q (asleep q waiting).1
    exact ⟨child, kids q waiting child mine⟩
  · obtain ⟨before, dead⟩ := zombies q waiting child mine zombie
    exact waits.alive q (asleep q waiting).1 child before dead

theorem History.frame (history : History s) (exited : s'.table.exited = s.table.exited)
    (reaped : s'.table.reaped = s.table.reaped) (nextpid : s.table.nextpid ≤ s'.table.nextpid)
    (zombies : ∀ q, (s'.proc q).state = .zombie ↔ (s.proc q).state = .zombie)
    (pids : ∀ q, (s.proc q).state = .zombie → (s'.proc q).pid = (s.proc q).pid)
    (used : ∀ q, (s'.proc q).state ≠ .unused → (s'.proc q).state ≠ .zombie →
      (s'.proc q).pid = s.table.nextpid ∨ (s.proc q).state ≠ .unused ∧ (s'.proc q).pid = (s.proc q).pid) :
    History s' := by
  refine ⟨fun pid mem => ?_, fun q taken other => ?_, fun q zombie => ?_, fun pid mem fresh => ?_, fun pid mem => ?_, ?_,
    by rw [exited]; exact history.exits⟩
  · rw [exited] at mem
    exact lt_of_lt_of_le (history.known pid mem) nextpid
  · rw [exited]
    rcases used q taken other with new | ⟨was, pid⟩
    · rw [new]
      exact fun mem => lt_irrefl _ (history.known _ mem)
    · rw [pid]
      exact history.running q was fun zombie => other ((zombies q).mpr zombie)
  · have before := (zombies q).mp zombie
    rw [pids q before, exited, reaped]
    exact history.zombie q before
  · rw [exited] at mem
    rw [reaped] at fresh
    obtain ⟨q, zombie, same⟩ := history.kept pid mem fresh
    exact ⟨q, (zombies q).mpr zombie, (pids q zombie).trans same⟩
  · rw [reaped] at mem
    rw [exited]
    exact history.dead pid mem
  · rw [reaped]
    exact history.once

theorem History.forms (history : History s) (forms : Forms s s' p) : History s' := by
  have alive : (s.proc p).state ≠ .zombie := by rcases forms.unborn with is | is <;> rw [is] <;> simp
  refine history.frame forms.logs.1 forms.logs.2 forms.nextpid (fun q => ?_) (fun q zombie => ?_) fun q taken _ => ?_
  · by_cases same : q = p
    · subst same
      exact iff_of_false forms.state.2 alive
    · rw [forms.others q same]
  · rw [forms.others q fun same => alive (same ▸ zombie)]
  · by_cases same : q = p
    · subst same
      exact forms.pid taken
    · rw [forms.others q same] at taken ⊢
      exact .inr ⟨taken, rfl⟩

theorem History.reap (history : History s) (tree : Tree s) {k' : Control n C} {child : Fin n}
    (zombie : (s.proc child).state = .zombie) : History ⟨s.table.reap p child, k'⟩ := by
  set s' : State n C := ⟨s.table.reap p child, k'⟩
  have others (q : Fin n) (different : q ≠ child) : s'.proc q = s.proc q := by
    simp [s', State.proc, Table.reap, different]
  have gone : (s'.proc child).state = .unused := by simp [s', State.proc, Table.reap]
  have reaped : s'.table.reaped.map Prod.fst = s.table.reaped.map Prod.fst ++ [(s.proc child).pid] := by
    simp [s', Table.reap]
  have exited : s'.table.exited = s.table.exited := rfl
  obtain ⟨known, fresh⟩ := history.zombie child zombie
  refine ⟨history.known, fun q taken other => ?_, fun q dead => ?_, fun pid mem new => ?_, fun pid mem => ?_, ?_,
    history.exits⟩
  · have different : q ≠ child := fun same => taken (same ▸ gone)
    rw [others q different] at taken other ⊢
    exact history.running q taken other
  · have different : q ≠ child := by
      rintro rfl
      rw [gone] at dead
      cases dead
    rw [others q different] at dead ⊢
    obtain ⟨mem, new⟩ := history.zombie q dead
    refine ⟨mem, ?_⟩
    rw [reaped, List.mem_append, List.mem_singleton]
    rintro (old | same)
    · exact new old
    · exact different (tree.distinct q child (by rw [dead]; simp) (by rw [zombie]; simp) same)
  · rw [reaped, List.mem_append, List.mem_singleton, not_or] at new
    obtain ⟨q, dead, same⟩ := history.kept pid mem new.1
    have different : q ≠ child := by
      rintro rfl
      exact new.2 same.symm
    exact ⟨q, by rw [others q different]; exact dead, by rw [others q different]; exact same⟩
  · rw [reaped, List.mem_append, List.mem_singleton] at mem
    rcases mem with old | same
    · exact history.dead pid old
    · exact same ▸ known
  · rw [reaped, List.nodup_append]
    refine ⟨history.once, by simp, fun pid mem last is => ?_⟩
    rw [List.mem_singleton] at is
    rw [is]
    rintro rfl
    exact fresh mem

theorem History.exit (history : History s) (tree : Tree s) {k' : Control n C} (running : (s.proc p).state = .running) :
    History ⟨s.table.exit p, k'⟩ := by
  set s' : State n C := ⟨s.table.exit p, k'⟩
  obtain ⟨zombie, _, ownPid, _⟩ := (s.table.exit_self p).1
  have passed (q : Fin n) (different : q ≠ p) : Table.Passed (s.proc q) (s'.proc q) := (s.table.exit_ne different).1
  have pid (q : Fin n) : (s'.proc q).pid = (s.proc q).pid := by
    by_cases same : q = p
    · exact same ▸ ownPid
    · exact (passed q same).pid
  obtain ⟨exited, reaped, nextpid⟩ : s'.table.exited = s.table.exited ++ [(s.proc p).pid] ∧
      s'.table.reaped = s.table.reaped ∧ s'.table.nextpid = s.table.nextpid := by
    obtain ⟨_, rest⟩ := s.table.exit_rest p
    simp only [s', rest, State.proc, and_self]
  have fresh := history.running p (by rw [running]; simp) (by rw [running]; simp)
  have zombies (q : Fin n) (different : q ≠ p) : (s'.proc q).state = .zombie ↔ (s.proc q).state = .zombie := by
    rcases (passed q different).state with same | ⟨was, is⟩
    · rw [same]
    · rw [was, is]
      simp
  have apart (q : Fin n) (different : q ≠ p) (used : (s.proc q).state ≠ .unused) : (s.proc q).pid ≠ (s.proc p).pid :=
    fun same => different (tree.distinct q p used (by rw [running]; simp) same)
  refine ⟨fun pid mem => ?_, fun q taken other => ?_, fun q dead => ?_, fun x mem new => ?_, fun x mem => ?_, ?_, ?_⟩
  · rw [exited, List.mem_append, List.mem_singleton] at mem
    rw [nextpid]
    rcases mem with old | same
    · exact history.known pid old
    · exact same ▸ tree.bound p
  · have different : q ≠ p := by
      rintro rfl
      exact other zombie
    have used : (s.proc q).state ≠ .unused := fun was => taken ((passed q different).unused.mpr was)
    rw [exited, pid, List.mem_append, List.mem_singleton]
    rintro (old | same)
    · exact history.running q used (fun was => other ((zombies q different).mpr was)) old
    · exact apart q different used same
  · rw [exited, reaped, pid, List.mem_append, List.mem_singleton]
    by_cases same : q = p
    · subst same
      exact ⟨.inr rfl, fun mem => fresh (history.dead _ mem)⟩
    · obtain ⟨mem, new⟩ := history.zombie q ((zombies q same).mp dead)
      exact ⟨.inl mem, new⟩
  · rw [exited, List.mem_append, List.mem_singleton] at mem
    rw [reaped] at new
    rcases mem with old | same
    · obtain ⟨q, dead, same⟩ := history.kept x old new
      have different : q ≠ p := by
        rintro rfl
        rw [running] at dead
        cases dead
      exact ⟨q, (zombies q different).mpr dead, by rw [pid, same]⟩
    · exact ⟨p, zombie, by rw [pid, same]⟩
  · rw [reaped] at mem
    rw [exited]
    exact List.mem_append_left _ (history.dead x mem)
  · rw [reaped]
    exact history.once
  · rw [exited, List.nodup_append]
    refine ⟨history.exits, by simp, fun x mem last is => ?_⟩
    rw [List.mem_singleton] at is
    rw [is]
    rintro rfl
    exact fresh mem

theorem Waits.exit (waits : Waits s) (tree : Tree s) (running : (s.proc p).state = .running)
    (other : s.table.initproc ≠ some p) {k' : Control n C} (threads : k'.threads = s.control.threads) :
    Waits ⟨s.table.exit p, k'⟩ := by
  set s' : State n C := ⟨s.table.exit p, k'⟩
  obtain ⟨⟨zombie, _⟩, ownParent⟩ := s.table.exit_self p
  have passed (q : Fin n) (different : q ≠ p) : Table.Passed (s.proc q) (s'.proc q) := (s.table.exit_ne different).1
  have adopted (q : Fin n) (different : q ≠ p) :
      (s'.proc q).parent = if (s.proc q).parent = some p then s.table.initproc else (s.proc q).parent :=
    (s.table.exit_ne different).2
  have unrelated : (s.proc p).parent ≠ some p := by
    intro self
    obtain ⟨q, parent, _, older⟩ := tree.placed p (by rw [running]; rfl) other
    rw [self] at parent
    cases parent
    exact lt_irrefl _ older
  have ownParent' : (s'.proc p).parent = (s.proc p).parent := by
    rw [show (s'.proc p).parent = _ from ownParent, if_neg unrelated]
  have asleep (q : Fin n) (waiting : Waiting s' q) : q ≠ p ∧ Waiting s q ∧ (s'.proc q).chan = (s.proc q).chan := by
    have different : q ≠ p := by
      rintro rfl
      rw [Waiting, show (s'.proc q).state = .zombie from zombie] at waiting
      cases waiting.1
    refine ⟨different, ⟨?_, by rw [State.thread, ← threads]; exact waiting.2⟩, (passed q different).chan⟩
    rcases (passed q different).state with same | ⟨was, _⟩
    · exact same ▸ waiting.1
    · exact was
  refine waits.frame (fun q waiting => (asleep q waiting).2) (fun q waiting r mine => ?_)
    fun q waiting r mine dead => ?_
  · obtain ⟨different, _⟩ := asleep q waiting
    by_cases same : r = p
    · subst same
      rw [ownParent', mine]
    · rw [adopted r same, mine, if_neg (by simp [different])]
  · obtain ⟨different, was, _⟩ := asleep q waiting
    have on := waits.chan q was
    by_cases same : r = p
    · -- The sleeper is the parent of the process that exits, which has woken it.
      subst same
      rw [ownParent'] at mine
      exact absurd waiting.1 (Table.exit_wakes_parent mine different on)
    · have before : (s.proc r).state = .zombie := by
        rcases (passed r same).state with kept | ⟨_, is⟩
        · exact kept ▸ dead
        · rw [dead] at is
          cases is
      rw [adopted r same] at mine
      split_ifs at mine with child
      · -- An inherited zombie has woken init.
        exact absurd waiting.1 (Table.exit_wakes_init child same before mine different on)
      · exact ⟨mine, before⟩

theorem Waits.settles {a : Action C} (waits : Waits s) (settles : Settles s a s') : Waits s' := by
  have parent (r : Fin n) : (s'.proc r).parent = (s.proc r).parent := (settles.slots r).parent
  refine ⟨fun q waiting => ?_, fun q waiting => ?_, fun q waiting child mine zombie => ?_⟩
  · rcases settles.asleep q waiting with ⟨was, chan⟩ | ⟨_, chan⟩
    · rw [chan]
      exact waits.chan q was
    · exact chan
  · obtain ⟨child, mine⟩ : ∃ child, (s.proc child).parent = some q := by
      rcases settles.asleep q waiting with ⟨was, _⟩ | ⟨scanned, _⟩
      · exact waits.child q was
      · exact (waitScan_sleep scanned).1
    exact ⟨child, (parent child).trans mine⟩
  · rw [parent] at mine
    rw [(settles.slots child).zombie] at zombie
    rcases settles.asleep q waiting with ⟨was, _⟩ | ⟨scanned, _⟩
    · exact waits.alive q was child mine zombie
    · exact (waitScan_sleep scanned).2 child mine zombie

theorem Waits.slot (waits : Waits s) (others : ∀ q, q ≠ p → s'.proc q = s.proc q)
    (state : (s'.proc p).state ≠ .sleeping ∧ (s'.proc p).state ≠ .zombie)
    (parent : ∀ q, Waiting s q → (s.proc p).parent = some q → (s'.proc p).parent = some q)
    (threads : ∀ q, q ≠ p → s'.thread q = s.thread q ∨ (s'.thread q).switch = none) : Waits s' := by
  have asleep (q : Fin n) (waiting : Waiting s' q) : q ≠ p ∧ Waiting s q := by
    have different : q ≠ p := by
      rintro rfl
      exact state.1 waiting.1
    have thread := (threads q different).resolve_right fun none => by
      rw [Waiting, none] at waiting
      cases waiting.2
    rw [Waiting, others q different, thread] at waiting
    exact ⟨different, waiting⟩
  refine waits.frame (fun q waiting => ?_) (fun q waiting r mine => ?_) fun q waiting r mine zombie => ?_
  · obtain ⟨different, before⟩ := asleep q waiting
    exact ⟨before, by rw [others q different]⟩
  · by_cases same : r = p
    · subst same
      exact parent q (asleep q waiting).2 mine
    · rw [others r same, mine]
  · have different : r ≠ p := by
      rintro rfl
      exact state.2 zombie
    rw [others r different] at mine zombie
    exact ⟨mine, zombie⟩

end

section

variable [DecidableEq C] {s s' : State n C}

theorem step_waits {a : Action C} (ordered : Ordered s) (tree : Tree s) (waits : Waits s)
    (next : step a s = some s') : Waits s' := by
  have outcome := step_outcome ordered next
  clear next
  cases outcome with
  | settles settles => exact waits.settles settles
  | forms forms =>
    refine waits.slot forms.others forms.state (fun q _ mine => ?_) forms.threads
    rcases forms.parent with same | ⟨p, here⟩
    · rw [same, mine]
    · rw [tree.orphan p _ (.inr here)] at mine
      cases mine
  | @reap c p child k' current parent zombie threads =>
    refine waits.slot (fun q other => Table.reap_ne other) (by simp [State.proc, Table.reap]) (fun q was mine => ?_)
      fun q _ => threads q
    -- The parent runs, so it does not wait.
    rw [parent] at mine
    exact absurd (Option.some.inj mine).symm (ordered.differs current was.1 (by simp))
  | exit running other threads => exact waits.exit tree running other threads

theorem step_history {a : Action C} (ordered : Ordered s) (tree : Tree s) (history : History s)
    (next : step a s = some s') : History s' := by
  have outcome := step_outcome ordered next
  clear next
  cases outcome with
  | settles settles =>
    have slots := settles.slots
    exact history.frame settles.logs.1 settles.logs.2 settles.nextpid.ge (fun q => (slots q).zombie)
      (fun q _ => (slots q).pid) fun q taken _ => .inr ⟨fun was => taken ((slots q).unused.mpr was), (slots q).pid⟩
  | forms forms => exact history.forms forms
  | reap current parent zombie => exact history.reap tree zombie
  | exit running other => exact history.exit tree running

theorem step_zombie {a : Action C} (ordered : Ordered s) (next : step a s = some s') {q : Fin n}
    (zombie : (s.proc q).state = .zombie) : ((s'.proc q).state = .zombie ∧ (s'.proc q).pid = (s.proc q).pid) ∨
      ∃ c p, a = .process c .waitScan ∧ s.current c = some p ∧ (s.proc q).parent = some p ∧
        s'.table.reaped = s.table.reaped ++ [((s.proc q).pid, p)] := by
  have outcome := step_outcome ordered next
  clear next
  cases outcome with
  | settles settles => exact .inl ⟨(settles.slots q).zombie.mpr zombie, (settles.slots q).pid⟩
  | @forms _ _ np forms =>
    have different : q ≠ np := by
      rintro rfl
      rcases forms.unborn with is | is <;> rw [is] at zombie <;> cases zombie
    rw [forms.others q different]
    exact .inl ⟨zombie, rfl⟩
  | @reap c p child _ current parent _ _ =>
    by_cases mine : q = child
    · subst mine
      exact .inr ⟨c, p, rfl, current, parent, rfl⟩
    · rw [State.proc, Table.reap_ne mine]
      exact .inl ⟨zombie, rfl⟩
  | @exit c p _ running other _ =>
    have different : q ≠ p := by
      rintro rfl
      rw [running] at zombie
      cases zombie
    have passed := (s.table.exit_ne different).1
    exact .inl ⟨(passed.awake (by rw [zombie]; simp)).trans zombie, passed.pid⟩

theorem step_reaped {a : Action C} (ordered : Ordered s) (next : step a s = some s') :
    s'.table.reaped = s.table.reaped ∨ ∃ c p q, a = .process c .waitScan ∧ s.current c = some p ∧
      (s.proc q).state = .zombie ∧ (s.proc q).parent = some p ∧
      s'.table.reaped = s.table.reaped ++ [((s.proc q).pid, p)] := by
  have outcome := step_outcome ordered next
  clear next
  cases outcome with
  | settles settles => exact .inl settles.logs.2
  | forms forms => exact .inl forms.logs.2
  | @reap c p child _ current parent zombie _ => exact .inr ⟨c, p, child, rfl, current, zombie, parent, rfl⟩
  | @exit c p _ running other _ =>
    obtain ⟨_, rest⟩ := s.table.exit_rest p
    exact .inl (by simp only [rest])

theorem booted_waits (booted : Booted s) : Waits s ∧ History s := by
  obtain ⟨c, locking, rfl⟩ := booted
  have awake (q : Fin n) : ¬ Waiting (boot n c locking) q := nofun
  refine ⟨⟨fun q waiting => absurd waiting (awake q), fun q waiting => absurd waiting (awake q),
    fun q waiting => absurd waiting (awake q)⟩, nofun, fun q taken => absurd rfl taken, nofun, nofun, nofun, .nil, .nil⟩

theorem reachable_waits {allowed : State n C → Action C → Prop} (reached : Runs.Reachable step allowed Booted s) :
    Waits s ∧ History s := (reached.invariant (fun s => (Ordered s ∧ Tree s) ∧ Waits s ∧ History s)
    (fun _ booted => ⟨⟨booted_ordered booted, booted_tree booted⟩, booted_waits booted⟩)
    fun _ _ _ inv _ next => ⟨⟨step_ordered inv.1.1 next, step_tree inv.1.1 inv.1.2 next⟩,
      step_waits inv.1.1 inv.1.2 inv.2.1 next, step_history inv.1.1 inv.1.2 inv.2.2 next⟩).2

def waitRun : List (Action Bool) :=
  forkRun ++ [.process true .wait, .process true .waitScan]

end

end Xv6.Processes
