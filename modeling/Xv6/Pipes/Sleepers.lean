import Xv6.Pipes.Stream

set_option autoImplicit false

namespace Xv6.Pipes

/-- Nothing to wake a sleeper on the channel for: no data and a writer left, or no room and a reader left. -/
def Calm (pipe : Pipe) : Chan → Prop
  | .nread => pipe.empty = true ∧ pipe.writeopen = true
  | .nwrite => pipe.full = true ∧ pipe.readopen = true

def Pc.owes : Pc → Option Chan
  | .pipewrite _ _ _ .loop | .pipewrite _ _ _ .full | .pipewrite _ _ _ .wakeup | .pipewrite _ _ _ .wakeupLast =>
    some .nread
  | .piperead _ _ .copy | .piperead _ _ .wakeupLast => some .nwrite
  | .pipeclose writable .wakeup => some (if writable then .nread else .nwrite)
  | _ => none

def Pc.fallsOn : Pc → Option Chan
  | .pipewrite _ _ _ (.sleep .fall) => some .nwrite
  | .piperead _ _ (.sleep .fall) => some .nread
  | _ => none

def PointFacts (pipe : Pipe) : Pc → Prop
  | .pipewrite _ _ _ .full => pipe.full = true
  | .pipewrite _ _ _ .wakeup | .pipewrite _ _ _ (.sleep .acquirePtable) | .pipewrite _ _ _ (.sleep .release) =>
    Calm pipe .nwrite
  | .piperead _ _ .killed | .piperead _ _ (.sleep .acquirePtable) | .piperead _ _ (.sleep .release) =>
    Calm pipe .nread
  | _ => True

section Statements

variable {pipe : Pipe} {killed : Bool} {pc pc' : Pc} {effect : Effect} {chan : Chan}

theorem owes_locked (owes : pc.owes = some chan) : pc.locked = true := by
  unfold Pc.owes at owes
  split at owes <;> first | rfl | cases owes

theorem next_points (next : Next pipe killed pc effect pc') (facts : PointFacts pipe pc) :
    PointFacts (effect.onPipe pipe) pc' := by
  cases next with
  | writeFull more full => exact full
  | writeWait reader alive => exact ⟨facts, reader⟩
  | readEmpty empty writer => exact ⟨empty, writer⟩
  | _ => trivial

theorem points_unlocked (pipe' : Pipe) (unlocked : pc.locked = false) : PointFacts pipe' pc := by
  unfold PointFacts
  split <;> trivial

theorem next_calm (next : Next pipe killed pc effect pc') (calm : Calm pipe chan) :
    Calm (effect.onPipe pipe) chan ∨ pc'.owes = some chan := by
  cases next with
  | writeStore more room =>
    cases chan with
    | nread => exact .inr rfl
    | nwrite => exact absurd calm.1 (by simp [room])
  | readTake more nonempty =>
    cases chan with
    | nread => exact absurd calm.1 (by simp [nonempty])
    | nwrite => exact .inr rfl
  | @close writable =>
    cases chan <;> cases writable
    · exact .inl calm
    · exact .inr rfl
    · exact .inr rfl
    · exact .inl calm
  | _ => exact .inl calm

theorem next_owes (next : Next pipe killed pc effect pc') (owes : pc.owes = some chan) :
    pc'.owes = some chan ∨ effect = .wakeup chan ∨
      chan = .nread ∧ (∃ n addr i, pc = .pipewrite n addr i .full) ∧ (pipe.readopen = false ∨ killed = true) := by
  cases next with
  | writeFail hopeless =>
    cases owes
    exact .inr (.inr ⟨rfl, ⟨_, _, _, rfl⟩, hopeless⟩)
  | closeWakeup =>
    cases owes
    exact .inr (.inl rfl)
  | _ => cases owes <;> first | exact .inl rfl | exact .inr (.inl rfl)

theorem fallsOn_inPtable (falls : pc.fallsOn = some chan) : pc.inPtable = true := by
  unfold Pc.fallsOn at falls
  split at falls <;> first | rfl | cases falls

theorem next_falls (next : Next pipe killed pc effect pc') (facts : PointFacts pipe pc)
    (falls : pc'.fallsOn = some chan) : Calm (effect.onPipe pipe) chan := by
  cases next <;> cases falls <;> exact facts

theorem next_fall (next : Next pipe killed pc (.fall chan) pc') : pc.fallsOn = some chan := by
  cases next <;> rfl

end Statements

variable {P : Type} [DecidableEq P]

def Waiting (s : State P) (chan : Chan) (p : P) : Prop :=
  (s.procs p).state = .sleeping ∧ (s.procs p).chan = some chan ∨ (s.procs p).pc.fallsOn = some chan

structure Sleepers (s : State P) : Prop where
  waiting : ∀ chan p, Waiting s chan p →
    Calm s.pipe chan ∨ ∃ q, s.lock = some q ∧ (s.procs q).pc.owes = some chan
  points : ∀ p, PointFacts s.pipe (s.procs p).pc

/-- The step is the failure exit of a pipewrite while a process is asleep on &p->nread. -/
def LeavesReader (s : State P) : Action P → Prop
  | .statement p => (∃ n addr i, (s.procs p).pc = .pipewrite n addr i .full) ∧
      (s.pipe.readopen = false ∨ (s.procs p).killed = true) ∧ ∃ q, Waiting s .nread q
  | _ => False

variable {p : P} {s s' : State P} {addr : Nat → Byte}

theorem perform_asleep {q : P} {effect : Effect} {chan : Chan} (performed : perform p s effect = some s')
    (asleep : (s'.procs q).state = .sleeping ∧ (s'.procs q).chan = some chan) :
    (s.procs q).state = .sleeping ∧ (s.procs q).chan = some chan ∧ effect ≠ .wakeup chan ∨
      q = p ∧ effect = .fall chan := by
  cases effect with
  | fall other =>
    cases performed
    by_cases same : q = p
    · subst same
      refine .inr ⟨rfl, ?_⟩
      simpa using asleep
    · exact .inl ⟨by simpa [same] using asleep.1, by simpa [same] using asleep.2, by simp⟩
  | wakeup other =>
    simp only [perform, Runs.guarded] at performed
    rw [← performed.2] at asleep
    simp only [wakeup1] at asleep
    split at asleep
    · cases asleep.1
    next missed => exact .inl ⟨asleep.1, asleep.2, fun same => missed ⟨asleep.1, by cases same; exact asleep.2⟩⟩
  | acquire | acquirePtable =>
    simp only [perform, Runs.guarded] at performed
    rw [← performed.2] at asleep
    exact .inl ⟨asleep.1, asleep.2, by simp⟩
  | stay | release | store | take | close | free =>
    cases performed
    exact .inl ⟨asleep.1, asleep.2, by simp⟩

theorem statement_waiting {q : P} {between : State P} {effect : Effect} {pc : Pc} {chan : Chan} (locks : Locks s)
    (facts : PointFacts s.pipe (s.procs p).pc) (moves : Next s.pipe (s.procs p).killed (s.procs p).pc effect pc)
    (performed : perform p s effect = some between) (waiting : Waiting (between.goto p pc) chan q) :
    Waiting s chan q ∧ effect ≠ .wakeup chan ∨ Calm (effect.onPipe s.pipe) chan := by
  have stillFalls (falls : (s.procs q).pc.fallsOn = some chan) : effect ≠ .wakeup chan := by
    rintro rfl
    simp only [perform, Option.ite_none_right_eq_some] at performed
    have inside := (locks.ptable q).mpr (fallsOn_inPtable falls)
    rw [performed.1] at inside
    cases inside
  have pcs := (perform_pc performed q).1
  rcases waiting with asleep | falls
  · have shape : (between.procs q).state = .sleeping ∧ (between.procs q).chan = some chan := by
      by_cases same : q = p
      · subst same
        simpa using asleep
      · simpa [same] using asleep
    rcases perform_asleep performed shape with ⟨before, where_, unwoken⟩ | ⟨rfl, rfl⟩
    · exact .inl ⟨.inl ⟨before, where_⟩, unwoken⟩
    · exact .inl ⟨.inr (next_fall moves), by simp⟩
  · by_cases same : q = p
    · subst same
      exact .inr (next_falls moves facts (by simpa using falls))
    · rw [goto_procs_ne _ _ same, pcs] at falls
      exact .inl ⟨.inr falls, stillFalls falls⟩

theorem statement_sleepers (locks : Locks s) (sleepers : Sleepers s) (fine : ¬ LeavesReader s (.statement p))
    (next : statement p s = some s') : Sleepers s' := by
  have after := statement_locks locks next
  obtain ⟨effect, pc, between, moves, performed, rfl⟩ := statement_eq_some next
  have frame := perform_pc performed
  have pipe : (between.goto p pc).pipe = effect.onPipe s.pipe := (perform_streams performed).1
  have here : ((between.goto p pc).procs p).pc = pc := by simp
  have holds (chan : Chan) (owes : pc.owes = some chan) :
      ∃ q, (between.goto p pc).lock = some q ∧ ((between.goto p pc).procs q).pc.owes = some chan :=
    ⟨p, (after.lock p).mpr (by rw [here]; exact owes_locked owes), by rw [here]; exact owes⟩
  constructor
  · intro chan q waiting
    rw [pipe]
    rcases statement_waiting locks (sleepers.points p) moves performed waiting with ⟨before, unwoken⟩ | calm
    · rcases sleepers.waiting chan q before with calm | ⟨holder, held, owes⟩
      · exact (next_calm moves calm).imp_right (holds chan)
      · by_cases same : holder = p
        · subst same
          rcases next_owes moves owes with still | paid | ⟨rfl, exit, hopeless⟩
          · exact .inr (holds chan still)
          · exact absurd paid unwoken
          · exact absurd ⟨exit, hopeless, q, before⟩ fine
        · refine .inr ⟨holder, ?_, ?_⟩
          · rw [after.lock, goto_procs_ne _ _ same, (frame holder).1]
            exact (locks.lock holder).mp held
          · rw [goto_procs_ne _ _ same, (frame holder).1]
            exact owes
    · exact .inl calm
  · intro q
    rw [pipe]
    by_cases same : q = p
    · subst same
      rw [here]
      exact next_points moves (sleepers.points q)
    · rw [goto_procs_ne _ _ same, (frame q).1]
      by_cases mine : (s.procs p).pc.locked = true
      · exact points_unlocked _ (locks.unlocked same mine)
      · rw [onPipe_of_unlocked moves (by simpa using mine)]
        exact sleepers.points q

theorem Sleepers.update (sleepers : Sleepers s) (p : P) (proc : Proc)
    (asleep : proc.state = .sleeping → (s.procs p).state = .sleeping ∧ proc.chan = (s.procs p).chan)
    (pc : proc.pc.fallsOn = (s.procs p).pc.fallsOn ∧ proc.pc.owes = (s.procs p).pc.owes)
    (points : PointFacts s.pipe proc.pc) : Sleepers { s with procs := Function.update s.procs p proc } := by
  constructor
  · intro chan q waiting
    have before : Waiting s chan q := by
      by_cases same : q = p
      · subst same
        simp only [Waiting, Function.update_self] at waiting
        rcases waiting with ⟨state, on⟩ | falls
        · obtain ⟨was, kept⟩ := asleep state
          exact .inl ⟨was, kept ▸ on⟩
        · exact .inr (pc.1 ▸ falls)
      · simpa only [Waiting, Function.update_of_ne same] using waiting
    refine (sleepers.waiting chan q before).imp_right fun ⟨holder, held, owes⟩ => ⟨holder, held, ?_⟩
    by_cases same : holder = p
    · subst same
      simpa [pc.2] using owes
    · simpa [same] using owes
  · intro q
    by_cases same : q = p
    · subst same
      simpa using points
    · simpa [same] using sleepers.points q

theorem resume_points {pipe : Pipe} {pc : Pc} (facts : PointFacts pipe pc) :
    pc.resume.fallsOn = pc.fallsOn ∧ pc.resume.owes = pc.owes ∧ PointFacts pipe pc.resume := by
  unfold Pc.resume
  split <;> exact ⟨rfl, rfl, facts⟩

theorem step_sleepers {a : Action P} (locks : Locks s) (sleepers : Sleepers s) (fine : ¬ LeavesReader s a)
    (next : step a s = some s') : Sleepers s' := by
  cases a with
  | call p c =>
    simp only [step, Option.ite_none_right_eq_some] at next
    obtain ⟨idle, rfl⟩ := call_eq_some next.2
    have entered : c.entry.fallsOn = none ∧ c.entry.owes = none ∧ PointFacts s.pipe c.entry := by
      cases c <;> exact ⟨rfl, rfl, trivial⟩
    refine sleepers.update p _ (fun asleep => ⟨asleep, rfl⟩) ?_ entered.2.2
    rw [idle]
    exact ⟨entered.1, entered.2.1⟩
  | statement p =>
    simp only [step, Option.ite_none_right_eq_some] at next
    exact statement_sleepers locks sleepers fine next.2
  | kill p =>
    simp only [step, kill, Runs.guarded] at next
    rw [← next.2]
    refine sleepers.update p _ (fun asleep => ?_) ⟨rfl, rfl⟩ (sleepers.points p)
    dsimp only at asleep
    split at asleep
    · cases asleep
    · exact ⟨asleep, rfl⟩
  | dispatch p =>
    simp only [step, dispatch, Runs.guarded] at next
    have resumed := resume_points (sleepers.points p)
    rw [← next.2]
    exact sleepers.update p _ (fun asleep => by cases asleep) ⟨resumed.1, resumed.2.1⟩ resumed.2.2
  | preempt p =>
    simp only [step, preempt, Runs.guarded] at next
    rw [← next.2]
    exact sleepers.update p _ (fun asleep => by cases asleep) ⟨rfl, rfl⟩ (sleepers.points p)

omit [DecidableEq P] in
theorem allocated_sleepers (fresh : Allocated s) : Sleepers s := by
  constructor
  · intro chan p waiting
    simp [Waiting, fresh.idle, Pc.fallsOn] at waiting
  · intro p
    rw [(fresh.idle p).1]
    trivial

/-- No stranded sleeper, in every run in which no pipewrite takes its failure exit while a process is
asleep on &p->nread. -/
theorem no_stranded_sleeper (s : State P)
    (reached : Runs.Reachable step (fun s a => ¬ LeavesReader s a) Allocated s) (free : s.lock = none) (p : P) :
    ¬ ((s.procs p).state = .sleeping ∧ (s.procs p).chan = some .nread ∧
        (s.pipe.nread ≠ s.pipe.nwrite ∨ s.pipe.writeopen = false)) ∧
      ¬ ((s.procs p).state = .sleeping ∧ (s.procs p).chan = some .nwrite ∧
        (s.pipe.nwrite ≠ s.pipe.nread + 512 ∨ s.pipe.readopen = false)) := by
  have inv := reached.invariant (fun s => Locks s ∧ Sleepers s)
    (fun _ fresh => ⟨allocated_locks fresh, allocated_sleepers fresh⟩)
    fun _ _ _ inv fine next => ⟨step_locks inv.1 next, step_sleepers inv.1 inv.2 fine next⟩
  have calm (chan : Chan) (asleep : (s.procs p).state = .sleeping ∧ (s.procs p).chan = some chan) :
      Calm s.pipe chan := by
    rcases inv.2.waiting chan p (.inl asleep) with calm | ⟨holder, held, _⟩
    · exact calm
    · rw [free] at held
      cases held
  constructor
  · rintro ⟨state, on, data | closed⟩
    · exact data (beq_iff_eq.mp (calm .nread ⟨state, on⟩).1)
    · exact absurd (calm .nread ⟨state, on⟩).2 (by simp [closed])
  · rintro ⟨state, on, room | closed⟩
    · exact room (beq_iff_eq.mp (calm .nwrite ⟨state, on⟩).1)
    · exact absurd (calm .nwrite ⟨state, on⟩).2 (by simp [closed])

theorem no_stranded_sleeper_on_empty :
    ∃ s : State Unit, Runs.run step (.call () (.piperead 1) :: List.replicate 6 (.statement ())) (newPipe Unit) = some s ∧
      (s.procs ()).state = .sleeping ∧ (s.procs ()).chan = some .nread ∧
      ¬ (s.pipe.nread ≠ s.pipe.nwrite ∨ s.pipe.writeopen = false) := by
  refine ⟨_, rfl, rfl, rfl, fun stranded => ?_⟩
  refine (no_stranded_sleeper _ (Runs.reachable_along (.start (newPipe_allocated Unit))
    (.call () (.piperead 1) :: List.replicate 6 (.statement ())) ?_ rfl) rfl ()).1 ⟨rfl, rfl, stranded⟩
  refine ⟨id, fun s next => ?_⟩
  cases next
  iterate 6
    refine ⟨?_, fun s next => ?_⟩
    · rintro ⟨⟨_, _, _, here⟩, _⟩
      cases here
    cases next
  trivial

theorem statement_store {n : Int} {i : Nat} (here : (s.procs p).pc = .pipewrite n addr i .loop) (more : (i : Int) < n)
    (room : s.pipe.full = false) : ∃ s', statement p s = some s' ∧ (s'.procs p).pc = .pipewrite n addr (i + 1) .loop ∧
      (s'.procs p).state = (s.procs p).state ∧ (s'.procs p).killed = (s.procs p).killed ∧
      s'.pipe = s.pipe.store (addr i) ∧ s'.freed = s.freed ∧ ∀ q, q ≠ p → s'.procs q = s.procs q := by
  refine ⟨State.goto { s with
    pipe := s.pipe.store (addr i)
    stored := s.stored ++ [⟨p, (s.procs p).calls, addr i⟩] } p (.pipewrite n addr (i + 1) .loop), ?_, ?_, ?_, ?_, rfl,
    rfl, fun q different => goto_procs_ne _ _ different⟩
  · simp [statement, code, here, writeCode, more, room, perform]
  all_goals simp

theorem fill_run {n : Int} (k : Nat) {i : Nat} (here : (s.procs p).pc = .pipewrite n addr i .loop)
    (running : (s.procs p).state = .running) (allocated : s.freed = false) (more : (i : Int) + k ≤ n)
    (room : s.pipe.ring.count + k ≤ pipeSize) : ∃ s', Runs.run step (List.replicate k (.statement p)) s = some s' ∧
      (s'.procs p).pc = .pipewrite n addr (i + k) .loop ∧ (s'.procs p).state = .running ∧
      (s'.procs p).killed = (s.procs p).killed ∧ s'.pipe.ring.count = s.pipe.ring.count + k ∧ s'.freed = false ∧
      ∀ q, q ≠ p → s'.procs q = s.procs q := by
  induction k generalizing s i with
  | zero => exact ⟨s, rfl, here, running, rfl, rfl, allocated, fun _ _ => rfl⟩
  | succ k ih =>
    have free : s.pipe.ring.count < pipeSize := by omega
    have notFull : s.pipe.full = false := by
      rw [← Bool.not_eq_true, full_iff]
      omega
    obtain ⟨t, first, moved, state, killed, pipe, freed, others⟩ := statement_store here (by omega) notFull
    have count : t.pipe.ring.count = s.pipe.ring.count + 1 := by rw [pipe, count_store free]
    obtain ⟨s', runs, ended, stillRuns, stillKilled, filled, stillThere, rest⟩ :=
      ih moved (state.trans running) (freed.trans allocated) (by push_cast; omega) (by omega)
    refine ⟨s', ?_, ?_, stillRuns, stillKilled.trans killed, by omega, stillThere, fun q different => ?_⟩
    · simp only [List.replicate_succ, Runs.run, step, allocated, running, and_self, if_true, first, Option.bind_some]
      exact runs
    · rw [ended, show i + 1 + k = i + (k + 1) by omega]
    · exact (rest q different).trans (others q different)

theorem failure_run {n : Int} {i : Nat} (here : (s.procs p).pc = .pipewrite n addr i .loop)
    (running : (s.procs p).state = .running) (allocated : s.freed = false) (more : (i : Int) < n)
    (full : s.pipe.full = true) (killed : (s.procs p).killed = true) :
    ∃ s', Runs.run step [.statement p, .statement p, .statement p] s = some s' ∧ s'.lock = none ∧
      s'.pipe = s.pipe ∧ ∀ q, q ≠ p → s'.procs q = s.procs q := by
  refine ⟨State.goto { (s.goto p (.pipewrite n addr i .full)).goto p (.pipewrite n addr i (.unlock (-1))) with
    lock := none } p .idle, ?_, rfl, rfl, fun q different => by simp [State.goto, different]⟩
  simp [Runs.run, step, statement, code, here, writeCode, more, full, killed, perform, running, allocated, State.goto]

/-- A reader sleeps on the empty pipe; a writer that has been killed fills it, cannot go on and leaves
without waking the reader. -/
theorem killed_writer_strands_reader : ∃ s : State (Fin 2), Reached s ∧ s.lock = none ∧
      (s.procs 0).state = .sleeping ∧ (s.procs 0).chan = some .nread ∧ s.pipe.nread ≠ s.pipe.nwrite := by
  obtain ⟨s, runs, reader, writer, empty, allocated⟩ : ∃ s : State (Fin 2),
      Runs.run step (.call 0 (.piperead 1) :: List.replicate 6 (.statement 0) ++
        [.kill 1, .call 1 (.pipewrite 513 fun _ => 0), .statement 1]) (newPipe (Fin 2)) = some s ∧
      ((s.procs 0).state = .sleeping ∧ (s.procs 0).chan = some .nread) ∧
      ((s.procs 1).pc = .pipewrite 513 (fun _ => 0) 0 .loop ∧ (s.procs 1).state = .running ∧
        (s.procs 1).killed = true) ∧ s.pipe.ring.count = 0 ∧ s.freed = false :=
    ⟨_, rfl, ⟨rfl, rfl⟩, ⟨rfl, rfl, rfl⟩, rfl, rfl⟩
  obtain ⟨t, fills, here, running, killed, count, freed, others⟩ :=
    fill_run 512 writer.1 writer.2.1 allocated (by decide) (by rw [empty]; decide)
  have full : t.pipe.full = true := (full_iff t.pipe).mpr (by rw [count, empty]; rfl)
  obtain ⟨u, fails, free, pipe, rest⟩ :=
    failure_run here running freed (by decide) full (killed.trans writer.2.2)
  have same : u.procs 0 = s.procs 0 := (rest 0 (by decide)).trans (others 0 (by decide))
  refine ⟨u, ?_, free, ?_, ?_, fun drained => ?_⟩
  · exact Runs.reachable_run (Runs.reachable_run (Runs.reachable_run (.start (newPipe_allocated (Fin 2))) _ runs)
      _ fills) _ fails
  · rw [same]
    exact reader.1
  · rw [same]
    exact reader.2
  · have none := (RingBuffer.count_eq_zero_iff u.pipe.ring).mpr drained
    rw [pipe, count, empty] at none
    cases none

end Xv6.Pipes
