import Xv6.Shared.Runs

set_option autoImplicit false

namespace Xv6.Interrupts

variable {C T : Type}

/-- What a CPU keeps for pushcli, FL_IF of its eflags, and whose kernel thread it runs: `inl` for a scheduler. -/
structure Cpu (C T : Type) where
  ncli : Int
  intena : Bool
  interrupts : Bool
  thread : C ⊕ T

inductive Panic where
  | interruptible
  | popcli

def pushcli (cpu : Cpu C T) : Cpu C T :=
  let eflags := cpu.interrupts
  { cpu with
    interrupts := false
    intena := if cpu.ncli = 0 then eflags else cpu.intena
    ncli := cpu.ncli + 1 }

def popcli (cpu : Cpu C T) : Except Panic (Cpu C T) :=
  if cpu.interrupts then .error .interruptible
  else if cpu.ncli - 1 < 0 then .error .popcli
  else .ok { cpu with
    ncli := cpu.ncli - 1
    interrupts := if cpu.ncli - 1 = 0 ∧ cpu.intena = true then true else cpu.interrupts }

/-- A kernel thread: its calls of pushcli that are not undone, whether interrupts were enabled at the outermost of
them, the local variable of sched, whether it is switched out, and whether sched has ever returned to it. A new thread
undoes the call of the scheduler that starts it. -/
structure Thread where
  pushes : Nat
  enabled : Option Bool
  intena : Bool
  parked : Bool
  resumed : Bool

structure State (C T : Type) where
  cpu : C → Cpu C T
  thread : C ⊕ T → Thread

inductive Action (C T : Type) where
  | push (c : C)
  | pop (c : C)
  -- sti, cli, the entry of a trap and its iret
  | flag (c : C) (on : Bool)
  | sched (c : C)
  | swtch (c : C) (t : T)

variable [DecidableEq C] [DecidableEq T]

def State.now (s : State C T) (c : C) : Thread := s.thread (s.cpu c).thread

def State.put (s : State C T) (c : C) (cpu : Cpu C T) (id : C ⊕ T) (thread : Thread) : State C T :=
  ⟨Function.update s.cpu c cpu, Function.update s.thread id thread⟩

def step : Action C T → State C T → Option (State C T)
  | .push c, s =>
    let enabled := if (s.now c).pushes = 0 then some (s.cpu c).interrupts else (s.now c).enabled
    let thread := { s.now c with pushes := (s.now c).pushes + 1, enabled }
    some (s.put c (pushcli (s.cpu c)) (s.cpu c).thread thread)
  | .pop c, s =>
    match popcli (s.cpu c) with
    | .error _ => none
    | .ok cpu =>
      if (s.now c).pushes = 0 then none
      else some (s.put c cpu (s.cpu c).thread { s.now c with pushes := (s.now c).pushes - 1 })
  | .flag c on, s =>
    if (s.now c).pushes = 0 then some (s.put c { s.cpu c with interrupts := on } (s.cpu c).thread (s.now c)) else none
  | .sched c, s =>
    -- forkret has undone the call of the scheduler before.
    if (s.cpu c).thread.isRight ∧ (s.cpu c).ncli = 1 ∧ (s.cpu c).interrupts = false ∧ (s.now c).enabled.isSome then
      let thread := { s.now c with intena := (s.cpu c).intena, parked := true }
      some (s.put c { s.cpu c with thread := .inl c } (s.cpu c).thread thread)
    else none
  | .swtch c t, s =>
    let next := s.thread (.inr t)
    if (s.cpu c).thread = .inl c ∧ (s.now c).pushes = 1 ∧ next.parked then
      -- A thread that is not new returns into sched, which restores intena.
      let intena := if next.enabled.isSome then next.intena else (s.cpu c).intena
      let thread := { next with parked := false, resumed := next.enabled.isSome }
      some (s.put c { s.cpu c with thread := .inr t, intena } (.inr t) thread)
    else none

/-- Every CPU runs its scheduler outside of any pushcli, and no kernel thread has run. -/
structure Booted (s : State C T) : Prop where
  cpu : ∀ c, (s.cpu c).thread = .inl c ∧ (s.cpu c).ncli = 0
  scheduler : ∀ c, (s.thread (.inl c)).pushes = 0
  fresh : ∀ t, (s.thread (.inr t)).pushes = 1 ∧ (s.thread (.inr t)).enabled = none ∧ (s.thread (.inr t)).parked = true ∧
    (s.thread (.inr t)).resumed = false

structure Matches (cpu : Cpu C T) (thread : Thread) : Prop where
  count : cpu.ncli = thread.pushes
  off : 0 < cpu.ncli → cpu.interrupts = false
  own : cpu.thread.isRight → 0 < thread.pushes → ∀ on, thread.enabled = some on → cpu.intena = on

structure Thread.Kept (thread : Thread) : Prop where
  parked : thread.parked = true → thread.pushes = 1 ∧ ∀ on, thread.enabled = some on → thread.intena = on
  resumed : thread.resumed = true → thread.enabled.isSome

structure Invariant (s : State C T) : Prop where
  agree : ∀ c, Matches (s.cpu c) (s.now c)
  home : ∀ c d, (s.cpu c).thread = .inl d → d = c
  alone : ∀ c d t, (s.cpu c).thread = .inr t → (s.cpu d).thread = .inr t → c = d
  running : ∀ c t, (s.cpu c).thread = .inr t → (s.thread (.inr t)).parked = false ∧ (s.thread (.inl c)).pushes = 1
  kept : ∀ t, (s.thread (.inr t)).Kept

variable {s : State C T} {c d : C} {t : T}

omit [DecidableEq C] [DecidableEq T] in
theorem Invariant.apart (inv : Invariant s) (other : d ≠ c) :
    (s.cpu d).thread ≠ (s.cpu c).thread ∧ (s.cpu c).thread ≠ .inl d := by
  refine ⟨fun same => ?_, fun same => other (inv.home c d same)⟩
  cases here : (s.cpu c).thread with
  | inl e => exact other ((inv.home d e (same.trans here)).symm.trans (inv.home c e here))
  | inr t => exact other (inv.alone d c t (same.trans here) here)

@[simp] theorem State.put_changed (cpu : Cpu C T) (id : C ⊕ T) (thread : Thread) :
    (s.put c cpu id thread).thread id = thread := Function.update_self ..

-- CPU c goes on with its scheduler or with t, and the thread `id` that changes is not one of another CPU.
theorem Invariant.put (inv : Invariant s) {cpu : Cpu C T} {id : C ⊕ T} {thread : Thread}
    (others : ∀ d, d ≠ c → (s.cpu d).thread ≠ id ∧ id ≠ .inl d)
    (agree : Matches cpu ((s.put c cpu id thread).thread cpu.thread))
    (side : cpu.thread = .inl c ∨ ∃ t, cpu.thread = .inr t ∧ (∀ d, d ≠ c → (s.cpu d).thread ≠ .inr t) ∧
      ((s.put c cpu id thread).thread (.inr t)).parked = false ∧ ((s.put c cpu id thread).thread (.inl c)).pushes = 1)
    (kept : ∀ t, id = .inr t → thread.Kept) : Invariant (s.put c cpu id thread) := by
  have here : (s.put c cpu id thread).cpu c = cpu := Function.update_self ..
  have there {d : C} (other : d ≠ c) : (s.put c cpu id thread).cpu d = s.cpu d := Function.update_of_ne other ..
  have same {other : C ⊕ T} (apart : other ≠ id) : (s.put c cpu id thread).thread other = s.thread other :=
    Function.update_of_ne apart ..
  have only {t : T} (at_ : cpu.thread = .inr t) (d : C) (other : d ≠ c) : (s.cpu d).thread ≠ .inr t := by
    rcases side with home | ⟨u, kernel, away, _⟩
    · rw [home] at at_
      cases at_
    · cases kernel.symm.trans at_
      exact away d other
  refine ⟨fun d => ?_, fun d e at_ => ?_, fun d e t first second => ?_, fun d t at_ => ?_, fun t => ?_⟩
  · by_cases this : d = c
    · subst this
      rwa [State.now, here]
    · rw [State.now, there this, same (others d this).1]
      exact inv.agree d
  · by_cases this : d = c
    · subst this
      rw [here] at at_
      rcases side with home | ⟨t, kernel, _⟩
      · exact (Sum.inl.inj (home.symm.trans at_)).symm
      · rw [kernel] at at_
        cases at_
    · rw [there this] at at_
      exact inv.home d e at_
  · by_cases one : d = c <;> by_cases two : e = c
    · exact one.trans two.symm
    · subst one
      rw [here] at first
      rw [there two] at second
      exact absurd second (only first e two)
    · subst two
      rw [there one] at first
      rw [here] at second
      exact absurd first (only second d one)
    · rw [there one] at first
      rw [there two] at second
      exact inv.alone d e t first second
  · by_cases this : d = c
    · subst this
      rw [here] at at_
      rcases side with home | ⟨u, kernel, _, awake⟩
      · rw [home] at at_
        cases at_
      · cases kernel.symm.trans at_
        exact awake
    · rw [there this] at at_
      rw [same (at_ ▸ (others d this).1), same (others d this).2.symm]
      exact inv.running d t at_
  · by_cases this : Sum.inr t = id
    · rw [this, State.put_changed]
      exact kept t this.symm
    · rw [same this]
      exact inv.kept t

theorem Invariant.stays (inv : Invariant s) {cpu : Cpu C T} {thread : Thread} (same : cpu.thread = (s.cpu c).thread)
    (agree : Matches cpu thread) (parked : thread.parked = (s.now c).parked) (resumed : thread.resumed = (s.now c).resumed)
    (enabled : (s.now c).enabled.isSome → thread.enabled.isSome) :
    Invariant (s.put c cpu (s.cpu c).thread thread) := by
  refine inv.put (fun d other => inv.apart other) ?_ ?_ fun t here => ⟨fun away => ?_, fun again => ?_⟩
  · rwa [same, State.put_changed]
  · cases here : (s.cpu c).thread with
    | inl e => exact .inl (same.trans (here.trans (congrArg Sum.inl (inv.home c e here))))
    | inr t =>
      obtain ⟨awake, one⟩ := inv.running c t here
      refine .inr ⟨t, same.trans here, fun d other => here ▸ (inv.apart other).1, ?_, ?_⟩
      · rw [State.put_changed, parked, State.now, here, awake]
      · simp [State.put, one]
  · rw [parked, State.now, here, (inv.running c t here).1] at away
    cases away
  · rw [resumed, State.now, here] at again
    rw [State.now, here] at enabled
    exact enabled ((inv.kept t).resumed again)

omit [DecidableEq C] [DecidableEq T] in
theorem popcli_cases {cpu cpu' : Cpu C T} (popped : popcli cpu = .ok cpu') :
    cpu.interrupts = false ∧ 0 < cpu.ncli ∧ cpu'.ncli = cpu.ncli - 1 ∧ cpu'.intena = cpu.intena ∧
      cpu'.thread = cpu.thread ∧ cpu'.interrupts = decide (cpu.ncli = 1 ∧ cpu.intena = true) := by
  unfold popcli at popped
  split at popped
  next => cases popped
  next off =>
    split at popped
    next => cases popped
    next some =>
      cases popped
      have last : cpu.ncli - 1 = 0 ↔ cpu.ncli = 1 := by omega
      refine ⟨by simpa using off, by omega, rfl, rfl, rfl, ?_⟩
      simp only [last]
      split <;> simp_all

theorem Invariant.sched (inv : Invariant s) (here : (s.cpu c).thread = .inr t) (one : (s.cpu c).ncli = 1)
    (off : (s.cpu c).interrupts = false) : Invariant (s.put c { s.cpu c with thread := .inl c } (.inr t)
      { s.thread (.inr t) with intena := (s.cpu c).intena, parked := true }) := by
  have agree := inv.agree c
  have now : s.now c = s.thread (.inr t) := by rw [State.now, here]
  rw [now] at agree
  have count := agree.count
  refine inv.put (fun d other => here ▸ inv.apart other) ⟨?_, fun _ => off, fun kernel => by cases kernel⟩ (.inl rfl) ?_
  · simp [State.put, one, (inv.running c t here).2]
  · rintro _ ⟨⟩
    exact ⟨fun _ => ⟨by simp only; omega, agree.own (by simp [here]) (by omega)⟩, (inv.kept t).resumed⟩

theorem Invariant.swtch (inv : Invariant s) (here : (s.cpu c).thread = .inl c) (one : (s.now c).pushes = 1)
    (parked : (s.thread (.inr t)).parked = true) (intena : Bool)
    (restored : (s.thread (.inr t)).enabled.isSome → intena = (s.thread (.inr t)).intena) :
    Invariant (s.put c { s.cpu c with thread := .inr t, intena } (.inr t)
      { s.thread (.inr t) with parked := false, resumed := (s.thread (.inr t)).enabled.isSome }) := by
  have agree := inv.agree c
  have count := agree.count
  obtain ⟨own, saved⟩ := (inv.kept t).parked parked
  have away (d : C) : (s.cpu d).thread ≠ .inr t := fun there => by
    have awake := (inv.running d t there).1
    rw [parked] at awake
    cases awake
  refine inv.put (fun d _ => ⟨away d, Sum.inr_ne_inl⟩) ?_ (.inr ⟨t, rfl, fun d _ => away d, ?_, ?_⟩) ?_
  · have still : Matches ({ s.cpu c with thread := .inr t, intena } : Cpu C T)
        { s.thread (.inr t) with parked := false, resumed := (s.thread (.inr t)).enabled.isSome } :=
      ⟨by simp only; omega, agree.off, fun _ _ on known => (restored (by simp_all)).trans (saved on known)⟩
    simpa using still
  · simp
  · rw [State.now, here] at one
    simpa [State.put] using one
  · rintro _ ⟨⟩
    exact ⟨fun asleep => Bool.noConfusion asleep, id⟩

theorem step_invariant {a : Action C T} {s' : State C T} (inv : Invariant s) (next : step a s = some s') :
    Invariant s' := by
  cases a with
  | push c =>
    cases next
    have agree := inv.agree c
    refine inv.stays rfl ⟨?_, fun _ => rfl, fun kernel _ on now => ?_⟩ rfl rfl fun before => ?_
    · simp [pushcli, agree.count]
    · by_cases first : (s.now c).pushes = 0
      · have zero : (s.cpu c).ncli = 0 := by rw [agree.count, first]; rfl
        simpa [pushcli, zero, first] using now
      · have some : (s.cpu c).ncli ≠ 0 := by rw [agree.count]; omega
        simp only [first, if_false] at now
        simpa [pushcli, some] using agree.own kernel (by omega) on now
    · split
      · rfl
      · exact before
  | pop c =>
    rw [step] at next
    split at next
    next => cases next
    next cpu popped =>
      obtain ⟨off, some, ncli, intena, same, after⟩ := popcli_cases popped
      split at next
      next => cases next
      next more =>
        cases next
        have agree := inv.agree c
        refine inv.stays same ⟨?_, fun left => ?_, fun kernel left on now => ?_⟩ rfl rfl id
        · have count := agree.count
          simp only
          omega
        · rw [after, decide_eq_false]
          omega
        · rw [intena]
          exact agree.own (same ▸ kernel) (by omega) on now
  | flag c on =>
    rw [step] at next
    split at next
    next none =>
      cases next
      have count := (inv.agree c).count
      refine inv.stays rfl ⟨count, fun some => ?_, (inv.agree c).own⟩ rfl rfl id
      simp only at some
      omega
    next => cases next
  | sched c =>
    rw [step] at next
    split at next
    next ready =>
      cases next
      obtain ⟨kernel, one, off, known⟩ := ready
      obtain ⟨t, here⟩ := Sum.isRight_iff.mp kernel
      rw [State.now, here]
      exact inv.sched here one off
    next => cases next
  | swtch c t =>
    rw [step] at next
    split at next
    next ready =>
      cases next
      obtain ⟨here, one, parked⟩ := ready
      exact inv.swtch here one parked _ fun known => if_pos known
    next => cases next

omit [DecidableEq C] [DecidableEq T] in
theorem booted_invariant (booted : Booted s) : Invariant s := by
  have now (c : C) : (s.now c).pushes = 0 := by rw [State.now, (booted.cpu c).1, booted.scheduler c]
  refine ⟨fun c => ⟨?_, ?_, fun _ more => ?_⟩, fun c d at_ => ?_, fun c d t at_ => ?_, fun c t at_ => ?_, fun t => ?_⟩
  · rw [now c, (booted.cpu c).2]
    rfl
  · simp [(booted.cpu c).2]
  · simp [now c] at more
  · exact (Sum.inl.inj ((booted.cpu c).1.symm.trans at_)).symm
  · cases (booted.cpu c).1.symm.trans at_
  · cases (booted.cpu c).1.symm.trans at_
  · obtain ⟨one, new, _, never⟩ := booted.fresh t
    exact ⟨fun _ => ⟨one, by simp [new]⟩, by simp [never]⟩

abbrev Reachable (s : State C T) : Prop := Runs.Reachable step (fun _ _ => True) Booted s

theorem Reachable.inv (reached : Reachable s) : Invariant s :=
  reached.invariant Invariant (fun _ booted => booted_invariant booted) fun _ _ _ inv _ next => step_invariant inv next

/-- What is to hold on a CPU: of its count, of its interrupts, of popcli where a call of pushcli is left to undo, and
of the outermost popcli of a thread that is back from sched. -/
structure Follows (s : State C T) (c : C) : Prop where
  count : (s.cpu c).ncli = (s.now c).pushes
  off : 0 < (s.cpu c).ncli → (s.cpu c).interrupts = false
  pops : 0 < (s.now c).pushes → ∃ cpu, popcli (s.cpu c) = .ok cpu
  outermost : ∀ t, (s.cpu c).thread = .inr t → (s.now c).resumed = true → (s.now c).pushes = 1 →
    ∃ on, (s.now c).enabled = some on ∧ ∀ cpu, popcli (s.cpu c) = .ok cpu → cpu.interrupts = on

omit [DecidableEq C] [DecidableEq T] in
theorem Invariant.follows (inv : Invariant s) (c : C) : Follows s c := by
  obtain ⟨count, off, own⟩ := inv.agree c
  refine ⟨count, off, fun more => ?_, fun t here again one => ?_⟩
  · have positive : 0 < (s.cpu c).ncli := by omega
    have left : ¬(s.cpu c).ncli - 1 < 0 := by omega
    exact ⟨_, by rw [popcli, off positive, if_neg Bool.false_ne_true, if_neg left]⟩
  · have known : (s.now c).enabled.isSome := by
      rw [State.now, here] at again ⊢
      exact (inv.kept t).resumed again
    obtain ⟨on, enabled⟩ := Option.isSome_iff_exists.mp known
    refine ⟨on, enabled, fun cpu popped => ?_⟩
    obtain ⟨_, _, _, _, _, after⟩ := popcli_cases popped
    have last : (s.cpu c).ncli = 1 := by omega
    rw [after, own (by simp [here]) (by omega) on enabled]
    simp [last]

theorem interrupts_follow_thread (reached : Reachable s) (c : C) : Follows s c := reached.inv.follows c

def twoCpus : State Bool Unit where
  cpu c := ⟨0, false, false, .inl c⟩
  thread := Sum.elim (fun _ => ⟨0, none, false, false, false⟩) fun _ => ⟨1, none, false, true, false⟩

def migrates : List (Action Bool Unit) :=
  [.push false, .swtch false (), .pop false, .flag false true, .push false, .sched false, .push true, .swtch true ()]

theorem twoCpus_booted : Booted twoCpus := ⟨fun _ => ⟨rfl, rfl⟩, fun _ => rfl, fun _ => ⟨rfl, rfl, rfl, rfl⟩⟩

theorem migrated_interrupts : ∃ s, Runs.run step migrates twoCpus = some s ∧ (s.cpu true).thread = .inr () ∧
    (s.now true).resumed = true ∧ (s.now true).pushes = 1 ∧ (s.now true).enabled = some true ∧ Follows s true :=
  have runs : Runs.run step migrates twoCpus = some ((Runs.run step migrates twoCpus).getD twoCpus) := rfl
  ⟨_, runs, rfl, rfl, rfl, rfl, interrupts_follow_thread (Runs.reachable_run (.start twoCpus_booted) migrates runs) true⟩

end Xv6.Interrupts
