import Xv6.Sleeplocks.Steps

set_option autoImplicit false

namespace Xv6.Sleeplocks

open Holders

variable {P L : Type} [DecidableEq P] [DecidableEq L] {s s' : State P L} {p : P}

theorem perform_acquire {lk : L} (performed : perform p s (.acquire lk) = some s') :
    (s.locks lk).lk = none ∧ s' = s.setSpin lk (some p) := by
  simp only [perform, Runs.guarded] at performed
  exact ⟨performed.1, performed.2.symm⟩

theorem perform_acquirePtable (performed : perform p s .acquirePtable = some s') :
    s.ptable = none ∧ s' = s.setTable (some (.proc p)) := by
  simp only [perform, Runs.guarded] at performed
  exact ⟨performed.1, performed.2.symm⟩

theorem statement_change (inv : Inv s) (running : (s.procs p).yielding = none) (awake : (s.procs p).state = .running)
    (next : statement p s = some s') : Change s s' p := by
  obtain ⟨⟨effect, pc'⟩, coded, rest⟩ := Option.bind_eq_some_iff.mp next
  obtain ⟨s₁, performed, done⟩ := Option.bind_eq_some_iff.mp rest
  cases done
  cases here : (s.procs p).pc with
  | idle => rw [here] at coded; cases coded
  | acquiresleep lk point =>
    rw [here] at coded
    cases point with
    | acquire =>
      cases coded
      obtain ⟨free, rfl⟩ := perform_acquire performed
      exact acquire_change running awake here free rfl rfl rfl rfl rfl rfl nofun nofun
    | test =>
      cases coded
      cases performed
      cases locked : (s.locks lk).locked with
      | true =>
        refine stay_change running awake here rfl rfl rfl rfl ?_ nofun nofun
        rintro l ⟨⟩
        exact .inr locked
      | false =>
        refine stay_change running awake here rfl rfl rfl rfl nofun ?_ nofun
        rintro l ⟨⟩
        exact locked
    | sleep point =>
      cases point with
      | acquirePtable =>
        cases coded
        obtain ⟨free, rfl⟩ := perform_acquirePtable performed
        exact acquirePtable_change running awake here free rfl rfl rfl rfl rfl nofun nofun
      | release =>
        cases coded
        cases performed
        exact release_change running awake here rfl rfl rfl rfl rfl rfl nofun nofun
      | fall =>
        cases coded
        cases performed
        exact fall_change running here rfl
      | asleep => cases coded
      | tidy =>
        cases coded
        cases performed
        exact tidy_change running awake here rfl
      | relock =>
        cases coded
        obtain ⟨free, rfl⟩ := perform_acquire performed
        exact acquire_change running awake here free rfl rfl rfl rfl rfl rfl nofun nofun
    | take =>
      cases coded
      cases performed
      exact assign_change running awake here rfl rfl rfl (.inl ⟨inv.free p lk here, rfl, rfl, rfl⟩) (.inl rfl) rfl rfl
        nofun nofun
    | release =>
      cases coded
      cases performed
      exact finish_change running awake here rfl
  | releasesleep lk point =>
    have given := inv.returned p lk point here
    rw [here] at coded
    cases point with
    | acquire =>
      cases coded
      obtain ⟨free, rfl⟩ := perform_acquire performed
      refine acquire_change running awake here free rfl rfl rfl rfl rfl rfl nofun ?_
      rintro l point ⟨⟩
      exact given
    | clear =>
      cases coded
      cases performed
      refine assign_change running awake here rfl rfl rfl (.inr ⟨rfl, rfl, rfl, given⟩) (.inr rfl) rfl rfl nofun ?_
      rintro l point ⟨⟩
      exact given
    | wakeup point =>
      cases point with
      | acquirePtable =>
        cases coded
        obtain ⟨free, rfl⟩ := perform_acquirePtable performed
        refine acquirePtable_change running awake here free rfl rfl rfl rfl rfl nofun ?_
        rintro l point ⟨⟩
        exact given
      | wakeup1 =>
        cases coded
        cases performed
        exact wakeup1_change running awake here inv rfl
      | releasePtable =>
        cases coded
        cases performed
        refine releasePtable_change running awake here rfl rfl rfl rfl rfl rfl nofun ?_
        rintro l point ⟨⟩
        exact given
    | release =>
      cases coded
      cases performed
      exact release_change running awake here rfl rfl rfl rfl rfl rfl nofun nofun
  | kill target point =>
    rw [here] at coded
    cases point with
    | acquirePtable =>
      cases coded
      obtain ⟨free, rfl⟩ := perform_acquirePtable performed
      exact acquirePtable_change running awake here free rfl rfl rfl rfl rfl nofun nofun
    | mark =>
      cases coded
      exact mark_change running awake here target rfl performed
    | releasePtable =>
      cases coded
      cases performed
      exact releasePtable_change running awake here rfl rfl rfl rfl rfl rfl nofun nofun

theorem still_change {proc : Proc P L} {holder : Option (Owner P)} (inv : Inv s)
    (pc : proc.pc = (s.procs p).pc) (held : proc.held = (s.procs p).held)
    (sleeps : ∀ l, proc.SleepsOn l → (s.procs p).SleepsOn l) (away : proc.yielding ≠ none → proc.pc.interruptible = true)
    (table : Moved s.tableHolder ((s.setProc p proc).setTable holder).tableHolder p (s.procs p).inTable proc.inTable) :
    Change s ((s.setProc p proc).setTable holder) p := by
  have self : ((s.setProc p proc).setTable holder).procs p = proc := setProc_self s p proc
  have sameOwns (l : L) : proc.owns l = (s.procs p).owns l := by simp only [Proc.owns, pc, held]
  constructor
  · exact others_of_same fun q ne => setProc_ne s ne proc
  · rw [self, pc]
    exact spin_same rfl rfl
  · rw [self]
    exact table
  · exact fun l => .inl ⟨rfl, by rw [self, sameOwns]⟩
  · exact fun l changed => absurd rfl changed
  · intro l takes
    rw [self, pc] at takes
    exact inv.free p l takes
  · exact fun l locked => .inl locked
  · intro l owes
    rw [self, pc]
    exact .inl owes
  · intro l waits
    rw [self] at waits
    exact .inl (waits.imp (fun falls => pc ▸ falls) (sleeps l))
  · rw [self]
    exact away
  · intro l point back
    rw [self] at back ⊢
    rw [held]
    exact inv.returned p l point (pc ▸ back)

theorem yieldStep_change (inv : Inv s) (next : yieldStep p s = some s') : Change s s' p := by
  unfold yieldStep at next
  split at next
  next yields =>
    simp only [Runs.guarded] at next
    obtain ⟨⟨awake, away, free⟩, rfl⟩ := next
    refine still_change inv rfl rfl (fun l sleeps => sleeps) (fun _ => away) (.inr (.inl ⟨?_, rfl, rfl⟩))
    simp only [State.tableHolder, free]
  next yields =>
    cases next
    refine still_change inv rfl rfl ?_ (fun _ => inv.away_of_yields yields) (.inr (.inr ⟨?_, rfl, rfl⟩))
    · exact fun l sleeps => by cases sleeps.1
    · simp only [Proc.inTable, yields]
  next => cases next
  next yields =>
    cases next
    have away := inv.away_of_yields yields
    refine still_change inv rfl rfl (fun l sleeps => sleeps) (fun absent => absurd rfl absent)
      (.inr (.inr ⟨?_, rfl, ?_⟩))
    · simp only [Proc.inTable, yields]
    · simpa [Pc.interruptible, Proc.inTable] using (Bool.and_eq_true_iff.mp away).2

theorem dispatch_change (inv : Inv s) (next : dispatch p s = some s') : Change s s' p := by
  simp only [dispatch, Option.ite_none_right_eq_some] at next
  obtain ⟨⟨scheduler, runnable⟩, next⟩ := next
  have free : s.tableHolder = none := by simp only [State.tableHolder, scheduler]
  split at next
  next yields =>
    cases next
    refine still_change inv rfl rfl ?_ (fun _ => inv.away_of_yields yields) (.inr (.inl ⟨free, rfl, rfl⟩))
    exact fun l sleeps => by cases sleeps.1
  next lk yields here =>
    cases next
    have self : ((s.setProc p { s.procs p with state := .running, pc := .acquiresleep lk (.sleep .tidy) }).setTable
        (some (.proc p))).procs p =
        { s.procs p with state := .running, pc := .acquiresleep lk (.sleep .tidy) } := setProc_self s p _
    have plain : Plain s ((s.setProc p { s.procs p with
        state := .running, pc := .acquiresleep lk (.sleep .tidy) }).setTable (some (.proc p))) p :=
      { others := others_of_same fun q ne => setProc_ne s ne _
        locked := fun _ => rfl
        held := by rw [self]
        yielding := by rw [self]; exact yields
        awake := by rw [self]; exact ProcState.noConfusion }
    have there := congrArg Proc.pc self
    refine plain.change here there (spin_same rfl rfl) (table_acquire free rfl ?_) rfl (by rintro l ⟨⟩)
      (by rintro l ⟨⟩) (by rintro l ⟨⟩) (by rintro l point ⟨⟩)
    rw [inTable_of_running plain.yielding, self]
    rfl
  next => cases next

theorem call_change {c : Call P L} (running : (s.procs p).yielding = none) (awake : (s.procs p).state = .running)
    (idle : (s.procs p).pc = .idle) (next : call p s c = some s') : Change s s' p := by
  cases c with
  | acquiresleep lk | kill target =>
    cases next
    exact stay_change running awake idle rfl rfl rfl rfl nofun nofun nofun
  | releasesleep lk =>
    simp only [call, Runs.guarded] at next
    obtain ⟨holds, rfl⟩ := next
    have self : (s.setProc p { s.procs p with
        pc := .releasesleep lk .acquire
        held := Function.update (s.procs p).held lk false }).procs p = { s.procs p with
          pc := .releasesleep lk .acquire
          held := Function.update (s.procs p).held lk false } := setProc_self s p _
    constructor
    · exact others_of_same fun q ne => setProc_ne s ne _
    · rw [self, idle]
      exact spin_same rfl rfl
    · refine table_same rfl ?_
      rw [inTable_of_running running, inTable_of_running (by rw [self]; exact running), self, idle]
      rfl
    · intro l
      refine .inl ⟨rfl, ?_⟩
      rw [self]
      by_cases same : l = lk
      · subst same
        simp [Proc.owns, idle, Pc.owns, holds]
      · simp [Proc.owns, idle, Pc.owns, same, Ne.symm same]
    · exact fun l changed => absurd rfl changed
    · intro l takes
      rw [self] at takes
      cases takes
    · exact fun l locked => .inl locked
    · intro l owes
      rw [idle] at owes
      cases owes
    · rintro l (falls | ⟨asleep, -⟩)
      · rw [self] at falls
        cases falls
      · rw [self] at asleep
        exact absurd (awake.symm.trans asleep) (by decide)
    · intro yields
      rw [self] at yields
      exact absurd running yields
    · intro l point back
      rw [self] at back ⊢
      cases back
      simp

omit [DecidableEq P] in
theorem Inv.setTable (inv : Inv s) {holder : Option (Owner P)} (same : (s.setTable holder).tableHolder = s.tableHolder) :
    Inv (s.setTable holder) :=
  ⟨inv.spin, by rw [same]; exact inv.table, inv.owner, inv.free, inv.waiting, inv.away, inv.returned⟩

omit [DecidableEq P] [DecidableEq L] in
theorem onCpu_iff {proc : Proc P L} : proc.onCpu = true ↔ proc.state = .running ∧ proc.yielding = none := by
  simp [Proc.onCpu]

theorem Inv.step {a : Action P L} (inv : Inv s) (next : step a s = some s') : Inv s' := by
  cases a with
  | call p c =>
    simp only [Sleeplocks.step, Option.ite_none_right_eq_some, onCpu_iff] at next
    obtain ⟨⟨⟨awake, running⟩, idle⟩, next⟩ := next
    exact inv.change (call_change running awake idle next)
  | statement p =>
    simp only [Sleeplocks.step, Option.ite_none_right_eq_some, onCpu_iff] at next
    obtain ⟨⟨awake, running⟩, next⟩ := next
    exact inv.change (statement_change inv running awake next)
  | yieldStep p => exact inv.change (yieldStep_change inv next)
  | dispatch p => exact inv.change (dispatch_change inv next)
  | schedulerAcquire | schedulerRelease =>
    simp only [Sleeplocks.step, Runs.guarded] at next
    obtain ⟨free, rfl⟩ := next
    exact inv.setTable (by simp only [State.tableHolder, State.setTable, free])

omit [DecidableEq P] in
theorem Initialised.inv (first : Initialised s) : Inv s where
  spin lk q := by simp [first.locks lk, first.idle q, Pc.inLock]
  table q := by
    rcases first.ready q with ⟨-, yields⟩ | ⟨-, yields⟩ <;>
      simp [State.tableHolder, first.ptable, Proc.inTable, yields, first.idle q, Pc.inTable]
  owner lk := ⟨none, by simp [first.locks lk], fun q => by simp [Proc.owns, first.idle q, Pc.owns]⟩
  free q lk takes := by rw [(first.idle q).1] at takes; cases takes
  waiting q lk waits := by
    rw [Proc.Waits, Proc.SleepsOn, (first.idle q).1, (first.idle q).2.1] at waits
    rcases waits with falls | ⟨-, chan⟩
    · cases falls
    · cases chan
  away q _ := by rw [(first.idle q).1]; rfl
  returned q lk point back := by rw [(first.idle q).1] at back; cases back

/-- At most one process is between acquiresleep and releasesleep, and no process sleeps on a free lock. -/
structure Sound (s : State P L) : Prop where
  exclusive : ∀ lk p q, (s.procs p).held lk = true → (s.procs q).held lk = true → p = q
  notStranded : ∀ lk p, (s.locks lk).lk = none → s.ptable = none → (s.procs p).SleepsOn lk →
    (s.locks lk).locked = true

omit [DecidableEq P] in
theorem Inv.sound (inv : Inv s) : Sound s where
  exclusive lk p q mine other := by
    obtain ⟨owner, -, held⟩ := inv.owner lk
    exact held.unique (by simp [Proc.owns, mine]) (by simp [Proc.owns, other])
  notStranded lk p spin _ sleeps := by
    rcases inv.waiting p lk (.inr sleeps) with locked | ⟨q, owes⟩
    · exact locked
    · -- The process that has still to wake the sleepers holds lk->lk.
      have inside : (s.procs q).pc.inLock = some lk := by
        unfold Pc.owes at owes
        split at owes <;> cases owes <;> simp_all [Pc.inLock]
      have held := (inv.spin lk q).mpr (by simp [inside])
      rw [spin] at held
      cases held

theorem sleeplock_sound (reached : Runs.Reachable step (fun _ _ => True) Initialised s) : Sound s :=
  (reached.invariant Inv (fun _ first => first.inv) fun _ _ _ inv _ next => inv.step next).sound

def started : State Bool Unit where
  locks _ := { lk := none, locked := false, pid := 0 }
  ptable := none
  procs p :=
    { state := .running, chan := none, killed := false, pid := if p then 2 else 1, pc := .idle, yielding := none
      held := fun _ => false }

def contended : List (Action Bool Unit) :=
  [.call false (.acquiresleep ()), .statement false, .statement false, .statement false, .statement false,
    .call true (.acquiresleep ()), .statement true, .statement true, .statement true, .statement true, .statement true,
    .schedulerRelease]

theorem started_initialised : Initialised started :=
  ⟨fun _ => rfl, rfl, fun _ => ⟨rfl, rfl, rfl⟩, fun _ => .inl ⟨rfl, rfl⟩⟩

theorem sleeplock_sound_contended : ∃ s, Runs.run step contended started = some s ∧
    ((s.procs true).SleepsOn () ∧ (s.locks ()).lk = none ∧ s.ptable = none) ∧ Sound s := by
  have place : (Runs.run step contended started).map (fun s =>
      ((s.procs true).state, (s.procs true).chan, (s.locks ()).lk, s.ptable)) =
      some (.sleeping, some (), none, none) := by decide
  obtain ⟨s, runs, facts⟩ := Option.map_eq_some_iff.mp place
  simp only [Prod.mk.injEq] at facts
  exact ⟨s, runs, ⟨⟨facts.1, facts.2.1⟩, facts.2.2⟩,
    sleeplock_sound (Runs.reachable_run (.start started_initialised) contended runs)⟩

end Xv6.Sleeplocks
