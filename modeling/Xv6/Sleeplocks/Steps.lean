import Xv6.Sleeplocks.Invariant

set_option autoImplicit false

namespace Xv6.Sleeplocks

open Holders

variable {P L : Type} {s s' : State P L} {p q : P} {lk : L}

theorem others_of_same (same : ∀ q, q ≠ p → s'.procs q = s.procs q) : Others s s' p where
  pc q other := by rw [same q other]
  yielding q other := by rw [same q other]
  held q other := by rw [same q other]
  sleeps q lk other := by rw [same q other]; exact id

theorem inTable_of_running (running : (s.procs p).yielding = none) : (s.procs p).inTable = (s.procs p).pc.inTable := by
  simp only [Proc.inTable, running]

theorem waits_guarded {pc : Pc P L} (waits : pc.waits = some lk) : pc.inLock = some lk ∨ pc.inTable = true := by
  unfold Pc.waits at waits
  split at waits <;> cases waits
  · exact .inl rfl
  · exact .inl rfl
  · exact .inr rfl

theorem Inv.away_of_yields [DecidableEq L] {point : YieldPoint} (inv : Inv s)
    (yields : (s.procs p).yielding = some point) : (s.procs p).pc.interruptible = true :=
  inv.away p (by rw [yields]; nofun)

theorem Inv.inTable_of_pc [DecidableEq L] (inv : Inv s) (table : (s.procs p).pc.inTable = true) :
    (s.procs p).inTable = true := by
  cases yields : (s.procs p).yielding with
  | none => rw [inTable_of_running yields, table]
  | some point =>
    have away := inv.away_of_yields yields
    simp [Pc.interruptible, table] at away

theorem wakeup1_state [DecidableEq L] {procs : P → Proc P L} {q : P} :
    wakeup1 lk procs q = { procs q with state := (wakeup1 lk procs q).state } := by
  unfold wakeup1
  split <;> rfl

theorem wakeup1_sleeps [DecidableEq L] {procs : P → Proc P L} {q : P} {l : L} (sleeps : (wakeup1 lk procs q).SleepsOn l) :
    (procs q).SleepsOn l ∧ l ≠ lk := by
  unfold wakeup1 at sleeps
  split at sleeps
  · cases sleeps.1
  next missed => exact ⟨sleeps, fun same => missed ⟨sleeps.1, same ▸ sleeps.2⟩⟩

variable [DecidableEq P]

@[simp] theorem setProc_self (s : State P L) (p : P) (proc : Proc P L) : (s.setProc p proc).procs p = proc := by
  simp [State.setProc]

theorem setProc_ne (s : State P L) (other : q ≠ p) (proc : Proc P L) : (s.setProc p proc).procs q = s.procs q := by
  simp [State.setProc, other]

@[simp] theorem goto_self (s : State P L) (p : P) (pc : Pc P L) : (s.goto p pc).procs p = { s.procs p with pc } := by
  simp [State.goto]

theorem goto_pc (s : State P L) (p : P) (pc : Pc P L) : ((s.goto p pc).procs p).pc = pc := by
  rw [goto_self]

theorem goto_ne (s : State P L) (other : q ≠ p) (pc : Pc P L) : (s.goto p pc).procs q = s.procs q :=
  setProc_ne s other _

@[simp] theorem goto_locks (s : State P L) (p : P) (pc : Pc P L) : (s.goto p pc).locks = s.locks := rfl

theorem plain_goto {s₁ : State P L} {pc' : Pc P L} (procs : s₁.procs = s.procs)
    (locked : ∀ l, (s₁.locks l).locked = (s.locks l).locked) (running : (s.procs p).yielding = none)
    (awake : (s.procs p).state = .running) : Plain s (s₁.goto p pc') p where
  others := others_of_same fun q other => by rw [goto_ne s₁ other, procs]
  locked := locked
  held := by rw [goto_self, procs]
  yielding := by rw [goto_self, procs]; exact running
  awake := by rw [goto_self, procs]; simp [awake]

omit [DecidableEq P] in
theorem setSpin_locked [DecidableEq L] (s : State P L) (lk : L) (holder : Option P) (l : L) :
    ((s.setSpin lk holder).locks l).locked = (s.locks l).locked := by
  by_cases here : l = lk
  · subst here
    simp [State.setSpin, State.setLock]
  · simp [State.setSpin, State.setLock, here]

variable [DecidableEq L] {pc pc' : Pc P L} (running : (s.procs p).yielding = none)
  (awake : (s.procs p).state = .running) (here : (s.procs p).pc = pc)
include running awake here

theorem acquire_change (free : (s.locks lk).lk = none) (outside : pc.inLock = none) (inside : pc'.inLock = some lk)
    (table : pc'.inTable = pc.inTable) (owns : pc'.owns = pc.owns) (pays : pc.owes = none) (waits : pc'.waits = none)
    (take : ∀ l, pc' ≠ .acquiresleep l .take)
    (returned : ∀ l point, pc' = .releasesleep l point → (s.procs p).held l = false) :
    Change s ((s.setSpin lk (some p)).goto p pc') p := by
  have plain : Plain s ((s.setSpin lk (some p)).goto p pc') p :=
    plain_goto rfl (setSpin_locked s lk (some p)) running awake
  refine plain.change here (goto_pc _ p pc')
    (spin_acquire { s.locks lk with lk := some p } rfl free rfl outside inside) (table_same rfl ?_) owns ?_ ?_ ?_ returned
  · rw [inTable_of_running running, inTable_of_running plain.yielding, goto_pc, here, table]
  · intro l owes
    rw [pays] at owes
    cases owes
  · intro l falls
    rw [waits] at falls
    cases falls
  · exact fun l takes => absurd takes (take l)

theorem release_change (inside : pc.inLock = some lk) (outside : pc'.inLock = none) (table : pc'.inTable = pc.inTable)
    (owns : pc'.owns = pc.owns) (pays : pc.owes = none) (waits : pc'.waits = pc.waits)
    (take : ∀ l, pc' ≠ .acquiresleep l .take) (returned : ∀ l point, pc' ≠ .releasesleep l point) :
    Change s ((s.setSpin lk none).goto p pc') p := by
  have plain : Plain s ((s.setSpin lk none).goto p pc') p := plain_goto rfl (setSpin_locked s lk none) running awake
  refine plain.change here (goto_pc _ p pc')
    (spin_release { s.locks lk with lk := none } rfl rfl inside outside) (table_same rfl ?_) owns ?_ ?_ ?_ ?_
  · rw [inTable_of_running running, inTable_of_running plain.yielding, goto_pc, here, table]
  · intro l owes
    rw [pays] at owes
    cases owes
  · exact fun l falls => .inl (waits ▸ falls)
  · exact fun l takes => absurd takes (take l)
  · exact fun l point back => absurd back (returned l point)

theorem acquirePtable_change (free : s.ptable = none) (inside : pc'.inTable = true) (spin : pc'.inLock = pc.inLock)
    (owns : pc'.owns = pc.owns) (owes : pc'.owes = pc.owes) (waits : pc'.waits = pc.waits)
    (take : ∀ l, pc' ≠ .acquiresleep l .take)
    (returned : ∀ l point, pc' = .releasesleep l point → (s.procs p).held l = false) :
    Change s ((s.setTable (some (.proc p))).goto p pc') p := by
  have plain : Plain s ((s.setTable (some (.proc p))).goto p pc') p := plain_goto rfl (fun _ => rfl) running awake
  refine plain.change here (goto_pc _ p pc') (spin_same rfl spin) (table_acquire ?_ rfl ?_) owns ?_ ?_ ?_ returned
  · simp only [State.tableHolder, free]
  · rw [inTable_of_running plain.yielding, goto_pc, inside]
  · exact fun l owed => .inl (owes ▸ owed)
  · exact fun l falls => .inl (waits ▸ falls)
  · exact fun l takes => absurd takes (take l)

theorem releasePtable_change (inside : pc.inTable = true) (outside : pc'.inTable = false)
    (spin : pc'.inLock = pc.inLock) (owns : pc'.owns = pc.owns) (owes : pc'.owes = pc.owes)
    (waits : pc'.waits = pc.waits) (take : ∀ l, pc' ≠ .acquiresleep l .take)
    (returned : ∀ l point, pc' = .releasesleep l point → (s.procs p).held l = false) :
    Change s ((s.setTable none).goto p pc') p := by
  have plain : Plain s ((s.setTable none).goto p pc') p := plain_goto rfl (fun _ => rfl) running awake
  refine plain.change here (goto_pc _ p pc') (spin_same rfl spin) (table_release ?_ rfl ?_) owns ?_ ?_ ?_ returned
  · rw [inTable_of_running running, here, inside]
  · rw [inTable_of_running plain.yielding, goto_pc, outside]
  · exact fun l owed => .inl (owes ▸ owed)
  · exact fun l falls => .inl (waits ▸ falls)
  · exact fun l takes => absurd takes (take l)

theorem stay_change (spin : pc'.inLock = pc.inLock) (table : pc'.inTable = pc.inTable) (owns : pc'.owns = pc.owns)
    (owes : pc'.owes = pc.owes) (waits : ∀ l, pc'.waits = some l → pc.waits = some l ∨ (s.locks l).locked = true)
    (take : ∀ l, pc' = .acquiresleep l .take → (s.locks l).locked = false)
    (returned : ∀ l point, pc' = .releasesleep l point → (s.procs p).held l = false) : Change s (s.goto p pc') p := by
  have plain : Plain s (s.goto p pc') p := plain_goto rfl (fun _ => rfl) running awake
  refine plain.change here (goto_pc _ p pc') (spin_same rfl spin) (table_same rfl ?_) owns ?_ waits take returned
  · rw [inTable_of_running running, inTable_of_running plain.yielding, goto_pc, here, table]
  · exact fun l owed => .inl (owes ▸ owed)

theorem assign_change {value : Bool} {pid : Int} (inside : pc.inLock = some lk) (still : pc'.inLock = some lk)
    (table : pc'.inTable = pc.inTable)
    (owner : (s.locks lk).locked = false ∧ value = true ∧ pc'.owns = some lk ∧ pc.owns = none ∨
      pc.owns = some lk ∧ value = false ∧ pc'.owns = none ∧ (s.procs p).held lk = false)
    (frees : value = true ∨ pc'.owes = some lk) (pays : pc.owes = none) (waits : pc'.waits = none)
    (take : ∀ l, pc' ≠ .acquiresleep l .take)
    (returned : ∀ l point, pc' = .releasesleep l point → (s.procs p).held l = false) :
    Change s ((s.setLock lk { s.locks lk with locked := value, pid }).goto p pc') p := by
  have other (l : L) (ne : l ≠ lk) :
      ((s.setLock lk { s.locks lk with locked := value, pid }).goto p pc').locks l = s.locks l :=
    Function.update_of_ne ne ..
  have self : ((s.setLock lk { s.locks lk with locked := value, pid }).goto p pc').locks lk =
      { s.locks lk with locked := value, pid } := Function.update_self ..
  have awaits : ∀ l, ¬ (((s.setLock lk { s.locks lk with locked := value, pid }).goto p pc').procs p).Waits l := by
    rintro l (falls | ⟨asleep, -⟩)
    · rw [goto_pc, waits] at falls
      cases falls
    · rw [goto_self] at asleep
      exact absurd (awake.symm.trans asleep) (by decide)
  constructor
  · exact others_of_same fun q ne => goto_ne _ ne pc'
  · intro l
    refine .inl ⟨?_, by rw [goto_pc, here, inside, still]⟩
    by_cases same : l = lk
    · rw [same, self]
    · rw [other l same]
  · refine table_same rfl ?_
    rw [inTable_of_running running, inTable_of_running (by rw [goto_self]; exact running), goto_pc, here, table]
  · intro l
    simp only [Proc.owns, goto_self]
    by_cases same : l = lk
    · rw [same, self, here]
      rcases owner with ⟨free, taken, mine, -⟩ | ⟨mine, free, gone, given⟩
      · exact .inr (.inl ⟨free, taken, by simp [mine]⟩)
      · refine .inr (.inr ⟨by simp [mine], free, ?_⟩)
        show ((s.procs p).held lk || decide (pc'.owns = some lk)) = false
        simp [gone, given]
    · refine .inl ⟨by rw [other l same], ?_⟩
      show ((s.procs p).held l || decide (pc'.owns = some l)) = ((s.procs p).held l || decide ((s.procs p).pc.owns = some l))
      rcases owner with ⟨-, -, mine, none⟩ | ⟨mine, -, none, -⟩ <;> simp [here, mine, none, Ne.symm same]
  · intro l changed
    by_cases same : l = lk
    · rw [same, here, inside]
    · exact absurd (by rw [other l same]) changed
  · exact fun l takes => absurd ((goto_pc _ p pc').symm.trans takes) (take l)
  · intro l locked
    by_cases same : l = lk
    · rw [same, self, goto_pc]
      exact frees
    · exact .inl (by rw [other l same, locked])
  · intro l owes
    rw [here, pays] at owes
    cases owes
  · exact fun l waiting => absurd waiting (awaits l)
  · intro yields
    rw [goto_self] at yields
    exact absurd running yields
  · intro l point back
    rw [goto_self]
    exact returned l point ((goto_pc _ p pc').symm.trans back)

theorem finish_change (finishes : pc = .acquiresleep lk .release) : Change s (((s.setSpin lk none).setProc p
      { s.procs p with held := Function.update (s.procs p).held lk true }).goto p .idle) p := by
  subst finishes
  have self : ((((s.setSpin lk none).setProc p
      { s.procs p with held := Function.update (s.procs p).held lk true }).goto p .idle).procs p) =
      { s.procs p with held := Function.update (s.procs p).held lk true, pc := .idle } := by
    rw [goto_self, setProc_self]
  constructor
  · exact others_of_same fun q ne => by rw [goto_ne _ ne, setProc_ne _ ne]; rfl
  · rw [self, here]
    exact spin_release { s.locks lk with lk := none } rfl rfl rfl rfl
  · refine table_same rfl ?_
    rw [inTable_of_running running, inTable_of_running (by rw [self]; exact running), self, here]
    rfl
  · intro l
    refine .inl ⟨setSpin_locked s lk none l, ?_⟩
    rw [self]
    by_cases same : l = lk
    · subst same
      simp [Proc.owns, here, Pc.owns]
    · simp [Proc.owns, here, Pc.owns, same, Ne.symm same]
  · exact fun l changed => absurd (setSpin_locked s lk none l) changed
  · intro l takes
    rw [self] at takes
    cases takes
  · exact fun l locked => .inl ((setSpin_locked s lk none l).trans locked)
  · intro l owes
    rw [here] at owes
    cases owes
  · rintro l (falls | ⟨asleep, -⟩)
    · rw [self] at falls
      cases falls
    · rw [self] at asleep
      exact absurd (awake.symm.trans asleep) (by decide)
  · intro yields
    rw [self] at yields
    exact absurd running yields
  · intro l point back
    rw [self] at back
    cases back

omit awake in
theorem fall_change (falls : pc = .acquiresleep lk (.sleep .fall)) :
    Change s (((s.setProc p { s.procs p with chan := some lk, state := .sleeping }).setTable (some .scheduler)).goto p
      (.acquiresleep lk (.sleep .asleep))) p := by
  subst falls
  have self : ((((s.setProc p { s.procs p with chan := some lk, state := .sleeping }).setTable (some .scheduler)).goto p
      (.acquiresleep lk (.sleep .asleep))).procs p) =
      { s.procs p with chan := some lk, state := .sleeping, pc := .acquiresleep lk (.sleep .asleep) } := by
    rw [goto_self]
    simp [State.setTable]
  constructor
  · exact others_of_same fun q ne => by rw [goto_ne _ ne]; exact setProc_ne s ne _
  · rw [self, here]
    exact spin_same rfl rfl
  · refine table_release ?_ rfl ?_
    · rw [inTable_of_running running, here]
      rfl
    · rw [inTable_of_running (by rw [self]; exact running), self]
      rfl
  · intro l
    refine .inl ⟨rfl, ?_⟩
    rw [self]
    simp [Proc.owns, here, Pc.owns]
  · exact fun l changed => absurd rfl changed
  · intro l takes
    rw [self] at takes
    cases takes
  · exact fun l locked => .inl locked
  · intro l owes
    rw [here] at owes
    cases owes
  · rintro l (waits | ⟨-, chan⟩)
    · rw [self] at waits
      cases waits
    · rw [self] at chan
      exact .inl (.inl (by rw [here]; exact chan))
  · intro yields
    rw [self] at yields
    exact absurd running yields
  · intro l point back
    rw [self] at back
    cases back

theorem tidy_change (tidies : pc = .acquiresleep lk (.sleep .tidy)) :
    Change s (((s.setProc p { s.procs p with chan := none }).setTable none).goto p
      (.acquiresleep lk (.sleep .relock))) p := by
  subst tidies
  have self : ((((s.setProc p { s.procs p with chan := none }).setTable none).goto p
      (.acquiresleep lk (.sleep .relock))).procs p) =
      { s.procs p with chan := none, pc := .acquiresleep lk (.sleep .relock) } := by
    rw [goto_self]
    simp [State.setTable]
  have plain : Plain s (((s.setProc p { s.procs p with chan := none }).setTable none).goto p
      (.acquiresleep lk (.sleep .relock))) p :=
    { others := others_of_same fun q ne => by rw [goto_ne _ ne]; exact setProc_ne s ne _
      locked := fun _ => rfl
      held := by rw [self]
      yielding := by rw [self]; exact running
      awake := by rw [self]; simp [awake] }
  refine plain.change here (goto_pc _ p _) (spin_same rfl rfl) (table_release ?_ rfl ?_) rfl nofun nofun nofun nofun
  · rw [inTable_of_running running, here]
    rfl
  · rw [inTable_of_running plain.yielding, self]
    rfl

theorem wakeup1_change (inv : Inv s) (wakes : pc = .releasesleep lk (.wakeup .wakeup1)) :
    Change s (({ s with procs := wakeup1 lk s.procs } : State P L).goto p
      (.releasesleep lk (.wakeup .releasePtable))) p := by
  subst wakes
  have mine : wakeup1 lk s.procs p = s.procs p := by
    unfold wakeup1
    rw [if_neg fun asleep => absurd (awake.symm.trans asleep.1) (by decide)]
  have self : ((({ s with procs := wakeup1 lk s.procs } : State P L).goto p
      (.releasesleep lk (.wakeup .releasePtable))).procs p) =
      { s.procs p with pc := .releasesleep lk (.wakeup .releasePtable) } := by
    rw [goto_self]
    simp only [mine]
  have other (q : P) (ne : q ≠ p) : (({ s with procs := wakeup1 lk s.procs } : State P L).goto p
      (.releasesleep lk (.wakeup .releasePtable))).procs q = wakeup1 lk s.procs q := goto_ne _ ne _
  have plain : Plain s (({ s with procs := wakeup1 lk s.procs } : State P L).goto p
      (.releasesleep lk (.wakeup .releasePtable))) p :=
    { others :=
        { pc := fun q ne => by rw [other q ne, wakeup1_state]
          yielding := fun q ne => by rw [other q ne, wakeup1_state]
          held := fun q ne => by rw [other q ne, wakeup1_state]
          sleeps := fun q l ne sleeps => by rw [other q ne] at sleeps; exact (wakeup1_sleeps sleeps).1 }
      locked := fun _ => rfl
      held := by rw [self]
      yielding := by rw [self]; exact running
      awake := by rw [self]; simp [awake] }
  have inTable : (s.procs p).inTable = true := by rw [inTable_of_running running, here]; rfl
  refine plain.change here (goto_pc _ p _) (spin_same rfl rfl) (table_same rfl ?_) rfl ?_ nofun nofun ?_
  · rw [inTable_of_running running, inTable_of_running plain.yielding, self, here]
    rfl
  · -- Who waits on lk and is not asleep holds lk->lk or ptable.lock, and both are with `p`.
    rintro l owes
    cases owes
    refine .inr fun q waits => ?_
    by_cases same : q = p
    · subst same
      rw [self] at waits
      rcases waits with falls | ⟨asleep, -⟩
      · cases falls
      · exact absurd (awake.symm.trans asleep) (by decide)
    · rw [Proc.Waits, other q same] at waits
      rcases waits with falls | sleeps
      · rw [wakeup1_state] at falls
        rcases waits_guarded falls with spins | tables
        · exact same ((inv.spin lk).unique (by simp [spins]) (by simp [here, Pc.inLock]))
        · exact same (inv.table.unique (inv.inTable_of_pc tables) inTable)
      · exact (wakeup1_sleeps sleeps).2 rfl
  · intro l point back
    cases back
    exact inv.returned p lk _ here

theorem mark_change (target : Option P) (marks : pc = .kill target .mark) (next : perform p s (.mark target) = some s') :
    Change s (s'.goto p (.kill target .releasePtable)) p := by
  subst marks
  have facts : s'.locks = s.locks ∧ s'.ptable = s.ptable ∧ (∀ q, (s'.procs q).pc = (s.procs q).pc ∧
      (s'.procs q).yielding = (s.procs q).yielding ∧ (s'.procs q).held = (s.procs q).held ∧
      ((s'.procs q).state = .sleeping → s'.procs q = s.procs q)) := by
    cases target with
    | none =>
      cases next
      exact ⟨rfl, rfl, fun q => ⟨rfl, rfl, rfl, fun _ => rfl⟩⟩
    | some victim =>
      cases next
      refine ⟨rfl, rfl, fun q => ?_⟩
      by_cases same : q = victim
      · subst same
        rw [setProc_self]
        refine ⟨rfl, rfl, rfl, fun asleep => ?_⟩
        simp only [Proc.wake] at asleep
        split at asleep
        · cases asleep
        next awake => exact absurd asleep awake
      · rw [setProc_ne s same]
        exact ⟨rfl, rfl, rfl, fun _ => rfl⟩
  obtain ⟨locks, ptable, procs⟩ := facts
  have awake' : (s'.procs p).state ≠ .sleeping := by
    intro asleep
    rw [(procs p).2.2.2 asleep] at asleep
    exact absurd (awake.symm.trans asleep) (by decide)
  have plain : Plain s (s'.goto p (.kill target .releasePtable)) p :=
    { others :=
        { pc := fun q ne => by rw [goto_ne s' ne]; exact (procs q).1
          yielding := fun q ne => by rw [goto_ne s' ne]; exact (procs q).2.1
          held := fun q ne => by rw [goto_ne s' ne]; exact (procs q).2.2.1
          sleeps := fun q l ne sleeps => by
            rw [goto_ne s' ne] at sleeps
            rwa [(procs q).2.2.2 sleeps.1] at sleeps }
      locked := fun l => by rw [goto_locks, locks]
      held := by rw [goto_self]; exact (procs p).2.2.1
      yielding := by rw [goto_self]; exact (procs p).2.1.trans running
      awake := by rw [goto_self]; exact awake' }
  refine plain.change here (goto_pc _ p _) (spin_same locks rfl) (table_same ptable ?_) rfl nofun nofun nofun nofun
  rw [inTable_of_running running, inTable_of_running plain.yielding, goto_pc, here]
  rfl

end Xv6.Sleeplocks
