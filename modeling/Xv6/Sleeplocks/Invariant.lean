import Xv6.Shared.Holders
import Xv6.Sleeplocks.Machine

set_option autoImplicit false

namespace Xv6.Sleeplocks

open Holders

variable {P L : Type}

def Pc.owns : Pc P L → Option L
  | .acquiresleep lk .release | .releasesleep lk .acquire | .releasesleep lk .clear => some lk
  | _ => none

def Proc.owns [DecidableEq L] (proc : Proc P L) (lk : L) : Bool := proc.held lk || decide (proc.pc.owns = some lk)

def Proc.inTable (proc : Proc P L) : Bool :=
  match proc.yielding with
  | none => proc.pc.inTable
  | some .out => false
  | some _ => true

def Pc.waits : Pc P L → Option L
  | .acquiresleep lk (.sleep .acquirePtable) | .acquiresleep lk (.sleep .release)
  | .acquiresleep lk (.sleep .fall) => some lk
  | _ => none

def Pc.owes : Pc P L → Option L
  | .releasesleep lk (.wakeup .acquirePtable) | .releasesleep lk (.wakeup .wakeup1) => some lk
  | _ => none

def Proc.SleepsOn (proc : Proc P L) (lk : L) : Prop := proc.state = .sleeping ∧ proc.chan = some lk

def Proc.Waits (proc : Proc P L) (lk : L) : Prop := proc.pc.waits = some lk ∨ proc.SleepsOn lk

def State.tableHolder (s : State P L) : Option P :=
  match s.ptable with
  | some (.proc p) => some p
  | _ => none

structure Inv [DecidableEq L] (s : State P L) : Prop where
  spin : ∀ lk, Held (s.locks lk).lk fun p => decide ((s.procs p).pc.inLock = some lk)
  table : Held s.tableHolder fun p => (s.procs p).inTable
  owner : ∀ lk, ∃ owner : Option P, (s.locks lk).locked = owner.isSome ∧ Held owner fun p => (s.procs p).owns lk
  free : ∀ p lk, (s.procs p).pc = .acquiresleep lk .take → (s.locks lk).locked = false
  waiting : ∀ p lk, (s.procs p).Waits lk → (s.locks lk).locked = true ∨ ∃ q, (s.procs q).pc.owes = some lk
  away : ∀ p, (s.procs p).yielding ≠ none → (s.procs p).pc.interruptible = true
  returned : ∀ p lk point, (s.procs p).pc = .releasesleep lk point → (s.procs p).held lk = false

structure Others (s s' : State P L) (p : P) : Prop where
  pc : ∀ q, q ≠ p → (s'.procs q).pc = (s.procs q).pc
  yielding : ∀ q, q ≠ p → (s'.procs q).yielding = (s.procs q).yielding
  held : ∀ q, q ≠ p → (s'.procs q).held = (s.procs q).held
  sleeps : ∀ q lk, q ≠ p → (s'.procs q).SleepsOn lk → (s.procs q).SleepsOn lk

structure Change [DecidableEq L] (s s' : State P L) (p : P) : Prop where
  others : Others s s' p
  spin : ∀ lk, Moved (s.locks lk).lk (s'.locks lk).lk p (decide ((s.procs p).pc.inLock = some lk))
    (decide ((s'.procs p).pc.inLock = some lk))
  table : Moved s.tableHolder s'.tableHolder p (s.procs p).inTable (s'.procs p).inTable
  owner : ∀ lk, (s'.locks lk).locked = (s.locks lk).locked ∧ (s'.procs p).owns lk = (s.procs p).owns lk ∨
    (s.locks lk).locked = false ∧ (s'.locks lk).locked = true ∧ (s'.procs p).owns lk = true ∨
    (s.procs p).owns lk = true ∧ (s'.locks lk).locked = false ∧ (s'.procs p).owns lk = false
  inside : ∀ lk, (s'.locks lk).locked ≠ (s.locks lk).locked → (s.procs p).pc.inLock = some lk
  free : ∀ lk, (s'.procs p).pc = .acquiresleep lk .take → (s'.locks lk).locked = false
  frees : ∀ lk, (s.locks lk).locked = true → (s'.locks lk).locked = true ∨ (s'.procs p).pc.owes = some lk
  pays : ∀ lk, (s.procs p).pc.owes = some lk → (s'.procs p).pc.owes = some lk ∨ ∀ q, ¬ (s'.procs q).Waits lk
  waits : ∀ lk, (s'.procs p).Waits lk → (s.procs p).Waits lk ∨ (s'.locks lk).locked = true
  away : (s'.procs p).yielding ≠ none → (s'.procs p).pc.interruptible = true
  returned : ∀ lk point, (s'.procs p).pc = .releasesleep lk point → (s'.procs p).held lk = false

section Invariant

variable {s s' : State P L} {p : P}

theorem Others.inTable (others : Others s s' p) (q : P) (other : q ≠ p) :
    (s'.procs q).inTable = (s.procs q).inTable := by
  simp only [Proc.inTable, others.pc q other, others.yielding q other]

variable [DecidableEq L]

theorem Others.owns (others : Others s s' p) (lk : L) (q : P) (other : q ≠ p) :
    (s'.procs q).owns lk = (s.procs q).owns lk := by
  simp only [Proc.owns, others.pc q other, others.held q other]

variable [DecidableEq P]

theorem Change.waiting (change : Change s s' p) (inv : Inv s) (q : P) (lk : L) (waits : (s'.procs q).Waits lk) :
    (s'.locks lk).locked = true ∨ ∃ r, (s'.procs r).pc.owes = some lk := by
  have before : (s.procs q).Waits lk ∨ (s'.locks lk).locked = true := by
    by_cases self : q = p
    · rw [self] at waits ⊢
      exact change.waits lk waits
    · refine .inl (waits.imp (fun falls => ?_) (change.others.sleeps q lk self))
      rwa [change.others.pc q self] at falls
  rcases before with before | locked
  · rcases inv.waiting q lk before with locked | ⟨r, owes⟩
    · exact (change.frees lk locked).imp_right fun owes => ⟨p, owes⟩
    · by_cases self : r = p
      · rw [self] at owes
        rcases change.pays lk owes with still | nobody
        · exact .inr ⟨p, still⟩
        · exact absurd waits (nobody q)
      · exact .inr ⟨r, by rw [change.others.pc r self]; exact owes⟩
  · exact .inl locked

theorem Inv.change (inv : Inv s) (change : Change s s' p) : Inv s' where
  spin lk := (inv.spin lk).moved (change.spin lk) fun q other => by rw [change.others.pc q other]
  table := inv.table.moved change.table change.others.inTable
  owner lk := by
    obtain ⟨owner, locked, held⟩ := inv.owner lk
    have others := change.others.owns lk
    rcases change.owner lk with ⟨same, owns⟩ | ⟨free, taken, mine⟩ | ⟨mine, free, gone⟩
    · exact ⟨owner, by rw [same, locked], held.moved (.inl ⟨rfl, owns⟩) others⟩
    · rw [free] at locked
      obtain rfl : owner = none := Option.isNone_iff_eq_none.mp (by simpa using locked.symm)
      exact ⟨some p, taken, held.acquire mine others⟩
    · exact ⟨none, free, held.release mine gone others⟩
  free q lk takes := by
    by_cases self : q = p
    · rw [self] at takes
      exact change.free lk takes
    · rw [change.others.pc q self] at takes
      by_cases same : (s'.locks lk).locked = (s.locks lk).locked
      · rw [same]
        exact inv.free q lk takes
      · -- Both would hold lk->lk.
        have mine := change.inside lk same
        refine absurd ((inv.spin lk).unique ?_ ?_) self
        · simp [takes, Pc.inLock]
        · simp [mine]
  waiting := change.waiting inv
  away q yields := by
    by_cases self : q = p
    · rw [self] at yields ⊢
      exact change.away yields
    · rw [change.others.yielding q self] at yields
      rw [change.others.pc q self]
      exact inv.away q yields
  returned q lk point here := by
    by_cases self : q = p
    · rw [self] at here ⊢
      exact change.returned lk point here
    · rw [change.others.pc q self] at here
      rw [change.others.held q self]
      exact inv.returned q lk point here

end Invariant

section Moves

variable {s s' : State P L} {p : P} {lk : L} {pc pc' : Pc P L}

theorem table_same (ptable : s'.ptable = s.ptable) (inTable : (s'.procs p).inTable = (s.procs p).inTable) :
    Moved s.tableHolder s'.tableHolder p (s.procs p).inTable (s'.procs p).inTable :=
  .inl ⟨by simp only [State.tableHolder, ptable], inTable⟩

theorem table_acquire (free : s.tableHolder = none) (mine : s'.ptable = some (.proc p))
    (inside : (s'.procs p).inTable = true) :
    Moved s.tableHolder s'.tableHolder p (s.procs p).inTable (s'.procs p).inTable :=
  .inr (.inl ⟨free, by simp only [State.tableHolder, mine], inside⟩)

theorem table_release (inside : (s.procs p).inTable = true) (free : s'.tableHolder = none)
    (outside : (s'.procs p).inTable = false) :
    Moved s.tableHolder s'.tableHolder p (s.procs p).inTable (s'.procs p).inTable :=
  .inr (.inr ⟨inside, free, outside⟩)

variable [DecidableEq L]

def SpinMoved (s s' : State P L) (p : P) (pc pc' : Pc P L) : Prop :=
  ∀ l, Moved (s.locks l).lk (s'.locks l).lk p (decide (pc.inLock = some l)) (decide (pc'.inLock = some l))

theorem spin_same (locks : s'.locks = s.locks) (inLock : pc'.inLock = pc.inLock) : SpinMoved s s' p pc pc' :=
  fun _ => .inl ⟨by rw [locks], by rw [inLock]⟩

theorem spin_acquire (lock : Sleeplock P) (locks : s'.locks = Function.update s.locks lk lock)
    (free : (s.locks lk).lk = none) (mine : lock.lk = some p) (outside : pc.inLock = none)
    (inside : pc'.inLock = some lk) : SpinMoved s s' p pc pc' := by
  intro l
  rw [locks]
  by_cases same : l = lk
  · subst same
    exact .inr (.inl ⟨free, by simpa using mine, by simp [inside]⟩)
  · exact .inl ⟨by rw [Function.update_of_ne same], by simp [outside, inside, Ne.symm same]⟩

theorem spin_release (lock : Sleeplock P) (locks : s'.locks = Function.update s.locks lk lock)
    (free : lock.lk = none) (inside : pc.inLock = some lk) (outside : pc'.inLock = none) : SpinMoved s s' p pc pc' := by
  intro l
  rw [locks]
  by_cases same : l = lk
  · subst same
    exact .inr (.inr ⟨by simp [inside], by simpa using free, by simp [outside]⟩)
  · exact .inl ⟨by rw [Function.update_of_ne same], by simp [outside, inside, Ne.symm same]⟩

structure Plain (s s' : State P L) (p : P) : Prop where
  others : Others s s' p
  locked : ∀ l, (s'.locks l).locked = (s.locks l).locked
  held : (s'.procs p).held = (s.procs p).held
  yielding : (s'.procs p).yielding = none
  awake : (s'.procs p).state ≠ .sleeping

theorem Plain.change (plain : Plain s s' p) (here : (s.procs p).pc = pc) (there : (s'.procs p).pc = pc')
    (spin : SpinMoved s s' p pc pc')
    (table : Moved s.tableHolder s'.tableHolder p (s.procs p).inTable (s'.procs p).inTable)
    (owns : pc'.owns = pc.owns) (pays : ∀ l, pc.owes = some l → pc'.owes = some l ∨ ∀ q, ¬ (s'.procs q).Waits l)
    (waits : ∀ l, pc'.waits = some l → pc.waits = some l ∨ (s.locks l).locked = true)
    (free : ∀ l, pc' = .acquiresleep l .take → (s.locks l).locked = false)
    (returned : ∀ l point, pc' = .releasesleep l point → (s.procs p).held l = false) : Change s s' p where
  others := plain.others
  spin := by rw [here, there]; exact spin
  table := table
  owner l := .inl ⟨plain.locked l, by simp only [Proc.owns, plain.held, here, there, owns]⟩
  inside l changed := absurd (plain.locked l) changed
  free l takes := by rw [plain.locked l]; exact free l (there.symm.trans takes)
  frees l taken := .inl (by rw [plain.locked l]; exact taken)
  pays := by rw [here, there]; exact pays
  waits l waiting := by
    rw [plain.locked l]
    refine .imp_left .inl ?_
    rw [here]
    rcases waiting with falls | sleeps
    · rw [there] at falls
      exact waits l falls
    · exact absurd sleeps.1 plain.awake
  away yields := absurd plain.yielding yields
  returned l point here := by rw [plain.held]; exact returned l point (there.symm.trans here)

end Moves

end Xv6.Sleeplocks
