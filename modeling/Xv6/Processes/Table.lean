import Mathlib

set_option autoImplicit false

namespace Xv6.Processes

def numSignals : Nat := 32

def kernBase : Nat := 0x80000000

def pgSize : Nat := 4096

def sigint : Fin 32 := 2

def sigfpe : Fin 32 := 8

inductive ProcState where
  | unused
  | embryo
  | sleeping
  | runnable
  | running
  | zombie
  deriving DecidableEq

inductive Chan (n : Nat) where
  | proc (p : Fin n)
  | other (addr : Nat)
  deriving DecidableEq

structure Proc (n : Nat) where
  sz : Nat
  kstack : Nat
  state : ProcState
  pid : Int
  parent : Option (Fin n)
  chan : Option (Chan n)
  killed : Bool
  signalHandlers : Fin 32 → Nat
  pendingSignals : BitVec 32
  /-- The program image that runs, and the one that registered each handler. -/
  image : Nat
  registeredBy : Fin 32 → Nat

/-- ptable.proc, initproc and nextpid, with the history that statements about runs need. -/
structure Table (n : Nat) where
  procs : Fin n → Proc n
  initproc : Option (Fin n)
  nextpid : Int
  images : Nat
  exited : List Int
  reaped : List (Int × Fin n)
  /-- The addresses that trap and scheduler called. -/
  called : List Nat
  /-- cons.locking, and the characters that consoleintr got. -/
  locking : Bool
  received : List Char

namespace Table

variable {n : Nat}

def modify (t : Table n) (p : Fin n) (change : Proc n → Proc n) : Table n :=
  { t with procs := Function.update t.procs p (change (t.procs p)) }

def find (t : Table n) (test : Proc n → Bool) : Option (Fin n) :=
  (List.finRange n).find? fun p => test (t.procs p)

variable {t : Table n} {p q : Fin n}

theorem find_some {test : Proc n → Bool} (found : t.find test = some p) : test (t.procs p) = true := by
  simpa using List.find?_some found

theorem find_none {test : Proc n → Bool} (missing : t.find test = none) (p : Fin n) : test (t.procs p) = false := by
  simpa using List.find?_eq_none.mp missing p (List.mem_finRange p)

def wakeup1 (t : Table n) (chan : Chan n) : Table n :=
  { t with procs := fun q =>
      if (t.procs q).state = .sleeping ∧ (t.procs q).chan = some chan then { t.procs q with state := .runnable }
      else t.procs q }

def claim (t : Table n) (p : Fin n) : Table n :=
  { t.modify p fun proc =>
      { proc with state := .embryo, pid := t.nextpid, pendingSignals := 0, signalHandlers := fun _ => 0 } with
    nextpid := t.nextpid + 1 }

def stack (t : Table n) (p : Fin n) (addr : Nat) : Table n :=
  t.modify p fun proc => { proc with kstack := addr }

/-- The failure exits of allocproc and fork: kstack is 0 and the slot is given back. -/
def abandon (t : Table n) (p : Fin n) : Table n :=
  t.modify p fun proc => { proc with kstack := 0, state := .unused }

def copy (t : Table n) (p np : Fin n) : Table n :=
  t.modify np fun proc =>
    { proc with
      sz := (t.procs p).sz
      parent := some p
      signalHandlers := (t.procs p).signalHandlers
      image := (t.procs p).image
      registeredBy := (t.procs p).registeredBy }

def userinit (t : Table n) (p : Fin n) : Table n :=
  { t.modify p fun proc => { proc with sz := pgSize, image := t.images } with
    initproc := some p
    images := t.images + 1 }

def setState (t : Table n) (p : Fin n) (state : ProcState) : Table n :=
  t.modify p fun proc => { proc with state }

def sleepOn (t : Table n) (p : Fin n) (chan : Chan n) : Table n :=
  t.modify p fun proc => { proc with chan := some chan, state := .sleeping }

def clearChan (t : Table n) (p : Fin n) : Table n :=
  t.modify p fun proc => { proc with chan := none }

def killSlot (t : Table n) (p : Fin n) : Table n :=
  t.modify p fun proc =>
    { proc with killed := true, state := if proc.state = .sleeping then .runnable else proc.state }

/-- kill, with what it returns: the first slot with the pid is hit, whatever its state. -/
def kill (t : Table n) (pid : Int) : Int × Table n :=
  match t.find fun proc => proc.pid = pid with
  | some p => (0, t.killSlot p)
  | none => (-1, t)

def markKilled (t : Table n) (p : Fin n) : Table n :=
  t.modify p fun proc => { proc with killed := true }

-- One turn of the loop of exit that passes abandoned children to init.
def adopt (p : Fin n) (t : Table n) (q : Fin n) : Table n :=
  if (t.procs q).parent = some p then
    let t' := t.modify q fun proc => { proc with parent := t.initproc }
    match (t.procs q).state, t.initproc with
    | .zombie, some init => t'.wakeup1 (.proc init)
    | _, _ => t'
  else t

def wakeupParent (t : Table n) (p : Fin n) : Table n :=
  match (t.procs p).parent with
  | some parent => t.wakeup1 (.proc parent)
  | none => t

def exit (t : Table n) (p : Fin n) : Table n :=
  let cleared := t.modify p fun proc => { proc with signalHandlers := fun _ => 0 }
  let passed := (List.finRange n).foldl (adopt p) (cleared.wakeupParent p)
  { passed.setState p .zombie with exited := t.exited ++ [(t.procs p).pid] }

def reap (t : Table n) (caller child : Fin n) : Table n :=
  { t.modify child fun proc =>
      { proc with kstack := 0, pid := 0, parent := none, killed := false, state := .unused } with
    reaped := t.reaped ++ [((t.procs child).pid, caller)] }

def raise (t : Table n) (p : Fin n) (signal : Fin 32) : Table n :=
  t.modify p fun proc => { proc with pendingSignals := proc.pendingSignals ||| BitVec.twoPow 32 signal }

def clearSignal (t : Table n) (p : Fin n) (signal : Fin 32) : Table n :=
  t.modify p fun proc => { proc with pendingSignals := proc.pendingSignals &&& ~~~BitVec.twoPow 32 signal }

def deliver (t : Table n) (p : Fin n) (signal : Fin 32) : Table n :=
  if (t.procs p).pendingSignals.getLsbD signal then
    let t' := t.clearSignal p signal
    if (t.procs p).signalHandlers signal ≠ 0 then
      { t'.modify p fun proc => { proc with signalHandlers := Function.update proc.signalHandlers signal 0 } with
        called := t.called ++ [(t.procs p).signalHandlers signal] }
    else if signal = sigint ∨ signal = sigfpe then t'.markKilled p
    else t'
  else t

/-- The turn of scheduler's delivery loop up to the call; the handler stays registered. -/
def schedulerDeliver (t : Table n) (p : Fin n) (signal : Fin 32) : Table n :=
  let t' := t.clearSignal p signal
  if (t.procs p).signalHandlers signal ≠ 0 then
    { t' with called := t.called ++ [(t.procs p).signalHandlers signal] }
  else if signal = sigint then t'.markKilled p
  else t'

def register (t : Table n) (p : Fin n) (signal : Fin 32) (handler : Nat) : Table n :=
  t.modify p fun proc =>
    { proc with
      signalHandlers := Function.update proc.signalHandlers signal handler
      registeredBy := Function.update proc.registeredBy signal proc.image }

def exec (t : Table n) (p : Fin n) (sz : Nat) : Table n :=
  { t.modify p fun proc => { proc with sz, image := t.images } with images := t.images + 1 }

def resize (t : Table n) (p : Fin n) (sz : Nat) : Table n :=
  t.modify p fun proc => { proc with sz }

def receive (t : Table n) (chars : List Char) : Table n :=
  { t with received := t.received ++ chars }

@[simp] theorem modify_self (t : Table n) (p : Fin n) (change : Proc n → Proc n) :
    (t.modify p change).procs p = change (t.procs p) := by
  simp [modify]

@[simp] theorem modify_ne (t : Table n) (change : Proc n → Proc n) (different : q ≠ p) :
    (t.modify p change).procs q = t.procs q := by
  simp [modify, different]

theorem modify_field {α : Type} (field : Proc n → α) (q : Fin n) {t' : Table n} {change : Proc n → Proc n}
    (moved : t'.procs = (t.modify p change).procs) (same : field (change (t.procs p)) = field (t.procs p)) :
    field (t'.procs q) = field (t.procs q) := by
  rw [moved]
  by_cases here : q = p
  · rw [here, modify_self, same]
  · rw [modify_ne _ _ here]

section

variable {t : Table n} {p q : Fin n} (different : q ≠ p)
include different

theorem claim_ne : (t.claim p).procs q = t.procs q := by simp [claim, different]

theorem stack_ne {addr : Nat} : (t.stack p addr).procs q = t.procs q := modify_ne _ _ different

theorem abandon_ne : (t.abandon p).procs q = t.procs q := modify_ne _ _ different

theorem copy_ne {parent : Fin n} : (t.copy parent p).procs q = t.procs q := modify_ne _ _ different

theorem userinit_ne : (t.userinit p).procs q = t.procs q := by simp [userinit, different]

theorem setState_ne {state : ProcState} : (t.setState p state).procs q = t.procs q := modify_ne _ _ different

theorem sleepOn_ne {chan : Chan n} : (t.sleepOn p chan).procs q = t.procs q := modify_ne _ _ different

theorem killSlot_ne : (t.killSlot p).procs q = t.procs q := modify_ne _ _ different

theorem reap_ne {caller : Fin n} : (t.reap caller p).procs q = t.procs q := by simp [reap, different]

end

/-- A slot that was left alone but for its parent, and woken if it slept. -/
structure Passed (before after : Proc n) : Prop where
  sz : after.sz = before.sz
  kstack : after.kstack = before.kstack
  state : after.state = before.state ∨ before.state = .sleeping ∧ after.state = .runnable
  pid : after.pid = before.pid
  chan : after.chan = before.chan
  killed : after.killed = before.killed
  signalHandlers : after.signalHandlers = before.signalHandlers
  pendingSignals : after.pendingSignals = before.pendingSignals
  image : after.image = before.image
  registeredBy : after.registeredBy = before.registeredBy

theorem Passed.refl (proc : Proc n) : Passed proc proc := ⟨rfl, rfl, .inl rfl, rfl, rfl, rfl, rfl, rfl, rfl, rfl⟩

theorem Passed.trans {a b c : Proc n} (first : Passed a b) (second : Passed b c) : Passed a c where
  sz := second.sz.trans first.sz
  kstack := second.kstack.trans first.kstack
  state := by
    rcases second.state with same | ⟨slept, woken⟩
    · rw [same]
      exact first.state
    · rcases first.state with same | ⟨_, up⟩
      · exact .inr ⟨same ▸ slept, woken⟩
      · rw [slept] at up
        cases up
  pid := second.pid.trans first.pid
  chan := second.chan.trans first.chan
  killed := second.killed.trans first.killed
  signalHandlers := second.signalHandlers.trans first.signalHandlers
  pendingSignals := second.pendingSignals.trans first.pendingSignals
  image := second.image.trans first.image
  registeredBy := second.registeredBy.trans first.registeredBy

theorem Passed.awake {a b : Proc n} (passed : Passed a b) (awake : a.state ≠ .sleeping) : b.state = a.state :=
  passed.state.resolve_right fun woken => awake woken.1

theorem wakeup1_passed (t : Table n) (chan : Chan n) (q : Fin n) :
    Passed (t.procs q) ((t.wakeup1 chan).procs q) ∧ ((t.wakeup1 chan).procs q).parent = (t.procs q).parent := by
  simp only [wakeup1]
  split
  next asleep => exact ⟨⟨rfl, rfl, .inr ⟨asleep.1, rfl⟩, rfl, rfl, rfl, rfl, rfl, rfl, rfl⟩, rfl⟩
  · exact ⟨.refl _, rfl⟩

theorem wakeup1_wakes (t : Table n) {chan : Chan n} (on : (t.procs q).chan = some chan) :
    ((t.wakeup1 chan).procs q).state ≠ .sleeping := by
  simp only [wakeup1, on, and_true]
  split
  · simp
  next awake => exact awake

theorem adopt_passed (p : Fin n) (t : Table n) (q r : Fin n) :
    Passed (t.procs r) ((adopt p t q).procs r) ∧ (adopt p t q).initproc = t.initproc ∧
      ((adopt p t q).procs r).parent =
        if r = q ∧ (t.procs q).parent = some p then t.initproc else (t.procs r).parent := by
  unfold adopt
  split_ifs with mine found child
  · have moved : Passed (t.procs r) ((t.modify q fun proc => { proc with parent := t.initproc }).procs r) ∧
        ((t.modify q fun proc => { proc with parent := t.initproc }).procs r).parent = t.initproc := by
      rw [found.1, modify_self]
      exact ⟨⟨rfl, rfl, .inl rfl, rfl, rfl, rfl, rfl, rfl, rfl, rfl⟩, rfl⟩
    dsimp only
    split
    · have woken := wakeup1_passed (t.modify q fun proc => { proc with parent := t.initproc }) (.proc ‹Fin n›) r
      exact ⟨moved.1.trans woken.1, rfl, woken.2.trans moved.2⟩
    · exact ⟨moved.1, rfl, moved.2⟩
  · have other : r ≠ q := fun same => found ⟨same, mine⟩
    have kept : (t.modify q fun proc => { proc with parent := t.initproc }).procs r = t.procs r := modify_ne _ _ other
    dsimp only
    split
    · have woken := wakeup1_passed (t.modify q fun proc => { proc with parent := t.initproc }) (.proc ‹Fin n›) r
      rw [kept] at woken
      exact ⟨woken.1, rfl, woken.2⟩
    · exact ⟨kept ▸ .refl _, rfl, by rw [kept]⟩
  · exact absurd child.2 mine
  · exact ⟨.refl _, rfl, rfl⟩

theorem adoptAll_passed (p : Fin n) (slots : List (Fin n)) (t : Table n) (r : Fin n) :
    Passed (t.procs r) ((slots.foldl (adopt p) t).procs r) ∧ (slots.foldl (adopt p) t).initproc = t.initproc ∧
      ((slots.foldl (adopt p) t).procs r).parent =
        if r ∈ slots ∧ (t.procs r).parent = some p then t.initproc else (t.procs r).parent := by
  induction slots generalizing t with
  | nil => exact ⟨.refl _, rfl, by simp⟩
  | cons q rest ih =>
    obtain ⟨passed, init, parent⟩ := adopt_passed p t q r
    obtain ⟨later, initLater, parentLater⟩ := ih (adopt p t q)
    refine ⟨passed.trans later, initLater.trans init, ?_⟩
    rw [List.foldl_cons, parentLater, init, parent]
    by_cases same : r = q
    · subst same
      by_cases mine : (t.procs r).parent = some p <;> simp [mine]
    · simp [same]

theorem adopt_rest (p : Fin n) (t : Table n) (q : Fin n) : ∃ procs, adopt p t q = { t with procs } := by
  unfold adopt
  split_ifs
  · dsimp only
    split <;> exact ⟨_, rfl⟩
  · exact ⟨_, rfl⟩

theorem adoptAll_rest (p : Fin n) (slots : List (Fin n)) (t : Table n) :
    ∃ procs, slots.foldl (adopt p) t = { t with procs } := by
  induction slots generalizing t with
  | nil => exact ⟨_, rfl⟩
  | cons q rest ih =>
    obtain ⟨first, done⟩ := adopt_rest p t q
    obtain ⟨last, later⟩ := ih (adopt p t q)
    exact ⟨last, by rw [List.foldl_cons, later, done]⟩

theorem wakeupParent_passed (t : Table n) (p q : Fin n) :
    Passed (t.procs q) ((t.wakeupParent p).procs q) ∧ ((t.wakeupParent p).procs q).parent = (t.procs q).parent ∧
      ∃ procs, t.wakeupParent p = { t with procs } := by
  unfold wakeupParent
  split
  · exact ⟨(wakeup1_passed t _ q).1, (wakeup1_passed t _ q).2, _, rfl⟩
  · exact ⟨.refl _, rfl, _, rfl⟩

abbrev cleared (t : Table n) (p : Fin n) : Table n := t.modify p fun proc => { proc with signalHandlers := fun _ => 0 }

theorem exit_rest (t : Table n) (p : Fin n) :
    ∃ procs, t.exit p = { t with procs, exited := t.exited ++ [(t.procs p).pid] } := by
  unfold exit
  obtain ⟨first, woken⟩ := (wakeupParent_passed (t.cleared p) p p).2.2
  dsimp only
  rw [woken]
  obtain ⟨last, adopted⟩ := adoptAll_rest p (List.finRange n) { t.cleared p with procs := first }
  rw [adopted]
  exact ⟨_, rfl⟩

-- Before the process itself becomes a zombie.
theorem adoptAll_cleared (t : Table n) (p q : Fin n) :
    Passed ((t.cleared p).procs q) (((List.finRange n).foldl (adopt p) ((t.cleared p).wakeupParent p)).procs q) ∧
      (((List.finRange n).foldl (adopt p) ((t.cleared p).wakeupParent p)).procs q).parent =
        if (t.procs q).parent = some p then t.initproc else (t.procs q).parent := by
  obtain ⟨woken, parent, _, rest⟩ := wakeupParent_passed (t.cleared p) p q
  obtain ⟨passed, _, adopted⟩ := adoptAll_passed p (List.finRange n) ((t.cleared p).wakeupParent p) q
  have init : ((t.cleared p).wakeupParent p).initproc = t.initproc := by rw [rest]; rfl
  rw [parent, init, modify_field Proc.parent q rfl rfl] at adopted
  exact ⟨woken.trans passed, by simpa using adopted⟩

theorem exit_ne (t : Table n) (different : q ≠ p) : Passed (t.procs q) ((t.exit p).procs q) ∧
      ((t.exit p).procs q).parent = if (t.procs q).parent = some p then t.initproc else (t.procs q).parent := by
  have passed := t.adoptAll_cleared p q
  rw [modify_ne _ _ different] at passed
  simp only [exit, setState]
  rwa [modify_ne _ _ different]

/-- What is left of a process that has exited, until it is reaped. -/
structure Exited (before after : Proc n) : Prop where
  state : after.state = .zombie
  sz : after.sz = before.sz
  pid : after.pid = before.pid
  killed : after.killed = before.killed
  signalHandlers : after.signalHandlers = fun _ => 0
  pendingSignals : after.pendingSignals = before.pendingSignals
  image : after.image = before.image
  registeredBy : after.registeredBy = before.registeredBy

theorem exit_self (t : Table n) (p : Fin n) : Exited (t.procs p) ((t.exit p).procs p) ∧
      ((t.exit p).procs p).parent = if (t.procs p).parent = some p then t.initproc else (t.procs p).parent := by
  obtain ⟨passed, parent⟩ := t.adoptAll_cleared p p
  rw [modify_self] at passed
  simp only [exit, setState]
  rw [modify_self]
  exact ⟨⟨rfl, passed.sz, passed.pid, passed.killed, passed.signalHandlers, passed.pendingSignals, passed.image,
    passed.registeredBy⟩, parent⟩

theorem Passed.stays {a b : Proc n} (passed : Passed a b) (awake : a.state ≠ .sleeping) : b.state ≠ .sleeping := by
  rw [passed.awake awake]
  exact awake

theorem adopt_wakes {i : Fin n} (child : (t.procs q).parent = some p) (zombie : (t.procs q).state = .zombie)
    (init : t.initproc = some i) (on : (t.procs i).chan = some (.proc i)) :
    ((adopt p t q).procs i).state ≠ .sleeping := by
  simp only [adopt, if_pos child, zombie, init]
  refine wakeup1_wakes _ ?_
  by_cases same : i = q
  · subst same
    simpa using on
  · simpa [same] using on

theorem adoptAll_wakes {i : Fin n} {slots : List (Fin n)} (visited : q ∈ slots) (child : (t.procs q).parent = some p)
    (zombie : (t.procs q).state = .zombie) (init : t.initproc = some i) (on : (t.procs i).chan = some (.proc i)) :
    ((slots.foldl (adopt p) t).procs i).state ≠ .sleeping := by
  induction slots generalizing t with
  | nil => cases visited
  | cons r rest ih =>
    rw [List.foldl_cons]
    by_cases same : q = r
    · subst same
      exact (adoptAll_passed p rest (adopt p t q) i).1.stays (adopt_wakes child zombie init on)
    · obtain ⟨passed, initproc, parent⟩ := adopt_passed p t r q
      refine ih ((List.mem_cons.mp visited).resolve_left same) ?_ ?_ (initproc.trans init) ?_
      · rw [parent, if_neg fun moved => same moved.1, child]
      · rw [passed.awake (by rw [zombie]; simp), zombie]
      · rw [(adopt_passed p t r i).1.chan, on]

theorem exit_wakes_parent (parent : (t.procs p).parent = some q) (different : q ≠ p)
    (on : (t.procs q).chan = some (.proc q)) : ((t.exit p).procs q).state ≠ .sleeping := by
  simp only [exit, setState]
  rw [modify_ne _ _ different]
  refine (adoptAll_passed p _ _ q).1.stays ?_
  simp only [wakeupParent, modify_self, parent]
  refine wakeup1_wakes _ ?_
  rw [modify_ne _ _ different, on]

theorem exit_wakes_init {i : Fin n} (child : (t.procs q).parent = some p) (different : q ≠ p)
    (zombie : (t.procs q).state = .zombie) (init : t.initproc = some i) (other : i ≠ p)
    (on : (t.procs i).chan = some (.proc i)) : ((t.exit p).procs i).state ≠ .sleeping := by
  obtain ⟨passed, parent, _, rest⟩ := wakeupParent_passed (t.cleared p) p q
  simp only [exit, setState]
  rw [modify_ne _ _ other]
  rw [modify_ne _ _ different] at passed parent
  refine adoptAll_wakes (List.mem_finRange q) (parent.trans child) ?_ ?_ ?_
  · rw [passed.awake (by rw [zombie]; simp), zombie]
  · rw [rest]
    exact init
  · rw [(wakeupParent_passed _ p i).1.chan, modify_ne _ _ other, on]

theorem raise_raise (t : Table n) (p : Fin n) (signal : Fin 32) : (t.raise p signal).raise p signal = t.raise p signal := by
  simp [raise, modify, BitVec.or_assoc]

theorem clearSignal_pending (t : Table n) (p : Fin n) (signal : Fin 32) (i : Nat) :
    ((t.clearSignal p signal).procs p).pendingSignals.getLsbD i =
      ((t.procs p).pendingSignals.getLsbD i && decide (i ≠ signal)) := by
  simp only [clearSignal, modify_self, BitVec.getLsbD_and, BitVec.getLsbD_not, BitVec.getLsbD_twoPow]
  by_cases same : i = signal
  · simp [same]
  · by_cases bound : i < 32
    · simp [same, bound, Ne.symm same]
    · have outside : (t.procs p).pendingSignals.getLsbD i = false := BitVec.getLsbD_of_ge _ i (not_lt.mp bound)
      rw [outside]
      rfl

theorem deliver_ne (t : Table n) (signal : Fin 32) (different : q ≠ p) :
    (t.deliver p signal).procs q = t.procs q := by
  unfold deliver
  split_ifs <;> simp [clearSignal, markKilled, different]

theorem deliver_state (t : Table n) (p : Fin n) (signal : Fin 32) :
    ((t.deliver p signal).procs p).state = (t.procs p).state := by
  unfold deliver
  split_ifs <;> simp [clearSignal, markKilled]

theorem deliver_pending (t : Table n) (p : Fin n) (signal : Fin 32) (i : Nat) :
    ((t.deliver p signal).procs p).pendingSignals.getLsbD i =
      ((t.procs p).pendingSignals.getLsbD i && decide (i ≠ signal)) := by
  rw [← clearSignal_pending]
  unfold deliver
  split_ifs with raised
  · simp
  · simp [markKilled]
  · rfl
  · rw [clearSignal_pending]
    by_cases same : i = signal
    · rw [same, Bool.eq_false_iff.mpr raised]
      rfl
    · simp [same]

end Table

end Xv6.Processes
