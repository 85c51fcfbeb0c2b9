import Xv6.Pipes.Machine

set_option autoImplicit false

namespace Xv6.Pipes

inductive Next (pipe : Pipe) (killed : Bool) : Pc → Effect → Pc → Prop where
  | writeAcquire {n addr i} : Next pipe killed (.pipewrite n addr i .acquire) .acquire (.pipewrite n addr i .loop)
  | writeFull {n addr} {i : Nat} (more : (i : Int) < n) (full : pipe.full = true) :
      Next pipe killed (.pipewrite n addr i .loop) .stay (.pipewrite n addr i .full)
  | writeStore {n addr} {i : Nat} (more : (i : Int) < n) (room : pipe.full = false) :
      Next pipe killed (.pipewrite n addr i .loop) (.store (addr i)) (.pipewrite n addr (i + 1) .loop)
  | writeAll {n addr} {i : Nat} (all : n ≤ (i : Int)) :
      Next pipe killed (.pipewrite n addr i .loop) .stay (.pipewrite n addr i .wakeupLast)
  | writeFail {n addr i} (hopeless : pipe.readopen = false ∨ killed = true) :
      Next pipe killed (.pipewrite n addr i .full) .stay (.pipewrite n addr i (.unlock (-1)))
  | writeWait {n addr i} (reader : pipe.readopen = true) (alive : killed = false) :
      Next pipe killed (.pipewrite n addr i .full) .stay (.pipewrite n addr i .wakeup)
  | writeWakeup {n addr i} :
      Next pipe killed (.pipewrite n addr i .wakeup) (.wakeup .nread) (.pipewrite n addr i (.sleep .acquirePtable))
  | writePtable {n addr i} :
      Next pipe killed (.pipewrite n addr i (.sleep .acquirePtable)) .acquirePtable
        (.pipewrite n addr i (.sleep .release))
  | writeRelease {n addr i} :
      Next pipe killed (.pipewrite n addr i (.sleep .release)) .release (.pipewrite n addr i (.sleep .fall))
  | writeFall {n addr i} :
      Next pipe killed (.pipewrite n addr i (.sleep .fall)) (.fall .nwrite) (.pipewrite n addr i (.sleep .asleep))
  | writeRelock {n addr i} :
      Next pipe killed (.pipewrite n addr i (.sleep .relock)) .acquire (.pipewrite n addr i .loop)
  | writeWakeupLast {n addr i} :
      Next pipe killed (.pipewrite n addr i .wakeupLast) (.wakeup .nread) (.pipewrite n addr i (.unlock n))
  | writeReturn {n addr i ret} : Next pipe killed (.pipewrite n addr i (.unlock ret)) .release .idle
  | readAcquire {n addr} : Next pipe killed (.piperead n addr .acquire) .acquire (.piperead n addr .empty)
  | readEmpty {n addr} (empty : pipe.empty = true) (writer : pipe.writeopen = true) :
      Next pipe killed (.piperead n addr .empty) .stay (.piperead n addr .killed)
  | readReady {n addr} (ready : pipe.empty = false ∨ pipe.writeopen = false) :
      Next pipe killed (.piperead n addr .empty) .stay (.piperead n addr .copy)
  | readFail {n addr} : Next pipe killed (.piperead n addr .killed) .stay (.piperead n addr (.unlock (-1)))
  | readWait {n addr} : Next pipe killed (.piperead n addr .killed) .stay (.piperead n addr (.sleep .acquirePtable))
  | readPtable {n addr} :
      Next pipe killed (.piperead n addr (.sleep .acquirePtable)) .acquirePtable (.piperead n addr (.sleep .release))
  | readRelease {n addr} :
      Next pipe killed (.piperead n addr (.sleep .release)) .release (.piperead n addr (.sleep .fall))
  | readFall {n addr} :
      Next pipe killed (.piperead n addr (.sleep .fall)) (.fall .nread) (.piperead n addr (.sleep .asleep))
  | readRelock {n addr} : Next pipe killed (.piperead n addr (.sleep .relock)) .acquire (.piperead n addr .empty)
  | readTake {n addr} (more : (addr.length : Int) < n) (some : pipe.empty = false) :
      Next pipe killed (.piperead n addr .copy) .take (.piperead n (addr ++ [pipe.next]) .copy)
  | readAll {n addr} (all : n ≤ (addr.length : Int) ∨ pipe.empty = true) :
      Next pipe killed (.piperead n addr .copy) .stay (.piperead n addr .wakeupLast)
  | readWakeupLast {n addr} :
      Next pipe killed (.piperead n addr .wakeupLast) (.wakeup .nwrite) (.piperead n addr (.unlock addr.length))
  | readReturn {n addr ret} : Next pipe killed (.piperead n addr (.unlock ret)) .release .idle
  | closeAcquire {writable} : Next pipe killed (.pipeclose writable .acquire) .acquire (.pipeclose writable .close)
  | close {writable} : Next pipe killed (.pipeclose writable .close) (.close writable) (.pipeclose writable .wakeup)
  | closeWakeup {writable} :
      Next pipe killed (.pipeclose writable .wakeup) (.wakeup (if writable then .nread else .nwrite))
        (.pipeclose writable .test)
  | closeTest {writable last} : Next pipe killed (.pipeclose writable .test) .stay (.pipeclose writable (.unlock last))
  | closeReturn {writable} : Next pipe killed (.pipeclose writable (.unlock false)) .release .idle
  | closeRelease {writable} :
      Next pipe killed (.pipeclose writable (.unlock true)) .release (.pipeclose writable .free)
  | closeFree {writable} : Next pipe killed (.pipeclose writable .free) .free .idle

variable {effect : Effect}

theorem writeCode_next {pipe : Pipe} {killed : Bool} {n : Int} {addr : Nat → Byte} {i : Nat} {point : WritePoint}
    {pc : Pc} (next : writeCode pipe killed n addr i point = some (effect, pc)) :
    Next pipe killed (.pipewrite n addr i point) effect pc := by
  cases point with
  | acquire => cases next; exact .writeAcquire
  | loop =>
    simp only [writeCode] at next
    split_ifs at next with more full
    · cases next
      exact .writeFull more full
    · cases next
      exact .writeStore more (by simpa using full)
    · cases next
      exact .writeAll (Int.not_lt.mp more)
  | full =>
    simp only [writeCode] at next
    split_ifs at next with hopeless
    · cases next
      exact .writeFail hopeless
    · cases next
      exact .writeWait (by simpa using fun closed => hopeless (.inl closed))
        (by simpa using fun dead => hopeless (.inr dead))
  | wakeup => cases next; exact .writeWakeup
  | sleep point => cases point <;> cases next <;> constructor
  | wakeupLast => cases next; exact .writeWakeupLast
  | unlock ret => cases next; exact .writeReturn

theorem readCode_next {pipe : Pipe} {killed : Bool} {n : Int} {addr : List Byte} {point : ReadPoint} {pc : Pc}
    (next : readCode pipe killed n addr point = some (effect, pc)) :
    Next pipe killed (.piperead n addr point) effect pc := by
  cases point with
  | acquire => cases next; exact .readAcquire
  | empty =>
    simp only [readCode, Bool.and_eq_true] at next
    split_ifs at next with wait
    · cases next
      exact .readEmpty wait.1 wait.2
    · cases next
      refine .readReady ?_
      rw [← Bool.not_eq_true, ← Bool.not_eq_true]
      exact not_and_or.mp wait
  | killed =>
    simp only [readCode] at next
    split_ifs at next
    · cases next
      exact .readFail
    · cases next
      exact .readWait
  | sleep point => cases point <;> cases next <;> constructor
  | copy =>
    simp only [readCode] at next
    split_ifs at next with more
    · cases next
      exact .readTake more.1 more.2
    · cases next
      refine .readAll ?_
      rw [← Int.not_lt, ← Bool.not_eq_false]
      exact not_and_or.mp more
  | wakeupLast => cases next; exact .readWakeupLast
  | unlock ret => cases next; exact .readReturn

theorem code_next {pipe : Pipe} {proc : Proc} {pc : Pc} (next : code pipe proc = some (effect, pc)) :
    Next pipe proc.killed proc.pc effect pc := by
  unfold code at next
  split at next
  · cases next
  · rename_i n addr i point here
    rw [here]
    exact writeCode_next next
  · rename_i n addr point here
    rw [here]
    exact readCode_next next
  · rename_i writable point here
    rw [here]
    rcases point with _ | _ | _ | _ | last | _
    case unlock => cases last <;> cases next <;> constructor
    all_goals
      cases next
      constructor

def SleepPoint.locked : SleepPoint → Bool
  | .acquirePtable | .release => true
  | _ => false

def Pc.locked : Pc → Bool
  | .idle => false
  | .pipewrite _ _ _ .acquire | .piperead _ _ .acquire | .pipeclose _ .acquire | .pipeclose _ .free => false
  | .pipewrite _ _ _ (.sleep point) | .piperead _ _ (.sleep point) => point.locked
  | .pipewrite .. | .piperead .. | .pipeclose .. => true

def SleepPoint.inPtable : SleepPoint → Bool
  | .release | .fall => true
  | _ => false

def Pc.inPtable : Pc → Bool
  | .pipewrite _ _ _ (.sleep point) | .piperead _ _ (.sleep point) => point.inPtable
  | _ => false

def Pc.sleepsOn : Pc → Option Chan
  | .pipewrite _ _ _ (.sleep .asleep) => some .nwrite
  | .piperead _ _ (.sleep .asleep) => some .nread
  | _ => none

variable {P : Type}

@[simp] theorem wakeup1_pc (chan : Chan) (procs : P → Proc) (q : P) : (wakeup1 chan procs q).pc = (procs q).pc := by
  unfold wakeup1
  split <;> rfl

@[simp] theorem wakeup1_chan (chan : Chan) (procs : P → Proc) (q : P) :
    (wakeup1 chan procs q).chan = (procs q).chan := by
  unfold wakeup1
  split <;> rfl

@[simp] theorem wakeup1_calls (chan : Chan) (procs : P → Proc) (q : P) :
    (wakeup1 chan procs q).calls = (procs q).calls := by
  unfold wakeup1
  split <;> rfl

structure Locks (s : State P) : Prop where
  lock : ∀ p, s.lock = some p ↔ (s.procs p).pc.locked = true
  ptable : ∀ p, s.ptable = some p ↔ (s.procs p).pc.inPtable = true
  chan : ∀ p, (s.procs p).chan = (s.procs p).pc.sleepsOn

variable [DecidableEq P] {s s' : State P} {p : P}

omit [DecidableEq P] in
theorem Locks.unlocked (locks : Locks s) {q : P} (different : q ≠ p) (mine : (s.procs p).pc.locked = true) :
    (s.procs q).pc.locked = false := by
  rw [← Bool.not_eq_true, ← locks.lock q, (locks.lock p).mpr mine]
  exact fun equal => different (Option.some.inj equal).symm

theorem statement_eq_some (next : statement p s = some s') :
    ∃ effect pc between, Next s.pipe (s.procs p).killed (s.procs p).pc effect pc ∧
      perform p s effect = some between ∧ s' = between.goto p pc := by
  obtain ⟨⟨effect, pc⟩, fetched, later⟩ := Option.bind_eq_some_iff.mp next
  obtain ⟨between, performed, done⟩ := Option.bind_eq_some_iff.mp later
  exact ⟨effect, pc, between, code_next fetched, performed, (Option.some.inj done).symm⟩

@[simp] theorem goto_procs_self (s : State P) (p : P) (pc : Pc) : (s.goto p pc).procs p = { s.procs p with pc } := by
  simp [State.goto]

@[simp] theorem goto_procs_ne (s : State P) {q : P} (pc : Pc) (different : q ≠ p) :
    (s.goto p pc).procs q = s.procs q := by
  simp [State.goto, different]

section Effects

variable {pipe : Pipe} {killed : Bool} {pc pc' : Pc} {effect : Effect}

theorem next_locked (next : Next pipe killed pc effect pc') : match effect with
    | .acquire => pc.locked = false ∧ pc'.locked = true
    | .release => pc.locked = true ∧ pc'.locked = false
    | .fall _ | .free => pc.locked = false ∧ pc'.locked = false
    | _ => pc.locked = true ∧ pc'.locked = true := by
  cases next <;> exact ⟨rfl, rfl⟩

theorem next_inPtable (next : Next pipe killed pc effect pc') : match effect with
    | .acquirePtable => pc.inPtable = false ∧ pc'.inPtable = true
    | .fall _ => pc.inPtable = true ∧ pc'.inPtable = false
    | _ => pc'.inPtable = pc.inPtable := by
  cases next <;> first | rfl | exact ⟨rfl, rfl⟩

theorem next_sleepsOn (next : Next pipe killed pc effect pc') : pc.sleepsOn = none ∧ pc'.sleepsOn = match effect with
      | .fall chan => some chan
      | _ => none := by
  cases next <;> exact ⟨rfl, rfl⟩

end Effects

theorem resume_locks (pc : Pc) :
    pc.resume.locked = pc.locked ∧ pc.resume.inPtable = pc.inPtable ∧ pc.resume.sleepsOn = none := by
  unfold Pc.resume
  split
  · exact ⟨rfl, rfl, rfl⟩
  · exact ⟨rfl, rfl, rfl⟩
  next other first second =>
    refine ⟨rfl, rfl, ?_⟩
    unfold Pc.sleepsOn
    split
    · exact absurd rfl (first _ _ _)
    · exact absurd rfl (second _ _)
    · rfl

theorem perform_pc (performed : perform p s effect = some s') (q : P) :
    (s'.procs q).pc = (s.procs q).pc ∧ (s'.procs q).calls = (s.procs q).calls := by
  cases effect with
  | fall chan =>
    cases performed
    by_cases same : q = p
    · subst same
      simp
    · simp [same]
  | acquire | acquirePtable =>
    simp only [perform] at performed
    split_ifs at performed
    cases performed
    exact ⟨rfl, rfl⟩
  | wakeup chan =>
    simp only [perform] at performed
    split_ifs at performed
    cases performed
    exact ⟨wakeup1_pc _ _ _, wakeup1_calls _ _ _⟩
  | stay | release | store | take | close | free =>
    cases performed
    exact ⟨rfl, rfl⟩

theorem Locks.move (locks : Locks s)
    (others : ∀ q, q ≠ p → (s'.procs q).pc = (s.procs q).pc ∧ (s'.procs q).chan = (s.procs q).chan)
    (chan : (s'.procs p).chan = (s'.procs p).pc.sleepsOn)
    (lock : (s'.lock = some p ↔ (s'.procs p).pc.locked = true) ∧ ∀ q, q ≠ p → (s'.lock = some q ↔ s.lock = some q))
    (ptable : (s'.ptable = some p ↔ (s'.procs p).pc.inPtable = true) ∧
      ∀ q, q ≠ p → (s'.ptable = some q ↔ s.ptable = some q)) : Locks s' := by
  refine ⟨fun q => ?_, fun q => ?_, fun q => ?_⟩ <;> by_cases same : q = p
  · exact same ▸ lock.1
  · rw [lock.2 q same, (others q same).1]
    exact locks.lock q
  · exact same ▸ ptable.1
  · rw [ptable.2 q same, (others q same).1]
    exact locks.ptable q
  · exact same ▸ chan
  · rw [(others q same).1, (others q same).2]
    exact locks.chan q

theorem statement_locks (locks : Locks s) (next : statement p s = some s') : Locks s' := by
  obtain ⟨effect, pc, between, moves, performed, rfl⟩ := statement_eq_some next
  have pcs := fun q => (perform_pc performed q).1
  have locked := next_locked moves
  have inPtable := next_inPtable moves
  have sleepsOn := next_sleepsOn moves
  have mine := locks.lock p
  have myPtable := locks.ptable p
  have chan := locks.chan
  have exclusive (q : P) (different : ¬q = p) : ¬p = q := fun same => different same.symm
  cases effect with
  | acquire | acquirePtable | wakeup =>
    simp only [perform] at performed
    split_ifs at performed with free
    cases performed
    refine locks.move (p := p) (fun q different => ?_) ?_ ⟨?_, fun q different => ?_⟩ ⟨?_, fun q different => ?_⟩ <;>
      simp_all [State.goto]
  | stay | release | store | take | close | free | fall =>
    cases performed
    refine locks.move (p := p) (fun q different => ?_) ?_ ⟨?_, fun q different => ?_⟩ ⟨?_, fun q different => ?_⟩ <;>
      simp_all [State.goto]

theorem call_eq_some {c : Call} (next : call p c s = some s') : (s.procs p).pc = .idle ∧ s' = { s with
      procs := Function.update s.procs p { s.procs p with pc := c.entry, calls := (s.procs p).calls + 1 } } := by
  unfold call at next
  split at next
  next here => exact ⟨here, (Option.some.inj next).symm⟩
  · cases next

theorem entry_locks (c : Call) : c.entry.locked = false ∧ c.entry.inPtable = false ∧ c.entry.sleepsOn = none := by
  cases c <;> exact ⟨rfl, rfl, rfl⟩

theorem Locks.update (locks : Locks s) (p : P) (proc : Proc)
    (pc : proc.pc.locked = (s.procs p).pc.locked ∧ proc.pc.inPtable = (s.procs p).pc.inPtable ∧
      proc.chan = proc.pc.sleepsOn) : Locks { s with procs := Function.update s.procs p proc } := by
  refine ⟨fun q => ?_, fun q => ?_, fun q => ?_⟩ <;> by_cases same : q = p
  · subst same
    simpa [pc.1] using locks.lock q
  · simpa [same] using locks.lock q
  · subst same
    simpa [pc.2.1] using locks.ptable q
  · simpa [same] using locks.ptable q
  · subst same
    simpa using pc.2.2
  · simpa [same] using locks.chan q

theorem step_locks {a : Action P} (locks : Locks s) (next : step a s = some s') : Locks s' := by
  cases a with
  | call p c =>
    simp only [step] at next
    split_ifs at next
    obtain ⟨idle, rfl⟩ := call_eq_some next
    have entered := entry_locks c
    have chan := locks.chan p
    refine locks.update p _ ?_
    rw [idle] at chan ⊢
    exact ⟨entered.1, entered.2.1, chan.trans entered.2.2.symm⟩
  | statement p =>
    simp only [step] at next
    split_ifs at next
    exact statement_locks locks next
  | kill p =>
    simp only [step, kill, Runs.guarded] at next
    rw [← next.2]
    exact locks.update p _ ⟨rfl, rfl, locks.chan p⟩
  | dispatch p =>
    simp only [step, dispatch, Runs.guarded] at next
    have resumed := resume_locks (s.procs p).pc
    rw [← next.2]
    exact locks.update p _ ⟨resumed.1, resumed.2.1, resumed.2.2.symm⟩
  | preempt p =>
    simp only [step, preempt, Runs.guarded] at next
    rw [← next.2]
    exact locks.update p _ ⟨rfl, rfl, locks.chan p⟩

omit [DecidableEq P] in
theorem allocated_locks (fresh : Allocated s) : Locks s := by
  refine ⟨fun p => ?_, fun p => ?_, fun p => ?_⟩
  · simp [fresh.lock, fresh.idle, Pc.locked]
  · simp [fresh.ptable, fresh.idle, Pc.inPtable]
  · simp [fresh.idle, Pc.sleepsOn]

end Xv6.Pipes
