import Xv6.Log.GroupCommit
import Xv6.Shared.Holders

set_option autoImplicit false

namespace Xv6.GroupCommit

open Log

inductive Next (log : LogState) : Pc → Effect → Pc → Prop where
  | beginAcquire : Next log (.beginOp .acquire) .acquire (.beginOp .test)
  | beginWait (wait : mustSleep log = true) : Next log (.beginOp .test) .stay (.beginOp (.sleep .acquirePtable))
  | beginAdmit (room : mustSleep log = false) : Next log (.beginOp .test) .enter (.beginOp .unlock)
  | sleepPtable : Next log (.beginOp (.sleep .acquirePtable)) .acquirePtable (.beginOp (.sleep .release))
  | sleepRelease : Next log (.beginOp (.sleep .release)) .release (.beginOp (.sleep .fall))
  | sleepFall : Next log (.beginOp (.sleep .fall)) .fall (.beginOp (.sleep .asleep))
  | sleepResume : Next log (.beginOp (.sleep .asleep)) .resume (.beginOp (.sleep .relock))
  | sleepRelock : Next log (.beginOp (.sleep .relock)) .acquire (.beginOp .test)
  | beginReturn : Next log (.beginOp .unlock) .release .inside
  | writeTooBig {b} (full : log.lh.length ≥ logSize ∨ log.lh.length ≥ log.size - 1) :
      Next log (.logWrite b .size) .stay (.panicked .tooBig)
  | writeFits {b} (fits : ¬(log.lh.length ≥ logSize ∨ log.lh.length ≥ log.size - 1)) :
      Next log (.logWrite b .size) .stay (.logWrite b .outstanding)
  | writeOutside {b} (nobody : log.outstanding < 1) :
      Next log (.logWrite b .outstanding) .stay (.panicked .outsideOfTrans)
  | writeInside {b} : Next log (.logWrite b .outstanding) .stay (.logWrite b .acquire)
  | writeAcquire {b} : Next log (.logWrite b .acquire) .acquire (.logWrite b .absorb)
  | writeAbsorb {b} : Next log (.logWrite b .absorb) (.absorb b) (.logWrite b .unlock)
  | writeReturn {b} : Next log (.logWrite b .unlock) .release .inside
  | endAcquire : Next log (.endOp .acquire) .acquire (.endOp .test)
  | endPanic (busy : log.committing = true) : Next log (.endOp .test) .leave (.panicked .committing)
  | endLast (idle : log.committing = false) (last : log.outstanding - 1 = 0) :
      Next log (.endOp .test) .leave (.endOp (.unlock true))
  | endOther (idle : log.committing = false) (more : log.outstanding - 1 ≠ 0) :
      Next log (.endOp .test) .leave (.endOp .wakeup)
  | endWakeup : Next log (.endOp .wakeup) .wakeup (.endOp (.unlock false))
  | endReturn : Next log (.endOp (.unlock false)) .release .outside
  | endCommit : Next log (.endOp (.unlock true)) .release (.endOp .commit)
  | commitSome : Next log (.endOp .commit) .stay (.endOp (.writeLog []))
  | commitNone (nothing : log.lh = []) : Next log (.endOp .commit) .stay (.endOp .reacquire)
  | copyNext {copied b} (slot : log.lh[copied.length]? = some b) :
      Next log (.endOp (.writeLog copied)) .stay (.endOp (.writeLog (copied ++ [b])))
  | copyDone {copied} (all : log.lh.length ≤ copied.length) :
      Next log (.endOp (.writeLog copied)) .stay (.endOp (.writeHead copied))
  | writeHead {copied} : Next log (.endOp (.writeHead copied)) (.commit copied) (.endOp (.install 0))
  | installNext {tail} : Next log (.endOp (.install tail)) .stay (.endOp (.install (tail + 1)))
  | installDone {tail} : Next log (.endOp (.install tail)) .stay (.endOp .clear)
  | clear : Next log (.endOp .clear) .clear (.endOp .erase)
  | erase : Next log (.endOp .erase) .stay (.endOp .reacquire)
  | reacquire : Next log (.endOp .reacquire) .acquire (.endOp .settle)
  | settle : Next log (.endOp .settle) .settle (.endOp .wakeupAll)
  | wakeupAll : Next log (.endOp .wakeupAll) .wakeup (.endOp .unlockLast)
  | unlockLast : Next log (.endOp .unlockLast) .release .outside

theorem beginCode_next (log : LogState) (point : BeginPoint) :
    Next log (.beginOp point) (beginCode log point).1 (beginCode log point).2 := by
  cases point with
  | acquire => exact .beginAcquire
  | test =>
    simp only [beginCode]
    by_cases wait : mustSleep log = true
    · rw [if_pos wait]
      exact .beginWait wait
    · rw [if_neg wait]
      exact .beginAdmit (by simpa using wait)
  | sleep point => cases point <;> constructor
  | unlock => exact .beginReturn

theorem writeCode_next (log : LogState) (b : Nat) (point : WritePoint) :
    Next log (.logWrite b point) (writeCode log b point).1 (writeCode log b point).2 := by
  cases point with
  | size =>
    simp only [writeCode]
    split
    next full => exact .writeTooBig full
    next fits => exact .writeFits fits
  | outstanding =>
    simp only [writeCode]
    split
    next nobody => exact .writeOutside nobody
    next => exact .writeInside
  | acquire => exact .writeAcquire
  | absorb => exact .writeAbsorb
  | unlock => exact .writeReturn

theorem endCode_next (log : LogState) (point : EndPoint) :
    Next log (.endOp point) (endCode log point).1 (endCode log point).2 := by
  cases point with
  | test =>
    simp only [endCode]
    split
    next busy => exact .endPanic busy
    next idle =>
      split
      next last => exact .endLast (by simpa using idle) last
      next more => exact .endOther (by simpa using idle) more
  | unlock doCommit => cases doCommit <;> constructor
  | commit =>
    simp only [endCode]
    split
    next => exact .commitSome
    next none => exact .commitNone (List.length_eq_zero_iff.mp (by omega))
  | writeLog copied =>
    simp only [endCode]
    split
    next b slot => exact .copyNext slot
    next done => exact .copyDone (List.getElem?_eq_none_iff.mp done)
  | install tail =>
    simp only [endCode]
    split <;> constructor
  | _ => constructor

theorem code_next {log : LogState} {pc pc' : Pc} {effect : Effect} (next : code log pc = some (effect, pc')) :
    Next log pc effect pc' := by
  cases pc with
  | beginOp point =>
    have moves := beginCode_next log point
    rw [Option.some.inj next] at moves
    exact moves
  | logWrite b point =>
    have moves := writeCode_next log b point
    rw [Option.some.inj next] at moves
    exact moves
  | endOp point =>
    have moves := endCode_next log point
    rw [Option.some.inj next] at moves
    exact moves
  | outside => cases next
  | inside => cases next
  | panicked why => cases next

def Pc.locked : Pc → Bool
  | .beginOp .test | .beginOp (.sleep .acquirePtable) | .beginOp (.sleep .release) | .beginOp .unlock => true
  | .logWrite _ .absorb | .logWrite _ .unlock => true
  | .endOp .test | .endOp .wakeup | .endOp (.unlock _) => true
  | .endOp .settle | .endOp .wakeupAll | .endOp .unlockLast => true
  | .panicked .committing => true
  | _ => false

def Pc.inPtable : Pc → Bool
  | .beginOp (.sleep .release) | .beginOp (.sleep .fall) => true
  | _ => false

-- The operations that log.outstanding counts.
def Pc.counted : Pc → Bool
  | .beginOp .unlock | .inside | .logWrite _ _ | .endOp .acquire | .endOp .test => true
  | .panicked .tooBig | .panicked .outsideOfTrans => true
  | _ => false

def Pc.commits : Pc → Bool
  | .endOp (.unlock true) | .endOp .commit | .endOp (.writeLog _) | .endOp (.writeHead _) => true
  | .endOp (.install _) | .endOp .clear | .endOp .erase | .endOp .reacquire | .endOp .settle => true
  | _ => false

-- The header is on the disk, and log.lh.n is not yet 0.
def Pc.installs : Pc → Bool
  | .endOp (.install _) | .endOp .clear => true
  | _ => false

-- About to sleep on &log; whoever sleeps has passed `fall`.
def Pc.fallsAsleep : Pc → Bool
  | .beginOp (.sleep .acquirePtable) | .beginOp (.sleep .release) | .beginOp (.sleep .fall) => true
  | _ => false

def PointFacts (log : LogState) : Pc → Prop
  | .endOp (.writeLog copied) => copied = log.lh.take copied.length
  | .endOp (.writeHead copied) => copied = log.lh
  | .endOp .erase | .endOp .reacquire | .endOp .settle => log.lh = []
  | _ => True

section Frame

variable {P : Type}

def Effect.onLog (log : LogState) : Effect → LogState
  | .enter => { log with outstanding := log.outstanding + 1 }
  | .absorb b => { log with lh := Log.absorb log.lh b }
  | .leave => { log with
      outstanding := log.outstanding - 1
      committing := log.committing || decide (log.outstanding - 1 = 0) }
  | .clear => { log with lh := [] }
  | .settle => { log with committing := false }
  | _ => log

def Effect.onLock (p : P) (lock : Option P) : Effect → Option P
  | .acquire => some p
  | .release => none
  | _ => lock

def Effect.onPtable (p : P) (ptable : Option P) : Effect → Option P
  | .acquirePtable => some p
  | .fall => none
  | _ => ptable

def Effect.records (p : P) (lh : List Nat) (trace : List (Event P)) : Effect → List (Event P)
  | .enter => .begin p :: trace
  | .absorb b => .write p b :: trace
  | .leave => .finish p :: trace
  | .commit copied => .commit lh copied :: trace
  | _ => trace

variable {effect : Effect}

theorem onLock_same {p : P} {lock : Option P} (keeps : effect ≠ .acquire) (holds : effect ≠ .release) :
    effect.onLock p lock = lock := by
  cases effect with
  | acquire => exact absurd rfl keeps
  | release => exact absurd rfl holds
  | _ => rfl

theorem onPtable_same {p : P} {ptable : Option P} (keeps : effect ≠ .acquirePtable) (holds : effect ≠ .fall) :
    effect.onPtable p ptable = ptable := by
  cases effect with
  | acquirePtable => exact absurd rfl keeps
  | fall => exact absurd rfl holds
  | _ => rfl

theorem onLog_outstanding {log : LogState} (enters : effect ≠ .enter) (leaves : effect ≠ .leave) :
    (effect.onLog log).outstanding = log.outstanding := by
  cases effect with
  | enter => exact absurd rfl enters
  | leave => exact absurd rfl leaves
  | _ => rfl

theorem onLog_committing {log : LogState} (leaves : effect ≠ .leave) (settles : effect ≠ .settle) :
    (effect.onLog log).committing = log.committing := by
  cases effect with
  | leave => exact absurd rfl leaves
  | settle => exact absurd rfl settles
  | _ => rfl

structure Moves (p : P) (s : State P) (effect : Effect) (pc : Pc) (s' : State P) : Prop where
  next : Next s.log (s.procs p).pc effect pc
  log : s'.log = effect.onLog s.log
  lock : s'.lock = effect.onLock p s.lock
  ptable : s'.ptable = effect.onPtable p s.ptable
  trace : s'.trace = effect.records p s.log.lh s.trace
  here : (s'.procs p).pc = pc
  others : ∀ q, q ≠ p → (s'.procs q).pc = (s.procs q).pc
  asked : ∀ q, (s'.procs q).asked = (s.procs q).asked
  sleeping : ∀ q, (s'.procs q).sleeping = true → effect = .fall ∧ q = p ∨ (s.procs q).sleeping = true ∧ effect ≠ .wakeup
  free : effect = .acquire → s.lock = none
  freePtable : effect = .acquirePtable ∨ effect = .wakeup → s.ptable = none
  awake : effect = .resume → (s.procs p).sleeping = false
  bounded : ∀ b, effect = .absorb b → (absorb s.log.lh b).length ≤ logSize

variable [DecidableEq P] {p : P}

theorem perform_frame {s mid : State P} (performed : perform p s effect = some mid) :
    mid.log = effect.onLog s.log ∧ mid.lock = effect.onLock p s.lock ∧ mid.ptable = effect.onPtable p s.ptable ∧
      mid.trace = effect.records p s.log.lh s.trace := by
  cases effect with
  | acquire | acquirePtable | resume | wakeup | absorb =>
    simp only [perform, Runs.guarded] at performed
    obtain ⟨-, rfl⟩ := performed
    exact ⟨rfl, rfl, rfl, rfl⟩
  | _ =>
    cases performed
    exact ⟨rfl, rfl, rfl, rfl⟩

theorem perform_procs {s mid : State P} (performed : perform p s effect = some mid) (q : P) :
    (mid.procs q).pc = (s.procs q).pc ∧ (mid.procs q).asked = (s.procs q).asked ∧ ((mid.procs q).sleeping = true →
        effect = .fall ∧ q = p ∨ (s.procs q).sleeping = true ∧ effect ≠ .wakeup) := by
  cases effect with
  | fall =>
    cases performed
    by_cases here : q = p
    · subst here
      simp
    · simp [here]
  | wakeup =>
    simp only [perform, Runs.guarded] at performed
    obtain ⟨-, rfl⟩ := performed
    exact ⟨rfl, rfl, fun wrong => by cases wrong⟩
  | acquire | acquirePtable | resume | absorb =>
    simp only [perform, Runs.guarded] at performed
    obtain ⟨-, rfl⟩ := performed
    exact ⟨rfl, rfl, fun slept => .inr ⟨slept, by simp⟩⟩
  | _ =>
    cases performed
    exact ⟨rfl, rfl, fun slept => .inr ⟨slept, by simp⟩⟩

theorem goto_procs (s : State P) (p q : P) (pc : Pc) :
    (s.goto p pc).procs q = if q = p then { s.procs p with pc } else s.procs q := by
  by_cases here : q = p
  · subst here
    simp [State.goto]
  · simp [State.goto, here]

theorem statement_moves {s s' : State P} (runs : statement p s = some s') : ∃ effect pc, Moves p s effect pc s' := by
  unfold statement at runs
  obtain ⟨⟨effect, pc⟩, coded, rest⟩ := Option.bind_eq_some_iff.mp runs
  obtain ⟨mid, performed, moved⟩ := Option.bind_eq_some_iff.mp rest
  obtain rfl := Option.some.inj moved
  obtain ⟨log, lock, ptable, trace⟩ := perform_frame performed
  have procs := perform_procs performed
  have guard (g : Prop) [Decidable g] (t : State P) (guarded : (if g then some t else none) = some mid) : g :=
    (Option.ite_none_right_eq_some.mp guarded).1
  refine ⟨effect, pc, code_next coded, log, lock, ptable, trace, ?_, fun q apart => ?_, fun q => ?_, fun q => ?_,
    ?_, ?_, ?_, ?_⟩
  · simp [goto_procs]
  · rw [goto_procs, if_neg apart]
    exact (procs q).1
  · rw [goto_procs]
    split
    next here =>
      rw [here]
      exact (procs p).2.1
    next => exact (procs q).2.1
  · rw [goto_procs]
    split
    next here =>
      rw [here]
      exact (procs p).2.2
    next => exact (procs q).2.2
  · rintro rfl
    exact guard _ _ performed
  · rintro (rfl | rfl)
    · exact guard _ _ performed
    · exact guard _ _ performed
  · rintro rfl
    exact (guard _ _ performed).2
  · rintro b rfl
    exact guard _ _ performed

end Frame

section Classes

variable {log : LogState} {pc pc' : Pc} {effect : Effect}

theorem Next.locks (next : Next log pc effect pc') :
    (effect = .acquire → pc'.locked = true) ∧ (effect = .release → pc.locked = true ∧ pc'.locked = false) ∧
      (effect ≠ .acquire → effect ≠ .release → pc'.locked = pc.locked) := by
  cases next <;> simp [Pc.locked]

theorem Next.ptables (next : Next log pc effect pc') :
    (effect = .acquirePtable → pc'.inPtable = true) ∧ (effect = .fall → pc.inPtable = true ∧ pc'.inPtable = false) ∧
      (effect ≠ .acquirePtable → effect ≠ .fall → pc'.inPtable = pc.inPtable) := by
  cases next <;> simp [Pc.inPtable]

theorem Next.counts (next : Next log pc effect pc') : (effect = .enter → pc.counted = false ∧ pc'.counted = true) ∧
      (effect = .leave → pc.counted = true ∧ pc'.counted = false) ∧
      (effect ≠ .enter → effect ≠ .leave → pc'.counted = pc.counted) := by
  cases next <;> simp [Pc.counted]

theorem Next.commits (next : Next log pc effect pc') :
    (effect = .leave → pc.commits = false ∧ (log.committing = true ∨ pc'.commits = decide (log.outstanding - 1 = 0))) ∧
      (effect = .settle → pc.commits = true ∧ pc'.commits = false) ∧
      (effect ≠ .leave → effect ≠ .settle → pc'.commits = pc.commits) := by
  cases next <;> simp_all [Pc.commits]

theorem Next.installs (next : Next log pc effect pc') :
    ((∃ copied, effect = .commit copied) → pc.installs = false ∧ pc'.installs = true) ∧
      (effect = .clear → pc.installs = true ∧ pc'.installs = false) ∧
      ((∀ copied, effect ≠ .commit copied) → effect ≠ .clear → pc'.installs = pc.installs) := by
  cases next <;> simp [Pc.installs]

theorem installs_commits (installs : pc.installs = true) : pc.commits = true := by
  unfold Pc.installs at installs
  split at installs <;> simp_all [Pc.commits]

theorem Next.facts (next : Next log pc effect pc') (facts : PointFacts log pc) : PointFacts (effect.onLog log) pc' := by
  cases next with
  | commitSome => simp [PointFacts]
  | commitNone nothing => exact nothing
  | copyNext slot =>
    obtain ⟨small, rfl⟩ := List.getElem?_eq_some_iff.mp slot
    simp only [PointFacts, Effect.onLog, List.length_append, List.length_singleton]
    rw [List.take_add_one, slot]
    exact congrArg (· ++ _) facts
  | copyDone all => exact facts.trans (List.take_of_length_le all)
  | erase => exact facts
  | reacquire => exact facts
  | _ => trivial

end Classes

section Counting

open Holders

variable {P : Type} {p : P} {s s' : State P} {effect : Effect} {pc : Pc}

structure Brackets (s : State P) : Prop where
  lock : Held s.lock fun q => (s.procs q).pc.locked
  ptable : Held s.ptable fun q => (s.procs q).pc.inPtable
  outstanding : Counts s.log.outstanding fun q => (s.procs q).pc.counted
  committer : ∃ committer, Held committer (fun q => (s.procs q).pc.commits) ∧ s.log.committing = committer.isSome
  exclusive : s.log.committing = true → s.log.outstanding = 0

theorem Brackets.not_counted (brackets : Brackets s) (busy : s.log.committing = true) (q : P) :
    (s.procs q).pc.counted = false := by
  have none := brackets.outstanding
  rw [brackets.exclusive busy] at none
  exact none.none q

theorem Brackets.committing (brackets : Brackets s) (commits : (s.procs p).pc.commits = true) :
    s.log.committing = true := by
  obtain ⟨committer, held, busy⟩ := brackets.committer
  rw [busy, (held p).mpr commits]
  rfl

theorem Brackets.alone (brackets : Brackets s) {q : P} (mine : (s.procs p).pc.commits = true)
    (other : (s.procs q).pc.commits = true) : p = q := by
  obtain ⟨committer, held, -⟩ := brackets.committer
  exact held.unique mine other

theorem Brackets.quiet (brackets : Brackets s) (idle : s.log.committing = false) (q : P) :
    (s.procs q).pc.commits = false := by
  cases commits : (s.procs q).pc.commits with
  | false => rfl
  | true => rw [brackets.committing commits] at idle; cases idle

theorem Brackets.idle (brackets : Brackets s) (counted : (s.procs p).pc.counted = true) :
    s.log.committing = false := by
  cases busy : s.log.committing with
  | false => rfl
  | true => rw [brackets.not_counted busy p] at counted; cases counted

variable [DecidableEq P]

theorem Moves.brackets (moves : Moves p s effect pc s') (brackets : Brackets s) : Brackets s' := by
  have locks := moves.next.locks
  have ptables := moves.next.ptables
  have counts := moves.next.counts
  have commits := moves.next.commits
  have other {A : Type} (f : Pc → A) (q : P) (apart : q ≠ p) : f (s'.procs q).pc = f (s.procs q).pc := by
    rw [moves.others q apart]
  have all {A : Type} (f : Pc → A) (same : f pc = f (s.procs p).pc) (q : P) :
      f (s'.procs q).pc = f (s.procs q).pc := by
    by_cases here : q = p
    · rw [here, moves.here, same]
    · exact other f q here
  constructor
  · rw [moves.lock]
    by_cases acquires : effect = .acquire
    · have free := brackets.lock
      rw [moves.free acquires] at free
      subst acquires
      exact free.acquire (by rw [moves.here]; exact locks.1 rfl) (other Pc.locked)
    · by_cases releases : effect = .release
      · subst releases
        exact brackets.lock.release (locks.2.1 rfl).1 (by rw [moves.here]; exact (locks.2.1 rfl).2) (other Pc.locked)
      · rw [onLock_same acquires releases]
        exact brackets.lock.same (all Pc.locked (locks.2.2 acquires releases))
  · rw [moves.ptable]
    by_cases acquires : effect = .acquirePtable
    · have free := brackets.ptable
      rw [moves.freePtable (.inl acquires)] at free
      subst acquires
      exact free.acquire (by rw [moves.here]; exact ptables.1 rfl) (other Pc.inPtable)
    · by_cases releases : effect = .fall
      · subst releases
        exact brackets.ptable.release (ptables.2.1 rfl).1 (by rw [moves.here]; exact (ptables.2.1 rfl).2)
          (other Pc.inPtable)
      · rw [onPtable_same acquires releases]
        exact brackets.ptable.same (all Pc.inPtable (ptables.2.2 acquires releases))
  · rw [moves.log]
    by_cases admits : effect = .enter
    · subst admits
      exact brackets.outstanding.enter (counts.1 rfl).1 (by rw [moves.here]; exact (counts.1 rfl).2) (other Pc.counted)
    · by_cases leaves : effect = .leave
      · subst leaves
        exact brackets.outstanding.leave (counts.2.1 rfl).1 (by rw [moves.here]; exact (counts.2.1 rfl).2)
          (other Pc.counted)
      · rw [onLog_outstanding admits leaves]
        exact brackets.outstanding.same (all Pc.counted (counts.2.2 admits leaves))
  · rw [moves.log]
    obtain ⟨committer, held, busy⟩ := brackets.committer
    by_cases leaves : effect = .leave
    · subst leaves
      have idle := brackets.idle (counts.2.1 rfl).1
      have nobody : committer = none := by simpa [idle] using busy.symm
      subst nobody
      have decided : pc.commits = decide (s.log.outstanding - 1 = 0) := by simpa [idle] using (commits.1 rfl).2
      by_cases last : s.log.outstanding - 1 = 0
      · refine ⟨some p, held.acquire ?_ (other Pc.commits), ?_⟩
        · rw [moves.here, decided]
          simpa using last
        · simp [Effect.onLog, last]
      · refine ⟨none, held.same (all Pc.commits ?_), ?_⟩
        · rw [decided, (commits.1 rfl).1]
          simpa using last
        · simp [Effect.onLog, last, idle]
    · by_cases settles : effect = .settle
      · subst settles
        refine ⟨none, held.release (commits.2.1 rfl).1 ?_ (other Pc.commits), rfl⟩
        rw [moves.here]
        exact (commits.2.1 rfl).2
      · refine ⟨committer, held.same (all Pc.commits (commits.2.2 leaves settles)), ?_⟩
        rw [← busy]
        exact onLog_committing leaves settles
  · rw [moves.log]
    intro busy
    by_cases admits : effect = .enter
    · -- begin_op goes on only while nobody commits.
      subst admits
      have room : mustSleep s.log = false := by
        have next := moves.next
        generalize (s.procs p).pc = before at next
        cases next
        assumption
      simp only [mustSleep, Bool.or_eq_false_iff] at room
      simp only [Effect.onLog] at busy
      rw [room.1] at busy
      cases busy
    · by_cases leaves : effect = .leave
      · subst leaves
        simpa [Effect.onLog, brackets.idle (counts.2.1 rfl).1] using busy
      · rw [onLog_outstanding admits leaves]
        refine brackets.exclusive ?_
        cases effect with
        | settle => cases busy
        | leave => exact absurd rfl leaves
        | _ => exact busy

end Counting

section Contents

variable {P : Type} [DecidableEq P]

def logged : List (Event P) → List Nat
  | [] => []
  | .write _ blockno :: earlier => blockno :: logged earlier
  | .commit _ _ :: _ => []
  | .begin _ :: earlier | .finish _ :: earlier => logged earlier

def begun (p : P) : List (Event P) → Nat
  | [] => 0
  | .begin q :: earlier => begun p earlier + if q = p then 1 else 0
  | _ :: earlier => begun p earlier

def finished (p : P) : List (Event P) → Nat
  | [] => 0
  | .finish q :: earlier => finished p earlier + if q = p then 1 else 0
  | _ :: earlier => finished p earlier

/-- Every commit holds, each once, the blocks logged since the one before, and comes when every operation
begun so far is finished. -/
def Whole : List (Event P) → Prop
  | [] => True
  | .commit lh copied :: earlier =>
    Whole earlier ∧ copied = lh ∧ lh.Nodup ∧ (∀ blockno, blockno ∈ lh ↔ blockno ∈ logged earlier) ∧
      ∀ p, begun p earlier = finished p earlier
  | .begin _ :: earlier | .write _ _ :: earlier | .finish _ :: earlier => Whole earlier

structure Contents (s : State P) : Prop where
  quiet : s.log.outstanding = 0 → s.log.committing = false → s.log.lh = []
  nodup : s.log.lh.Nodup
  pending : (∀ q, (s.procs q).pc.installs = false) → ∀ blockno, blockno ∈ s.log.lh ↔ blockno ∈ logged s.trace
  installed : ∀ q, (s.procs q).pc.installs = true → logged s.trace = []
  points : ∀ q, PointFacts s.log (s.procs q).pc
  operations : ∀ q, begun q s.trace = finished q s.trace + if (s.procs q).pc.counted then 1 else 0
  whole : Whole s.trace

variable {p : P} {s s' : State P} {effect : Effect} {pc : Pc}

omit [DecidableEq P] in
theorem absorb_nodup {lh : List Nat} (nodup : lh.Nodup) (blockno : Nat) : (absorb lh blockno).Nodup := by
  unfold absorb
  split
  next => exact nodup
  next absent => exact nodup.append (List.nodup_singleton _) (by simpa using absent)

omit [DecidableEq P] in
theorem Moves.lh_same (moves : Moves p s effect pc s') (calm : (s.procs p).pc.counted = false)
    (idle : (s.procs p).pc.commits = false) : (effect.onLog s.log).lh = s.log.lh := by
  have next := moves.next
  generalize (s.procs p).pc = before at next calm idle
  cases next <;> first | rfl | (cases calm; done) | cases idle

omit [DecidableEq P] in
theorem facts_of_lh {log log' : LogState} (same : log'.lh = log.lh) (facts : PointFacts log pc) :
    PointFacts log' pc := by
  cases pc with
  | endOp point =>
    cases point <;> first | trivial | (simp only [PointFacts, same]; exact facts)
  | _ => trivial

omit [DecidableEq P] in
theorem facts_outside (log : LogState) (idle : pc.commits = false) : PointFacts log pc := by
  unfold PointFacts
  split <;> simp_all [Pc.commits]

theorem Moves.points (moves : Moves p s effect pc s') (brackets : Brackets s) (contents : Contents s) (q : P) :
    PointFacts s'.log (s'.procs q).pc := by
  rw [moves.log]
  by_cases here : q = p
  · rw [here, moves.here]
    exact moves.next.facts (contents.points p)
  · rw [moves.others q here]
    cases commits : (s.procs q).pc.commits with
    | false => exact facts_outside _ commits
    | true =>
      have busy := brackets.committing commits
      refine facts_of_lh (moves.lh_same (brackets.not_counted busy p) ?_) (contents.points q)
      cases also : (s.procs p).pc.commits with
      | false => rfl
      | true => exact absurd (brackets.alone commits also) here

theorem Moves.quiet (moves : Moves p s effect pc s') (brackets : Brackets s) (contents : Contents s)
    (none : s'.log.outstanding = 0) (idle : s'.log.committing = false) : s'.log.lh = [] := by
  rw [moves.log] at none idle ⊢
  have next := moves.next
  have counted := brackets.outstanding
  have facts := contents.points p
  have positive (inside : (s.procs p).pc.counted = true) : 1 ≤ s.log.outstanding := counted.pos inside
  generalize (s.procs p).pc = before at next facts positive
  cases next with
  | beginAdmit => simp [Effect.onLog] at none
  | writeAbsorb =>
    have := positive rfl
    simp only [Effect.onLog] at none
    omega
  | endPanic busy => simp [Effect.onLog, busy] at idle
  | endLast _ last => simp [Effect.onLog, last] at idle
  | endOther _ more => exact absurd none more
  | clear => rfl
  | settle => exact facts
  | _ => exact contents.quiet none idle

theorem Moves.operations (moves : Moves p s effect pc s') (contents : Contents s) (q : P) :
    begun q s'.trace = finished q s'.trace + if (s'.procs q).pc.counted then 1 else 0 := by
  rw [moves.trace]
  have before := contents.operations q
  by_cases here : q = p
  · subst here
    rw [moves.here]
    have next := moves.next
    generalize (s.procs q).pc = old at next before
    cases next <;> simpa [Effect.records, begun, finished, Pc.counted] using before
  · rw [moves.others q here]
    have apart : p ≠ q := fun same => here same.symm
    cases effect <;> simpa [Effect.records, begun, finished, apart] using before

theorem Moves.whole (moves : Moves p s effect pc s') (brackets : Brackets s) (contents : Contents s) :
    Whole s'.trace := by
  rw [moves.trace]
  have next := moves.next
  cases effect with
  | commit copied =>
    obtain ⟨copying, installs⟩ : (s.procs p).pc = .endOp (.writeHead copied) ∧ pc = .endOp (.install 0) := by
      generalize (s.procs p).pc = old at next
      cases next
      exact ⟨rfl, rfl⟩
    have commits : (s.procs p).pc.commits = true := by rw [copying]; rfl
    have facts := contents.points p
    rw [copying] at facts
    have calm (q : P) : (s.procs q).pc.installs = false := by
      cases installing : (s.procs q).pc.installs with
      | false => rfl
      | true =>
        have same := brackets.alone commits (installs_commits installing)
        rw [← same, copying] at installing
        cases installing
    refine ⟨contents.whole, facts, contents.nodup, contents.pending calm, fun q => ?_⟩
    have ops := contents.operations q
    rwa [brackets.not_counted (brackets.committing commits) q] at ops
  | _ => exact contents.whole

theorem Moves.contents (moves : Moves p s effect pc s') (brackets : Brackets s) (contents : Contents s) :
    Contents s' := by
  have installs := moves.next.installs
  have other (q : P) (apart : q ≠ p) : (s'.procs q).pc.installs = (s.procs q).pc.installs := by
    rw [moves.others q apart]
  refine ⟨moves.quiet brackets contents, ?_, fun calm blockno => ?_, fun q installing => ?_,
    moves.points brackets contents, moves.operations contents, moves.whole brackets contents⟩
  · rw [moves.log]
    cases effect with
    | absorb b => exact absorb_nodup contents.nodup b
    | clear => exact List.nodup_nil
    | _ => exact contents.nodup
  · rw [moves.log, moves.trace]
    cases effect with
    | clear =>
      simp [Effect.onLog, Effect.records, contents.installed p (installs.2.1 rfl).1]
    | commit copied =>
      have here := (installs.1 ⟨copied, rfl⟩).2
      rw [← moves.here, calm p] at here
      cases here
    | absorb b =>
      have before (q : P) : (s.procs q).pc.installs = false := by
        by_cases here : q = p
        · rw [here, ← installs.2.2 (by simp) (by simp), ← moves.here]
          exact calm p
        · rw [← other q here]
          exact calm q
      simp only [Effect.onLog, Effect.records, logged, mem_absorb, List.mem_cons]
      rw [contents.pending before]
    | _ =>
      refine contents.pending (fun q => ?_) blockno
      by_cases here : q = p
      · rw [here, ← installs.2.2 (by simp) (by simp), ← moves.here]
        exact calm p
      · rw [← other q here]
        exact calm q
  · rw [moves.trace]
    cases effect with
    | commit copied => rfl
    | absorb b =>
      -- A writer is counted, and nobody commits then.
      have writer : (s.procs p).pc.counted = true := by
        have next := moves.next
        generalize (s.procs p).pc = old at next
        cases next
        rfl
      by_cases here : q = p
      · rw [here, moves.here, installs.2.2 (by simp) (by simp)] at installing
        rw [brackets.not_counted (brackets.committing (installs_commits installing)) p] at writer
        cases writer
      · rw [other q here] at installing
        rw [brackets.not_counted (brackets.committing (installs_commits installing)) p] at writer
        cases writer
    | clear =>
      by_cases here : q = p
      · rw [here, moves.here, (installs.2.1 rfl).2] at installing
        cases installing
      · rw [other q here] at installing
        exact contents.installed q installing
    | _ =>
      by_cases here : q = p
      · rw [here, moves.here, installs.2.2 (by simp) (by simp)] at installing
        exact contents.installed p installing
      · rw [other q here] at installing
        exact contents.installed q installing

end Contents

end Xv6.GroupCommit
