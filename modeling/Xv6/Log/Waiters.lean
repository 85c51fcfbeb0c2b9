import Xv6.Log.Protocol

set_option autoImplicit false

namespace Xv6.GroupCommit

open Log Holders

variable {P : Type} [DecidableEq P] {p : P} {s s' : State P} {effect : Effect} {pc : Pc}

structure Waiters (s : State P) : Prop where
  sleeping : ∀ q, (s.procs q).sleeping = true → (s.procs q).pc = .beginOp (.sleep .asleep)
  hope : ∀ q, (s.procs q).pc.fallsAsleep = true ∨ (s.procs q).sleeping = true →
    s.log.committing = true ∨ 1 ≤ s.log.outstanding ∨ ∃ r, (s.procs r).pc = .endOp .wakeupAll

-- The admission test only fails while somebody is in an operation or commits.
theorem mustSleep_reason (contents : Contents s) (wait : mustSleep s.log = true) :
    s.log.committing = true ∨ 1 ≤ s.log.outstanding := by
  by_contra neither
  rw [not_or, Bool.not_eq_true] at neither
  have none : s.log.outstanding = 0 := by omega
  have empty := contents.quiet none neither.1
  simp [mustSleep, neither.1, none, empty, maxOpBlocks, logSize] at wait

theorem fallsAsleep_locks (falls : pc.fallsAsleep = true) : pc.locked = true ∨ pc.inPtable = true := by
  unfold Pc.fallsAsleep at falls
  split at falls <;> simp_all [Pc.locked, Pc.inPtable]

omit [DecidableEq P] in
theorem Moves.nobody_falls (moves : Moves p s .wakeup pc s') (brackets : Brackets s) (q : P) :
    (s.procs q).pc.fallsAsleep = false := by
  cases falls : (s.procs q).pc.fallsAsleep with
  | false => rfl
  | true =>
    have ptable := brackets.ptable
    rw [moves.freePtable (.inr rfl)] at ptable
    have mine : (s.procs p).pc.locked = true ∧ (s.procs p).pc.fallsAsleep = false := by
      have next := moves.next
      generalize (s.procs p).pc = before at next
      cases next <;> exact ⟨rfl, rfl⟩
    rcases fallsAsleep_locks falls with locked | inPtable
    · have same : p = q := brackets.lock.unique mine.1 locked
      rw [← same, mine.2] at falls
      cases falls
    · rw [ptable.free q] at inPtable
      cases inPtable

theorem Moves.waiters (moves : Moves p s effect pc s') (brackets : Brackets s) (contents : Contents s)
    (waiters : Waiters s) : Waiters s' := by
  have next := moves.next
  have counts := next.counts
  -- What gives hope before the step still does after it.
  have keeps (hope : s.log.committing = true ∨ 1 ≤ s.log.outstanding ∨ ∃ r, (s.procs r).pc = .endOp .wakeupAll)
      (quiet : effect ≠ .wakeup) :
      s'.log.committing = true ∨ 1 ≤ s'.log.outstanding ∨ ∃ r, (s'.procs r).pc = .endOp .wakeupAll := by
    by_cases settles : effect = .settle
    · refine .inr (.inr ⟨p, ?_⟩)
      rw [moves.here]
      generalize (s.procs p).pc = before at next
      subst settles
      cases next
      rfl
    · rw [moves.log]
      rcases hope with busy | some | ⟨r, wakes⟩
      · left
        cases effect with
        | leave => simp [Effect.onLog, busy]
        | settle => exact absurd rfl settles
        | _ => exact busy
      · cases effect with
        | leave =>
          by_cases last : s.log.outstanding - 1 = 0
          · left
            simp [Effect.onLog, last]
          · right; left
            simp only [Effect.onLog]
            omega
        | enter => exact .inr (.inl (Nat.le_add_left 1 _))
        | settle => exact absurd rfl settles
        | _ => exact .inr (.inl some)
      · refine .inr (.inr ⟨r, ?_⟩)
        by_cases here : r = p
        · rw [here] at wakes
          rw [wakes] at next
          cases next
          exact absurd rfl quiet
        · rw [moves.others r here]
          exact wakes
  constructor
  · intro q sleeps
    rcases moves.sleeping q sleeps with ⟨rfl, rfl⟩ | ⟨slept, -⟩
    · rw [moves.here]
      generalize (s.procs q).pc = before at next
      cases next
      rfl
    · have asleep := waiters.sleeping q slept
      by_cases here : q = p
      · -- A sleeping process makes no step.
        rw [← here, asleep] at next
        cases next
        rw [here, moves.awake rfl] at slept
        cases slept
      · rw [moves.others q here]
        exact asleep
  · intro q waits
    by_cases wakes : effect = .wakeup
    · subst wakes
      have falls : (s'.procs q).pc.fallsAsleep = false := by
        by_cases here : q = p
        · rw [here, moves.here]
          generalize (s.procs p).pc = before at next
          cases next <;> rfl
        · rw [moves.others q here]
          exact moves.nobody_falls brackets q
      rcases waits with going | sleeps
      · rw [falls] at going
        cases going
      · rcases moves.sleeping q sleeps with ⟨wrong, -⟩ | ⟨-, wrong⟩
        · cases wrong
        · exact absurd rfl wrong
    · by_cases decides : (s.procs p).pc = .beginOp .test ∧ effect = .stay
      · obtain ⟨test, rfl⟩ := decides
        rw [test] at next
        cases next with
        | beginWait wait =>
          rcases mustSleep_reason contents wait with busy | some
          · exact keeps (.inl busy) wakes
          · exact keeps (.inr (.inl some)) wakes
      · refine keeps (waiters.hope q ?_) wakes
        by_cases here : q = p
        · rw [here]
          rw [here, moves.here] at waits
          rcases waits with going | sleeps
          · left
            generalize (s.procs p).pc = before at next decides
            cases next <;> first | (cases going; done) | rfl | exact absurd ⟨rfl, rfl⟩ decides
          · rcases moves.sleeping p sleeps with ⟨falls, -⟩ | ⟨slept, -⟩
            · left
              subst falls
              generalize (s.procs p).pc = before at next
              cases next
              rfl
            · exact .inr slept
        · rw [moves.others q here] at waits
          refine waits.imp_right fun sleeps => ?_
          rcases moves.sleeping q sleeps with ⟨-, same⟩ | ⟨slept, -⟩
          · exact absurd same here
          · exact slept

structure Protocol (s : State P) : Prop extends Brackets s, Contents s, Waiters s

def Pc.classes (pc : Pc) : List Bool :=
  [pc.locked, pc.inPtable, pc.counted, pc.commits, pc.installs, pc.fallsAsleep, pc = .endOp .wakeupAll]

theorem Protocol.call (protocol : Protocol s) {proc : Proc} (same : proc.pc.classes = (s.procs p).pc.classes)
    (facts : PointFacts s.log proc.pc)
    (sleeping : proc.sleeping = true → (s.procs p).sleeping = true ∧ proc.pc = .beginOp (.sleep .asleep)) :
    Protocol (GroupCommit.call p s proc) := by
  simp only [Pc.classes, List.cons.injEq, and_true, decide_eq_decide] at same
  obtain ⟨locked, inPtable, counted, commits, installs, falls, wakes⟩ := same
  have procs (q : P) : (GroupCommit.call p s proc).procs q = if q = p then proc else s.procs q :=
    Function.update_apply s.procs p proc q
  have keeps {A : Type} (f : Pc → A) (same : f proc.pc = f (s.procs p).pc) (q : P) :
      f ((GroupCommit.call p s proc).procs q).pc = f (s.procs q).pc := by
    rw [procs]
    split
    next here => rw [here, same]
    next => rfl
  constructor
  · obtain ⟨committer, held, busy⟩ := protocol.committer
    exact ⟨protocol.lock.same (keeps Pc.locked locked), protocol.ptable.same (keeps Pc.inPtable inPtable),
      protocol.outstanding.same (keeps Pc.counted counted),
      ⟨committer, held.same (keeps Pc.commits commits), busy⟩, protocol.exclusive⟩
  · refine ⟨protocol.quiet, protocol.nodup, fun calm => protocol.pending fun q => ?_, fun q installing => ?_,
      fun q => ?_, fun q => ?_, protocol.whole⟩
    · rw [← keeps Pc.installs installs q]
      exact calm q
    · rw [keeps Pc.installs installs q] at installing
      exact protocol.installed q installing
    · rw [procs]
      split
      next => exact facts
      next => exact protocol.points q
    · rw [keeps Pc.counted counted q]
      exact protocol.operations q
  · refine ⟨fun q slept => ?_, fun q waits => ?_⟩
    · rw [procs] at slept ⊢
      split at slept
      next here =>
        rw [if_pos here]
        exact (sleeping slept).2
      next here =>
        rw [if_neg here]
        exact protocol.sleeping q slept
    · have before : (s.procs q).pc.fallsAsleep = true ∨ (s.procs q).sleeping = true := by
        rw [keeps Pc.fallsAsleep falls q] at waits
        refine waits.imp_right fun slept => ?_
        rw [procs] at slept
        split at slept
        next here =>
          rw [here]
          exact (sleeping slept).1
        next => exact slept
      rcases protocol.hope q before with busy | some | ⟨r, waking⟩
      · exact .inl busy
      · exact .inr (.inl some)
      · refine .inr (.inr ⟨r, ?_⟩)
        rw [procs]
        split
        next here =>
          rw [here] at waking
          exact wakes.mpr waking
        next => exact waking

theorem step_protocol {a : Action P} (protocol : Protocol s) (next : step a s = some s') : Protocol s' := by
  have slept (q : P) (pc : Pc) (here : (s.procs q).pc = pc) (awake : pc ≠ .beginOp (.sleep .asleep)) :
      (s.procs q).sleeping = true → False := fun slept => awake (here.symm.trans (protocol.sleeping q slept))
  cases a with
  | beginOp p | logWrite p blockno | endOp p =>
    simp only [step, Runs.guarded] at next
    obtain ⟨here, rfl⟩ := next
    refine protocol.call (by rw [here]; rfl) trivial fun sleeping => ?_
    exact (slept p _ here (by simp) sleeping).elim
  | statement p =>
    obtain ⟨effect, pc, moves⟩ := statement_moves next
    exact ⟨moves.brackets protocol.toBrackets, moves.contents protocol.toBrackets protocol.toContents,
      moves.waiters protocol.toBrackets protocol.toContents protocol.toWaiters⟩
  | kill p =>
    simp only [step, Runs.guarded] at next
    obtain ⟨-, rfl⟩ := next
    exact protocol.call rfl (protocol.points p) fun wrong => by cases wrong

theorem started_protocol (started : Started s) : Protocol s := by
  have outside {A : Type} (f : Pc → A) (q : P) : f (s.procs q).pc = f .outside := by rw [(started.idle q).1]
  have free (f : Pc → Bool) (off : f .outside = false) : Held none fun q => f (s.procs q).pc := by
    intro q
    simp [outside f q, off]
  constructor
  · refine ⟨?_, ?_, ?_, ⟨none, free Pc.commits rfl, started.committing⟩, fun _ => started.outstanding⟩
    · rw [started.lock]
      exact free Pc.locked rfl
    · rw [started.ptable]
      exact free Pc.inPtable rfl
    · rw [started.outstanding]
      exact counts_zero fun q => outside Pc.counted q
  · refine ⟨fun _ _ => started.lh, ?_, fun _ blockno => ?_, fun q installing => ?_, fun q => ?_, fun q => ?_, ?_⟩
    · rw [started.lh]
      exact List.nodup_nil
    · rw [started.lh, started.trace]
      rfl
    · rw [outside Pc.installs q] at installing
      cases installing
    · rw [(started.idle q).1]
      trivial
    · rw [started.trace, outside Pc.counted q]
      rfl
    · rw [started.trace]
      trivial
  · refine ⟨fun q slept => ?_, fun q waits => ?_⟩
    · rw [(started.idle q).2] at slept
      cases slept
    · rw [outside Pc.fallsAsleep q, (started.idle q).2] at waits
      simp [Pc.fallsAsleep] at waits

abbrev Reached (s : State P) : Prop := Runs.Reachable step (fun _ _ => True) Started s

theorem reached_protocol (reached : Reached s) : Protocol s :=
  reached.invariant Protocol (fun _ => started_protocol) fun _ _ _ protocol _ next => step_protocol protocol next

def Pc.inOperation : Pc → Bool
  | .inside | .logWrite _ _ | .endOp .acquire | .endOp .test => true
  | _ => false

theorem inOperation_counted {pc : Pc} (inside : pc.inOperation = true) : pc.counted = true := by
  unfold Pc.inOperation at inside
  split at inside <;> first | rfl | cases inside

theorem Protocol.panic_free (protocol : Protocol s) {a : Action P} (next : step a s = some s')
    (before : ∀ q, (s.procs q).pc ≠ .panicked .outsideOfTrans ∧ (s.procs q).pc ≠ .panicked .committing) (q : P) :
    (s'.procs q).pc ≠ .panicked .outsideOfTrans ∧ (s'.procs q).pc ≠ .panicked .committing := by
  have called (p : P) (proc : Proc) (fine : proc.pc ≠ .panicked .outsideOfTrans ∧ proc.pc ≠ .panicked .committing) :
      ((GroupCommit.call p s proc).procs q).pc ≠ .panicked .outsideOfTrans ∧
        ((GroupCommit.call p s proc).procs q).pc ≠ .panicked .committing := by
    rw [show (GroupCommit.call p s proc).procs q = if q = p then proc else s.procs q from
      Function.update_apply s.procs p proc q]
    split
    next => exact fine
    next => exact before q
  cases a with
  | beginOp p | logWrite p blockno | endOp p =>
    simp only [step, Runs.guarded] at next
    obtain ⟨-, rfl⟩ := next
    exact called p _ ⟨by simp, by simp⟩
  | kill p =>
    simp only [step, Runs.guarded] at next
    obtain ⟨-, rfl⟩ := next
    exact called p _ (before p)
  | statement p =>
    obtain ⟨effect, pc, moves⟩ := statement_moves next
    by_cases here : q = p
    · rw [here, moves.here]
      have inside := protocol.outstanding.pos (p := p)
      have idle := protocol.toBrackets.idle (p := p)
      have moved := moves.next
      generalize (s.procs p).pc = old at moved inside idle
      cases moved with
      | writeOutside nobody => exact absurd (inside rfl) (by omega)
      | endPanic busy => rw [idle rfl] at busy; cases busy
      | _ => exact ⟨by simp, by simp⟩
    · rw [moves.others q here]
      exact before q

theorem reached_panic_free (reached : Reached s) (q : P) :
    (s.procs q).pc ≠ .panicked .outsideOfTrans ∧ (s.procs q).pc ≠ .panicked .committing := by
  induction reached generalizing q with
  | start started =>
    rw [(started.idle q).1]
    exact ⟨by simp, by simp⟩
  | step reached _ next ih => exact (reached_protocol reached).panic_free next ih q

theorem Protocol.commit_alone (protocol : Protocol s) {a : Action P} (next : step a s = some s')
    (busy : s.log.committing = true) : s'.trace = s.trace ∨ ∃ lh copied, s'.trace = .commit lh copied :: s.trace := by
  cases a with
  | beginOp p | logWrite p blockno | endOp p | kill p =>
    simp only [step, Runs.guarded] at next
    obtain ⟨-, rfl⟩ := next
    exact .inl rfl
  | statement p =>
    obtain ⟨effect, pc, moves⟩ := statement_moves next
    have none := protocol.toBrackets.not_counted busy p
    have moved := moves.next
    rw [moves.trace]
    generalize (s.procs p).pc = old at moved none
    cases moved with
    | beginAdmit room => simp [mustSleep, busy] at room
    | writeAbsorb => cases none
    | endPanic | endLast | endOther => cases none
    | writeHead => exact .inr ⟨_, _, rfl⟩
    | _ => exact .inl rfl

theorem group_commit (s : State P) (reached : Reached s) : (s.log.committing = true → s.log.outstanding = 0) ∧
      (s.log.committing = true →
        (∀ p, (s.procs p).pc.inOperation = false) ∧
          ∀ a s', step a s = some s' → s'.trace = s.trace ∨ ∃ lh copied, s'.trace = .commit lh copied :: s.trace) ∧
      (∀ p, (s.procs p).pc ≠ .panicked .outsideOfTrans ∧ (s.procs p).pc ≠ .panicked .committing) ∧
      Whole s.trace ∧
      (s.log.outstanding = 0 → s.log.committing = false → s.log.lh = []) ∧
      s.log.lh.Nodup ∧
      (s.lock = none → ∀ p, (s.procs p).sleeping = true → s.log.committing = true ∨ 1 ≤ s.log.outstanding) := by
  have protocol := reached_protocol reached
  refine ⟨protocol.exclusive, fun busy => ⟨fun p => ?_, fun a s' next => protocol.commit_alone next busy⟩,
    reached_panic_free reached, protocol.whole, protocol.quiet, protocol.nodup, fun free p slept => ?_⟩
  · cases inside : (s.procs p).pc.inOperation with
    | false => rfl
    | true =>
      have counted := inOperation_counted inside
      rw [protocol.toBrackets.not_counted busy p] at counted
      cases counted
  · rcases protocol.hope p (.inr slept) with busy | some | ⟨r, wakes⟩
    · exact .inl busy
    · exact .inr some
    · -- wakeupAll is run with log.lock held.
      have held := protocol.lock
      rw [free] at held
      have locked := held.free r
      rw [wakes] at locked
      cases locked

local instance twoProcesses : NeZero 2 := ⟨two_ne_zero⟩

def commitRun : List (Action (Fin 2)) :=
  .beginOp 0 :: List.replicate 3 (.statement 0) ++ .logWrite 0 5 :: List.replicate 5 (.statement 0) ++
    .endOp 0 :: List.replicate 3 (.statement 0) ++ .beginOp 1 :: List.replicate 5 (.statement 1)

theorem group_commit_sleeper :
    ∃ s : State (Fin 2), Runs.run step commitRun (fresh (Fin 2) 30) = some s ∧ s.log.lh = [5] ∧
      s.log.committing = true ∧ s.log.outstanding = 0 ∧ (s.procs 1).sleeping = true := by
  refine ⟨_, rfl, rfl, rfl, ?_, rfl⟩
  exact (group_commit _ (Runs.reachable_run (.start (fresh_started (Fin 2) 30)) commitRun rfl)).1 rfl

end Xv6.GroupCommit
