import Xv6.Log.Waiters

set_option autoImplicit false

namespace Xv6.GroupCommit

open Log

variable {P : Type} [DecidableEq P] {p : P} {s s' : State P}

def Bounded (s : State P) : Action P → Prop
  | .logWrite p blockno => (blockno :: (s.procs p).asked).toFinset.card ≤ maxOpBlocks
  | _ => True

/-- log_write is called while the operations since the last commit have logged so few different blocks. -/
def Fits (s : State P) : Action P → Prop
  | .statement p => ∀ blockno, (s.procs p).pc = .logWrite blockno .size →
      (logged s.trace).toFinset.card < nlog - 1
  | _ => True

theorem step_size {a : Action P} (next : step a s = some s') : s'.log.size = s.log.size := by
  cases a with
  | statement p =>
    obtain ⟨effect, pc, moves⟩ := statement_moves next
    rw [moves.log]
    cases effect <;> rfl
  | _ =>
    simp only [step, Runs.guarded] at next
    obtain ⟨-, rfl⟩ := next
    rfl

theorem Protocol.logged_card (protocol : Protocol s) (counted : (s.procs p).pc.counted = true) :
    (logged s.trace).toFinset.card = s.log.lh.length := by
  have idle := protocol.toBrackets.idle counted
  have calm (q : P) : (s.procs q).pc.installs = false := by
    cases installs : (s.procs q).pc.installs with
    | false => rfl
    | true =>
      have commits := installs_commits installs
      rw [protocol.toBrackets.quiet idle q] at commits
      cases commits
  have same : (logged s.trace).toFinset = s.log.lh.toFinset := by
    ext blockno
    rw [List.mem_toFinset, List.mem_toFinset, protocol.pending calm]
  rw [same, List.toFinset_card_of_nodup protocol.nodup]

theorem call_panicked (proc : Proc) (fine : proc.pc ≠ .panicked .tooBig) (before : (s.procs p).pc ≠ .panicked .tooBig) :
    (∃ q, ((call p s proc).procs q).pc = .panicked .tooBig) ↔ ∃ q, (s.procs q).pc = .panicked .tooBig := by
  have procs (q : P) : (call p s proc).procs q = if q = p then proc else s.procs q :=
    Function.update_apply s.procs p proc q
  refine exists_congr fun q => ?_
  rw [procs]
  split
  next here =>
    rw [here]
    exact ⟨fun wrong => absurd wrong fine, fun wrong => absurd wrong before⟩
  next => exact Iff.rfl

theorem step_panicked {a : Action P} (protocol : Protocol s) (geometry : s.log.size = nlog) (next : step a s = some s') :
    (∃ q, (s'.procs q).pc = .panicked .tooBig) ↔ (∃ q, (s.procs q).pc = .panicked .tooBig) ∨ ¬ Fits s a := by
  cases a with
  | beginOp p | logWrite p blockno | endOp p =>
    simp only [step, Runs.guarded] at next
    obtain ⟨here, rfl⟩ := next
    rw [call_panicked _ (by simp) (by simp [here])]
    simp [Fits]
  | kill p =>
    simp only [step, Runs.guarded] at next
    obtain ⟨-, rfl⟩ := next
    have same (q : P) : ((call p s { s.procs p with sleeping := false }).procs q).pc = (s.procs q).pc := by
      rw [show (call p s { s.procs p with sleeping := false }).procs q = _ from
        Function.update_apply s.procs p { s.procs p with sleeping := false } q]
      split
      next here => rw [here]
      next => rfl
    simp only [same, Fits, not_true_eq_false, or_false]
  | statement p =>
    obtain ⟨effect, pc, moves⟩ := statement_moves next
    have others : (∃ q, (s'.procs q).pc = .panicked .tooBig) ↔
        pc = .panicked .tooBig ∨ ∃ q, q ≠ p ∧ (s.procs q).pc = .panicked .tooBig := by
      constructor
      · rintro ⟨q, stopped⟩
        by_cases here : q = p
        · rw [here, moves.here] at stopped
          exact .inl stopped
        · rw [moves.others q here] at stopped
          exact .inr ⟨q, here, stopped⟩
      · rintro (stopped | ⟨q, apart, stopped⟩)
        · exact ⟨p, moves.here.trans stopped⟩
        · exact ⟨q, (moves.others q apart).trans stopped⟩
    have moved := moves.next
    -- The process that moves has not stopped before.
    have running : (s.procs p).pc ≠ .panicked .tooBig := by
      intro stopped
      rw [stopped] at moved
      cases moved
    have before : (∃ q, (s.procs q).pc = .panicked .tooBig) ↔ ∃ q, q ≠ p ∧ (s.procs q).pc = .panicked .tooBig := by
      refine exists_congr fun q => ⟨fun stopped => ⟨?_, stopped⟩, fun both => both.2⟩
      rintro rfl
      exact running stopped
    have here : pc = .panicked .tooBig ↔ ¬ Fits s (.statement p) := by
      have card := protocol.logged_card (p := p)
      simp only [Fits]
      generalize (s.procs p).pc = old at moved card
      have constants : nlog = logSize := rfl
      cases moved with
      | writeTooBig full =>
        rw [card rfl]
        simp only [true_iff, not_forall]
        exact ⟨_, rfl, by omega⟩
      | writeFits fits =>
        rw [card rfl]
        simp only [reduceCtorEq, false_iff, not_not]
        exact fun _ _ => by omega
      | _ => simp
    rw [others, before, here, or_comm]

theorem run_panicked (actions : List (Action P)) (protocol : Protocol s) (geometry : s.log.size = nlog)
    (runs : Runs.run step actions s = some s') : (∀ q, (s'.procs q).pc ≠ .panicked .tooBig) ↔
      (∀ q, (s.procs q).pc ≠ .panicked .tooBig) ∧ Runs.Along step Fits actions s := by
  induction actions generalizing s with
  | nil =>
    obtain rfl := Option.some.inj runs
    simp [Runs.Along]
  | cons a rest ih =>
    obtain ⟨mid, next, later⟩ := Option.bind_eq_some_iff.mp runs
    have first := step_panicked protocol geometry next
    rw [ih (step_protocol protocol next) ((step_size next).trans geometry) later]
    have along : Runs.Along step Fits (a :: rest) s ↔ Fits s a ∧ Runs.Along step Fits rest mid := by
      simp only [Runs.Along, next, Option.some.injEq, forall_eq']
    rw [along]
    have negated := not_congr first
    simp only [not_exists, not_or, not_not] at negated
    rw [negated, and_assoc]

/-- With the log that mkfs makes, no process has stopped in 'too big a transaction' exactly when each
log_write of the run was called with at most 28 different blocks logged since the last commit. -/
theorem admission_suffices_iff (s₀ s : State P) (started : Started s₀) (geometry : s₀.log.size = nlog)
    (actions : List (Action P)) (runs : Runs.run step actions s₀ = some s) :
    (∀ p, (s.procs p).pc ≠ .panicked .tooBig) ↔ Runs.Along step Fits actions s₀ := by
  rw [run_panicked actions (started_protocol started) geometry runs]
  refine and_iff_right fun q => ?_
  rw [(started.idle q).1]
  simp

theorem admission_suffices_iff_one : ∃ s : State (Fin 2), Runs.run step commitRun (fresh (Fin 2) nlog) = some s ∧
      ((∀ p, (s.procs p).pc ≠ .panicked .tooBig) ↔ Runs.Along step Fits commitRun (fresh (Fin 2) nlog)) :=
  ⟨_, rfl, admission_suffices_iff _ _ (fresh_started (Fin 2) nlog) rfl commitRun rfl⟩

def writeBlocks (p : Fin 3) (blocks : List Nat) : List (Action (Fin 3)) :=
  blocks.flatMap fun blockno => .logWrite p blockno :: List.replicate 5 (.statement p)

def threeFullOperations : List (Action (Fin 3)) :=
  [.beginOp 0, .statement 0, .statement 0, .statement 0, .beginOp 1, .statement 1, .statement 1, .statement 1,
    .beginOp 2, .statement 2, .statement 2, .statement 2] ++
    writeBlocks 0 (List.range' 100 10) ++ writeBlocks 1 (List.range' 110 10) ++ writeBlocks 2 (List.range' 120 9) ++
    [.logWrite 2 129, .statement 2]

def boundedTest (s : State P) : Action P → Bool
  | .logWrite p blockno => decide ((blockno :: (s.procs p).asked).toFinset.card ≤ maxOpBlocks)
  | _ => true

theorem last_block_too_big :
    ∃ s : State (Fin 3), Runs.Reachable step Bounded (fun s => Started s ∧ s.log.size = nlog) s ∧
      (s.procs 2).pc = .panicked .tooBig := by
  have along : Runs.Along step Bounded threeFullOperations (fresh (Fin 3) nlog) := by
    refine Runs.along_of_checks boundedTest (fun s a passes => ?_) _ _ (by decide +kernel)
    cases a with
    | logWrite p blockno => simpa [boundedTest, Bounded] using passes
    | _ => trivial
  obtain ⟨s, runs, stopped⟩ : ∃ s, Runs.run step threeFullOperations (fresh (Fin 3) nlog) = some s ∧
      (s.procs 2).pc = .panicked .tooBig := by
    have value : (Runs.run step threeFullOperations (fresh (Fin 3) nlog)).map (fun s => (s.procs 2).pc) =
        some (.panicked .tooBig) := by decide +kernel
    obtain ⟨s, runs, pc⟩ := Option.map_eq_some_iff.mp value
    exact ⟨s, runs, pc⟩
  exact ⟨s, Runs.reachable_along (.start ⟨fresh_started (Fin 3) nlog, rfl⟩) _ along runs, stopped⟩

end Xv6.GroupCommit
