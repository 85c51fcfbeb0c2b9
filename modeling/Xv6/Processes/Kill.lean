import Xv6.Processes.Outcomes

set_option autoImplicit false

namespace Xv6.Processes

variable {n : Nat} {C : Type}

/-- kill(pid) would stop at a slot without a process. -/
def FindsUnborn (t : Table n) (pid : Int) : Prop :=
  ∃ q, (t.find fun proc => proc.pid = pid) = some q ∧ Unborn (t.procs q)

def HitsUnborn (s : State n C) : Action C → Prop
  | .process _ (.kill pid) => FindsUnborn s.table pid
  | _ => False

def Unmarked (s : State n C) : Prop := ∀ q, Unborn (s.proc q) → (s.proc q).killed = false

section

variable {s s' : State n C}

theorem Unmarked.frame (unmarked : Unmarked s) (slots : ∀ q, Unborn (s'.proc q) → (s'.proc q).killed = false ∨
      Unborn (s.proc q) ∧ (s'.proc q).killed = (s.proc q).killed) : Unmarked s' := by
  intro q unborn
  rcases slots q unborn with clear | ⟨before, same⟩
  · exact clear
  · rw [same]
    exact unmarked q before

theorem Unmarked.slot (unmarked : Unmarked s) (r : Fin n) (others : ∀ q, q ≠ r → s'.proc q = s.proc q)
    (own : Unborn (s'.proc r) → (s'.proc r).killed = false ∨
      Unborn (s.proc r) ∧ (s'.proc r).killed = (s.proc r).killed) : Unmarked s' := by
  refine unmarked.frame fun q unborn => ?_
  by_cases same : q = r
  · subst same
    exact own unborn
  · rw [others q same] at unborn ⊢
    exact .inr ⟨unborn, rfl⟩

theorem Table.Passed.unborn {before after : Proc n} (passed : Table.Passed before after) (unborn : Unborn after) :
    Unborn before := by
  rcases passed.state with same | ⟨_, is⟩
  · rwa [Unborn, same] at unborn
  · rw [Unborn, is] at unborn
    rcases unborn with is | is <;> cases is

variable [DecidableEq C]

theorem step_unmarked {a : Action C} (ordered : Ordered s) (unmarked : Unmarked s) (fine : ¬ HitsUnborn s a)
    (next : step a s = some s') : Unmarked s' := by
  have outcome := step_outcome ordered next
  clear next
  cases outcome with
  | settles settles =>
    refine unmarked.frame fun q unborn => .inr ?_
    have before := (settles.slots q).unborn.mp unborn
    refine ⟨before, (settles.killed q before).resolve_right ?_⟩
    rintro ⟨c, pid, rfl, found⟩
    exact fine ⟨q, found, before⟩
  | forms forms => exact unmarked.slot _ forms.others fun _ => .inr ⟨forms.unborn, forms.killed⟩
  | reap => exact unmarked.slot _ (fun q other => Table.reap_ne other) fun _ => .inl (by simp [State.proc, Table.reap])
  | @exit c p _ running other _ =>
    refine unmarked.frame fun q unborn => ?_
    have different : q ≠ p := by
      rintro rfl
      rw [Unborn, State.proc, (s.table.exit_self q).1.state] at unborn
      rcases unborn with is | is <;> cases is
    have passed := (s.table.exit_ne different).1
    exact .inr ⟨passed.unborn unborn, passed.killed⟩

theorem step_born {a : Action C} (ordered : Ordered s) (next : step a s = some s') {q : Fin n}
    (embryo : (s.proc q).state = .embryo) (runnable : (s'.proc q).state = .runnable) :
    (s'.proc q).killed = (s.proc q).killed := by
  have outcome := step_outcome ordered next
  clear next
  cases outcome with
  | settles settles =>
    have still : (s'.proc q).state = .embryo := ((settles.slots q).state.dead_iff rfl).mpr embryo
    rw [still] at runnable
    cases runnable
  | @forms _ _ np forms =>
    by_cases same : q = np
    · subst same
      exact forms.killed
    · rw [forms.others q same]
  | @reap c p child _ current parent zombie _ =>
    have different : q ≠ child := by
      rintro rfl
      rw [embryo] at zombie
      cases zombie
    rw [State.proc, Table.reap_ne different]
  | @exit c p _ running other _ =>
    have different : q ≠ p := by
      rintro rfl
      rw [embryo] at running
      cases running
    exact (s.table.exit_ne different).1.killed

theorem booted_unmarked (booted : Booted s) : Unmarked s := by
  obtain ⟨c, locking, rfl⟩ := booted
  exact fun _ _ => rfl

theorem reachable_unmarked (reached : Runs.Reachable step (fun s a => ¬ HitsUnborn s a) Booted s) : Unmarked s :=
  (reached.invariant (fun s => Ordered s ∧ Unmarked s)
    (fun _ booted => ⟨booted_ordered booted, booted_unmarked booted⟩)
    fun _ _ _ inv fine next => ⟨step_ordered inv.1 next, step_unmarked inv.1 inv.2 fine next⟩).2

def killZeroRun : List (Action Bool) :=
  bootRun ++ [ProcStep.resume, .trapret, .syscall].map (.process true)

end

end Xv6.Processes
