import Mathlib

set_option autoImplicit false

namespace Runs

variable {S A : Type} (step : A → S → Option S)

def run : List A → S → Option S
  | [], s => some s
  | a :: rest, s => (step a s).bind (run rest)

theorem guarded {S : Type} {test : Prop} [Decidable test] {s s' : S} :
    (if test then some s else none) = some s' ↔ test ∧ s = s' := by
  rw [Option.ite_none_right_eq_some, Option.some.injEq]

/-- The states of the runs from `start` in which every action is allowed where it is taken. -/
inductive Reachable (allowed : S → A → Prop) (start : S → Prop) : S → Prop where
  | start {s : S} (begins : start s) : Reachable allowed start s
  | step {s s' : S} {a : A} (reached : Reachable allowed start s) (may : allowed s a) (next : step a s = some s') :
      Reachable allowed start s'

variable {step} {allowed : S → A → Prop} {start : S → Prop}

theorem Reachable.invariant {s : S} (reached : Reachable step allowed start s) (inv : S → Prop)
    (first : ∀ s, start s → inv s) (keep : ∀ s a s', inv s → allowed s a → step a s = some s' → inv s') : inv s := by
  induction reached with
  | start begins => exact first _ begins
  | step _ may next ih => exact keep _ _ _ ih may next

def Along (step : A → S → Option S) (allowed : S → A → Prop) : List A → S → Prop
  | [], _ => True
  | a :: rest, s => allowed s a ∧ ∀ s', step a s = some s' → Along step allowed rest s'

theorem reachable_along {s s' : S} (reached : Reachable step allowed start s) (actions : List A)
    (along : Along step allowed actions s) (runs : run step actions s = some s') :
    Reachable step allowed start s' := by
  induction actions generalizing s with
  | nil => exact Option.some.inj runs ▸ reached
  | cons a rest ih =>
    obtain ⟨next, first, later⟩ := Option.bind_eq_some_iff.mp runs
    exact ih (.step reached along.1 first) (along.2 next first) later

theorem along_of_forall (actions : List A) (fine : ∀ a ∈ actions, ∀ s, allowed s a) (s : S) :
    Along step allowed actions s := by
  induction actions generalizing s with
  | nil => trivial
  | cons a rest ih =>
    exact ⟨fine a List.mem_cons_self s, fun s' _ => ih (fun b later => fine b (List.mem_cons_of_mem a later)) s'⟩

def checks (step : A → S → Option S) (test : S → A → Bool) : List A → S → Bool
  | [], _ => true
  | a :: rest, s => test s a && (step a s).all (checks step test rest)

theorem along_of_checks (test : S → A → Bool) (sound : ∀ s a, test s a = true → allowed s a) (actions : List A)
    (s : S) (passes : checks step test actions s = true) : Along step allowed actions s := by
  induction actions generalizing s with
  | nil => trivial
  | cons a rest ih =>
    rw [checks, Bool.and_eq_true] at passes
    refine ⟨sound s a passes.1, fun s' next => ih s' ?_⟩
    have later := passes.2
    rw [next] at later
    exact later

theorem along_true (actions : List A) (s : S) : Along step (fun _ _ => True) actions s :=
  along_of_forall actions (fun _ _ _ => trivial) s

theorem reachable_run {s s' : S} (reached : Reachable step (fun _ _ => True) start s) (actions : List A)
    (runs : run step actions s = some s') : Reachable step (fun _ _ => True) start s' :=
  reachable_along reached actions (along_true actions s) runs

end Runs
