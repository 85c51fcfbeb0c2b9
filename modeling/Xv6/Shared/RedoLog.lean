import Mathlib

set_option autoImplicit false

namespace RedoLog

variable {A V : Type} [DecidableEq A]

def applyWrites (store : A → V) (writes : List (A × V)) : A → V :=
  writes.foldl (fun store write => Function.update store write.1 write.2) store

@[simp] theorem applyWrites_nil (store : A → V) : applyWrites store [] = store := rfl

theorem applyWrites_append (store : A → V) (front back : List (A × V)) :
    applyWrites store (front ++ back) = applyWrites (applyWrites store front) back := List.foldl_append

variable {store : A → V} {writes : List (A × V)}

theorem applyWrites_other {a : A} (other : ∀ write ∈ writes, write.1 ≠ a) : applyWrites store writes a = store a := by
  induction writes generalizing store with
  | nil => rfl
  | cons write rest ih =>
    obtain ⟨here, later⟩ := List.forall_mem_cons.mp other
    exact (ih later).trans (Function.update_of_ne here.symm _ _)

theorem applyWrites_congr {store' : A → V} {a : A} (agree : (∀ write ∈ writes, write.1 ≠ a) → store a = store' a) :
    applyWrites store writes a = applyWrites store' writes a := by
  induction writes generalizing store store' with
  | nil => exact agree (by simp)
  | cons write rest ih =>
    apply ih
    intro later
    by_cases here : write.1 = a
    · simp [← here]
    · have kept (store : A → V) : Function.update store write.1 write.2 a = store a :=
        Function.update_of_ne (Ne.symm here) _ _
      refine (kept store).trans (Eq.trans ?_ (kept store').symm)
      exact agree (List.forall_mem_cons.mpr ⟨here, later⟩)

theorem applyWrites_absorb (store : A → V) {front : List (A × V)} (part : front ⊆ writes) :
    applyWrites (applyWrites store front) writes = applyWrites store writes := by
  funext a
  apply applyWrites_congr
  intro none
  exact applyWrites_other fun write listed => none write (part listed)

theorem applyWrites_values {values : A → V} {a : A} (same : ∀ write ∈ writes, write.2 = values write.1)
    (rest : (∀ write ∈ writes, write.1 ≠ a) → store a = values a) : applyWrites store writes a = values a := by
  induction writes generalizing store with
  | nil => exact rest (by simp)
  | cons write writes ih =>
    obtain ⟨here, later⟩ := List.forall_mem_cons.mp same
    apply ih later
    intro none
    by_cases target : write.1 = a
    · simp [← target, here]
    · refine (Function.update_of_ne (Ne.symm target) _ _).trans ?_
      exact rest (List.forall_mem_cons.mpr ⟨target, none⟩)

end RedoLog
