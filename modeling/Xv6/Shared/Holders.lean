import Mathlib

set_option autoImplicit false

/-! Who holds a lock, and how many hold a counter, told from the point where each process is. -/

namespace Holders

variable {P : Type} {holds holds' : P → Bool} {lock : Option P} {p : P}

def Held (lock : Option P) (holds : P → Bool) : Prop := ∀ q, lock = some q ↔ holds q = true

theorem Held.same (held : Held lock holds) (same : ∀ q, holds' q = holds q) : Held lock holds' :=
  fun q => by rw [same q]; exact held q

theorem Held.unique (held : Held lock holds) {q : P} (mine : holds p = true) (other : holds q = true) : p = q := by
  have first := (held p).mpr mine
  have second := (held q).mpr other
  exact Option.some.inj (first.symm.trans second)

theorem Held.free (held : Held none holds) (q : P) : holds q = false := by
  cases value : holds q with
  | false => rfl
  | true => cases (held q).mpr value

theorem Held.acquire (held : Held none holds) (mine : holds' p = true) (others : ∀ q, q ≠ p → holds' q = holds q) :
    Held (some p) holds' := by
  intro q
  constructor
  · intro same
    rw [← Option.some.inj same]
    exact mine
  · intro holding
    by_cases same : q = p
    · rw [same]
    · rw [others q same, held.free q] at holding
      cases holding

theorem Held.release (held : Held lock holds) (before : holds p = true) (after : holds' p = false)
    (others : ∀ q, q ≠ p → holds' q = holds q) : Held none holds' := by
  intro q
  constructor
  · intro none
    cases none
  · intro holding
    by_cases same : q = p
    · rw [same, after] at holding
      cases holding
    · rw [others q same] at holding
      exact absurd (held.unique holding before) same

/-- What a step of process `p` does with the lock: nothing, or it takes it, or it gives it back. -/
def Moved (lock lock' : Option P) (p : P) (before after : Bool) : Prop :=
  lock' = lock ∧ after = before ∨ lock = none ∧ lock' = some p ∧ after = true ∨
    before = true ∧ lock' = none ∧ after = false

theorem Held.moved {lock' : Option P} (held : Held lock holds) (moved : Moved lock lock' p (holds p) (holds' p))
    (others : ∀ q, q ≠ p → holds' q = holds q) : Held lock' holds' := by
  rcases moved with ⟨rfl, same⟩ | ⟨rfl, rfl, mine⟩ | ⟨before, rfl, after⟩
  · refine held.same fun q => ?_
    by_cases self : q = p
    · rw [self, same]
    · exact others q self
  · exact held.acquire mine others
  · exact held.release before after others

def Counts (n : Nat) (holds : P → Bool) : Prop :=
  ∃ holders : Finset P, (∀ q, q ∈ holders ↔ holds q = true) ∧ n = holders.card

variable {n : Nat}

theorem counts_zero (none : ∀ q, holds q = false) : Counts 0 holds := ⟨∅, fun q => by simp [none q], rfl⟩

theorem Counts.same (counts : Counts n holds) (same : ∀ q, holds' q = holds q) : Counts n holds' := by
  obtain ⟨holders, member, card⟩ := counts
  exact ⟨holders, fun q => by rw [same q]; exact member q, card⟩

theorem Counts.pos (counts : Counts n holds) (mine : holds p = true) : 1 ≤ n := by
  obtain ⟨holders, member, card⟩ := counts
  rw [card]
  exact Finset.card_pos.mpr ⟨p, (member p).mpr mine⟩

theorem Counts.none (counts : Counts 0 holds) (q : P) : holds q = false := by
  cases value : holds q with
  | false => rfl
  | true => exact absurd (counts.pos value) (by decide)

variable [DecidableEq P]

theorem Counts.enter (counts : Counts n holds) (before : holds p = false) (after : holds' p = true)
    (others : ∀ q, q ≠ p → holds' q = holds q) : Counts (n + 1) holds' := by
  obtain ⟨holders, member, card⟩ := counts
  have absent : p ∉ holders := fun inside => by
    rw [(member p).mp inside] at before
    cases before
  refine ⟨insert p holders, fun q => ?_, ?_⟩
  · by_cases same : q = p
    · simp [same, after]
    · rw [Finset.mem_insert, others q same, member q]
      simp [same]
  · rw [Finset.card_insert_of_notMem absent, card]

theorem Counts.leave (counts : Counts n holds) (before : holds p = true) (after : holds' p = false)
    (others : ∀ q, q ≠ p → holds' q = holds q) : Counts (n - 1) holds' := by
  obtain ⟨holders, member, card⟩ := counts
  refine ⟨holders.erase p, fun q => ?_, ?_⟩
  · by_cases same : q = p
    · simp [same, after]
    · rw [Finset.mem_erase, others q same, member q]
      simp [same]
  · rw [Finset.card_erase_of_mem ((member p).mpr before), card]

end Holders
