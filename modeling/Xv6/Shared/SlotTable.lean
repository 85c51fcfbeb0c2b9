import Mathlib

set_option autoImplicit false

/-! A map kept in an array of slots: an entry is added in the first free slot, or behind the last one, and a
slot is freed in place. -/

namespace SlotTable

variable {K V : Type} [DecidableEq K]

abbrev Slots (K V : Type) := List (Option (K × V))

-- The value and the place of the first entry with the key, counting from `place`.
def find (key : K) : Slots K V → Nat → Option (V × Nat)
  | [], _ => none
  | none :: rest, place => find key rest (place + 1)
  | some entry :: rest, place => if entry.1 = key then some (entry.2, place) else find key rest (place + 1)

def lookup : Slots K V → K → Option V
  | [], _ => none
  | none :: rest, key => lookup rest key
  | some entry :: rest, key => if entry.1 = key then some entry.2 else lookup rest key

def freeSlot : Slots K V → Nat
  | [] => 0
  | none :: _ => 0
  | some _ :: rest => freeSlot rest + 1

def put (slots : Slots K V) (place : Nat) (entry : Option (K × V)) : Slots K V :=
  slots.take place ++ entry :: slots.drop (place + 1)

def keys (slots : Slots K V) : List K := (slots.filterMap id).map Prod.fst

def Distinct (slots : Slots K V) : Prop := (keys slots).Nodup

variable {slots rest : Slots K V} {slot : Option (K × V)} {entry : K × V} {key : K} {value : V} {place i j : Nat}

section Keys

omit [DecidableEq K]

@[simp] theorem keys_nil : keys ([] : Slots K V) = [] := rfl

@[simp] theorem keys_cons_none : keys (none :: slots) = keys slots := rfl

@[simp] theorem keys_cons_some : keys (some entry :: slots) = entry.1 :: keys slots := rfl

@[simp] theorem put_succ (new : Option (K × V)) : put (slot :: rest) (i + 1) new = slot :: put rest i new := rfl

theorem mem_keys : key ∈ keys slots ↔ ∃ value, some (key, value) ∈ slots := by
  simp [keys]

theorem mem_keys_of_getElem? (present : slots[i]? = some (some (key, value))) : key ∈ keys slots :=
  mem_keys.mpr ⟨value, List.mem_of_getElem? present⟩

theorem Distinct.tail (distinct : Distinct (slot :: rest)) : Distinct rest := by
  cases slot with
  | none => exact distinct
  | some entry => exact (List.nodup_cons.mp distinct).2

-- By induction on the slots: two places of one key are both in the rest, or one of them is the head.
theorem Distinct.unique {other : V} (distinct : Distinct slots) (first : slots[i]? = some (some (key, value)))
    (second : slots[j]? = some (some (key, other))) : i = j := by
  induction slots generalizing i j with
  | nil => simp at first
  | cons slot rest ih =>
    have head {k : Nat} {v w : V} (here : slot = some (key, v)) (there : rest[k]? = some (some (key, w))) : False := by
      subst here
      exact (List.nodup_cons.mp distinct).1 (mem_keys_of_getElem? there)
    cases i with
    | zero =>
      cases j with
      | zero => rfl
      | succ j => exact (head (Option.some.inj first) second).elim
    | succ i =>
      cases j with
      | zero => exact (head (Option.some.inj second) first).elim
      | succ j => exact congrArg (· + 1) (ih distinct.tail first second)

theorem distinct_of_unique
    (unique : ∀ (i j : Nat) (key : K) (v w : V), slots[i]? = some (some (key, v)) → slots[j]? = some (some (key, w)) → i = j) :
    Distinct slots := by
  induction slots with
  | nil => exact List.nodup_nil
  | cons slot rest ih =>
    have later : Distinct rest := ih fun i j key v w first second =>
      Nat.succ.inj (unique (i + 1) (j + 1) key v w first second)
    cases slot with
    | none => exact later
    | some entry =>
      refine List.nodup_cons.mpr ⟨fun again => ?_, later⟩
      obtain ⟨value, member⟩ := mem_keys.mp again
      obtain ⟨j, there⟩ := List.getElem?_of_mem member
      exact absurd (unique 0 (j + 1) entry.1 entry.2 value rfl there) (Nat.succ_ne_zero j).symm

end Keys

section Find

theorem find_eq_none : find key slots place = none ↔ key ∉ keys slots := by
  induction slots generalizing place with
  | nil => simp [find]
  | cons slot rest ih =>
    cases slot with
    | none => exact ih
    | some entry =>
      rw [find, keys_cons_some, List.mem_cons, not_or]
      by_cases same : entry.1 = key
      · rw [if_pos same]
        exact ⟨fun impossible => absurd impossible (Option.some_ne_none _), fun away => absurd same.symm away.1⟩
      · rw [if_neg same, ih]
        exact (and_iff_right (Ne.symm same)).symm

theorem find_some (found : find key slots place = some (value, j)) :
    ∃ i, j = place + i ∧ slots[i]? = some (some (key, value)) := by
  induction slots generalizing place with
  | nil => exact absurd found.symm (Option.some_ne_none _)
  | cons slot rest ih =>
    have later (found : find key rest (place + 1) = some (value, j)) :
        ∃ i, j = place + i ∧ (slot :: rest)[i]? = some (some (key, value)) := by
      obtain ⟨i, here, present⟩ := ih found
      exact ⟨i + 1, by omega, present⟩
    cases slot with
    | none => exact later found
    | some entry =>
      rw [find] at found
      split at found
      next same =>
        cases found
        exact ⟨0, rfl, by rw [← same]; rfl⟩
      next => exact later found

theorem lookup_eq_find : lookup slots key = (find key slots place).map Prod.fst := by
  induction slots generalizing place with
  | nil => rfl
  | cons slot rest ih =>
    cases slot with
    | none => exact ih
    | some entry =>
      rw [lookup, find]
      split
      · rfl
      · exact ih

theorem lookup_eq_none : lookup slots key = none ↔ key ∉ keys slots := by
  have places : lookup slots key = (find key slots 0).map Prod.fst := lookup_eq_find
  rw [places, Option.map_eq_none_iff, find_eq_none]

end Find

section FreeSlot

omit [DecidableEq K]

theorem freeSlot_le : freeSlot slots ≤ slots.length := by
  induction slots with
  | nil => exact Nat.le_refl _
  | cons slot rest ih =>
    cases slot with
    | none => exact Nat.zero_le _
    | some entry => exact Nat.succ_le_succ ih

theorem taken_before_freeSlot (before : i < freeSlot slots) : ∃ entry, slots[i]? = some (some entry) := by
  induction slots generalizing i with
  | nil => exact absurd before (Nat.not_lt_zero _)
  | cons slot rest ih =>
    cases slot with
    | none => exact absurd before (Nat.not_lt_zero _)
    | some entry =>
      cases i with
      | zero => exact ⟨entry, rfl⟩
      | succ i => exact ih (Nat.lt_of_succ_lt_succ before)

theorem freeSlot_free : slots[freeSlot slots]? ≠ some (some entry) := by
  induction slots with
  | nil => exact (Option.some_ne_none _).symm
  | cons slot rest ih =>
    cases slot with
    | none => exact fun taken => absurd (Option.some.inj taken).symm (Option.some_ne_none _)
    | some _ => exact ih

theorem keys_add : (keys (put slots (freeSlot slots) (some entry))).Perm (entry.1 :: keys slots) := by
  induction slots with
  | nil => rfl
  | cons slot rest ih =>
    cases slot with
    | none => rfl
    | some head => exact (ih.cons head.1).trans (List.Perm.swap _ _ _)

theorem Distinct.add (distinct : Distinct slots) (absent : entry.1 ∉ keys slots) :
    Distinct (put slots (freeSlot slots) (some entry)) :=
  keys_add.nodup_iff.mpr (List.nodup_cons.mpr ⟨absent, distinct⟩)

theorem keys_clear : (keys (put slots i none)).Sublist (keys slots) ∨ slots.length ≤ i := by
  induction slots generalizing i with
  | nil => exact Or.inr (Nat.zero_le _)
  | cons slot rest ih =>
    cases i with
    | zero =>
      refine Or.inl ?_
      cases slot with
      | none => exact List.Sublist.refl _
      | some entry => exact List.sublist_cons_self _ _
    | succ i =>
      refine ih.imp (fun shorter => ?_) Nat.succ_le_succ
      cases slot with
      | none => exact shorter
      | some entry => exact shorter.cons_cons _

theorem Distinct.clear (distinct : Distinct slots) (inside : i < slots.length) : Distinct (put slots i none) :=
  distinct.sublist (keys_clear.resolve_right (Nat.not_le.mpr inside))

end FreeSlot

section Update

theorem lookup_add (absent : entry.1 ∉ keys slots) :
    lookup (put slots (freeSlot slots) (some entry)) = Function.update (lookup slots) entry.1 (some entry.2) := by
  funext key
  by_cases same : key = entry.1
  · subst same
    rw [Function.update_self]
    induction slots with
    | nil => exact if_pos rfl
    | cons slot rest ih =>
      cases slot with
      | none => exact if_pos rfl
      | some head =>
        rw [keys_cons_some, List.mem_cons, not_or] at absent
        exact (if_neg (Ne.symm absent.1)).trans (ih absent.2)
  · rw [Function.update_of_ne same]
    induction slots with
    | nil => exact if_neg (Ne.symm same)
    | cons slot rest ih =>
      cases slot with
      | none => exact if_neg (Ne.symm same)
      | some head =>
        rw [keys_cons_some, List.mem_cons, not_or] at absent
        rw [freeSlot, put_succ, lookup, lookup, ih absent.2]

theorem lookup_clear (distinct : Distinct slots) (present : slots[i]? = some (some (key, value))) :
    lookup (put slots i none) = Function.update (lookup slots) key none := by
  funext other
  induction slots generalizing i with
  | nil => simp at present
  | cons slot rest ih =>
    cases i with
    | zero =>
      obtain rfl := Option.some.inj present
      show lookup rest other = _
      by_cases same : other = key
      · subst same
        rw [Function.update_self]
        exact lookup_eq_none.mpr (List.nodup_cons.mp distinct).1
      · rw [Function.update_of_ne same, lookup, if_neg (Ne.symm same)]
    | succ i =>
      have later := ih distinct.tail present
      rw [put_succ]
      cases slot with
      | none => exact later
      | some head =>
        have apart : head.1 ≠ key := fun same =>
          (List.nodup_cons.mp distinct).1 (same ▸ mem_keys_of_getElem? present)
        by_cases same : other = key
        · subst same
          rw [Function.update_self] at later ⊢
          rw [lookup, if_neg apart, later]
        · rw [Function.update_of_ne same] at later ⊢
          rw [lookup, lookup, later]

end Update

end SlotTable
