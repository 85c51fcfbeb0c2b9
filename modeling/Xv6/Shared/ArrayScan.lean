import Mathlib

set_option autoImplicit false

namespace ArrayScan

variable {A B : Type}

-- The inner loop over j for one i: `first` is items[i], the list is items[i + 1 ..].
def exchange (key : A → Int) (first : A) : List A → A × List A
  | [] => (first, [])
  | next :: rest =>
    if key first > key next then ((exchange key next rest).1, first :: (exchange key next rest).2)
    else ((exchange key first rest).1, next :: (exchange key first rest).2)

def sortFrom (key : A → Int) : Nat → List A → List A
  | 0, items => items
  | _ + 1, [] => []
  | n + 1, first :: rest => (exchange key first rest).1 :: sortFrom key n (exchange key first rest).2

/-- Sorting by exchanges: position i is compared with every later one in turn. -/
def sort (key : A → Int) (items : List A) : List A :=
  sortFrom key (items.length - 1) items

variable (key : A → Int)

theorem exchange_perm (first : A) (rest : List A) :
    ((exchange key first rest).1 :: (exchange key first rest).2).Perm (first :: rest) := by
  induction rest generalizing first with
  | nil => simp [exchange]
  | cons next rest ih =>
    by_cases swap : key first > key next
    · simp only [exchange, swap, if_true]
      exact (List.Perm.swap _ _ _).trans ((ih next).cons first)
    · simp only [exchange, swap, if_false]
      exact ((List.Perm.swap _ _ _).trans ((ih first).cons next)).trans (List.Perm.swap _ _ _)

theorem exchange_least (first : A) (rest : List A) : key (exchange key first rest).1 ≤ key first ∧
      ∀ item ∈ (exchange key first rest).2, key (exchange key first rest).1 ≤ key item := by
  induction rest generalizing first with
  | nil => simp [exchange]
  | cons next rest ih =>
    by_cases swap : key first > key next
    · have least := ih next
      simp only [exchange, swap, if_true, List.mem_cons, forall_eq_or_imp]
      exact ⟨by omega, by omega, least.2⟩
    · have least := ih first
      simp only [exchange, swap, if_false, List.mem_cons, forall_eq_or_imp]
      exact ⟨least.1, by omega, least.2⟩

theorem exchange_length (first : A) (rest : List A) : (exchange key first rest).2.length = rest.length := by
  simpa using (exchange_perm key first rest).length_eq

theorem sortFrom_perm (n : Nat) (items : List A) : (sortFrom key n items).Perm items := by
  induction n generalizing items with
  | zero => exact List.Perm.refl _
  | succ n ih =>
    cases items with
    | nil => exact List.Perm.refl _
    | cons first rest => exact ((ih _).cons _).trans (exchange_perm key first rest)

theorem sortFrom_sorted (n : Nat) (items : List A) (enough : items.length ≤ n + 1) :
    (sortFrom key n items).Pairwise fun a b => key a ≤ key b := by
  induction n generalizing items with
  | zero =>
    match items, enough with
    | [], _ => exact List.Pairwise.nil
    | [_], _ => exact List.pairwise_singleton _ _
  | succ n ih =>
    cases items with
    | nil => exact List.Pairwise.nil
    | cons first rest =>
      have short : (exchange key first rest).2.length ≤ n + 1 := by
        rw [exchange_length]
        simpa using enough
      refine List.pairwise_cons.mpr ⟨fun item member => ?_, ih _ short⟩
      exact (exchange_least key first rest).2 item ((sortFrom_perm key n _).mem_iff.mp member)

theorem sort_perm (items : List A) : (sort key items).Perm items := sortFrom_perm key _ items

theorem sort_sorted (items : List A) : (sort key items).Pairwise fun a b => key a ≤ key b :=
  sortFrom_sorted key _ items (by omega)

theorem exchange_map (f : B → A) (first : B) (rest : List B) : exchange key (f first) (rest.map f) =
      (f (exchange (key ∘ f) first rest).1, (exchange (key ∘ f) first rest).2.map f) := by
  induction rest generalizing first with
  | nil => rfl
  | cons next rest ih =>
    simp only [List.map_cons, exchange, Function.comp_apply, ih]
    split <;> rfl

theorem sortFrom_map (f : B → A) (n : Nat) (items : List B) :
    sortFrom key n (items.map f) = (sortFrom (key ∘ f) n items).map f := by
  induction n generalizing items with
  | zero => rfl
  | succ n ih =>
    cases items with
    | nil => rfl
    | cons first rest => simp only [List.map_cons, sortFrom, exchange_map, ih]

theorem sort_map (f : B → A) (items : List B) : sort key (items.map f) = (sort (key ∘ f) items).map f := by
  rw [sort, sortFrom_map, List.length_map, sort]

/-- The first item that passes the test, as it was, and the array with that item updated. -/
def scan (test : A → Bool) (update : A → A) : List A → Option (A × List A)
  | [] => none
  | item :: rest =>
    if test item then some (item, update item :: rest)
    else (scan test update rest).map fun found => (found.1, item :: found.2)

variable {test : A → Bool} {update : A → A}

theorem scan_none {items : List A} : scan test update items = none ↔ ∀ item ∈ items, test item = false := by
  induction items with
  | nil => simp [scan]
  | cons item rest ih => by_cases passes : test item <;> simp [scan, passes, ih]

theorem scan_some {items after : List A} {chosen : A} (found : scan test update items = some (chosen, after)) :
    ∃ skipped rest, items = skipped ++ chosen :: rest ∧ after = skipped ++ update chosen :: rest ∧
      test chosen = true ∧ ∀ item ∈ skipped, test item = false := by
  induction items generalizing after with
  | nil => simp [scan] at found
  | cons item rest ih =>
    by_cases passes : test item
    · simp only [scan, passes, if_true, Option.some.injEq, Prod.mk.injEq] at found
      obtain ⟨rfl, rfl⟩ := found
      exact ⟨[], rest, rfl, rfl, passes, by simp⟩
    · rw [scan, if_neg passes] at found
      obtain ⟨⟨inner, tail⟩, inside, same⟩ := Option.map_eq_some_iff.mp found
      obtain ⟨rfl, rfl⟩ := Prod.mk.inj same
      obtain ⟨skipped, later, shape, result, isChosen, before⟩ := ih inside
      subst shape
      exact ⟨item :: skipped, later, rfl, by simp [result], isChosen, by simpa [passes] using before⟩

theorem scan_least {key : A → Int} {items after : List A} {chosen : A}
    (sorted : items.Pairwise fun a b => key a ≤ key b) (found : scan test update items = some (chosen, after)) :
    ∀ item ∈ items, test item = true → key chosen ≤ key item := by
  obtain ⟨skipped, rest, rfl, _, _, before⟩ := scan_some found
  intro item listed passes
  rcases List.mem_append.mp listed with early | late
  · simp [before item early] at passes
  · rcases List.mem_cons.mp late with rfl | later
    · exact Int.le_refl _
    · exact (List.pairwise_cons.mp (List.pairwise_append.mp sorted).2.1).1 item later

end ArrayScan
