import Mathlib

set_option autoImplicit false

/-! A queue of cells linked from a head pointer, with an append that walks to the last link. -/

namespace LinkedQueue

structure Queue (A : Type) where
  head : Option A
  next : A → Option A

/-- The place of a pointer: the head of the queue or the link of a cell. -/
inductive Link (A : Type) where
  | head
  | next (a : A)

variable {A : Type} {q : Queue A} {items : List A} {a b : A}

def Queue.load (q : Queue A) : Link A → Option A
  | .head => q.head
  | .next a => q.next a

def Queue.last (q : Queue A) : Nat → Link A → Option (Link A)
  | 0, _ => none
  | fuel + 1, link =>
    match q.load link with
    | none => some link
    | some a => q.last fuel (.next a)

def Chain (next : A → Option A) : Option A → List A → Prop
  | head, [] => head = none
  | head, a :: rest => head = some a ∧ Chain next (next a) rest

def Queue.Holds (q : Queue A) (items : List A) : Prop := Chain q.next q.head items

theorem Chain.congr {next next' : A → Option A} {head : Option A} (chain : Chain next head items)
    (same : ∀ x ∈ items, next' x = next x) : Chain next' head items := by
  induction items generalizing head with
  | nil => exact chain
  | cons a rest ih =>
    refine ⟨chain.1, ?_⟩
    rw [same a List.mem_cons_self]
    exact ih chain.2 fun x member => same x (List.mem_cons_of_mem a member)

theorem Queue.Holds.head_eq (holds : q.Holds items) : q.head = items.head? := by
  cases items with
  | nil => exact holds
  | cons a rest => exact holds.1

theorem Queue.Holds.pop (holds : q.Holds (a :: items)) : Queue.Holds { q with head := q.next a } items := holds.2

theorem last_of_chain {link : Link A} {fuel : Nat} (chain : Chain q.next (q.load link) items)
    (enough : items.length < fuel) : q.last fuel link = some (items.getLast?.elim link .next) := by
  induction items generalizing link fuel with
  | nil =>
    obtain ⟨fuel, rfl⟩ := Nat.exists_eq_add_of_lt enough
    simp only [Chain] at chain
    simp [Queue.last, chain]
  | cons a rest ih =>
    obtain ⟨fuel, rfl⟩ : ∃ n, fuel = n + 1 := ⟨fuel - 1, by simp at enough; omega⟩
    have later : q.last fuel (.next a) = some (rest.getLast?.elim (.next a) .next) :=
      ih chain.2 (by simpa using enough)
    simp only [Queue.last, chain.1, later, List.getLast?_cons]
    cases rest.getLast? <;> rfl

variable [DecidableEq A]

def Queue.store (q : Queue A) (link : Link A) (value : Option A) : Queue A :=
  match link with
  | .head => { q with head := value }
  | .next a => { q with next := Function.update q.next a value }

-- The new cell becomes the last one: its own link is cleared before the walk.
def Queue.append (fuel : Nat) (q : Queue A) (a : A) : Option (Queue A) :=
  let cleared := q.store (.next a) none
  (cleared.last fuel .head).map fun link => cleared.store link (some a)

theorem chain_snoc {next : A → Option A} {head : Option A} {init : List A} (chain : Chain next head (init ++ [b]))
    (nodup : (init ++ [b]).Nodup) (last : next a = none) (absent : a ∉ init ++ [b]) :
    Chain (Function.update next b (some a)) head (init ++ [b] ++ [a]) := by
  induction init generalizing head with
  | nil =>
    refine ⟨chain.1, by rw [Function.update_self], ?_⟩
    rw [Function.update_of_ne]
    · exact last
    · simpa using absent
  | cons x rest ih =>
    have fresh : x ≠ b := by
      rintro rfl
      simp at nodup
    refine ⟨chain.1, ?_⟩
    rw [Function.update_of_ne fresh]
    exact ih chain.2 (List.nodup_cons.mp nodup).2 fun member => absent (List.mem_cons_of_mem x member)

theorem append_holds {fuel : Nat} (holds : q.Holds items) (nodup : items.Nodup) (absent : a ∉ items)
    (enough : items.length < fuel) : ∃ q', q.append fuel a = some q' ∧ q'.Holds (items ++ [a]) := by
  have cleared : (q.store (.next a) none).Holds items := by
    refine Chain.congr holds fun x member => Function.update_of_ne ?_ _ _
    rintro rfl
    exact absent member
  have alone : (q.store (.next a) none).next a = none := Function.update_self ..
  have found : (q.store (.next a) none).last fuel .head = some (items.getLast?.elim .head .next) :=
    last_of_chain cleared enough
  refine ⟨_, by rw [Queue.append, found]; rfl, ?_⟩
  rcases List.eq_nil_or_concat' items with rfl | ⟨init, b, rfl⟩
  · exact ⟨rfl, alone⟩
  · rw [List.getLast?_concat]
    exact chain_snoc cleared nodup alone absent

end LinkedQueue
