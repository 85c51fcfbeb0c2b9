import Mathlib

set_option autoImplicit false

namespace Halting

-- A computation that may stop for good: `none` with the state in which it stopped.
structure Halt (S A : Type) where
  run : S → Option A × S

variable {S A B : Type}

instance : Monad (Halt S) where
  pure a := ⟨fun s => (some a, s)⟩
  bind x f := ⟨fun s =>
    match x.run s with
    | (none, stopped) => (none, stopped)
    | (some a, next) => (f a).run next⟩

def panic : Halt S A := ⟨fun s => (none, s)⟩
def get : Halt S S := ⟨fun s => (some s, s)⟩
def modify (f : S → S) : Halt S Unit := ⟨fun s => (some (), f s)⟩

@[simp] theorem run_pure (a : A) (s : S) : (pure a : Halt S A).run s = (some a, s) := rfl
@[simp] theorem run_panic (s : S) : (panic : Halt S A).run s = (none, s) := rfl
@[simp] theorem run_get (s : S) : (get : Halt S S).run s = (some s, s) := rfl
@[simp] theorem run_modify (f : S → S) (s : S) : (modify f).run s = (some (), f s) := rfl

variable {x : Halt S A} {f : A → Halt S B} {s : S}

theorem run_bind_some {next : S} {a : A} (value : x.run s = (some a, next)) : (x >>= f).run s = (f a).run next := by
  change (match x.run s with
    | (none, stopped) => (none, stopped)
    | (some a, next) => (f a).run next) = _
  rw [value]

theorem run_bind_none {stopped : S} (value : x.run s = (none, stopped)) : (x >>= f).run s = (none, stopped) := by
  change (match x.run s with
    | (none, stopped) => (none, stopped)
    | (some a, next) => (f a).run next) = _
  rw [value]

theorem run_bind_congr {y : Halt S A} (same : x.run s = y.run s) : (x >>= f).run s = (y >>= f).run s := by
  rcases value : y.run s with ⟨_ | a, next⟩
  · rw [run_bind_none value, run_bind_none (same.trans value)]
  · rw [run_bind_some value, run_bind_some (same.trans value)]

theorem run_bind_ext {g : A → Halt S B} (same : ∀ a next, (f a).run next = (g a).run next) :
    (x >>= f).run s = (x >>= g).run s := by
  rcases value : x.run s with ⟨_ | a, next⟩
  · rw [run_bind_none value, run_bind_none value]
  · rw [run_bind_some value, run_bind_some value, same]

theorem run_bind_assoc {C : Type} {g : B → Halt S C} : (x >>= f >>= g).run s = (x >>= fun a => f a >>= g).run s := by
  rcases value : x.run s with ⟨_ | a, next⟩
  · rw [run_bind_none value, run_bind_none (run_bind_none value)]
  · rw [run_bind_some value]
    rcases later : (f a).run next with ⟨_ | b, last⟩
    · rw [run_bind_none later, run_bind_none ((run_bind_some value).trans later)]
    · rw [run_bind_some later, run_bind_some ((run_bind_some value).trans later)]

theorem bind_returns {last : S} {b : B} (returns : (x >>= f).run s = (some b, last)) :
    ∃ a next, x.run s = (some a, next) ∧ (f a).run next = (some b, last) := by
  rcases value : x.run s with ⟨_ | a, next⟩
  · rw [run_bind_none value] at returns
    simp at returns
  · rw [run_bind_some value] at returns
    exact ⟨a, next, rfl, returns⟩

theorem pure_returns {last : S} {a b : A} (returns : (pure a : Halt S A).run s = (some b, last)) :
    a = b ∧ s = last := by
  simpa using returns

theorem panic_returns {last : S} {a : A} (returns : (panic : Halt S A).run s = (some a, last)) : False := by
  simp at returns

/-- From a state in `pre` the computation ends in `post` or stops in `stop`. -/
def Triple (pre : S → Prop) (x : Halt S A) (post : A → S → Prop) (stop : S → Prop) : Prop :=
  ∀ s, pre s → match x.run s with
    | (none, stopped) => stop stopped
    | (some a, next) => post a next

section Rules

variable {pre : S → Prop} {stop : S → Prop} {post : A → S → Prop} {x : Halt S A}

theorem Triple.returned {s next : S} {a : A} (triple : Triple pre x post stop) (before : pre s)
    (value : x.run s = (some a, next)) : post a next := by
  have result := triple s before
  rwa [value] at result

theorem Triple.stopped {s last : S} (triple : Triple pre x post stop) (before : pre s)
    (value : x.run s = (none, last)) : stop last := by
  have result := triple s before
  rwa [value] at result

theorem triple_pure {a : A} (holds : ∀ s, pre s → post a s) : Triple pre (pure a) post stop :=
  fun s before => holds s before

theorem triple_bind {middle : A → S → Prop} {post : B → S → Prop} {f : A → Halt S B}
    (first : Triple pre x middle stop) (rest : ∀ a, Triple (middle a) (f a) post stop) :
    Triple pre (x >>= f) post stop := by
  intro s before
  rcases value : x.run s with ⟨_ | a, next⟩
  · rw [run_bind_none value]
    exact first.stopped before value
  · rw [run_bind_some value]
    exact rest a next (first.returned before value)

theorem triple_weaken {strong : S → Prop} {weak : A → S → Prop} (triple : Triple strong x weak stop)
    (before : ∀ s, pre s → strong s) (after : ∀ a s, weak a s → post a s) : Triple pre x post stop := by
  intro s holds
  rcases value : x.run s with ⟨_ | a, next⟩
  · exact triple.stopped (before s holds) value
  · exact after a next (triple.returned (before s holds) value)

theorem triple_fact {fact : Prop} (triple : fact → Triple pre x post stop) :
    Triple (fun s => fact ∧ pre s) x post stop := fun s before => triple before.1 s before.2

theorem triple_exists {I : Type} {family : I → S → Prop} (triple : ∀ i, Triple (family i) x post stop) :
    Triple (fun s => ∃ i, family i s) x post stop := fun s ⟨i, before⟩ => triple i s before

theorem triple_assuming (triple : ∀ s, pre s → Triple pre x post stop) : Triple pre x post stop :=
  fun s before => triple s before s before

theorem triple_panic (holds : ∀ s, pre s → stop s) : Triple pre panic post stop := fun s before => holds s before

end Rules

/-- From `s` the computation ends, in `post`. -/
def Returns (x : Halt S A) (s : S) (post : A → S → Prop) : Prop := ∃ a next, x.run s = (some a, next) ∧ post a next

section Returns

variable {s : S} {post : A → S → Prop}

theorem returns_pure {a : A} (holds : post a s) : Returns (pure a) s post := ⟨a, s, rfl, holds⟩

variable {x : Halt S A}

theorem returns_bind {middle : A → S → Prop} {post : B → S → Prop} {f : A → Halt S B} (first : Returns x s middle)
    (rest : ∀ a next, middle a next → Returns (f a) next post) : Returns (x >>= f) s post := by
  obtain ⟨a, next, value, between⟩ := first
  obtain ⟨b, last, final, after⟩ := rest a next between
  exact ⟨b, last, (run_bind_some value).trans final, after⟩

theorem returns_post {weaker : A → S → Prop} (returns : Returns x s post)
    (implied : ∀ a next, post a next → weaker a next) : Returns x s weaker := by
  obtain ⟨a, next, value, after⟩ := returns
  exact ⟨a, next, value, implied a next after⟩

theorem returns_step {post : B → S → Prop} {f : A → Halt S B} {a : A} {next : S} (value : x.run s = (some a, next))
    (rest : Returns (f a) next post) : Returns (x >>= f) s post := by
  obtain ⟨b, last, final, after⟩ := rest
  exact ⟨b, last, (run_bind_some value).trans final, after⟩

theorem returns_forM {I : Type} {f : I → Halt S PUnit} {inv : S → Prop} {items : List I} (before : inv s)
    (step : ∀ i s, inv s → Returns (f i) s fun _ next => inv next) :
    Returns (items.forM f) s fun _ next => inv next := by
  induction items generalizing s with
  | nil => exact returns_pure before
  | cons i rest ih => exact returns_bind (step i s before) fun _ _ after => ih after

end Returns

/-- From `s` the computation ends in `post` or stops in `stop`. -/
def Ends (x : Halt S A) (s : S) (post : A → S → Prop) (stop : S → Prop) : Prop :=
  match x.run s with
  | (none, stopped) => stop stopped
  | (some a, next) => post a next

section Ends

variable {s : S} {post : A → S → Prop} {stop : S → Prop} {x : Halt S A}

theorem ends_returns (returns : Returns x s post) : Ends x s post stop := by
  obtain ⟨a, next, value, after⟩ := returns
  rw [Ends, value]
  exact after

theorem ends_bind_stops {post : B → S → Prop} {f : A → Halt S B} {last : S} (value : x.run s = (none, last))
    (holds : stop last) : Ends (x >>= f) s post stop := by
  rw [Ends, run_bind_none value]
  exact holds

theorem ends_pure {a : A} (holds : post a s) : Ends (pure a) s post stop := holds

theorem ends_bind {middle : A → S → Prop} {post : B → S → Prop} {f : A → Halt S B} (first : Ends x s middle stop)
    (rest : ∀ a next, middle a next → Ends (f a) next post stop) : Ends (x >>= f) s post stop := by
  unfold Ends at first ⊢
  rcases value : x.run s with ⟨_ | a, next⟩
  · rw [run_bind_none value]
    rwa [value] at first
  · rw [run_bind_some value]
    rw [value] at first
    exact rest a next first

theorem ends_post {weaker : A → S → Prop} (ends : Ends x s post stop)
    (implied : ∀ a next, post a next → weaker a next) : Ends x s weaker stop := by
  unfold Ends at ends ⊢
  rcases value : x.run s with ⟨_ | a, next⟩
  · rwa [value] at ends
  · rw [value] at ends
    exact implied a next ends

theorem ends_stop {weaker : S → Prop} (ends : Ends x s post stop) (implied : ∀ stopped, stop stopped → weaker stopped) :
    Ends x s post weaker := by
  unfold Ends at ends ⊢
  rcases value : x.run s with ⟨_ | a, next⟩
  · rw [value] at ends
    exact implied next ends
  · rwa [value] at ends

theorem ends_get {post : B → S → Prop} {f : S → Halt S B} (rest : Ends (f s) s post stop) :
    Ends (get >>= f) s post stop := rest

theorem ends_modify {post : B → S → Prop} {g : S → S} {f : Unit → Halt S B} (rest : Ends (f ()) (g s) post stop) :
    Ends (modify g >>= f) s post stop := rest

end Ends

end Halting
