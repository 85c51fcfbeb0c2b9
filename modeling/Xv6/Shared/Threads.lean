import Mathlib

set_option autoImplicit false

namespace Threads

/-- The code of a kernel thread: atomic steps on a shared state `S`, sleep-locks named by `L` that are
requested through call sites `W`, and waiting for a condition on the state. -/
inductive Prog (S L W A : Type) where
  | ret (a : A)
  | panic
  | act (f : S → S) (k : S → Prog S L W A)
  | await (ready : S → Bool) (f : S → S) (k : Prog S L W A)
  | acquire (via : W) (l : L) (k : Prog S L W A)
  | release (l : L) (k : Prog S L W A)

variable {S L W A B : Type}

namespace Prog

def bind : Prog S L W A → (A → Prog S L W B) → Prog S L W B
  | ret a, f => f a
  | panic, _ => panic
  | act g k, f => act g fun s => (k s).bind f
  | await ready g k, f => await ready g (k.bind f)
  | acquire via l k, f => acquire via l (k.bind f)
  | release l k, f => release l (k.bind f)

instance : Monad (Prog S L W) where
  pure := ret
  bind := bind

end Prog

-- One atomic step with a result; `none` is a kernel panic.
def atomic (f : S → Option (A × S)) : Prog S L W A :=
  .act (fun s => ((f s).map Prod.snd).getD s) fun s =>
    match f s with
    | some (a, _) => .ret a
    | none => .panic

def acquire (via : W) (l : L) : Prog S L W Unit := .acquire via l (.ret ())
def release (l : L) : Prog S L W Unit := .release l (.ret ())
def await (ready : S → Bool) (f : S → S) : Prog S L W Unit := .await ready f (.ret ())
def panic : Prog S L W A := .panic

section Sequential

variable {P : Type} [DecidableEq L] [DecidableEq P]

abbrev Locks (L P : Type) := L → Option P

inductive Outcome (S L P A : Type) where
  | done (a : A) (s : S) (locks : Locks L P)
  | panicked (s : S)
  | blocked (s : S) (on : Option L)

/-- Thread `p` running alone: what it waits for then never comes. -/
def run (p : P) : Prog S L W A → S → Locks L P → Outcome S L P A
  | .ret a, s, locks => .done a s locks
  | .panic, s, _ => .panicked s
  | .act f k, s, locks => run p (k s) (f s) locks
  | .await ready f k, s, locks => if ready s then run p k (f s) locks else .blocked s none
  | .acquire _ l k, s, locks =>
    if locks l = none then run p k s (Function.update locks l (some p)) else .blocked s (some l)
  | .release l k, s, locks =>
    if locks l = some p then run p k s (Function.update locks l none) else .panicked s

-- A kernel panic stops the machine, so nothing is asked of it.
def Outcome.Within (post : A → S → Locks L P → Prop) : Outcome S L P A → Prop
  | .done a s locks => post a s locks
  | .panicked _ => True
  | .blocked _ _ => False

/-- Thread `p` running alone never waits for what does not come, and when it returns `post` holds. -/
def Triple (p : P) (pre : S → Locks L P → Prop) (x : Prog S L W A) (post : A → S → Locks L P → Prop) : Prop :=
  ∀ s locks, pre s locks → (run p x s locks).Within post

variable {p : P} {pre : S → Locks L P → Prop}

theorem run_bind (x : Prog S L W A) (f : A → Prog S L W B) (s : S) (locks : Locks L P) : run p (x >>= f) s locks =
      match run p x s locks with
      | .done a s' locks' => run p (f a) s' locks'
      | .panicked s' => .panicked s'
      | .blocked s' on => .blocked s' on := by
  change run p (x.bind f) s locks = _
  induction x generalizing s locks with
  | ret a => rfl
  | panic => rfl
  | act g k ih => exact ih s (g s) locks
  | await ready g k ih =>
    simp only [Prog.bind, run]
    split
    next => exact ih (g s) locks
    next => rfl
  | acquire via l k ih =>
    simp only [Prog.bind, run]
    split
    next => exact ih s (Function.update locks l (some p))
    next => rfl
  | release l k ih =>
    simp only [Prog.bind, run]
    split
    next => exact ih s (Function.update locks l none)
    next => rfl

variable {post middle : A → S → Locks L P → Prop} {x : Prog S L W A}

theorem triple_ret {a : A} (holds : ∀ s locks, pre s locks → post a s locks) :
    Triple p pre (pure a : Prog S L W A) post := holds

theorem triple_panic : Triple p pre (panic : Prog S L W A) post := fun _ _ _ => trivial

theorem triple_bind {post : B → S → Locks L P → Prop} {f : A → Prog S L W B} (first : Triple p pre x middle)
    (rest : ∀ a, Triple p (middle a) (f a) post) : Triple p pre (x >>= f) post := by
  intro s locks before
  have reached := first s locks before
  rw [run_bind]
  cases value : run p x s locks with
  | done a s₁ locks₁ =>
    rw [value] at reached
    exact rest a s₁ locks₁ reached
  | panicked s₁ => trivial
  | blocked s₁ on =>
    rw [value] at reached
    exact reached

theorem triple_atomic {f : S → Option (A × S)}
    (holds : ∀ s locks, pre s locks → ∀ a s', f s = some (a, s') → post a s' locks) :
    Triple p pre (atomic f : Prog S L W A) post := by
  intro s locks before
  simp only [atomic, run]
  cases value : f s with
  | none => trivial
  | some result => exact holds s locks before _ _ value

theorem triple_acquire {post : Unit → S → Locks L P → Prop} {via : W} {l : L}
    (free : ∀ s locks, pre s locks → locks l = none)
    (holds : ∀ s locks, pre s locks → post () s (Function.update locks l (some p))) :
    Triple p pre (acquire via l) post := by
  intro s locks before
  simp only [acquire, run, free s locks before, if_true]
  exact holds s locks before

theorem triple_release {post : Unit → S → Locks L P → Prop} {l : L}
    (holds : ∀ s locks, pre s locks → post () s (Function.update locks l none)) :
    Triple p pre (release l : Prog S L W Unit) post := by
  intro s locks before
  simp only [release, run]
  split
  next => exact holds s locks before
  next => trivial

theorem triple_await {post : Unit → S → Locks L P → Prop} {ready : S → Bool} {f : S → S}
    (go : ∀ s locks, pre s locks → ready s = true) (holds : ∀ s locks, pre s locks → post () (f s) locks) :
    Triple p pre (await ready f : Prog S L W Unit) post := by
  intro s locks before
  simp only [await, run, go s locks before, if_true]
  exact holds s locks before

/-- If thread `p`, running alone, returns at all, then with `post`. -/
def Returns (p : P) (pre : S → Locks L P → Prop) (x : Prog S L W A) (post : A → S → Locks L P → Prop) : Prop :=
  ∀ s locks a s' locks', pre s locks → run p x s locks = .done a s' locks' → post a s' locks'

abbrev Preserves (p : P) (inv : S → Locks L P → Prop) (x : Prog S L W A) : Prop := Returns p inv x fun _ => inv

theorem returns_ret {a : A} (holds : ∀ s locks, pre s locks → post a s locks) :
    Returns p pre (pure a : Prog S L W A) post := by
  intro s locks b s' locks' before value
  cases value
  exact holds s locks before

theorem returns_done {a : A} (same : pre = post a) : Returns p pre (pure a : Prog S L W A) post :=
  returns_ret fun _ _ before => same ▸ before

theorem returns_panic : Returns p pre (panic : Prog S L W A) post := by
  intro s locks a s' locks' _ value
  cases value

theorem returns_bind {post : B → S → Locks L P → Prop} {f : A → Prog S L W B} (first : Returns p pre x middle)
    (rest : ∀ a, Returns p (middle a) (f a) post) : Returns p pre (x >>= f) post := by
  intro s locks b s' locks' before value
  rw [run_bind] at value
  cases ran : run p x s locks with
  | done a s₁ locks₁ =>
    rw [ran] at value
    exact rest a s₁ locks₁ b s' locks' (first s locks a s₁ locks₁ before ran) value
  | panicked s₁ => rw [ran] at value; cases value
  | blocked s₁ on => rw [ran] at value; cases value

-- The answer is known beforehand.
theorem returns_then {post : B → S → Locks L P → Prop} {b : B} (first : Returns p pre x fun _ => post b) :
    Returns p pre (x >>= fun _ => pure b) post := returns_bind first fun _ => returns_done rfl

theorem returns_weaken {pre' : S → Locks L P → Prop} {post' : A → S → Locks L P → Prop}
    (returns : Returns p pre x post) (stronger : ∀ s locks, pre' s locks → pre s locks)
    (weaker : ∀ a s locks, post a s locks → post' a s locks) : Returns p pre' x post' :=
  fun s locks a s' locks' before value =>
    weaker a s' locks' (returns s locks a s' locks' (stronger s locks before) value)

theorem returns_exists {I : Type} {pre : I → S → Locks L P → Prop} (each : ∀ i, Returns p (pre i) x post) :
    Returns p (fun s locks => ∃ i, pre i s locks) x post := by
  rintro s locks a s' locks' ⟨i, before⟩ value
  exact each i s locks a s' locks' before value

theorem returns_given {fact : Prop} (known : fact → Returns p pre x post) :
    Returns p (fun s locks => fact ∧ pre s locks) x post := by
  rintro s locks a s' locks' ⟨holds, before⟩ value
  exact known holds s locks a s' locks' before value

theorem returns_atomic {f : S → Option (A × S)}
    (holds : ∀ s locks, pre s locks → ∀ a s', f s = some (a, s') → post a s' locks) :
    Returns p pre (atomic f : Prog S L W A) post := by
  intro s locks a s' locks' before ran
  simp only [atomic, run] at ran
  cases value : f s with
  | none => rw [value] at ran; cases ran
  | some result =>
    rw [value] at ran
    cases ran
    exact holds s locks before _ _ value

theorem returns_acquire {post : Unit → S → Locks L P → Prop} {via : W} {l : L}
    (holds : ∀ s locks, pre s locks → locks l = none → post () s (Function.update locks l (some p))) :
    Returns p pre (acquire via l) post := by
  intro s locks u s' locks' before ran
  simp only [acquire, run] at ran
  split at ran
  next free =>
    cases ran
    exact holds s locks before free
  next => cases ran

theorem returns_release {post : Unit → S → Locks L P → Prop} {l : L}
    (holds : ∀ s locks, pre s locks → post () s (Function.update locks l none)) :
    Returns p pre (release l : Prog S L W Unit) post := by
  intro s locks u s' locks' before ran
  simp only [release, run] at ran
  split at ran
  next =>
    cases ran
    exact holds s locks before
  next => cases ran

theorem returns_await {post : Unit → S → Locks L P → Prop} {ready : S → Bool} {f : S → S}
    (holds : ∀ s locks, pre s locks → post () (f s) locks) :
    Returns p pre (await ready f : Prog S L W Unit) post := by
  intro s locks u s' locks' before ran
  simp only [await, run] at ran
  split at ran
  next =>
    cases ran
    exact holds s locks before
  next => cases ran

end Sequential

end Threads
