import Xv6.Shared.Threads

set_option autoImplicit false

namespace Threads

theorem acyclic_of_rank {P : Type} {r : P → P → Prop} (rank : P → Nat)
    (rises : ∀ a b x y, r a b → r b x → r x y → rank a < rank b) (p : P) : ¬Relation.TransGen r p p := by
  intro cycle
  have goesOn {a : P} (around : Relation.TransGen r a a) : ∃ x, r a x ∧ Relation.TransGen r x x := by
    obtain ⟨x, first, rest⟩ := Relation.TransGen.head'_iff.mp around
    exact ⟨x, first, .tail' rest first⟩
  have climbs {b : P} (path : Relation.TransGen r p b) (next : ∃ x y, r b x ∧ r x y) : rank p < rank b := by
    induction path with
    | single step =>
      obtain ⟨x, y, second, third⟩ := next
      exact rises _ _ x y step second third
    | tail _ step ih =>
      obtain ⟨x, y, second, third⟩ := next
      exact Nat.lt_trans (ih ⟨_, x, step, second⟩) (rises _ _ x y step second third)
  obtain ⟨x, first, around⟩ := goesOn cycle
  obtain ⟨y, second, _⟩ := goesOn around
  exact Nat.lt_irrefl _ (climbs cycle ⟨x, y, first, second⟩)

section Machine

variable {S L W P R : Type} [DecidableEq L] [DecidableEq P]

structure Config (S L W P R : Type) where
  state : S
  locks : Locks L P
  code : P → Option (Prog S L W R)

/-- One step of one thread; `calls p x` says which calls an idle thread may begin. -/
inductive Step (calls : P → Prog S L W R → Prop) (c : Config S L W P R) : Config S L W P R → Prop where
  | begin {p : P} {x : Prog S L W R} (idle : c.code p = none) (may : calls p x) :
      Step calls c { c with code := Function.update c.code p (some x) }
  | act {p : P} {f : S → S} {k : S → Prog S L W R} (here : c.code p = some (.act f k)) :
      Step calls c { c with state := f c.state, code := Function.update c.code p (some (k c.state)) }
  | await {p : P} {ready : S → Bool} {f : S → S} {k : Prog S L W R} (here : c.code p = some (.await ready f k))
      (go : ready c.state = true) :
      Step calls c { c with state := f c.state, code := Function.update c.code p (some k) }
  | acquire {p : P} {via : W} {l : L} {k : Prog S L W R} (here : c.code p = some (.acquire via l k))
      (free : c.locks l = none) :
      Step calls c { c with locks := Function.update c.locks l (some p), code := Function.update c.code p (some k) }
  | release {p : P} {l : L} {k : Prog S L W R} (here : c.code p = some (.release l k))
      (held : c.locks l = some p) :
      Step calls c { c with locks := Function.update c.locks l none, code := Function.update c.code p (some k) }
  | finish {p : P} {r : R} (here : c.code p = some (.ret r)) :
      Step calls c { c with code := Function.update c.code p none }

def Reachable (calls : P → Prog S L W R → Prop) : Config S L W P R → Config S L W P R → Prop :=
  Relation.ReflTransGen (Step calls)

def Config.Requests (c : Config S L W P R) (p : P) (via : W) (l : L) : Prop :=
  ∃ k, c.code p = some (.acquire via l k)

def Config.WaitsFor (c : Config S L W P R) (p q : P) : Prop :=
  ∃ via l, c.Requests p via l ∧ c.locks l = some q

variable {calls : P → Prog S L W R → Prop} {c : Config S L W P R}

theorem reachable_selfWait {p : P} {x : Prog S L W R} {l : L} {s' : S} (only : ∀ l q, c.locks l = some q → q = p)
    (here : c.code p = some x) (stuck : run p x c.state c.locks = .blocked s' (some l)) :
    ∃ c', Reachable calls c c' ∧ c'.WaitsFor p p := by
  induction x generalizing c with
  | ret a => cases stuck
  | panic => cases stuck
  | act f k ih =>
    obtain ⟨c', reached, waits⟩ := ih c.state
      (c := { c with state := f c.state, code := Function.update c.code p (some (k c.state)) }) only (by simp) stuck
    exact ⟨c', .head (.act here) reached, waits⟩
  | await ready f k ih =>
    by_cases go : ready c.state = true
    · simp only [run, go, if_true] at stuck
      obtain ⟨c', reached, waits⟩ :=
        ih (c := { c with state := f c.state, code := Function.update c.code p (some k) }) only (by simp) stuck
      exact ⟨c', .head (.await here go) reached, waits⟩
    · simp [run, go] at stuck
  | acquire via m k ih =>
    by_cases free : c.locks m = none
    · simp only [run, free, if_true] at stuck
      obtain ⟨c', reached, waits⟩ := ih
        (c := { c with
          locks := Function.update c.locks m (some p)
          code := Function.update c.code p (some k) })
        (fun l q held => by
          by_cases same : l = m
          · subst same
            simpa [eq_comm] using held
          · exact only l q (by simpa [same] using held))
        (by simp) stuck
      exact ⟨c', .head (.acquire here free) reached, waits⟩
    · obtain ⟨q, held⟩ := Option.ne_none_iff_exists'.mp free
      have mine := only m q held
      subst mine
      exact ⟨c, .refl, via, m, ⟨k, here⟩, held⟩
  | release m k ih =>
    by_cases held : c.locks m = some p
    · simp only [run, held, if_true] at stuck
      obtain ⟨c', reached, waits⟩ := ih
        (c := { c with locks := Function.update c.locks m none, code := Function.update c.code p (some k) })
        (fun l q taken => by
          by_cases same : l = m
          · simp [same] at taken
          · exact only l q (by simpa [same] using taken))
        (by simp) stuck
      exact ⟨c', .head (.release here held) reached, waits⟩
    · simp [run, held] at stuck

theorem reachable_runs {A : Type} {p : P} {x : Prog S L W A} {k : A → Prog S L W R} {a : A} {s' : S}
    {locks' : Locks L P} (here : c.code p = some (x.bind k)) (done : run p x c.state c.locks = .done a s' locks') :
    Reachable calls c { state := s', locks := locks', code := Function.update c.code p (some (k a)) } := by
  induction x generalizing c with
  | ret b =>
    cases done
    have same : Function.update c.code p (some (k a)) = c.code := Function.update_eq_self_iff.mpr here.symm
    rw [same]
    exact .refl
  | panic => cases done
  | act f rest ih =>
    have later := ih c.state
      (c := { c with state := f c.state, code := Function.update c.code p (some ((rest c.state).bind k)) })
      (by simp) done
    simp only [Function.update_idem] at later
    exact .head (.act here) later
  | await ready f rest ih =>
    by_cases go : ready c.state = true
    · simp only [run, go, if_true] at done
      have later := ih (c := { c with state := f c.state, code := Function.update c.code p (some (rest.bind k)) })
        (by simp) done
      simp only [Function.update_idem] at later
      exact .head (.await here go) later
    · simp [run, go] at done
  | acquire via l rest ih =>
    by_cases free : c.locks l = none
    · simp only [run, free, if_true] at done
      have later := ih (c := { c with
        locks := Function.update c.locks l (some p)
        code := Function.update c.code p (some (rest.bind k)) }) (by simp) done
      simp only [Function.update_idem] at later
      exact .head (.acquire here free) later
    · simp [run, free] at done
  | release l rest ih =>
    by_cases held : c.locks l = some p
    · simp only [run, held, if_true] at done
      have later := ih (c := { c with
        locks := Function.update c.locks l none
        code := Function.update c.code p (some (rest.bind k)) }) (by simp) done
      simp only [Function.update_idem] at later
      exact .head (.release here held) later
    · simp [run, held] at done

def Config.runs {A : Type} (c : Config S L W P R) (p : P) (x : Prog S L W A) (k : A → Prog S L W R) :
    Config S L W P R :=
  match run p x c.state c.locks with
  | .done a s locks => { state := s, locks := locks, code := Function.update c.code p (some (k a)) }
  | _ => c

def Outcome.isDone {A : Type} : Outcome S L P A → Bool
  | .done .. => true
  | _ => false

theorem Config.runs_code {A : Type} {p : P} {x : Prog S L W A} {k : Prog S L W R}
    (done : (run p x c.state c.locks).isDone = true) :
    (c.runs p x fun _ => k).code = Function.update c.code p (some k) := by
  unfold Config.runs
  cases value : run p x c.state c.locks with
  | done a s locks => rfl
  | panicked s => simp [value, Outcome.isDone] at done
  | blocked s on => simp [value, Outcome.isDone] at done

theorem reachable_alone {A : Type} {p : P} {x : Prog S L W A} {k : A → Prog S L W R}
    (here : c.code p = some (x.bind k)) : Reachable calls c (c.runs p x k) := by
  unfold Config.runs
  split
  next done => exact reachable_runs here done
  next => exact .refl

end Machine

section Discipline

variable {S L W P R A B G : Type} [DecidableEq L]

structure World (S L P G : Type) where
  state : S
  locks : Locks L P
  ghost : G

/-- What the threads keep true, what a step of one of them may do and what the others rely on, and what
holds while a thread asks for a lock. -/
structure Discipline (S L W P G : Type) where
  inv : World S L P G → Prop
  guar : P → World S L P G → World S L P G → Prop
  rely : P → World S L P G → World S L P G → Prop
  wait : P → W → L → World S L P G → Prop
  guar_refl : ∀ p w, guar p w w
  rely_refl : ∀ p w, rely p w w
  rely_trans : ∀ p w₁ w₂ w₃, rely p w₁ w₂ → rely p w₂ w₃ → rely p w₁ w₃
  rely_guar : ∀ p q w w', p ≠ q → inv w → inv w' → guar q w w' → rely p w w'

variable (D : Discipline S L W P G) (p : P)

def Discipline.Stays (fact : World S L P G → Prop) : Prop := ∀ w w', fact w → D.rely p w w' → D.inv w' → fact w'

def Discipline.Allowed (w w' : World S L P G) : Prop := D.inv w' ∧ D.guar p w w'

/-- The thread keeps the discipline up to its end, whatever the other threads do in between. -/
def Discipline.Safe (post : A → World S L P G → Prop) : Prog S L W A → World S L P G → Prop
  | .ret a, w => post a w
  | .panic, _ => True
  | .act f k, w => ∀ w', D.rely p w w' → D.inv w' → ∃ ghost,
      D.Allowed p w' ⟨f w'.state, w'.locks, ghost⟩ ∧ Safe post (k w'.state) ⟨f w'.state, w'.locks, ghost⟩
  | .await ready f k, w => ∀ w', D.rely p w w' → D.inv w' → ready w'.state = true → ∃ ghost,
      D.Allowed p w' ⟨f w'.state, w'.locks, ghost⟩ ∧ Safe post k ⟨f w'.state, w'.locks, ghost⟩
  | .acquire via l k, w => ∀ w', D.rely p w w' → D.inv w' → D.wait p via l w' ∧ (w'.locks l = none → ∃ ghost,
      D.Allowed p w' ⟨w'.state, Function.update w'.locks l (some p), ghost⟩ ∧
        Safe post k ⟨w'.state, Function.update w'.locks l (some p), ghost⟩)
  | .release l k, w => ∀ w', D.rely p w w' → D.inv w' → w'.locks l = some p → ∃ ghost,
      D.Allowed p w' ⟨w'.state, Function.update w'.locks l none, ghost⟩ ∧
        Safe post k ⟨w'.state, Function.update w'.locks l none, ghost⟩

variable {D p}

theorem safe_rely {post : A → World S L P G → Prop} (stays : ∀ a, D.Stays p (post a)) {x : Prog S L W A}
    {w w' : World S L P G} (safe : D.Safe p post x w) (moved : D.rely p w w') (inv : D.inv w') :
    D.Safe p post x w' := by
  cases x with
  | ret a => exact stays a w w' safe moved inv
  | panic => trivial
  | act f k | await ready f k | acquire via l k | release l k =>
    exact fun w'' later => safe w'' (D.rely_trans p _ _ _ moved later)

section Soundness

variable {calls : P → Prog S L W R → Prop} {idle : P → World S L P G → Prop}

def Config.Disciplined (D : Discipline S L W P G) (idle : P → World S L P G → Prop) (c : Config S L W P R) : Prop :=
  ∃ ghost, D.inv ⟨c.state, c.locks, ghost⟩ ∧ ∀ p,
    match c.code p with
    | none => idle p ⟨c.state, c.locks, ghost⟩
    | some x => D.Safe p (fun _ => idle p) x ⟨c.state, c.locks, ghost⟩

variable {c : Config S L W P R}

theorem disciplined_waits (disciplined : c.Disciplined D idle) : ∃ ghost, D.inv ⟨c.state, c.locks, ghost⟩ ∧
      ∀ p via l, c.Requests p via l → D.wait p via l ⟨c.state, c.locks, ghost⟩ := by
  obtain ⟨ghost, inv, threads⟩ := disciplined
  refine ⟨ghost, inv, fun p via l request => ?_⟩
  obtain ⟨k, running⟩ := request
  have before := threads p
  rw [running] at before
  exact (before _ (D.rely_refl p _) inv).1

variable [DecidableEq P]

theorem disciplined_move {s : S} {locks : Locks L P} {ghost ghost' : G} {p : P} {x : Option (Prog S L W R)}
    (stays : ∀ p, D.Stays p (idle p)) (inv : D.inv ⟨c.state, c.locks, ghost⟩) (threads : ∀ p, match c.code p with
      | none => idle p ⟨c.state, c.locks, ghost⟩
      | some x => D.Safe p (fun _ => idle p) x ⟨c.state, c.locks, ghost⟩)
    (allowed : D.Allowed p ⟨c.state, c.locks, ghost⟩ ⟨s, locks, ghost'⟩) (next : match x with
      | none => idle p ⟨s, locks, ghost'⟩
      | some x => D.Safe p (fun _ => idle p) x ⟨s, locks, ghost'⟩) :
    Config.Disciplined D idle { state := s, locks := locks, code := Function.update c.code p x } := by
  refine ⟨ghost', allowed.1, fun q => ?_⟩
  by_cases same : q = p
  · subst same
    simpa using next
  · simp only [Function.update_of_ne same]
    have moved := D.rely_guar q p _ _ same inv allowed.1 allowed.2
    have before := threads q
    cases running : c.code q with
    | none =>
      rw [running] at before
      exact stays q _ _ before moved allowed.1
    | some y =>
      rw [running] at before
      exact safe_rely (fun _ => stays q) before moved allowed.1

theorem step_disciplined {c' : Config S L W P R} (stays : ∀ p, D.Stays p (idle p))
    (begins : ∀ p x, calls p x → ∀ w, D.inv w → idle p w → D.Safe p (fun _ => idle p) x w)
    (disciplined : c.Disciplined D idle) (step : Step calls c c') : c'.Disciplined D idle := by
  obtain ⟨ghost, inv, threads⟩ := disciplined
  have here (p : P) := D.rely_refl p ⟨c.state, c.locks, ghost⟩
  cases step with
  | @begin p x free may =>
    have before := threads p
    rw [free] at before
    exact disciplined_move stays inv threads ⟨inv, D.guar_refl p _⟩ (begins p x may _ inv before)
  | @act p f k running =>
    have before := threads p
    rw [running] at before
    obtain ⟨ghost', allowed, next⟩ := before _ (here p) inv
    exact disciplined_move stays inv threads allowed next
  | @await p ready f k running go =>
    have before := threads p
    rw [running] at before
    obtain ⟨ghost', allowed, next⟩ := before _ (here p) inv go
    exact disciplined_move stays inv threads allowed next
  | @acquire p via l k running free =>
    have before := threads p
    rw [running] at before
    obtain ⟨ghost', allowed, next⟩ := (before _ (here p) inv).2 free
    exact disciplined_move stays inv threads allowed next
  | @release p l k running held =>
    have before := threads p
    rw [running] at before
    obtain ⟨ghost', allowed, next⟩ := before _ (here p) inv held
    exact disciplined_move stays inv threads allowed next
  | @finish p r running =>
    have before := threads p
    rw [running] at before
    exact disciplined_move stays inv threads ⟨inv, D.guar_refl p _⟩ before

theorem reachable_disciplined {c' : Config S L W P R} (stays : ∀ p, D.Stays p (idle p))
    (begins : ∀ p x, calls p x → ∀ w, D.inv w → idle p w → D.Safe p (fun _ => idle p) x w)
    (disciplined : c.Disciplined D idle) (reached : Reachable calls c c') : c'.Disciplined D idle := by
  induction reached with
  | refl => exact disciplined
  | tail _ step ih => exact step_disciplined stays begins ih step

end Soundness

section Rules

def Discipline.Keeps (D : Discipline S L W P G) (p : P) (pre : World S L P G → Prop) (x : Prog S L W A)
    (post : A → World S L P G → Prop) : Prop :=
  ∀ w, D.inv w → pre w → D.Safe p post x w

variable {pre : World S L P G → Prop} {post middle post' : A → World S L P G → Prop} {x : Prog S L W A}

theorem keeps_ret {a : A} (holds : ∀ w, D.inv w → pre w → post a w) : D.Keeps p pre (pure a : Prog S L W A) post :=
  holds

theorem keeps_done {a : A} (same : pre = post a) : D.Keeps p pre (pure a : Prog S L W A) post :=
  keeps_ret fun _ _ before => same ▸ before

theorem keeps_panic : D.Keeps p pre (panic : Prog S L W A) post := fun _ _ _ => trivial

theorem safe_bind {post : B → World S L P G → Prop} {f : A → Prog S L W B}
    (rest : ∀ a, D.Keeps p (middle a) (f a) post) {w : World S L P G} (inv : D.inv w) (safe : D.Safe p middle x w) :
    D.Safe p post (x.bind f) w := by
  induction x generalizing w with
  | ret a => exact rest a w inv safe
  | panic => trivial
  | act g k ih =>
    intro w' moved inv'
    obtain ⟨ghost, allowed, next⟩ := safe w' moved inv'
    exact ⟨ghost, allowed, ih _ allowed.1 next⟩
  | await ready g k ih =>
    intro w' moved inv' go
    obtain ⟨ghost, allowed, next⟩ := safe w' moved inv' go
    exact ⟨ghost, allowed, ih allowed.1 next⟩
  | acquire via l k ih =>
    intro w' moved inv'
    refine ⟨(safe w' moved inv').1, fun free => ?_⟩
    obtain ⟨ghost, allowed, next⟩ := (safe w' moved inv').2 free
    exact ⟨ghost, allowed, ih allowed.1 next⟩
  | release l k ih =>
    intro w' moved inv' held
    obtain ⟨ghost, allowed, next⟩ := safe w' moved inv' held
    exact ⟨ghost, allowed, ih allowed.1 next⟩

theorem keeps_bind {post : B → World S L P G → Prop} {f : A → Prog S L W B} (first : D.Keeps p pre x middle)
    (rest : ∀ a, D.Keeps p (middle a) (f a) post) : D.Keeps p pre (x >>= f) post :=
  fun w inv before => safe_bind rest inv (first w inv before)

theorem keeps_then {post : B → World S L P G → Prop} {b : B} (first : D.Keeps p pre x fun _ => post b) :
    D.Keeps p pre (x >>= fun _ => pure b) post := keeps_bind first fun _ => keeps_done rfl

theorem keeps_pre {strong : World S L P G → Prop} (keeps : D.Keeps p strong x post)
    (before : ∀ w, D.inv w → pre w → strong w) : D.Keeps p pre x post :=
  fun w inv holds => keeps w inv (before w inv holds)

theorem safe_post (weaker : ∀ a w, post a w → post' a w) {w : World S L P G} (safe : D.Safe p post x w) :
    D.Safe p post' x w := by
  induction x generalizing w with
  | ret a => exact weaker a w safe
  | panic => trivial
  | act g k ih =>
    intro w' moved inv
    obtain ⟨ghost, allowed, next⟩ := safe w' moved inv
    exact ⟨ghost, allowed, ih _ next⟩
  | await ready g k ih =>
    intro w' moved inv go
    obtain ⟨ghost, allowed, next⟩ := safe w' moved inv go
    exact ⟨ghost, allowed, ih next⟩
  | acquire via l k ih =>
    intro w' moved inv
    refine ⟨(safe w' moved inv).1, fun free => ?_⟩
    obtain ⟨ghost, allowed, next⟩ := (safe w' moved inv).2 free
    exact ⟨ghost, allowed, ih next⟩
  | release l k ih =>
    intro w' moved inv held
    obtain ⟨ghost, allowed, next⟩ := safe w' moved inv held
    exact ⟨ghost, allowed, ih next⟩

theorem keeps_post (keeps : D.Keeps p pre x post) (weaker : ∀ a w, post a w → post' a w) : D.Keeps p pre x post' :=
  fun w inv before => safe_post weaker (keeps w inv before)

theorem keeps_fact {fact : Prop} (keeps : fact → D.Keeps p pre x post) : D.Keeps p (fun w => fact ∧ pre w) x post :=
  fun w inv holds => keeps holds.1 w inv holds.2

theorem keeps_exists {I : Type} {pre : I → World S L P G → Prop} (each : ∀ i, D.Keeps p (pre i) x post) :
    D.Keeps p (fun w => ∃ i, pre i w) x post := by
  rintro w inv ⟨i, before⟩
  exact each i w inv before

theorem keeps_atomic {f : S → Option (A × S)} (stays : D.Stays p pre)
    (step : ∀ w, D.inv w → pre w → ∀ a s, f w.state = some (a, s) → ∃ ghost,
      D.Allowed p w ⟨s, w.locks, ghost⟩ ∧ post a ⟨s, w.locks, ghost⟩) :
    D.Keeps p pre (atomic f : Prog S L W A) post := by
  intro w _ before w' moved inv'
  cases value : f w'.state with
  | none =>
    refine ⟨w'.ghost, ?_, ?_⟩
    · simp only [value, Option.map_none, Option.getD_none]
      exact ⟨inv', D.guar_refl p w'⟩
    · simp only [value]
      trivial
  | some result =>
    obtain ⟨ghost, allowed, after⟩ := step w' inv' (stays w w' before moved inv') result.1 result.2 value
    refine ⟨ghost, ?_, ?_⟩
    · simpa only [value, Option.map_some, Option.getD_some] using allowed
    · simp only [value, Option.map_some, Option.getD_some]
      exact after

theorem keeps_await {post : Unit → World S L P G → Prop} {ready : S → Bool} {f : S → S} (stays : D.Stays p pre)
    (step : ∀ w, D.inv w → pre w → ∃ ghost,
      D.Allowed p w ⟨f w.state, w.locks, ghost⟩ ∧ post () ⟨f w.state, w.locks, ghost⟩) :
    D.Keeps p pre (await ready f : Prog S L W Unit) post :=
  fun w _ before w' moved inv' _ => step w' inv' (stays w w' before moved inv')

theorem keeps_acquire {post : Unit → World S L P G → Prop} {via : W} {l : L} (stays : D.Stays p pre)
    (wait : ∀ w, D.inv w → pre w → D.wait p via l w) (step : ∀ w, D.inv w → pre w → w.locks l = none → ∃ ghost,
      D.Allowed p w ⟨w.state, Function.update w.locks l (some p), ghost⟩ ∧
        post () ⟨w.state, Function.update w.locks l (some p), ghost⟩) :
    D.Keeps p pre (acquire via l : Prog S L W Unit) post := by
  intro w _ before w' moved inv'
  have holds := stays w w' before moved inv'
  exact ⟨wait w' inv' holds, step w' inv' holds⟩

theorem keeps_release {post : Unit → World S L P G → Prop} {l : L} (stays : D.Stays p pre)
    (step : ∀ w, D.inv w → pre w → w.locks l = some p → ∃ ghost,
      D.Allowed p w ⟨w.state, Function.update w.locks l none, ghost⟩ ∧
        post () ⟨w.state, Function.update w.locks l none, ghost⟩) :
    D.Keeps p pre (release l : Prog S L W Unit) post :=
  fun w _ before w' moved inv' held => step w' inv' (stays w w' before moved inv') held

end Rules

end Discipline

end Threads
