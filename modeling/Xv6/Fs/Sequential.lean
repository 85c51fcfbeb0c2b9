import Xv6.Fs.Syscalls

set_option autoImplicit false

namespace Xv6.Fs

open Threads

abbrev Held := Locks Nat Nat

/-- Process `p` alone, from file system `c` with the locks `h`, can return `a` in `c'` with `h'`. -/
def Runs {A : Type} (p : Nat) (x : Code A) (c : Core) (h : Held) (a : A) (c' : Core) (h' : Held) : Prop :=
  ∃ s s', s.core = c ∧ s'.core = c' ∧ run p x s h = .done a s' h'

section Rules

variable {A B : Type} {p : Nat} {c c' : Core} {h h' : Held}

theorem runs_bind {x : Code A} {f : A → Code B} {b : B} (ran : Runs p (x >>= f) c h b c' h') :
    ∃ a c₁ h₁, Runs p x c h a c₁ h₁ ∧ Runs p (f a) c₁ h₁ b c' h' := by
  obtain ⟨s, s', rfl, rfl, value⟩ := ran
  rw [run_bind] at value
  cases first : run p x s h with
  | done a s₁ h₁ =>
    rw [first] at value
    exact ⟨a, s₁.core, h₁, ⟨s, s₁, rfl, rfl, first⟩, ⟨s₁, s', rfl, rfl, value⟩⟩
  | panicked s₁ => rw [first] at value; cases value
  | blocked s₁ on => rw [first] at value; cases value

theorem runs_next {x : Code A} {f : A → Code B} {a : A} {b : B} {c₁ : Core} {h₁ : Held}
    (ran : Runs p (x >>= f) c h b c' h')
    (next : ∀ {a' c₂ h₂}, Runs p x c h a' c₂ h₂ → a' = a ∧ c₂ = c₁ ∧ h₂ = h₁) : Runs p (f a) c₁ h₁ b c' h' := by
  obtain ⟨a', c₂, h₂, first, later⟩ := runs_bind ran
  obtain ⟨rfl, rfl, rfl⟩ := next first
  exact later

variable {a : A} {b : B} {k : Unit → Code B} {blocks : Core → List LogBlock} {u : Unit}

theorem runs_pure {b : A} (ran : Runs p (pure a) c h b c' h') : b = a ∧ c' = c ∧ h' = h := by
  obtain ⟨s, s', rfl, rfl, value⟩ := ran
  cases value
  exact ⟨rfl, rfl, rfl⟩

theorem runs_panic (ran : Runs p (panic : Code A) c h a c' h') : False := by
  obtain ⟨s, s', rfl, rfl, value⟩ := ran
  cases value

theorem runs_atomic {f : State → Option (A × State)} (ran : Runs p (atomic f) c h a c' h') :
    ∃ s s', s.core = c ∧ s'.core = c' ∧ f s = some (a, s') ∧ h' = h := by
  obtain ⟨s, s', rfl, rfl, value⟩ := ran
  simp only [atomic, run] at value
  cases result : f s with
  | none => rw [result] at value; cases value
  | some pair =>
    rw [result] at value
    cases value
    exact ⟨s, _, rfl, rfl, result, rfl⟩

theorem runs_read {f : Core → A} (ran : Runs p (read f) c h a c' h') : a = f c ∧ c' = c ∧ h' = h := by
  obtain ⟨s, s', rfl, rfl, value, locks⟩ := runs_atomic ran
  cases value
  exact ⟨rfl, rfl, locks⟩

theorem runs_read_bind {f : Core → A} {k : A → Code B} (ran : Runs p (read f >>= k) c h b c' h') :
    Runs p (k (f c)) c h b c' h' := runs_next ran runs_read

theorem runs_change {f : Core → Option (A × Core)} (ran : Runs p (change blocks f) c h a c' h') :
    f c = some (a, c') ∧ h' = h := by
  obtain ⟨s, s', rfl, rfl, value, locks⟩ := runs_atomic ran
  obtain ⟨⟨b, c₁⟩, found, same⟩ := Option.map_eq_some_iff.mp value
  cases same
  exact ⟨found, locks⟩

theorem runs_update {f : Core → Core} (ran : Runs p (update blocks f) c h u c' h') : c' = f c ∧ h' = h := by
  obtain ⟨found, locks⟩ := runs_change ran
  cases found
  exact ⟨rfl, locks⟩

theorem runs_update_bind {f : Core → Core} (ran : Runs p (update blocks f >>= k) c h b c' h') :
    Runs p (k ()) (f c) h b c' h' := runs_next ran fun ran => ⟨rfl, runs_update ran⟩

theorem runs_acquire {via : Via} {i : Nat} (ran : Runs p (acquire via i) c h u c' h') :
    h i = none ∧ c' = c ∧ h' = Function.update h i (some p) := by
  obtain ⟨s, s', rfl, rfl, value⟩ := ran
  simp only [acquire, run] at value
  split at value
  next free =>
    cases value
    exact ⟨free, rfl, rfl⟩
  next => cases value

theorem runs_release {i : Nat} (ran : Runs p (release i) c h u c' h') :
    h i = some p ∧ c' = c ∧ h' = Function.update h i none := by
  obtain ⟨s, s', rfl, rfl, value⟩ := ran
  simp only [release, run] at value
  split at value
  next held =>
    cases value
    exact ⟨held, rfl, rfl⟩
  next => cases value

theorem runs_beginOp (ran : Runs p beginOp c h u c' h') : c' = c ∧ h' = h := by
  obtain ⟨s, s', rfl, rfl, value⟩ := ran
  simp only [beginOp, await, run] at value
  split at value
  next =>
    cases value
    exact ⟨rfl, rfl⟩
  next => cases value

theorem runs_beginOp_bind (ran : Runs p (beginOp >>= k) c h b c' h') : Runs p (k ()) c h b c' h' :=
  runs_next ran fun ran => ⟨rfl, runs_beginOp ran⟩

theorem runs_endOp (ran : Runs p endOp c h u c' h') : c' = c ∧ h' = h := by
  obtain ⟨s, s', rfl, rfl, value, locks⟩ := runs_atomic ran
  cases value
  exact ⟨rfl, locks⟩

theorem runs_endOp_bind (ran : Runs p (endOp >>= k) c h b c' h') : Runs p (k ()) c h b c' h' :=
  runs_next ran fun ran => ⟨rfl, runs_endOp ran⟩

theorem runs_ended {b : A} (ran : Runs p (endOp >>= fun _ => pure a) c h b c' h') : b = a ∧ c' = c ∧ h' = h := by
  exact runs_pure (runs_endOp_bind ran)

end Rules

namespace Core

def put (c : Core) (i : Nat) : Core := (if lastPut c i then c.ifree i else c).unref i

-- What the reference counts of an inode come to once nobody holds it any more.
def reap (c : Core) (i : Nat) : Core := if (c.inodes i).nlink = 0 ∧ c.ref i = 0 then c.ifree i else c

def hold (c : Core) (i : Nat) : Core := (c.igot i).loaded i

end Core

section Fields

variable (c : Core) (i : Nat)

@[simp] theorem igot_inodes : (c.igot i).inodes = c.inodes := rfl
@[simp] theorem loaded_inodes : (c.loaded i).inodes = c.inodes := rfl
@[simp] theorem hold_inodes : (c.hold i).inodes = c.inodes := rfl
@[simp] theorem loaded_ref : (c.loaded i).ref = c.ref := rfl
@[simp] theorem hold_ref : (c.hold i).ref = Function.update c.ref i (c.ref i + 1) := rfl
@[simp] theorem hold_valid : (c.hold i).valid = Function.update c.valid i true := rfl
@[simp] theorem hold_procs : (c.hold i).procs = c.procs := rfl
@[simp] theorem hold_files : (c.hold i).files = c.files := rfl

end Fields

section Inodes

variable {B : Type} {p i : Nat} {c c' : Core} {h h' : Held} {u : Unit} {b : B} {k : Unit → Code B}

theorem loaded_valid (valid : c.valid i = true) : c.loaded i = c := by
  simp [Core.loaded, ← valid]

theorem runs_checkRef (ran : Runs p (checkRef i) c h u c' h') : 0 < c.ref i ∧ c' = c ∧ h' = h := by
  obtain ⟨found, locks⟩ := runs_change ran
  split at found
  next => cases found
  next positive =>
    cases found
    exact ⟨by omega, rfl, locks⟩

theorem runs_iget (ran : Runs p (iget i) c h u c' h') : c' = c.igot i ∧ h' = h := by
  obtain ⟨found, locks⟩ := runs_change ran
  split at found
  next => cases found
  next =>
    cases found
    exact ⟨rfl, locks⟩

theorem runs_ilock (ran : Runs p (ilock i) c h u c' h') :
    h i = none ∧ c' = c.loaded i ∧ h' = Function.update h i (some p) ∧ 0 < c.ref i ∧
      (c.valid i = true ∨ (c.inodes i).type ≠ .free) := by
  obtain ⟨_, c₁, h₁, checked, ran₁⟩ := runs_bind ran
  obtain ⟨positive, rfl, rfl⟩ := runs_checkRef checked
  obtain ⟨_, c₂, h₂, locked, ran₂⟩ := runs_bind ran₁
  obtain ⟨free, rfl, rfl⟩ := runs_acquire locked
  obtain ⟨found, rfl⟩ := runs_change ran₂
  split at found
  next valid =>
    cases found
    exact ⟨free, (loaded_valid valid).symm, rfl, positive, Or.inl valid⟩
  next =>
    split at found
    next => cases found
    next typed =>
      cases found
      exact ⟨free, rfl, rfl, positive, Or.inr typed⟩

theorem runs_iunlock (ran : Runs p (iunlock i) c h u c' h') :
    h i = some p ∧ c' = c ∧ h' = Function.update h i none := by
  obtain ⟨_, c₁, h₁, checked, ran₁⟩ := runs_bind ran
  obtain ⟨_, rfl, rfl⟩ := runs_checkRef checked
  exact runs_release ran₁

theorem runs_iunlock_bind (ran : Runs p (iunlock i >>= k) c h b c' h') :
    Runs p (k ()) c (Function.update h i none) b c' h' := runs_next ran fun ran => ⟨rfl, (runs_iunlock ran).2⟩

theorem runs_iput (ran : Runs p (iput i) c h u c' h') : h i = none ∧ c' = c.put i ∧ h' = h := by
  obtain ⟨_, c₁, h₁, locked, ran₁⟩ := runs_bind ran
  obtain ⟨free, rfl, rfl⟩ := runs_acquire locked
  have ran₂ := runs_update_bind ran₁
  obtain ⟨_, c₃, h₃, unlocked, ran₃⟩ := runs_bind ran₂
  obtain ⟨_, rfl, rfl⟩ := runs_release unlocked
  obtain ⟨rfl, rfl⟩ := runs_update ran₃
  exact ⟨free, rfl, by simp [← free]⟩

theorem runs_iput_bind (ran : Runs p (iput i >>= k) c h b c' h') : Runs p (k ()) (c.put i) h b c' h' :=
  runs_next ran fun ran => ⟨rfl, (runs_iput ran).2⟩

theorem runs_iunlockput (ran : Runs p (iunlockput i) c h u c' h') :
    h i = some p ∧ c' = c.put i ∧ h' = Function.update h i none := by
  obtain ⟨_, c₁, h₁, unlocked, ran₁⟩ := runs_bind ran
  obtain ⟨held, rfl, rfl⟩ := runs_iunlock unlocked
  obtain ⟨_, rfl, rfl⟩ := runs_iput ran₁
  exact ⟨held, rfl, rfl⟩

theorem runs_iunlockput_bind (ran : Runs p (iunlockput i >>= k) c h b c' h') :
    Runs p (k ()) (c.put i) (Function.update h i none) b c' h' :=
  runs_next ran fun ran => ⟨rfl, (runs_iunlockput ran).2⟩

theorem runs_putEnded {A : Type} {a b : A}
    (ran : Runs p (iunlockput i >>= fun _ => endOp >>= fun _ => pure a) c h b c' h') :
    b = a ∧ c' = c.put i ∧ h' = Function.update h i none := by
  exact runs_ended (runs_iunlockput_bind ran)

theorem runs_dirlookup {name : Name} {found : Option (Nat × Nat)} (ran : Runs p (dirlookup i name) c h found c' h') :
    (c.inodes i).type = .dir ∧ findSlot name (c.inodes i).slots 0 = found ∧ h' = h ∧
      c' = (found.map fun entry => c.igot entry.1).getD c := by
  have ran₁ := runs_read_bind ran
  split at ran₁
  next => exact (runs_panic ran₁).elim
  next typed =>
    have typed : (c.inodes i).type = .dir := by simpa using typed
    split at ran₁
    next absent =>
      obtain ⟨rfl, rfl, rfl⟩ := runs_pure ran₁
      exact ⟨typed, absent, rfl, rfl⟩
    next j off present =>
      obtain ⟨_, c₂, h₂, got, ran₂⟩ := runs_bind ran₁
      obtain ⟨rfl, rfl⟩ := runs_iget got
      obtain ⟨rfl, rfl, rfl⟩ := runs_pure ran₂
      exact ⟨typed, present, rfl, rfl⟩

end Inodes

section References

variable {c : Core} {i j : Nat}

theorem unref_igot (valid : c.valid i = true ↔ 0 < c.ref i) : (c.igot i).unref i = c := by
  have same : (c.valid i && !decide (c.ref i = 0)) = c.valid i := by
    by_cases zero : c.ref i = 0
    · have : c.valid i = false := by simpa [zero] using valid
      simp [this]
    · simp [zero]
  have used : (if c.ref i = 0 then (if c.ref i = 0 then c.used + 1 else c.used) - 1
      else if c.ref i = 0 then c.used + 1 else c.used) = c.used := by
    split <;> simp
  simp [Core.igot, Core.unref, same, used]

theorem unref_hold (valid : c.valid i = true ↔ 0 < c.ref i) : (c.hold i).unref i = c := by
  have same : decide (c.ref i ≠ 0) = c.valid i := by
    by_cases zero : c.ref i = 0
    · have : c.valid i = false := by simpa [zero] using valid
      simp [this, zero]
    · have : c.valid i = true := valid.mpr (by omega)
      simp [this, zero]
  have used : (if c.ref i = 0 then (if c.ref i = 0 then c.used + 1 else c.used) - 1
      else if c.ref i = 0 then c.used + 1 else c.used) = c.used := by
    split <;> simp
  simp [Core.hold, Core.igot, Core.loaded, Core.unref, same, used]

theorem unref_ifree_hold (idle : c.ref i = 0) : ((c.hold i).ifree i).unref i = c.ifree i := by
  simp [Core.hold, Core.igot, Core.loaded, Core.unref, Core.ifree, idle]

theorem put_hold (valid : c.valid i = true ↔ 0 < c.ref i) : (c.hold i).put i = c.reap i := by
  have last : lastPut (c.hold i) i = decide ((c.inodes i).nlink = 0 ∧ c.ref i = 0) := by
    simp [lastPut, Core.hold, Core.igot, Core.loaded]
  by_cases gone : (c.inodes i).nlink = 0 ∧ c.ref i = 0
  · simp only [Core.put, last, Core.reap, gone, and_self, decide_true, if_true]
    exact unref_ifree_hold gone.2
  · simp only [Core.put, last, Core.reap, gone, decide_false, Bool.false_eq_true, if_false]
    exact unref_hold valid

theorem igot_comm (apart : i ≠ j) : (c.igot i).igot j = (c.igot j).igot i := by
  simp only [Core.igot, Function.update_of_ne apart, Function.update_of_ne apart.symm, Function.update_comm apart]
  congr 1
  split <;> split <;> rfl

theorem hold_igot_comm (apart : i ≠ j) : (c.hold i).igot j = (c.igot j).hold i := by
  simp only [Core.hold, ← igot_comm apart]
  rfl

theorem loaded_comm (apart : i ≠ j) : (c.loaded i).loaded j = (c.loaded j).loaded i := by
  simp [Core.loaded, Function.update_comm apart]

theorem hold_comm (apart : i ≠ j) : (c.hold i).hold j = (c.hold j).hold i := by
  calc (c.hold i).hold j = ((c.hold i).igot j).loaded j := rfl
    _ = (((c.igot j).igot i).loaded i).loaded j := by rw [hold_igot_comm apart, Core.hold]
    _ = (((c.igot j).loaded j).igot i).loaded i := by rw [loaded_comm apart]; rfl

/-- The state between two steps of a call: a cached inode is one with a reference, it is not free, and an
inode without links has a reference. -/
structure Stable (c : Core) : Prop where
  fits : ∀ i, short (c.inodes i).nlink = (c.inodes i).nlink
  valid : ∀ i, c.valid i = true ↔ 0 < c.ref i
  typed : ∀ i, 0 < c.ref i → (c.inodes i).type ≠ .free
  kept : ∀ i, (c.inodes i).type ≠ .free → (c.inodes i).nlink = 0 → 0 < c.ref i

-- One more reference to `i`, which may have been locked since.
inductive Holds (c : Core) (i : Nat) : Core → Prop where
  | got : Holds c i (c.igot i)
  | loaded (typed : (c.inodes i).type ≠ .free) : Holds c i (c.hold i)

theorem Stable.reap (stable : Stable c) (typed : (c.inodes i).type ≠ .free) : c.reap i = c := by
  rw [Core.reap, if_neg]
  rintro ⟨unlinked, idle⟩
  have := stable.kept i typed unlinked
  omega

theorem Stable.put_igot (stable : Stable c) : (c.igot i).put i = c := by
  have more : lastPut (c.igot i) i = false := by
    by_cases cached : c.valid i = true
    · have := (stable.valid i).mp cached
      simp [lastPut, Core.igot]
      omega
    · simp [lastPut, Core.igot, cached]
  simp only [Core.put, more, Bool.false_eq_true, if_false]
  exact unref_igot (stable.valid i)

theorem Stable.put_holds (stable : Stable c) {c₁ : Core} (holds : Holds c i c₁) : c₁.put i = c := by
  cases holds with
  | got => exact stable.put_igot
  | loaded typed => rw [put_hold (stable.valid i), stable.reap typed]

theorem Holds.locked {c₁ : Core} (stable : Stable c) (holds : Holds c i c₁)
    (checked : c₁.valid i = true ∨ (c₁.inodes i).type ≠ .free) :
    (c.inodes i).type ≠ .free ∧ c₁.loaded i = c.hold i := by
  cases holds with
  | got =>
    refine ⟨?_, rfl⟩
    rcases checked with cached | typed
    · exact stable.typed i ((stable.valid i).mp cached)
    · exact typed
  | loaded typed => exact ⟨typed, by simp [Core.hold, Core.loaded]⟩

theorem Holds.lock {B : Type} {p : Nat} {c₁ c' : Core} {h h' : Held} {k : Unit → Code B} {b : B} (holds : Holds c i c₁)
    (stable : Stable c) (ran : Runs p (ilock i >>= k) c₁ h b c' h') :
    (c.inodes i).type ≠ .free ∧ h i = none ∧ Function.update (Function.update h i (some p)) i none = h ∧
      Runs p (k ()) (c.hold i) (Function.update h i (some p)) b c' h' := by
  obtain ⟨_, c₂, h₂, locking, ran₁⟩ := runs_bind ran
  obtain ⟨free, rfl, rfl, _, checked⟩ := runs_ilock locking
  obtain ⟨typed, same⟩ := holds.locked stable checked
  exact ⟨typed, free, by simp [← free], same ▸ ran₁⟩

theorem Stable.put_next (stable : Stable c) (typed : (c.inodes i).type ≠ .free) :
    Holds c j (((c.hold i).igot j).put i) := by
  by_cases same : i = j
  · subst same
    have more : lastPut ((c.hold i).igot i) i = false := by simp [lastPut, Core.igot, Core.hold, Core.loaded]
    have held : ((c.hold i).igot i).put i = c.hold i := by
      simp only [Core.put, more, Bool.false_eq_true, if_false]
      exact unref_igot (by simp [Core.hold, Core.igot, Core.loaded])
    rw [held]
    exact .loaded typed
  · have kept : ((c.hold i).igot j).put i = c.igot j := by
      rw [hold_igot_comm same, put_hold]
      · rw [Core.reap, if_neg]
        · rintro ⟨unlinked, idle⟩
          have idle : c.ref i = 0 := by simpa [Core.igot, same] using idle
          have := stable.kept i typed unlinked
          omega
      · simpa [Core.igot, same] using stable.valid i
    rw [kept]
    exact .got

end References

section Paths

def walk (c : Core) (parent : Bool) : Nat → List Name → Option (Nat × Name)
  | ip, [] => if parent then none else some (ip, [])
  | ip, name :: rest =>
    if (c.inodes ip).type ≠ .dir then none
    else if parent ∧ rest = [] then some (ip, name)
    else (findSlot name (c.inodes ip).slots 0).bind fun found => walk c parent found.1 rest

def resolve (c : Core) (p : Nat) (path : Path) (parent : Bool) : Option (Nat × Name) :=
  walk c parent (if path.head? = some '/' then rootIno else cwdOf c p) (elements path)

variable {p : Nat} {c c' : Core} {h h' : Held}

theorem walk_parent {ip i : Nat} {names : List Name} {name : Name}
    (found : walk c true ip names = some (i, name)) : (c.inodes i).type = .dir ∧ name ∈ names := by
  induction names generalizing ip with
  | nil => simp [walk] at found
  | cons first rest ih =>
    unfold walk at found
    split at found
    next => simp at found
    next isDir =>
      split at found
      next =>
        cases found
        exact ⟨by simpa using isDir, List.mem_cons_self⟩
      next =>
        obtain ⟨⟨next, off⟩, _, deeper⟩ := Option.bind_eq_some_iff.mp found
        exact ⟨(ih deeper).1, List.mem_cons_of_mem _ (ih deeper).2⟩

theorem walk_congr {d : Core} (type : ∀ i, (c.inodes i).type = (d.inodes i).type)
    (slots : ∀ i, (c.inodes i).slots = (d.inodes i).slots) (parent : Bool) (ip : Nat) (names : List Name) :
    walk c parent ip names = walk d parent ip names := by
  induction names generalizing ip with
  | nil => rfl
  | cons name rest ih =>
    unfold walk
    simp only [type, slots, ih]

theorem resolve_parent {path : Path} {i : Nat} {name : Name} (found : resolve c p path true = some (i, name)) :
    (c.inodes i).type = .dir ∧ name ∈ elements path := walk_parent found

variable {found : Option (Nat × Name)}

theorem namexLoop_runs (stable : Stable c) {parent : Bool} {ip : Nat} {names : List Name} {c₁ : Core}
    (holds : Holds c ip c₁) (ran : Runs p (namexLoop parent ip names) c₁ h found c' h') :
    h' = h ∧ found = walk c parent ip names ∧ (found = none → c' = c) ∧
      ∀ i name, found = some (i, name) → Holds c i c' := by
  induction names generalizing ip c₁ with
  | nil =>
    unfold namexLoop at ran
    unfold walk
    split at ran
    next isParent =>
      have ran₁ := runs_iput_bind ran
      obtain ⟨rfl, rfl, rfl⟩ := runs_pure ran₁
      exact ⟨rfl, by rw [if_pos isParent], fun _ => stable.put_holds holds, by simp⟩
    next child =>
      obtain ⟨rfl, rfl, rfl⟩ := runs_pure ran
      refine ⟨rfl, by rw [if_neg child], by simp, ?_⟩
      rintro i name same
      cases same
      exact holds
  | cons name rest ih =>
    unfold namexLoop at ran
    unfold walk
    obtain ⟨typed, free, _, ran₁⟩ := holds.lock stable ran
    have ran₂ := runs_read_bind ran₁
    have put_back : (c.hold ip).put ip = c := by rw [put_hold (stable.valid ip), stable.reap typed]
    have unlocked : Function.update (Function.update h ip (some p)) ip none = h := by simp [← free]
    split at ran₂
    next notDir =>
      have ran₃ := runs_iunlockput_bind ran₂
      obtain ⟨rfl, rfl, rfl⟩ := runs_pure ran₃
      have notDir : (c.inodes ip).type ≠ .dir := by simpa using notDir
      exact ⟨unlocked, by rw [if_pos notDir], fun _ => put_back, by simp⟩
    next isDir =>
      have isDir : ¬(c.inodes ip).type ≠ .dir := by simpa using isDir
      rw [if_neg isDir]
      split at ran₂
      next last =>
        have ran₃ := runs_iunlock_bind ran₂
        obtain ⟨rfl, rfl, rfl⟩ := runs_pure ran₃
        refine ⟨unlocked, by rw [if_pos last], by simp, ?_⟩
        rintro i name same
        cases same
        exact .loaded typed
      next more =>
        rw [if_neg more]
        obtain ⟨entry, c₄, h₄, looking, ran₃⟩ := runs_bind ran₂
        obtain ⟨_, slot, rfl, rfl⟩ := runs_dirlookup looking
        have slot : findSlot name (c.inodes ip).slots 0 = entry := slot
        rw [slot]
        cases entry with
        | none =>
          have ran₄ := runs_iunlockput_bind ran₃
          obtain ⟨rfl, rfl, rfl⟩ := runs_pure ran₄
          exact ⟨unlocked, rfl, fun _ => put_back, by simp⟩
        | some entry =>
          have ran₄ := runs_iunlockput_bind ran₃
          rw [unlocked] at ran₄
          exact ih (stable.put_next typed) ran₄

theorem namex_runs (stable : Stable c) {path : Path} {parent : Bool}
    (ran : Runs p (namex p path parent) c h found c' h') :
    h' = h ∧ found = resolve c p path parent ∧ (found = none → c' = c) ∧
      ∀ i name, found = some (i, name) → Holds c i c' := by
  unfold namex at ran
  unfold resolve
  split at ran
  next absolute =>
    obtain ⟨_, c₁, h₁, got, ran₁⟩ := runs_bind ran
    obtain ⟨rfl, rfl⟩ := runs_iget got
    rw [if_pos absolute]
    exact namexLoop_runs stable .got ran₁
  next relative =>
    have ran₁ := runs_read_bind ran
    have ran₂ := runs_update_bind ran₁
    rw [if_neg relative]
    exact namexLoop_runs stable .got ran₂

theorem namei_runs (stable : Stable c) {path : Path} {found : Option Nat}
    (ran : Runs p (namei p path) c h found c' h') :
    h' = h ∧ found = (resolve c p path false).map Prod.fst ∧ (found = none → c' = c) ∧
      ∀ i, found = some i → Holds c i c' := by
  obtain ⟨result, c₁, h₁, walked, ran₁⟩ := runs_bind ran
  obtain ⟨rfl, rfl, rfl⟩ := runs_pure ran₁
  obtain ⟨locks, same, failed, succeeded⟩ := namex_runs stable walked
  refine ⟨locks, by rw [same], fun absent => failed (by simpa using absent), fun i present => ?_⟩
  obtain ⟨⟨j, name⟩, same, rfl⟩ := Option.map_eq_some_iff.mp present
  exact succeeded j name same

end Paths

end Xv6.Fs
