import Xv6.Fs.Names

set_option autoImplicit false

namespace Xv6.Fs

open Threads

def Ends {A : Type} (p : Nat) (x : Code A) (c : Core) (h : Held) (a : A) (c' : Core) (h' : Held) : Prop :=
  ∀ s, s.core = c → ∃ s', s'.core = c' ∧ run p x s h = .done a s' h'

section Rules

variable {A B : Type} {p : Nat} {c c₁ c' : Core} {h h₁ h' : Held} {a : A}

theorem ends_bind {x : Code A} {f : A → Code B} {b : B} (first : Ends p x c h a c₁ h₁)
    (second : Ends p (f a) c₁ h₁ b c' h') : Ends p (x >>= f) c h b c' h' := by
  intro s same
  obtain ⟨s₁, same₁, ran₁⟩ := first s same
  obtain ⟨s₂, same₂, ran₂⟩ := second s₁ same₁
  refine ⟨s₂, same₂, ?_⟩
  rw [run_bind, ran₁]
  exact ran₂

theorem ends_pure : Ends p (pure a) c h a c h := fun s same => ⟨s, same, rfl⟩

theorem ends_read {f : Core → A} : Ends p (read f) c h (f c) c h := by
  rintro s rfl
  exact ⟨s, rfl, rfl⟩

theorem ends_change {blocks : Core → List LogBlock} {f : Core → Option (A × Core)} (value : f c = some (a, c')) :
    Ends p (change blocks f) c h a c' h := by
  rintro s rfl
  refine ⟨{ s with core := c', logged := logAll s.logged (blocks s.core) }, rfl, ?_⟩
  simp [change, atomic, run, value]

theorem ends_update {blocks : Core → List LogBlock} {f : Core → Core} : Ends p (update blocks f) c h () (f c) h :=
  ends_change rfl

theorem ends_acquire {via : Via} {i : Nat} (free : h i = none) :
    Ends p (acquire via i) c h () c (Function.update h i (some p)) := by
  intro s same
  exact ⟨s, same, by simp [acquire, run, free]⟩

theorem ends_release {i : Nat} (held : h i = some p) : Ends p (release i) c h () c (Function.update h i none) := by
  intro s same
  exact ⟨s, same, by simp [release, run, held]⟩

end Rules

section Walks

variable {p i : Nat} {c c₁ : Core} {h : Held}

theorem ends_checkRef (positive : 0 < c.ref i) : Ends p (checkRef i) c h () c h := ends_change (if_neg (by omega))

theorem ends_iget (room : c.used < ninode) : Ends p (iget i) c h () (c.igot i) h := ends_change (if_neg (by omega))

theorem ends_ilock (positive : 0 < c.ref i) (free : h i = none) (typed : (c.inodes i).type ≠ .free) :
    Ends p (ilock i) c h () (c.loaded i) (Function.update h i (some p)) := by
  refine ends_bind (ends_checkRef positive) (ends_bind (ends_acquire free) (ends_change ?_))
  by_cases valid : c.valid i = true
  · rw [if_pos valid, loaded_valid valid]
  · rw [if_neg valid, if_neg typed]

theorem ends_iunlock (positive : 0 < c.ref i) (held : h i = some p) :
    Ends p (iunlock i) c h () c (Function.update h i none) := ends_bind (ends_checkRef positive) (ends_release held)

theorem ends_iput (free : h i = none) : Ends p (iput i) c h () (c.put i) h := by
  have unlocked : Function.update (Function.update h i (some p)) i none = h := by simp [← free]
  have unlocking {d : Core} : Ends p (release i) d (Function.update h i (some p)) () d h := by
    have := ends_release (p := p) (c := d) (h := Function.update h i (some p)) (i := i) (by simp)
    rwa [unlocked] at this
  exact ends_bind (ends_acquire free) (ends_bind ends_update (ends_bind unlocking ends_update))

theorem ends_iunlockput (positive : 0 < c.ref i) (held : h i = some p) :
    Ends p (iunlockput i) c h () (c.put i) (Function.update h i none) :=
  ends_bind (ends_iunlock positive held) (ends_iput (by simp))

theorem ends_dirlookup {n : Name} (isDir : (c.inodes i).type = .dir) (room : c.used < ninode) :
    Ends p (dirlookup i n) c h (findSlot n (c.inodes i).slots 0)
      (((findSlot n (c.inodes i).slots 0).map fun entry => c.igot entry.1).getD c) h := by
  refine ends_bind ends_read ?_
  rw [if_neg (by simp [isDir])]
  cases findSlot n (c.inodes i).slots 0 with
  | none => exact ends_pure
  | some entry => exact ends_bind (ends_iget room) ends_pure

def Whole (c : Core) : Prop :=
  ∀ d, (c.inodes d).type = .dir → ∀ entry ∈ (c.inodes d).slots, entry.inum ≠ 0 →
    (c.inodes entry.inum).type ≠ .free

theorem Holds.used (holds : Holds c i c₁) : c₁.used ≤ c.used + 1 := by
  cases holds with
  | got =>
    simp only [Core.igot]
    split <;> omega
  | loaded =>
    simp only [Core.hold, Core.loaded, Core.igot]
    split <;> omega

theorem Holds.ref (holds : Holds c i c₁) : 0 < c₁.ref i := by
  cases holds with
  | got => simp [Core.igot]
  | loaded => simp

theorem Holds.sameInodes (holds : Holds c i c₁) : c₁.inodes = c.inodes := by
  cases holds <;> rfl

theorem namexLoop_ends (stable : Stable c) (whole : Whole c) (room : c.used + 2 ≤ ninode) {parent : Bool} {ip : Nat}
    {names : List Name} (holds : Holds c ip c₁) (typed : (c.inodes ip).type ≠ .free) :
    ∃ found c', Ends p (namexLoop parent ip names) c₁ (fun _ => none) found c' fun _ => none := by
  induction names generalizing ip c₁ with
  | nil =>
    unfold namexLoop
    split
    · exact ⟨_, _, ends_bind (ends_iput rfl) ends_pure⟩
    · exact ⟨_, _, ends_pure⟩
  | cons name rest ih =>
    unfold namexLoop
    have locking : Ends p (ilock ip) c₁ (fun _ => none) () (c.hold ip)
        (Function.update (fun _ => none) ip (some p)) := by
      rw [← (holds.locked stable (Or.inr (by rwa [holds.sameInodes]))).2]
      exact ends_ilock holds.ref rfl (by rwa [holds.sameInodes])
    have unlocked : Function.update (Function.update (fun _ => none) ip (some p)) ip none = (fun _ => none : Held) := by
      simp
    have putting {d : Core} (positive : 0 < d.ref ip) : Ends p (iunlockput ip) d
        (Function.update (fun _ => none) ip (some p)) () (d.put ip) (fun _ => none) := by
      have := ends_iunlockput (p := p) (c := d) (h := Function.update (fun _ => none) ip (some p)) positive (by simp)
      rwa [unlocked] at this
    have room₁ : (c.hold ip).used < ninode := by
      have := (Holds.loaded typed).used
      omega
    by_cases notDir : ((c.hold ip).inodes ip).type ≠ .dir
    · refine ⟨none, (c.hold ip).put ip, ends_bind locking (ends_bind ends_read ?_)⟩
      rw [if_pos notDir]
      exact ends_bind (putting (by simp)) ends_pure
    · by_cases last : parent ∧ rest = []
      · refine ⟨some (ip, name), c.hold ip, ends_bind locking (ends_bind ends_read ?_)⟩
        rw [if_neg notDir, if_pos last]
        have unlocking := ends_iunlock (p := p) (i := ip) (c := c.hold ip)
          (h := Function.update (fun _ => none) ip (some p)) (by simp) (by simp)
        rw [unlocked] at unlocking
        exact ends_bind unlocking ends_pure
      · have isDir : (c.inodes ip).type = .dir := by simpa using notDir
        have looking := ends_dirlookup (p := p) (c := c.hold ip) (h := Function.update (fun _ => none) ip (some p))
          (n := name) isDir room₁
        cases present : findSlot name ((c.hold ip).inodes ip).slots 0 with
        | none =>
          rw [present] at looking
          refine ⟨none, (c.hold ip).put ip, ends_bind locking (ends_bind ends_read ?_)⟩
          rw [if_neg notDir, if_neg last]
          exact ends_bind looking (ends_bind (putting (by simp)) ends_pure)
        | some entry =>
          rw [present] at looking
          obtain ⟨n, _, used, member⟩ := findSlot_some present
          have next : (c.inodes entry.1).type ≠ .free := whole ip isDir _ (List.mem_of_getElem? member) used
          obtain ⟨found, c', deeper⟩ := ih (stable.put_next typed) next
          refine ⟨found, c', ends_bind locking (ends_bind ends_read ?_)⟩
          rw [if_neg notDir, if_neg last]
          refine ends_bind looking (ends_bind (putting ?_) deeper)
          by_cases here : ip = entry.1
          · simp [Core.igot, ← here]
          · simp [Core.igot, here]

theorem namex_ends (stable : Stable c) (whole : Whole c) (room : c.used + 2 ≤ ninode) {path : Path} {parent : Bool}
    (root : (c.inodes rootIno).type ≠ .free) (cwd : (c.inodes (cwdOf c p)).type ≠ .free) :
    ∃ found c', Ends p (namex p path parent) c (fun _ => none) found c' fun _ => none := by
  unfold namex
  split
  · obtain ⟨found, c', walk⟩ := namexLoop_ends (p := p) stable whole room .got root
    exact ⟨found, c', ends_bind (ends_iget (by omega)) walk⟩
  · obtain ⟨found, c', walk⟩ := namexLoop_ends (p := p) stable whole room .got cwd
    exact ⟨found, c', ends_bind ends_read (ends_bind ends_update walk)⟩

end Walks

end Xv6.Fs
