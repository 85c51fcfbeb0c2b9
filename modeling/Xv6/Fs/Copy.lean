import Xv6.Fs.LinkCounts

set_option autoImplicit false

namespace Xv6.Fs

open Threads

section NoWait

variable {A : Type} {p i : Nat} {files : List File} {h h' : Held}

def At (files : List File) (h : Held) (s : State) (locks : Held) : Prop := s.core.files = files ∧ locks = h

variable {blocks : Core → List LogBlock}

theorem triple_change {f : Core → Option (A × Core)} (kept : ∀ c a c', f c = some (a, c') → c'.files = c.files) :
    Triple p (At files h) (change blocks f) fun _ => At files h := by
  refine triple_atomic ?_
  rintro s locks ⟨same, rfl⟩ a s' value
  obtain ⟨⟨b, c'⟩, found, equal⟩ := Option.map_eq_some_iff.mp value
  cases equal
  exact ⟨(kept s.core _ _ found).trans same, rfl⟩

theorem triple_update {f : Core → Core} (kept : ∀ c, (f c).files = c.files) :
    Triple p (At files h) (update blocks f) fun _ => At files h := triple_change fun c a c' value => by
    cases value
    exact kept c

theorem triple_read {f : Core → A} : Triple p (At files h) (read f) fun _ => At files h :=
  triple_atomic fun s locks before a s' value => by
    cases value
    exact before

theorem triple_lock {via : Via} (free : h i = none) :
    Triple p (At files h) (acquire via i) fun _ => At files (Function.update h i (some p)) :=
  triple_acquire (fun _ _ before => before.2 ▸ free) fun _ _ before => ⟨before.1, by rw [before.2]⟩

theorem triple_unlock (back : Function.update h i none = h') :
    Triple p (At files h) (release i : Code Unit) fun _ => At files h' :=
  triple_release fun _ _ before => ⟨before.1, by rw [before.2, back]⟩

theorem triple_checkRef : Triple p (At files h) (checkRef i) fun _ => At files h := by
  refine triple_change fun c a c' value => ?_
  split at value <;> cases value
  rfl

theorem triple_iget : Triple p (At files h) (iget i) fun _ => At files h := by
  refine triple_change fun c a c' value => ?_
  split at value <;> cases value
  rfl

theorem triple_ilock (free : h i = none) :
    Triple p (At files h) (ilock i) fun _ => At files (Function.update h i (some p)) := by
  refine triple_bind triple_checkRef fun _ => triple_bind (triple_lock free) fun _ => triple_change ?_
  intro c a c' value
  split at value
  · cases value
    rfl
  · split at value <;> cases value
    rfl

theorem triple_iunlock (back : Function.update h i none = h') :
    Triple p (At files h) (iunlock i) fun _ => At files h' := triple_bind triple_checkRef fun _ => triple_unlock back

theorem triple_iput (free : h i = none) : Triple p (At files h) (iput i) fun _ => At files h := by
  have back : Function.update (Function.update h i (some p)) i none = h := by simp [← free]
  refine triple_bind (triple_lock free) fun _ => triple_bind (triple_update fun c => ?_) fun _ =>
    triple_bind (triple_unlock back) fun _ => triple_update fun c => rfl
  split <;> rfl

theorem triple_iunlockput (back : Function.update h i none = h') :
    Triple p (At files h) (iunlockput i) fun _ => At files h' :=
  triple_bind (triple_iunlock back) fun _ => triple_iput (by simp [← back])

theorem triple_dirlookup {name : Name} : Triple p (At files h) (dirlookup i name) fun _ => At files h := by
  refine triple_bind triple_read fun dir => ?_
  split
  · exact triple_panic
  · split
    · exact triple_ret fun _ _ => id
    · exact triple_bind triple_iget fun _ => triple_ret fun _ _ => id

theorem triple_namexLoop {parent : Bool} {ip : Nat} {names : List Name} :
    Triple p (At files fun _ => none) (namexLoop parent ip names) fun _ => At files fun _ => none := by
  induction names generalizing ip with
  | nil =>
    unfold namexLoop
    split
    · exact triple_bind (triple_iput rfl) fun _ => triple_ret fun _ _ => id
    · exact triple_ret fun _ _ => id
  | cons name rest ih =>
    have back : Function.update (Function.update (fun _ => none : Held) ip (some p)) ip none = fun _ => none := by
      simp
    unfold namexLoop
    refine triple_bind (triple_ilock rfl) fun _ => triple_bind triple_read fun type => ?_
    split
    · exact triple_bind (triple_iunlockput back) fun _ => triple_ret fun _ _ => id
    · split
      · exact triple_bind (triple_iunlock back) fun _ => triple_ret fun _ _ => id
      · refine triple_bind triple_dirlookup fun found => ?_
        split
        · exact triple_bind (triple_iunlockput back) fun _ => triple_ret fun _ _ => id
        · exact triple_bind (triple_iunlockput back) fun _ => ih

theorem triple_namei {path : Path} :
    Triple p (At files fun _ => none) (namei p path) fun _ => At files fun _ => none := by
  refine triple_bind ?_ fun _ => triple_ret fun _ _ => id
  unfold namex
  split
  · exact triple_bind triple_iget fun _ => triple_namexLoop
  · exact triple_bind triple_read fun _ => triple_bind (triple_update fun _ => rfl) fun _ => triple_namexLoop

theorem triple_endOp : Triple p (At files h) endOp fun _ => At files h :=
  triple_atomic fun s locks before a s' value => by
    cases value
    exact before

def FilesFull (files : List File) : Prop := ∀ file ∈ files, file.ref ≠ 0

theorem triple_filealloc (full : FilesFull files) :
    Triple p (At files h) filealloc fun found s locks => found = none ∧ At files h s locks := by
  refine triple_atomic ?_
  rintro s locks ⟨same, rfl⟩ a s' value
  have none : s.core.files.findIdx? (fun file => decide (file.ref = 0)) = none := by
    rw [List.findIdx?_eq_none_iff]
    intro file present
    simpa using full file (same ▸ present)
  obtain ⟨result, found, equal⟩ := Option.map_eq_some_iff.mp value
  dsimp only at found
  rw [none] at found
  cases found
  cases equal
  exact ⟨rfl, same, rfl⟩

theorem triple_sysCopy_full (full : FilesFull files) (src dst : Path) :
    Triple p (fun s locks => At files (fun _ => none) s locks ∧ s.outstanding = 0 ∧ s.logged = [])
      (sysCopy p (some src) (some dst)) fun r _ _ => r = -1 := by
  have starting : Triple p (fun s locks => At files (fun _ => none) s locks ∧ s.outstanding = 0 ∧ s.logged = [])
      beginOp fun _ => At files fun _ => none := by
    refine triple_await ?_ fun s locks before => before.1
    rintro s locks ⟨_, outstanding, logged⟩
    rw [outstanding, logged]
    decide
  refine triple_bind starting fun _ => triple_bind triple_namei fun found => ?_
  cases found with
  | none => exact triple_bind triple_endOp fun _ => triple_ret fun _ _ _ => rfl
  | some i =>
    refine triple_bind (triple_ilock rfl) fun _ => triple_bind (triple_filealloc full) fun source => ?_
    rintro s locks ⟨rfl, before⟩
    exact triple_bind (triple_iunlockput rfl) (fun _ => triple_bind triple_endOp fun _ => triple_ret fun _ _ _ => rfl)
      s locks before

end NoWait

section Copy

variable {p i : Nat} {c c' : Core} {h h' : Held} {f : Nat}

theorem fileclose_unlocked {u : Unit} (ran : Runs p (fileclose f) c h u c' h') (single : (fileAt c f).ref = 1)
    (isInode : (fileAt c f).type = .inode) : h (fileAt c f).ip = none := by
  obtain ⟨last, c₁, h₁, dropping, ran₁⟩ := runs_bind ran
  obtain ⟨value, rfl⟩ := runs_change dropping
  rw [if_neg (by omega), if_neg (by omega)] at value
  cases value
  dsimp only at ran₁
  rw [if_pos isInode] at ran₁
  have ran₂ := runs_beginOp_bind ran₁
  obtain ⟨_, c₃, h₃, putting, ran₃⟩ := runs_bind ran₂
  exact (runs_iput putting).1

theorem copyFiles_unlocked {source target : Nat} {r : Int} (ran : Runs p (copyFiles source target) c h r c' h')
    (readable : (fileAt c source).readable = true) (isInode : (fileAt c source).type = .inode) :
    h (fileAt c source).ip = none := by
  obtain ⟨copied, c₁, h₁, copying, _⟩ := runs_bind ran
  obtain ⟨bytes, c₂, h₂, reading, _⟩ := runs_bind copying
  have ran₁ := runs_read_bind reading
  rw [if_neg (by simp [readable]), if_pos isInode] at ran₁
  obtain ⟨_, c₄, h₄, locking, _⟩ := runs_bind ran₁
  exact (runs_ilock locking).1

structure Source (c : Core) (f i : Nat) : Prop where
  single : (fileAt c f).ref = 1
  isInode : (fileAt c f).type = .inode
  readable : (fileAt c f).readable = true
  ip : (fileAt c f).ip = i

theorem Source.sameFiles (source : Source c f i) (files : c'.files = c.files) : Source c' f i := by
  have same : fileAt c' f = fileAt c f := by rw [fileAt, fileAt, files]
  exact ⟨same ▸ source.single, same ▸ source.isInode, same ▸ source.readable, same ▸ source.ip⟩

theorem Source.fileclose {u : Unit} (source : Source c f i) (held : h i = some p)
    (ran : Runs p (fileclose f) c h u c' h') : False := by
  have free := fileclose_unlocked ran source.single source.isInode
  rw [source.ip, held] at free
  cases free

theorem filealloc_some (ran : Runs p filealloc c h (some f) c' h') : FreeFile c f ∧
    c' = c.setFile f { fileAt c f with ref := 1 } ∧ h' = h := by
  obtain ⟨locks, ⟨none, _⟩ | ⟨g, same, free, state⟩⟩ := filealloc_runs ran
  · cases none
  · cases same
    exact ⟨free, state, locks⟩

theorem filealloc_none (ran : Runs p filealloc c h none c' h') : FilesFull c.files := by
  obtain ⟨_, ⟨_, full, _⟩ | ⟨f, same, _⟩⟩ := filealloc_runs ran
  · exact full
  · cases same

theorem fileAt_setFile_other {g : Nat} (apart : g ≠ f) (file : File) : fileAt (c.setFile f file) g = fileAt c g := by
  simp [fileAt, Core.setFile, Ne.symm apart]

theorem setFile_length (file : File) : (c.setFile f file).files.length = c.files.length := by
  simp [Core.setFile]

theorem openCopy_source {u : Unit} (free : FreeFile c f)
    (ran : Runs p (openCopy f i true) (c.setFile f { fileAt c f with ref := 1 }) h u c' h') :
    h' = h ∧ Source c' f i ∧ SameRefs { c with files := c'.files } c' ∧ c'.inodes = c.inodes := by
  obtain ⟨rfl, rfl⟩ := runs_update ran
  have bound : f < (c.setFile f { fileAt c f with ref := 1 }).files.length := by
    rw [setFile_length]
    exact free.bound
  refine ⟨rfl, ?_, ⟨rfl, rfl, rfl, rfl, rfl, rfl⟩, rfl⟩
  constructor <;> simp [fileAt_setFile bound, fileAt_setFile free.bound]

theorem sysCopy_returns (stable : Stable c) {src dst : Path} {name : Name} {r : Int}
    (found : resolve c p src false = some (i, name)) (typed : (c.inodes i).type ≠ .free)
    (ran : Runs p (sysCopy p (some src) (some dst)) c (fun _ => none) r c' h') : FilesFull c.files := by
  by_contra room
  have ran₁ := runs_beginOp_bind ran
  obtain ⟨walk, c₂, h₂, walking, ran₂⟩ := runs_bind ran₁
  obtain ⟨rfl, same, _, succeeded⟩ := namei_runs stable walking
  rw [found] at same
  subst same
  obtain ⟨_, _, _, ran₃⟩ := (succeeded i rfl).lock stable ran₂
  obtain ⟨source, c₄, h₄, allocating, ran₄⟩ := runs_bind ran₃
  cases source with
  | none =>
    have full := filealloc_none allocating
    exact room full
  | some source =>
    obtain ⟨free, rfl, rfl⟩ := filealloc_some allocating
    obtain ⟨_, c₅, h₅, opening, ran₅⟩ := runs_bind ran₄
    obtain ⟨rfl, reading, refs, inodes⟩ := openCopy_source free opening
    have stable₅ : Stable c₅ := (stable.hold typed).sameInodes inodes refs.ref refs.valid
    obtain ⟨made, c₆, h₆, creating, ran₆⟩ := runs_bind ran₅
    rcases create_runs stable₅ creating with ⟨rfl, _, rfl, rfl⟩ | ⟨j, rfl, unlocked, rfl, result⟩
    · obtain ⟨_, c₇, h₇, closing, _⟩ := runs_bind ran₆
      exact reading.fileclose (by simp) closing
    · have apart : i ≠ j := by
        rintro rfl
        simp at unlocked
      have held : Function.update (Function.update (fun _ => none) i (some p)) j (some p) i = some p := by
        simp [apart]
      have reading₆ : Source c₆ source i := by
        refine reading.sameFiles ?_
        rcases result with ⟨_, _, rfl⟩ | ⟨dp, name, e, creates, _, rfl⟩
        · rfl
        · rw [hold_files, reap_files, (created_refs creates.value).files]
      obtain ⟨target, c₇, h₇, allocating₁, ran₇⟩ := runs_bind ran₆
      cases target with
      | none =>
        obtain ⟨rfl, ⟨_, _, rfl⟩ | ⟨_, absurd, _⟩⟩ := filealloc_runs allocating₁
        · obtain ⟨_, c₈, h₈, closing, _⟩ := runs_bind ran₇
          exact reading₆.fileclose held closing
        · cases absurd
      | some target =>
        obtain ⟨free₁, rfl, rfl⟩ := filealloc_some allocating₁
        have ran₈ := runs_update_bind ran₇
        have other : source ≠ target := by
          rintro rfl
          have := free₁.idle
          rw [reading₆.single] at this
          cases this
        have kept (file file' : File) : fileAt ((c₆.setFile target file).setFile target file') source =
            fileAt c₆ source := by
          rw [fileAt_setFile_other other, fileAt_setFile_other other]
        have unlocked := copyFiles_unlocked ran₈ (by rw [kept]; exact reading₆.readable)
          (by rw [kept]; exact reading₆.isInode)
        rw [kept, reading₆.ip, held] at unlocked
        cases unlocked

/-- The call does not wait for what only it can release, and when it returns 0 the target has the bytes of
the source and everything that the call has taken is released. -/
structure Copies (s : State) (p : Nat) (src dst : Path) (i : Nat) : Prop where
  noWait : ∀ s' on, run p (sysCopy p (some src) (some dst)) s (fun _ => none) ≠ .blocked s' on
  copied : ∀ s' h', run p (sysCopy p (some src) (some dst)) s (fun _ => none) = .done 0 s' h' →
    (∃ j name, resolve s'.core p dst false = some (j, name) ∧
      (s'.core.inodes j).bytes = (s.core.inodes i).bytes) ∧ s'.core.inodes i = s.core.inodes i
  released : ∀ s' h', run p (sysCopy p (some src) (some dst)) s (fun _ => none) = .done 0 s' h' →
    h' = (fun _ => none) ∧ s'.outstanding = s.outstanding

def blockedOn {A : Type} : Outcome State Nat Nat A → Option Nat
  | .blocked _ on => on
  | _ => none

theorem blockedOn_some {A : Type} {o : Outcome State Nat Nat A} {i : Nat} (waits : blockedOn o = some i) :
    ∃ s', o = .blocked s' (some i) := by
  cases o with
  | done a s locks => cases waits
  | panicked s => cases waits
  | blocked s on =>
    cases waits
    exact ⟨s, rfl⟩

theorem sample_copy_blocked :
    blockedOn (run 0 (sysCopy 0 (some ['/', 'f']) (some ['/', 'g'])) sampleState fun _ => none) = some 3 := by
  decide +kernel

end Copy

end Xv6.Fs
