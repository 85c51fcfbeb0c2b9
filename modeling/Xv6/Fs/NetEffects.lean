import Xv6.Fs.Sequential

set_option autoImplicit false

namespace Xv6.Fs

open Threads

section Edits

variable {p : Nat} {c c' : Core} {h h' : Held} {i dp off : Nat}

@[simp] theorem setInode_self (ip : Inode) : (c.setInode i ip).inodes i = ip := by
  simp [Core.setInode]

theorem setInode_setInode (ip ip' : Inode) : (c.setInode i ip).setInode i ip' = c.setInode i ip' := by
  simp [Core.setInode]

theorem writeSlot_hold {entry : Dirent} :
    writeSlot (c.hold i) dp off entry = (writeSlot c dp off entry).map fun c => c.hold i := by
  by_cases refused : direntSize * (off + 1) > maxFile * bSize ∨ slotNeed (c.inodes dp).slots off entry > c.freeBlocks
  · have first : writeSlot (c.hold i) dp off entry = none := if_pos refused
    rw [first, writeSlot, if_pos refused]
    rfl
  · have first : writeSlot (c.hold i) dp off entry = some ((c.hold i).putEntry dp off entry) := if_neg refused
    rw [first, writeSlot, if_neg refused]
    rfl

variable {name : Name} {j f : Nat} {type : FileType} {major minor r : Int} {path : Option Path}

theorem addEntry_hold : addEntry (c.hold i) dp name j = (addEntry c dp name j).map fun c => c.hold i := writeSlot_hold

theorem Stable.hold (stable : Stable c) (typed : (c.inodes i).type ≠ .free) : Stable (c.hold i) where
  fits := stable.fits
  valid := by
    intro j
    by_cases same : j = i
    · simp [same]
    · simpa [same] using stable.valid j
  typed := by
    intro j positive
    by_cases same : j = i
    · simpa [same] using typed
    · exact stable.typed j (by simpa [same] using positive)
  kept := by
    intro j typed unlinked
    have := stable.kept j typed unlinked
    by_cases same : j = i
    · simp [same]
    · simpa [same] using this

theorem dirlink_runs {linked : Bool} (ran : Runs p (dirlink dp name i) c h linked c' h') :
    (c.inodes dp).type = .dir ∧ h' = h ∧ ((linked = false ∧ ∃ j, h j = none ∧ c' = (c.igot j).put j) ∨
        (linked = true ∧ findSlot name (c.inodes dp).slots 0 = none ∧ addEntry c dp name i = some c')) := by
  obtain ⟨found, c₁, h₁, looking, ran₁⟩ := runs_bind ran
  obtain ⟨isDir, slot, rfl, rfl⟩ := runs_dirlookup looking
  cases found with
  | some entry =>
    obtain ⟨_, c₂, h₂, putting, ran₂⟩ := runs_bind ran₁
    obtain ⟨free, rfl, rfl⟩ := runs_iput putting
    obtain ⟨rfl, rfl, rfl⟩ := runs_pure ran₂
    exact ⟨isDir, rfl, Or.inl ⟨rfl, entry.1, free, rfl⟩⟩
  | none =>
    obtain ⟨_, c₂, h₂, writing, ran₂⟩ := runs_bind ran₁
    obtain ⟨value, rfl⟩ := runs_change writing
    obtain ⟨rfl, rfl, rfl⟩ := runs_pure ran₂
    obtain ⟨c₃, added, same⟩ := Option.map_eq_some_iff.mp value
    cases same
    exact ⟨isDir, rfl, Or.inr ⟨rfl, slot, added⟩⟩

def withDots (c : Core) (dp i : Nat) (type : FileType) : Option Core :=
  if type = .dir then (addEntry (c.addLink dp 1) i dot i).bind fun c => addEntry c i dotdot dp
  else some c

def newInode (type : FileType) (major minor : Int) : Inode :=
  { freshInode type with major := short major, minor := short minor, nlink := 1 }

def created (c : Core) (dp : Nat) (name : Name) (type : FileType) (major minor : Int) (i : Nat) : Option Core :=
  (withDots (c.setInode i (newInode type major minor)) dp i type).bind fun c => addEntry c dp name i

structure Creates (c : Core) (dp : Nat) (name : Name) (type : FileType) (major minor : Int) (i : Nat)
    (c' : Core) : Prop where
  isDir : (c.inodes dp).type = .dir
  absent : findSlot name (c.inodes dp).slots 0 = none
  fresh : findFree c = some i
  value : created c dp name type major minor i = some c'

theorem findFree_free (fresh : findFree c = some i) : (c.inodes i).type = .free := by
  simpa using List.find?_some fresh

theorem Creates.apart (creates : Creates c dp name type major minor i c') : dp ≠ i := by
  rintro rfl
  have isDir := creates.isDir
  rw [findFree_free creates.fresh] at isDir
  cases isDir

theorem createDots_runs {u : Unit} (ran : Runs p (createDots dp i) c h u c' h') :
    h' = h ∧ ∃ c₁, addEntry (c.addLink dp 1) i dot i = some c₁ ∧ addEntry c₁ i dotdot dp = some c' := by
  have ran₁ := runs_update_bind ran
  obtain ⟨first, c₂, h₂, linking, ran₂⟩ := runs_bind ran₁
  obtain ⟨_, rfl, ⟨rfl, _⟩ | ⟨rfl, _, added⟩⟩ := dirlink_runs linking
  · exact (runs_panic ran₂).elim
  obtain ⟨second, c₃, h₃, linking₁, ran₃⟩ := runs_bind ran₂
  obtain ⟨_, rfl, ⟨rfl, _⟩ | ⟨rfl, _, added₁⟩⟩ := dirlink_runs linking₁
  · exact (runs_panic ran₃).elim
  obtain ⟨_, rfl, rfl⟩ := runs_pure ran₃
  exact ⟨rfl, c₂, added, added₁⟩

theorem ialloc_runs (ran : Runs p (ialloc type) c h j c' h') :
    findFree c = some j ∧ c' = (c.setInode j (freshInode type)).igot j ∧ h' = h := by
  obtain ⟨k, c₁, h₁, allocating, ran₁⟩ := runs_bind ran
  obtain ⟨value, rfl⟩ := runs_change allocating
  obtain ⟨_, fresh, same⟩ := Option.map_eq_some_iff.mp value
  cases same
  obtain ⟨_, c₂, h₂, got, ran₂⟩ := runs_bind ran₁
  obtain ⟨rfl, rfl⟩ := runs_iget got
  obtain ⟨rfl, rfl, rfl⟩ := runs_pure ran₂
  exact ⟨fresh, rfl, rfl⟩

theorem addEntry_hold_some {k : Nat} (added : addEntry ((c.hold i).hold k) dp name j = some c') :
    ∃ e, addEntry c dp name j = some e ∧ c' = (e.hold i).hold k := by
  rw [addEntry_hold, addEntry_hold, Option.map_map] at added
  obtain ⟨e, value, same⟩ := Option.map_eq_some_iff.mp added
  exact ⟨e, value, same.symm⟩

theorem createNew_runs {made : Option Nat} (apart : ∀ i, findFree c = some i → i ≠ dp)
    (ran : Runs p (createNew dp name type major minor) (c.hold dp) h made c' h') :
    ∃ i e, made = some i ∧ findFree c = some i ∧ created c dp name type major minor i = some e ∧
      h i = none ∧ c' = ((e.hold i).hold dp).put dp ∧
      h' = Function.update (Function.update h i (some p)) dp none := by
  obtain ⟨i, c₁, h₁, allocating, ran₁⟩ := runs_bind ran
  obtain ⟨fresh, rfl, rfl⟩ := ialloc_runs allocating
  obtain ⟨_, c₂, h₂, locking, ran₂⟩ := runs_bind ran₁
  obtain ⟨free, rfl, rfl, _⟩ := runs_ilock locking
  obtain ⟨_, c₃, h₃, setting, ran₃⟩ := runs_bind ran₂
  obtain ⟨state, rfl⟩ := runs_update setting
  have apart := apart i fresh
  let base := c.setInode i (newInode type major minor)
  have started : c₃ = (base.hold i).hold dp := by
    rw [state, hold_comm apart]
    simp only [loaded_inodes, igot_inodes, setInode_self]
    exact congrArg (fun c => (Core.hold c dp).hold i) (setInode_setInode _ _)
  rw [started] at ran₃
  obtain ⟨_, c₄, h₄, dots, ran₄⟩ := runs_bind ran₃
  obtain ⟨linked, c₅, h₅, linking, ran₅⟩ := runs_bind ran₄
  obtain ⟨_, rfl, ⟨rfl, _⟩ | ⟨rfl, _, added⟩⟩ := dirlink_runs linking
  · exact (runs_panic ran₅).elim
  have ran₆ := runs_iunlockput_bind ran₅
  obtain ⟨rfl, rfl, rfl⟩ := runs_pure ran₆
  by_cases isDir : type = .dir
  · subst isDir
    rw [if_pos rfl] at dots
    obtain ⟨rfl, e₁, first, second⟩ := createDots_runs dots
    obtain ⟨d₁, first', rfl⟩ := addEntry_hold_some (c := base.addLink dp 1) first
    obtain ⟨d₂, second', rfl⟩ := addEntry_hold_some second
    obtain ⟨e, third', rfl⟩ := addEntry_hold_some added
    refine ⟨i, e, rfl, fresh, ?_, free, rfl, rfl⟩
    refine Option.bind_eq_some_iff.mpr ⟨d₂, ?_, third'⟩
    rw [withDots, if_pos rfl]
    exact Option.bind_eq_some_iff.mpr ⟨d₁, first', second'⟩
  · rw [if_neg isDir] at dots
    obtain ⟨_, rfl, rfl⟩ := runs_pure dots
    obtain ⟨e, third', rfl⟩ := addEntry_hold_some added
    refine ⟨i, e, rfl, fresh, ?_, free, rfl, rfl⟩
    exact Option.bind_eq_some_iff.mpr ⟨base, by rw [withDots, if_neg isDir], third'⟩

structure SameRefs (c c' : Core) : Prop where
  ninodes : c'.ninodes = c.ninodes
  ref : c'.ref = c.ref
  valid : c'.valid = c.valid
  used : c'.used = c.used
  files : c'.files = c.files
  procs : c'.procs = c.procs

theorem SameRefs.trans {c₁ c₂ c₃ : Core} (first : SameRefs c₁ c₂) (second : SameRefs c₂ c₃) : SameRefs c₁ c₃ where
  ninodes := second.ninodes.trans first.ninodes
  ref := second.ref.trans first.ref
  valid := second.valid.trans first.valid
  used := second.used.trans first.used
  files := second.files.trans first.files
  procs := second.procs.trans first.procs

theorem setInode_refs (ip : Inode) : SameRefs c (c.setInode i ip) := ⟨rfl, rfl, rfl, rfl, rfl, rfl⟩

theorem writeSlot_refs {entry : Dirent} (value : writeSlot c dp off entry = some c') : SameRefs c c' := by
  unfold writeSlot at value
  split at value
  next => cases value
  next =>
    cases value
    exact ⟨rfl, rfl, rfl, rfl, rfl, rfl⟩

theorem withDots_refs (value : withDots c dp i type = some c') : SameRefs c c' := by
  unfold withDots at value
  split at value
  next =>
    obtain ⟨c₁, first, second⟩ := Option.bind_eq_some_iff.mp value
    exact SameRefs.trans (setInode_refs _) (SameRefs.trans (writeSlot_refs first) (writeSlot_refs second))
  next =>
    cases value
    exact ⟨rfl, rfl, rfl, rfl, rfl, rfl⟩

theorem created_refs (value : created c dp name type major minor i = some c') : SameRefs c c' := by
  obtain ⟨c₁, dots, last⟩ := Option.bind_eq_some_iff.mp value
  exact SameRefs.trans (setInode_refs (newInode type major minor)) ((withDots_refs dots).trans (writeSlot_refs last))

theorem reap_hold (apart : i ≠ j) : (c.hold j).reap i = (c.reap i).hold j := by
  unfold Core.reap
  have same : (((c.hold j).inodes i).nlink = 0 ∧ (c.hold j).ref i = 0) =
      ((c.inodes i).nlink = 0 ∧ c.ref i = 0) := by simp [apart]
  simp only [same]
  split
  next =>
    simp only [Core.ifree, Core.hold, Core.igot, Core.loaded, Function.update_comm apart]
    rfl
  next => rfl

theorem put_hold_hold (apart : i ≠ j) (valid : c.valid i = true ↔ 0 < c.ref i) :
    ((c.hold j).hold i).put i = (c.reap i).hold j := by
  rw [put_hold, reap_hold apart]
  simpa [apart] using valid

def Absent (c : Core) (p : Nat) (path : Path) : Prop :=
  ∃ dp name, resolve c p path true = some (dp, name) ∧ findSlot name (c.inodes dp).slots 0 = none

theorem create_runs (stable : Stable c) {path : Path} {made : Option Nat}
    (ran : Runs p (create p path type major minor) c h made c' h') :
    (made = none ∧ ¬Absent c p path ∧ c' = c ∧ h' = h) ∨
      ∃ i, made = some i ∧ h i = none ∧ h' = Function.update h i (some p) ∧
        ((¬Absent c p path ∧ (c.inodes i).type = .file ∧ c' = c.hold i) ∨
          ∃ dp name e, Creates c dp name type major minor i e ∧ resolve c p path true = some (dp, name) ∧
            c' = (e.reap dp).hold i) := by
  obtain ⟨walk, c₁, h₁, walking, ran₁⟩ := runs_bind ran
  obtain ⟨rfl, place, failed, succeeded⟩ := namex_runs stable walking
  cases walk with
  | none =>
    obtain ⟨rfl, rfl, rfl⟩ := runs_pure ran₁
    refine Or.inl ⟨rfl, ?_, failed rfl, rfl⟩
    rintro ⟨dp, name, found, _⟩
    rw [found] at place
    cases place
  | some found =>
    obtain ⟨dp, name⟩ := found
    have holds := succeeded dp name rfl
    have isDir := (resolve_parent place.symm).1
    obtain ⟨typed, free, unlocked, ran₂⟩ := holds.lock stable ran₁
    obtain ⟨entry, c₃, h₃, looking, ran₃⟩ := runs_bind ran₂
    obtain ⟨_, slot, rfl, rfl⟩ := runs_dirlookup looking
    cases entry with
    | some entry =>
      have present : ¬Absent c p path := by
        rintro ⟨dp', name', found, absent⟩
        rw [← place] at found
        cases found
        cases slot.symm.trans absent
      have ran₄ := runs_iunlockput_bind ran₃
      rw [unlocked] at ran₄
      simp only [Option.map_some, Option.getD_some] at ran₄
      obtain ⟨typed₁, free₁, _, ran₅⟩ := (stable.put_next typed).lock stable ran₄
      have ran₆ := runs_read_bind ran₅
      split at ran₆
      next both =>
        obtain ⟨rfl, rfl, rfl⟩ := runs_pure ran₆
        exact Or.inr ⟨entry.1, rfl, free₁, rfl, Or.inl ⟨present, both.2, rfl⟩⟩
      next =>
        have ran₇ := runs_iunlockput_bind ran₆
        obtain ⟨rfl, rfl, rfl⟩ := runs_pure ran₇
        exact Or.inl ⟨rfl, present, stable.put_holds (.loaded typed₁), by simp [← free₁]⟩
    | none =>
      have apart (i : Nat) (fresh : findFree c = some i) : i ≠ dp := by
        rintro rfl
        rw [findFree_free fresh] at typed
        exact typed rfl
      obtain ⟨i, e, rfl, fresh, value, free₁, rfl, rfl⟩ := createNew_runs apart ran₃
      have apart := apart i fresh
      refine Or.inr ⟨i, rfl, ?_, ?_, Or.inr ⟨dp, name, e, ⟨isDir, slot, fresh, value⟩, place.symm, ?_⟩⟩
      · simpa [apart] using free₁
      · simp [Function.update_comm apart, ← free]
      · have refs := created_refs value
        exact put_hold_hold apart.symm (by simpa [refs.valid, refs.ref] using stable.valid dp)

theorem reap_other_valid (apart : i ≠ j) : (c.reap i).valid j = c.valid j := by
  unfold Core.reap
  split
  · simp [Core.ifree, apart.symm]
  · rfl

@[simp] theorem reap_ref : (c.reap i).ref = c.ref := by
  unfold Core.reap
  split <;> rfl

@[simp] theorem reap_files : (c.reap i).files = c.files := by
  unfold Core.reap
  split <;> rfl

@[simp] theorem reap_procs : (c.reap i).procs = c.procs := by
  unfold Core.reap
  split <;> rfl

theorem makeNode_runs (stable : Stable c) (ran : Runs p (makeNode p path type major minor) c h r c' h') :
    h' = h ∧ (c' = c ∨ r = 0 ∧ ∃ dp name i e, Creates c dp name type major minor i e ∧
      (∃ q, path = some q ∧ resolve c p q true = some (dp, name)) ∧ c' = (e.reap dp).reap i) := by
  have ran₁ := runs_beginOp_bind ran
  cases path with
  | none =>
    obtain ⟨_, rfl, rfl⟩ := runs_ended ran₁
    exact ⟨rfl, Or.inl rfl⟩
  | some path =>
    obtain ⟨made, c₂, h₂, creating, ran₂⟩ := runs_bind ran₁
    rcases create_runs stable creating with ⟨rfl, _, rfl, rfl⟩ | ⟨i, rfl, free, rfl, result⟩
    · obtain ⟨_, rfl, rfl⟩ := runs_ended ran₂
      exact ⟨rfl, Or.inl rfl⟩
    · obtain ⟨rfl, rfl, rfl⟩ := runs_putEnded ran₂
      refine ⟨by simp [← free], ?_⟩
      rcases result with ⟨_, isFile, rfl⟩ | ⟨dp, name, e, creates, place, rfl⟩
      · exact Or.inl (stable.put_holds (.loaded (by simp [isFile])))
      · refine Or.inr ⟨rfl, dp, name, i, e, creates, ⟨path, rfl, place⟩, put_hold ?_⟩
        have refs := created_refs creates.value
        rw [reap_other_valid creates.apart, reap_ref, refs.valid, refs.ref]
        exact stable.valid i

def unlinkDir (c : Core) (dp : Nat) (type : FileType) : Core := if type = .dir then c.addLink dp (-1) else c

theorem unlinkDir_refs (type : FileType) : SameRefs c (unlinkDir c dp type) := by
  unfold unlinkDir
  split
  · exact setInode_refs _
  · exact ⟨rfl, rfl, rfl, rfl, rfl, rfl⟩

structure Unlinks (c : Core) (dp : Nat) (name : Name) (i off : Nat) (e : Core) : Prop where
  isDir : (c.inodes dp).type = .dir
  notDot : name ≠ dot
  notDotdot : name ≠ dotdot
  found : findSlot name (c.inodes dp).slots 0 = some (i, off)
  typed : (c.inodes i).type ≠ .free
  linked : 1 ≤ (c.inodes i).nlink
  empty : (c.inodes i).type = .dir → isdirempty (c.inodes i) = true
  apart : dp ≠ i
  value : writeSlot c dp off { inum := 0, name := [] } = some e

theorem unlinkBad_runs {c₁ : Core} (stable : Stable c) (typed : (c.inodes dp).type ≠ .free) (same : c₁ = c.hold dp)
    (ran : Runs p (unlinkBad dp) c₁ h r c' h') : c' = c ∧ h' = Function.update h dp none := by
  subst same
  obtain ⟨_, rfl, rfl⟩ := runs_putEnded ran
  exact ⟨stable.put_holds (.loaded typed), rfl⟩

theorem unlinkEntry_runs (stable : Stable c) (apart : dp ≠ i) (typed : (c.inodes dp).type ≠ .free)
    (typed' : (c.inodes i).type ≠ .free) (ran : Runs p (unlinkEntry dp i off) ((c.hold dp).hold i) h r c' h') :
    h' = Function.update (Function.update h dp none) i none ∧ (c' = c ∨ r = 0 ∧ ∃ e, 1 ≤ (c.inodes i).nlink ∧
        ((c.inodes i).type = .dir → isdirempty (c.inodes i) = true) ∧
        writeSlot c dp off { inum := 0, name := [] } = some e ∧
        c' = (((unlinkDir e dp (c.inodes i).type).reap dp).addLink i (-1)).reap i) := by
  have ran₁ := runs_read_bind ran
  split at ran₁
  next => exact (runs_panic ran₁).elim
  next linked =>
    split at ran₁
    next =>
      have ran₂ := runs_iunlockput_bind ran₁
      have back : ((c.hold dp).hold i).put i = c.hold dp := (stable.hold typed).put_holds (.loaded typed')
      obtain ⟨rfl, rfl⟩ := unlinkBad_runs stable typed back ran₂
      exact ⟨Function.update_comm apart.symm _ _ _, Or.inl rfl⟩
    next empty =>
      obtain ⟨_, c₂, h₂, clearing, ran₂⟩ := runs_bind ran₁
      obtain ⟨value, locks⟩ := runs_change clearing
      obtain ⟨c₃, slot, same⟩ := Option.map_eq_some_iff.mp value
      cases same
      rw [writeSlot_hold, writeSlot_hold, Option.map_map] at slot
      obtain ⟨e, written, rfl⟩ := Option.map_eq_some_iff.mp slot
      obtain ⟨_, c₄, h₄, counting, ran₃⟩ := runs_bind ran₂
      let d := unlinkDir e dp (c.inodes i).type
      obtain ⟨counted, rfl⟩ : c₄ = (d.hold i).hold dp ∧ h₄ = h₂ := by
        rw [hold_comm apart.symm]
        simp only [d, unlinkDir]
        split at counting
        next isDir =>
          obtain ⟨rfl, rfl⟩ := runs_update counting
          rw [if_pos (show (c.inodes i).type = .dir from isDir)]
          exact ⟨rfl, rfl⟩
        next notDir =>
          obtain ⟨_, rfl, rfl⟩ := runs_pure counting
          rw [if_neg (show ¬ (c.inodes i).type = .dir from notDir)]
          exact ⟨rfl, rfl⟩
      have refs : SameRefs c d := (writeSlot_refs written).trans (unlinkDir_refs _)
      rw [counted] at ran₃
      have ran₄ := runs_iunlockput_bind ran₃
      rw [put_hold_hold apart (by simpa [refs.valid, refs.ref] using stable.valid dp)] at ran₄
      have ran₅ := runs_update_bind ran₄
      obtain ⟨rfl, rfl, rfl⟩ := runs_putEnded ran₅
      refine ⟨by rw [locks], Or.inr ⟨rfl, e, by simpa using linked, ?_, written, ?_⟩⟩
      · intro isDir
        simpa [isDir] using empty
      · refine put_hold (c := ((d.reap dp).addLink i (-1))) ?_
        change (d.reap dp).valid i = true ↔ 0 < (d.reap dp).ref i
        rw [reap_other_valid apart, reap_ref, refs.valid, refs.ref]
        exact stable.valid i

theorem sysUnlink_runs (stable : Stable c) (ran : Runs p (sysUnlink p path) c h r c' h') :
    h' = h ∧ (c' = c ∨ r = 0 ∧ ∃ dp name i off e, Unlinks c dp name i off e ∧
      c' = (((unlinkDir e dp (c.inodes i).type).reap dp).addLink i (-1)).reap i) := by
  cases path with
  | none =>
    obtain ⟨_, rfl, rfl⟩ := runs_pure ran
    exact ⟨rfl, Or.inl rfl⟩
  | some path =>
    have ran₁ := runs_beginOp_bind ran
    obtain ⟨walk, c₂, h₂, walking, ran₂⟩ := runs_bind ran₁
    obtain ⟨rfl, place, failed, succeeded⟩ := namex_runs stable walking
    cases walk with
    | none =>
      obtain ⟨_, rfl, rfl⟩ := runs_ended ran₂
      exact ⟨rfl, Or.inl (failed rfl)⟩
    | some found =>
      obtain ⟨dp, name⟩ := found
      have holds := succeeded dp name rfl
      have isDir := (resolve_parent place.symm).1
      obtain ⟨typed, free, unlocked, ran₃⟩ := holds.lock stable ran₂
      split at ran₃
      next =>
        obtain ⟨rfl, rfl⟩ := unlinkBad_runs stable typed rfl ran₃
        exact ⟨unlocked, Or.inl rfl⟩
      next notDots =>
        obtain ⟨entry, c₄, h₄, looking, ran₄⟩ := runs_bind ran₃
        obtain ⟨_, slot, rfl, rfl⟩ := runs_dirlookup looking
        cases entry with
        | none =>
          obtain ⟨rfl, rfl⟩ := unlinkBad_runs stable typed rfl ran₄
          exact ⟨unlocked, Or.inl rfl⟩
        | some entry =>
          obtain ⟨i, off⟩ := entry
          obtain ⟨_, c₅, h₅, locking₁, ran₅⟩ := runs_bind ran₄
          obtain ⟨free₁, rfl, rfl, _, checked₁⟩ := runs_ilock locking₁
          have apart : dp ≠ i := by
            rintro rfl
            simp at free₁
          obtain ⟨typed₁, _⟩ := Holds.locked (stable.hold typed) Holds.got checked₁
          obtain ⟨rfl, result⟩ := unlinkEntry_runs stable apart typed typed₁ ran₅
          have free₁ : h₂ i = none := by simpa [apart.symm] using free₁
          refine ⟨?_, ?_⟩
          · rw [Function.update_comm apart.symm, unlocked]
            simp [← free₁]
          · rcases result with same | ⟨rfl, e, linked, empty, written, same⟩
            · exact Or.inl same
            · exact Or.inr ⟨rfl, dp, name, i, off, e, ⟨isDir, fun dot => notDots (Or.inl dot),
                fun dots => notDots (Or.inr dots), slot, typed₁, linked, empty, apart, written⟩, same⟩

theorem Stable.relink (stable : Stable c) (typed : (c.inodes i).type ≠ .free) (n : Int) :
    Stable ((c.addLink i n).hold i) := by
  have type (j : Nat) : ((c.addLink i n).inodes j).type = (c.inodes j).type := by
    by_cases same : j = i
    · simp [Core.addLink, Core.setInode, same]
    · simp [Core.addLink, Core.setInode, same]
  refine ⟨fun j => ?_, fun j => ?_, fun j positive => ?_, fun j typed' unlinked => ?_⟩
  · by_cases same : j = i
    · simp [Core.addLink, Core.setInode, same, short]
    · simpa [Core.addLink, Core.setInode, same] using stable.fits j
  · by_cases same : j = i
    · simp [same]
    · simpa [Core.addLink, Core.setInode, same] using stable.valid j
  · rw [hold_inodes, type]
    by_cases same : j = i
    · rwa [same]
    · exact stable.typed j (by simpa [Core.addLink, Core.setInode, same] using positive)
  · by_cases same : j = i
    · simp [same]
    · have := stable.kept j (by simpa [type] using typed')
        (by simpa [Core.addLink, Core.setInode, same] using unlinked)
      simpa [Core.addLink, Core.setInode, same] using this

theorem Stable.addLink_cancel (stable : Stable c) : (c.addLink i 1).addLink i (-1) = c := by
  have back : short (short ((c.inodes i).nlink + 1) + -1) = (c.inodes i).nlink := by
    have := stable.fits i
    simp only [short] at this ⊢
    rw [Int.bmod_add_bmod, Int.add_neg_cancel_right]
    exact this
  simp [Core.addLink, Core.setInode, back]

theorem linkBad_runs (stable : Stable c) (typed : (c.inodes i).type ≠ .free)
    (ran : Runs p (linkBad i) ((c.addLink i 1).hold i) h r c' h') : c' = c ∧ h' = h := by
  obtain ⟨_, c₁, h₁, locking, ran₁⟩ := runs_bind ran
  obtain ⟨free, rfl, rfl, _, _⟩ := runs_ilock locking
  rw [loaded_valid (by simp)] at ran₁
  obtain ⟨_, c₂, h₂, counting, ran₂⟩ := runs_bind ran₁
  obtain ⟨same, rfl⟩ := runs_update counting
  have back : c₂ = c.hold i := same.trans (congrArg (fun c => Core.hold c i) stable.addLink_cancel)
  rw [back] at ran₂
  obtain ⟨_, rfl, rfl⟩ := runs_putEnded ran₂
  exact ⟨stable.put_holds (.loaded typed), by simp [← free]⟩

structure Links (c : Core) (i dp : Nat) (name : Name) (e : Core) : Prop where
  notDir : (c.inodes i).type ≠ .dir
  typed : (c.inodes i).type ≠ .free
  isDir : (c.inodes dp).type = .dir
  absent : findSlot name (c.inodes dp).slots 0 = none
  value : addEntry (c.addLink i 1) dp name i = some e

theorem addLink_other {n : Int} (apart : j ≠ i) : (c.addLink i n).inodes j = c.inodes j := by
  simp [Core.addLink, Core.setInode, apart]

@[simp] theorem addLink_type (n : Int) (j : Nat) : ((c.addLink i n).inodes j).type = (c.inodes j).type := by
  by_cases same : j = i
  · simp [Core.addLink, Core.setInode, same]
  · simp [addLink_other same]

@[simp] theorem addLink_slots (n : Int) (j : Nat) : ((c.addLink i n).inodes j).slots = (c.inodes j).slots := by
  by_cases same : j = i
  · simp [Core.addLink, Core.setInode, same]
  · simp [addLink_other same]

theorem addLink_resolve (n : Int) {path : Path} {parent : Bool} :
    resolve ((c.addLink i n).hold i) p path parent = resolve c p path parent := walk_congr (by simp) (by simp) _ _ _

theorem linkEntry_runs (stable : Stable c) (typed : (c.inodes i).type ≠ .free) (notDir : (c.inodes i).type ≠ .dir)
    {new : Path} (ran : Runs p (linkEntry p i new) ((c.addLink i 1).hold i) h r c' h') :
    h' = h ∧ (c' = c ∨ r = 0 ∧ ∃ dp name e, Links c i dp name e ∧ resolve c p new true = some (dp, name) ∧
      c' = (e.reap dp).reap i) := by
  have stable₁ := stable.relink typed 1
  obtain ⟨walk, c₁, h₁, walking, ran₁⟩ := runs_bind ran
  obtain ⟨rfl, place, failed, succeeded⟩ := namex_runs stable₁ walking
  replace place := place.trans (addLink_resolve 1)
  cases walk with
  | none =>
    rw [failed rfl] at ran₁
    obtain ⟨same, locks⟩ := linkBad_runs stable typed ran₁
    exact ⟨locks, Or.inl same⟩
  | some found =>
    obtain ⟨dp, name⟩ := found
    have holds := succeeded dp name rfl
    have isDir := (resolve_parent place.symm).1
    obtain ⟨typed₁, free, unlocked, ran₂⟩ := holds.lock stable₁ ran₁
    obtain ⟨linked, c₃, h₃, linking, ran₃⟩ := runs_bind ran₂
    obtain ⟨_, rfl, result⟩ := dirlink_runs linking
    have ran₄ := runs_iunlockput_bind ran₃
    rw [unlocked] at ran₄
    rcases result with ⟨rfl, j, _, rfl⟩ | ⟨rfl, absent, added⟩
    · rw [(stable₁.hold typed₁).put_igot, stable₁.put_holds (.loaded typed₁)] at ran₄
      obtain ⟨same, locks⟩ := linkBad_runs stable typed ran₄
      exact ⟨locks, Or.inl same⟩
    · obtain ⟨e, value, rfl⟩ := addEntry_hold_some added
      have apart : dp ≠ i := by
        rintro rfl
        exact notDir isDir
      have refs : SameRefs c e := (setInode_refs _).trans (writeSlot_refs value)
      rw [put_hold_hold apart (by simpa [refs.valid, refs.ref] using stable.valid dp)] at ran₄
      have ran₅ := runs_iput_bind ran₄
      obtain ⟨rfl, rfl, rfl⟩ := runs_ended ran₅
      refine ⟨rfl, Or.inr ⟨rfl, dp, name, e, ⟨notDir, typed, isDir, ?_, value⟩, place.symm, put_hold ?_⟩⟩
      · simpa [addLink_other apart] using absent
      · rw [reap_other_valid apart, reap_ref, refs.valid, refs.ref]
        exact stable.valid i

theorem sysLink_runs (stable : Stable c) {old new : Option Path} (ran : Runs p (sysLink p old new) c h r c' h') :
    h' = h ∧ (c' = c ∨ r = 0 ∧ ∃ i dp name e, Links c i dp name e ∧
      (∃ q, new = some q ∧ resolve c p q true = some (dp, name)) ∧ c' = (e.reap dp).reap i) := by
  unfold sysLink at ran
  split at ran
  next old new =>
    have ran₁ := runs_beginOp_bind ran
    obtain ⟨walk, c₂, h₂, walking, ran₂⟩ := runs_bind ran₁
    obtain ⟨rfl, _, failed, succeeded⟩ := namei_runs stable walking
    cases walk with
    | none =>
      obtain ⟨_, rfl, rfl⟩ := runs_ended ran₂
      exact ⟨rfl, Or.inl (failed rfl)⟩
    | some i =>
      obtain ⟨typed, free, unlocked, ran₃⟩ := (succeeded i rfl).lock stable ran₂
      have ran₄ := runs_read_bind ran₃
      split at ran₄
      next =>
        obtain ⟨_, rfl, rfl⟩ := runs_putEnded ran₄
        exact ⟨unlocked, Or.inl (stable.put_holds (.loaded typed))⟩
      next notDir =>
        have ran₅ := runs_update_bind ran₄
        have ran₆ := runs_iunlock_bind ran₅
        rw [unlocked] at ran₆
        obtain ⟨locks, result⟩ := linkEntry_runs stable typed notDir ran₆
        refine ⟨locks, result.imp id ?_⟩
        rintro ⟨rfl, dp, name, e, links, place, same⟩
        exact ⟨rfl, i, dp, name, e, links, ⟨new, rfl, place⟩, same⟩
  next =>
    obtain ⟨_, rfl, rfl⟩ := runs_pure ran
    exact ⟨rfl, Or.inl rfl⟩

@[simp] theorem put_procs : (c.put i).procs = c.procs := by
  unfold Core.put
  split <;> rfl

@[simp] theorem put_files : (c.put i).files = c.files := by
  unfold Core.put
  split <;> rfl

theorem sysChdir_runs (stable : Stable c) (ran : Runs p (sysChdir p path) c h r c' h') :
    h' = h ∧ (c' = c ∨ r = 0 ∧ ∃ i, (c.inodes i).type = .dir ∧
      c' = ((c.hold i).put (cwdOf c p)).setProc p { procAt c p with cwd := i }) := by
  have ran₁ := runs_beginOp_bind ran
  cases path with
  | none =>
    obtain ⟨_, rfl, rfl⟩ := runs_ended ran₁
    exact ⟨rfl, Or.inl rfl⟩
  | some path =>
    obtain ⟨walk, c₂, h₂, walking, ran₂⟩ := runs_bind ran₁
    obtain ⟨rfl, _, failed, succeeded⟩ := namei_runs stable walking
    cases walk with
    | none =>
      obtain ⟨_, rfl, rfl⟩ := runs_ended ran₂
      exact ⟨rfl, Or.inl (failed rfl)⟩
    | some i =>
      obtain ⟨typed, free, unlocked, ran₃⟩ := (succeeded i rfl).lock stable ran₂
      have ran₄ := runs_read_bind ran₃
      split at ran₄
      next =>
        obtain ⟨_, rfl, rfl⟩ := runs_putEnded ran₄
        exact ⟨unlocked, Or.inl (stable.put_holds (.loaded typed))⟩
      next isDir =>
        have ran₅ := runs_iunlock_bind ran₄
        have ran₆ := runs_read_bind ran₅
        have ran₇ := runs_iput_bind ran₆
        have ran₈ := runs_endOp_bind ran₇
        have ran₉ := runs_update_bind ran₈
        obtain ⟨rfl, rfl, rfl⟩ := runs_pure ran₉
        refine ⟨unlocked, Or.inr ⟨rfl, i, by simpa using isDir, ?_⟩⟩
        simp only [procAt, cwdOf, put_procs, hold_procs]

def IdleFiles (c : Core) : Prop := ∀ file ∈ c.files, file.ref = 0 → file.type = .none

structure FreeFile (c : Core) (f : Nat) : Prop where
  bound : f < c.files.length
  idle : (fileAt c f).ref = 0

theorem filealloc_runs {found : Option Nat} (ran : Runs p filealloc c h found c' h') :
    h' = h ∧ ((found = none ∧ (∀ file ∈ c.files, file.ref ≠ 0) ∧ c' = c) ∨
      ∃ f, found = some f ∧ FreeFile c f ∧ c' = c.setFile f { fileAt c f with ref := 1 }) := by
  obtain ⟨value, locks⟩ := runs_change ran
  split at value
  next full =>
    cases value
    refine ⟨locks, Or.inl ⟨rfl, fun file listed => ?_, rfl⟩⟩
    simpa using List.findIdx?_eq_none_iff.mp full file listed
  next f present =>
    cases value
    obtain ⟨bound, idle, _⟩ := List.findIdx?_eq_some_iff_getElem.mp present
    refine ⟨locks, Or.inr ⟨f, rfl, ⟨bound, ?_⟩, rfl⟩⟩
    simpa [fileAt, bound] using idle

theorem fileAt_setFile (bound : f < c.files.length) (file : File) : fileAt (c.setFile f file) f = file := by
  simp [fileAt, Core.setFile, bound]

theorem setFile_setFile (file file' : File) : (c.setFile f file).setFile f file' = c.setFile f file' := by
  simp [Core.setFile]

theorem setFile_fileAt (bound : f < c.files.length) : c.setFile f (fileAt c f) = c := by
  simp [fileAt, Core.setFile, bound]

def shut (c : Core) (f : Nat) : Core := c.setFile f { fileAt c f with ref := 0, type := .none }

def closed (c : Core) (f : Nat) : Core :=
  if (fileAt c f).ref > 1 then c.setFile f { fileAt c f with ref := (fileAt c f).ref - 1 }
  else if (fileAt c f).type = .inode then (shut c f).put (fileAt c f).ip
  else shut c f

theorem fileclose_runs {u : Unit} (ran : Runs p (fileclose f) c h u c' h') :
    0 < (fileAt c f).ref ∧ c' = closed c f ∧ h' = h := by
  obtain ⟨last, c₁, h₁, dropping, ran₁⟩ := runs_bind ran
  obtain ⟨value, locks⟩ := runs_change dropping
  unfold closed
  split at value
  next => cases value
  next positive =>
    refine ⟨by omega, ?_⟩
    split at value
    next shared =>
      cases value
      obtain ⟨_, rfl, rfl⟩ := runs_pure ran₁
      rw [if_pos shared]
      exact ⟨rfl, locks⟩
    next single =>
      cases value
      rw [if_neg single]
      dsimp only at ran₁
      split at ran₁
      next isInode =>
        have ran₂ := runs_beginOp_bind ran₁
        have ran₃ := runs_iput_bind ran₂
        obtain ⟨rfl, rfl⟩ := runs_endOp ran₃
        rw [if_pos isInode]
        exact ⟨rfl, locks⟩
      next notInode =>
        obtain ⟨_, rfl, rfl⟩ := runs_pure ran₁
        rw [if_neg notInode]
        exact ⟨rfl, locks⟩

theorem closed_alloc (free : FreeFile c f) (noType : (fileAt c f).type = .none) :
    closed (c.setFile f { fileAt c f with ref := 1 }) f = c := by
  have original : { fileAt c f with ref := 0, type := .none } = fileAt c f := by
    obtain ⟨_, idle⟩ := free
    revert idle noType
    generalize fileAt c f = file
    intro noType idle
    cases file
    simp_all
  simp only [closed, shut, fileAt_setFile free.bound, setFile_setFile, noType]
  simpa [original] using setFile_fileAt free.bound

def openedFile (i omode : Nat) : File where
  type := .inode
  ref := 1
  readable := decide (omode &&& oWronly = 0)
  writable := decide (omode &&& oWronly ≠ 0 ∨ omode &&& oRdwr ≠ 0)
  ip := i
  off := 0

def opened (c : Core) (p i omode f fd : Nat) : Core :=
  ((c.hold i).setFile f (openedFile i omode)).setProc p
    { procAt c p with ofile := (procAt c p).ofile.set fd (some f) }

structure Opens (c : Core) (p i omode f fd : Nat) : Prop extends FreeFile c f where
  freeFd : (procAt c p).ofile.findIdx? Option.isNone = some fd

theorem openFail_runs {c₁ : Core} (valid : c.valid i = true ↔ 0 < c.ref i) (same : c₁ = c.hold i)
    (ran : Runs p (openFail i) c₁ h r c' h') : r = -1 ∧ c' = c.reap i ∧ h' = Function.update h i none := by
  subst same
  obtain ⟨rfl, rfl, rfl⟩ := runs_putEnded ran
  exact ⟨rfl, put_hold valid, rfl⟩

def OutOfFiles (c : Core) (p : Nat) : Prop :=
  (∀ file ∈ c.files, file.ref ≠ 0) ∨ ∀ slot ∈ (procAt c p).ofile, slot ≠ none

theorem openInode_runs (valid : c.valid i = true ↔ 0 < c.ref i) (idle : IdleFiles c) {omode : Nat}
    (ran : Runs p (openInode p i omode) (c.hold i) h r c' h') : h' = Function.update h i none ∧
      ((r = -1 ∧ OutOfFiles c p ∧ c' = c.reap i) ∨
        ∃ f fd : Nat, r = fd ∧ Opens c p i omode f fd ∧ c' = opened c p i omode f fd) := by
  obtain ⟨found, c₁, h₁, allocating, ran₁⟩ := runs_bind ran
  obtain ⟨rfl, ⟨rfl, full, rfl⟩ | ⟨f, rfl, free, rfl⟩⟩ := filealloc_runs allocating
  · obtain ⟨rfl, same, locks⟩ := openFail_runs valid rfl ran₁
    exact ⟨locks, Or.inl ⟨rfl, Or.inl full, same⟩⟩
  have free : FreeFile c f := ⟨free.bound, free.idle⟩
  have noType : (fileAt c f).type = .none := by
    have listed : fileAt c f ∈ c.files := by simp [fileAt, free.bound]
    exact idle _ listed free.idle
  obtain ⟨slot, c₂, h₂, allocating₁, ran₂⟩ := runs_bind ran₁
  obtain ⟨value, rfl⟩ := runs_change allocating₁
  split at value
  next full =>
    cases value
    obtain ⟨_, c₃, h₃, closing, ran₃⟩ := runs_bind ran₂
    obtain ⟨_, same, rfl⟩ := fileclose_runs closing
    have restored : c₃ = c.hold i := same.trans (closed_alloc (c := c.hold i) ⟨free.bound, free.idle⟩ noType)
    obtain ⟨rfl, same, locks⟩ := openFail_runs valid restored ran₃
    refine ⟨locks, Or.inl ⟨rfl, Or.inr fun slot listed empty => ?_, same⟩⟩
    simpa [empty] using List.findIdx?_eq_none_iff.mp full slot listed
  next fd present =>
    cases value
    have ran₃ := runs_iunlock_bind ran₂
    have ran₄ := runs_endOp_bind ran₃
    obtain ⟨_, c₅, h₅, setting, ran₅⟩ := runs_bind ran₄
    obtain ⟨state, rfl⟩ := runs_update setting
    obtain ⟨rfl, rfl, rfl⟩ := runs_pure ran₅
    refine ⟨rfl, Or.inr ⟨f, fd, rfl, ⟨free, present⟩, ?_⟩⟩
    rw [state]
    simp [opened, openedFile, fileAt, Core.setFile, Core.setProc, procAt, free.bound]

theorem Stable.reap_valid_iff (stable : Stable c) {e : Core} (refs : SameRefs c e) (apart : dp ≠ i) :
    (e.reap dp).valid i = true ↔ 0 < (e.reap dp).ref i := by
  rw [reap_other_valid apart, reap_ref, refs.valid, refs.ref]
  exact stable.valid i

/-- `open` makes the file before it knows that there is a file structure and a descriptor for it. -/
def OpenMakes (c : Core) (p : Nat) (path : Option Path) (omode : Nat) : Prop :=
  omode &&& oCreate ≠ 0 ∧ ∃ q, path = some q ∧ Absent c p q

inductive OpenOutcome (c : Core) (p : Nat) (path : Option Path) (omode : Nat) : Int → Core → Prop where
  | failed (finds : ¬OpenMakes c p path omode) : OpenOutcome c p path omode (-1) c
  | found {i f fd : Nat} (finds : ¬OpenMakes c p path omode) (typed : (c.inodes i).type ≠ .free)
      (opens : Opens c p i omode f fd) : OpenOutcome c p path omode fd (opened c p i omode f fd)
  | lost {dp i : Nat} {name : Name} {e : Core} {q : Path} (creates : Creates c dp name .file 0 0 i e)
      (asked : omode &&& oCreate ≠ 0) (given : path = some q) (place : resolve c p q true = some (dp, name))
      (full : OutOfFiles c p) : OpenOutcome c p path omode (-1) ((e.reap dp).reap i)
  | made {dp i f fd : Nat} {name : Name} {e : Core} {q : Path} (creates : Creates c dp name .file 0 0 i e)
      (asked : omode &&& oCreate ≠ 0) (given : path = some q) (place : resolve c p q true = some (dp, name))
      (opens : Opens (e.reap dp) p i omode f fd) :
      OpenOutcome c p path omode fd (opened (e.reap dp) p i omode f fd)

theorem openFound_runs (stable : Stable c) (idle : IdleFiles c) (typed : (c.inodes i).type ≠ .free) {omode : Nat}
    (finds : ¬OpenMakes c p path omode) (ran : Runs p (openInode p i omode) (c.hold i) h r c' h') :
    h' = Function.update h i none ∧ OpenOutcome c p path omode r c' := by
  obtain ⟨locks, ⟨rfl, _, rfl⟩ | ⟨f, fd, rfl, opens, rfl⟩⟩ := openInode_runs (stable.valid i) idle ran
  · rw [stable.reap typed]
    exact ⟨locks, .failed finds⟩
  · exact ⟨locks, .found finds typed opens⟩

theorem sysOpen_runs (stable : Stable c) (idle : IdleFiles c) {omode : Nat}
    (ran : Runs p (sysOpen p path omode) c h r c' h') : h' = h ∧ OpenOutcome c p path omode r c' := by
  cases path with
  | none =>
    obtain ⟨rfl, rfl, rfl⟩ := runs_pure ran
    refine ⟨rfl, .failed ?_⟩
    rintro ⟨_, q, given, _⟩
    cases given
  | some path =>
    have ran₁ := runs_beginOp_bind ran
    split at ran₁
    next asked =>
      obtain ⟨made, c₂, h₂, creating, ran₂⟩ := runs_bind ran₁
      have finds (present : ¬Absent c p path) : ¬OpenMakes c p (some path) omode := by
        rintro ⟨_, q, given, absent⟩
        cases given
        exact present absent
      rcases create_runs stable creating with ⟨rfl, present, rfl, rfl⟩ | ⟨i, rfl, free, rfl, result⟩
      · obtain ⟨rfl, rfl, rfl⟩ := runs_ended ran₂
        exact ⟨rfl, .failed (finds present)⟩
      · rcases result with ⟨present, isFile, rfl⟩ | ⟨dp, name, e, creates, place, rfl⟩
        · obtain ⟨rfl, outcome⟩ := openFound_runs stable idle (by simp [isFile]) (finds present) ran₂
          exact ⟨by simp [← free], outcome⟩
        · have refs := created_refs creates.value
          have idle' : IdleFiles (e.reap dp) := by
            rw [IdleFiles, reap_files, refs.files]
            exact idle
          have full (out : OutOfFiles (e.reap dp) p) : OutOfFiles c p := by
            simpa only [OutOfFiles, procAt, reap_files, reap_procs, refs.files, refs.procs] using out
          obtain ⟨rfl, ⟨rfl, out, rfl⟩ | ⟨f, fd, rfl, opens, rfl⟩⟩ :=
            openInode_runs (stable.reap_valid_iff refs creates.apart) idle' ran₂
          · exact ⟨by simp [← free], .lost creates asked rfl place (full out)⟩
          · exact ⟨by simp [← free], .made creates asked rfl place opens⟩
    next unasked =>
      have finds : ¬OpenMakes c p (some path) omode := fun makes => unasked makes.1
      obtain ⟨walk, c₂, h₂, walking, ran₂⟩ := runs_bind ran₁
      obtain ⟨rfl, _, failed, succeeded⟩ := namei_runs stable walking
      cases walk with
      | none =>
        obtain ⟨rfl, rfl, rfl⟩ := runs_ended ran₂
        rw [failed rfl]
        exact ⟨rfl, .failed finds⟩
      | some i =>
        obtain ⟨typed, free, _, ran₃⟩ := (succeeded i rfl).lock stable ran₂
        have ran₄ := runs_read_bind ran₃
        split at ran₄
        next =>
          obtain ⟨rfl, rfl, rfl⟩ := openFail_runs (stable.valid i) rfl ran₄
          rw [stable.reap typed]
          exact ⟨by simp [← free], .failed finds⟩
        next =>
          obtain ⟨rfl, outcome⟩ := openFound_runs stable idle typed finds ran₄
          exact ⟨by simp [← free], outcome⟩

theorem sysClose_runs {fd : Int} (ran : Runs p (sysClose p fd) c h r c' h') :
    h' = h ∧ (c' = c ∨ r = 0 ∧ ∃ f, 0 ≤ fd ∧ (procAt c p).ofile[fd.toNat]? = some (some f) ∧ 0 < (fileAt c f).ref ∧
      c' = closed (c.setProc p { procAt c p with ofile := (procAt c p).ofile.set fd.toNat none }) f) := by
  obtain ⟨found, c₁, h₁, reading, ran₁⟩ := runs_bind ran
  obtain ⟨looked, rfl, rfl⟩ := runs_read reading
  cases found with
  | none =>
    obtain ⟨_, rfl, rfl⟩ := runs_pure ran₁
    exact ⟨rfl, Or.inl rfl⟩
  | some f =>
    have ran₂ := runs_update_bind ran₁
    obtain ⟨_, c₃, h₃, closing, ran₃⟩ := runs_bind ran₂
    obtain ⟨positive, rfl, rfl⟩ := fileclose_runs closing
    obtain ⟨rfl, rfl, rfl⟩ := runs_pure ran₃
    split at looked
    next => cases looked
    next nonneg =>
      have present := Option.join_eq_some_iff.mp looked.symm
      exact ⟨rfl, Or.inr ⟨rfl, f, by omega, present, positive, rfl⟩⟩

end Edits

end Xv6.Fs
