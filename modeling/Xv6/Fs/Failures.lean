import Xv6.Fs.LinkCounts

set_option autoImplicit false

namespace Xv6.Fs

open Threads

def Inode.entries (ip : Inode) : Set Dirent := {entry | entry ∈ ip.slots ∧ entry.inum ≠ 0}

structure Unchanged (c c' : Core) (p : Nat) : Prop where
  entries : ∀ d, (c.inodes d).type = .dir ∨ (c'.inodes d).type = .dir →
    (c'.inodes d).entries = (c.inodes d).entries
  inodes : ∀ i, (c.inodes i).type ≠ .free ∨ (c'.inodes i).type ≠ .free →
    (c'.inodes i).type = (c.inodes i).type ∧ (c'.inodes i).nlink = (c.inodes i).nlink ∧
      (c'.inodes i).size = (c.inodes i).size ∧ (c'.inodes i).bytes = (c.inodes i).bytes
  ofile : (procAt c' p).ofile = (procAt c p).ofile
  cwd : cwdOf c' p = cwdOf c p

/-- An `open` with `O_CREATE` of a new name when there is no file structure or descriptor for it. -/
def CreatesThenFails (c : Core) (p : Nat) : Call → Prop
  | .open path omode => OpenMakes c p path omode ∧ OutOfFiles c p
  | _ => False

section Failures

variable {c c' e : Core} {p i dp : Nat} {h h' : Held} {name : Name}

theorem Unchanged.refl (c : Core) (p : Nat) : Unchanged c c p :=
  ⟨fun _ _ => rfl, fun _ _ => ⟨rfl, rfl, rfl, rfl⟩, rfl, rfl⟩

theorem mem_putSlot_self (slots : List Dirent) (off : Nat) (entry : Dirent) : entry ∈ putSlot slots off entry := by
  unfold putSlot
  split
  next bound => exact List.mem_set bound entry
  next => simp

theorem Creates.settled (creates : Creates c dp name .file 0 0 i e) (tree : Tree c) (stable : Stable c) :
    (e.reap dp).reap i = e := by
  have made := creates.made_of_tree tree
  have refs := created_refs creates.value
  have parent : e.reap dp = e := by
    rw [Core.reap, if_neg]
    rintro ⟨unlinked, unused⟩
    rw [made.parent] at unlinked
    have := stable.kept dp (by simp [creates.isDir]) unlinked
    rw [refs.ref] at unused
    omega
  rw [parent, Core.reap, if_neg]
  rintro ⟨unlinked, _⟩
  rw [made.made] at unlinked
  cases unlinked

theorem Creates.changes (creates : Creates c dp name .file 0 0 i e) (tree : Tree c) : ¬Unchanged c e p := by
  intro unchanged
  have made := creates.made_of_tree tree
  have used := (findFree_bound creates.fresh).1
  have present : { inum := i, name } ∈ (e.inodes dp).entries := by
    refine ⟨?_, used⟩
    rw [made.parent]
    exact mem_putSlot_self _ _ _
  rw [unchanged.entries dp (Or.inl creates.isDir)] at present
  exact findSlot_none creates.absent _ present.1 used rfl

theorem open_failure (stable : Stable c) (idle : IdleFiles c) (tree : Tree c) {path : Option Path} {omode : Nat}
    (ran : Runs p (sysOpen p path omode) c h (-1) c' h') :
    Unchanged c c' p ↔ ¬CreatesThenFails c p (.open path omode) := by
  have outcome := (sysOpen_runs stable idle ran).2
  generalize result : (-1 : Int) = r at outcome
  cases outcome with
  | failed finds => exact iff_of_true (.refl c p) fun bad => finds bad.1
  | found => omega
  | lost creates asked given place full =>
    rw [creates.settled tree stable]
    exact iff_of_false (creates.changes tree) fun good =>
      good ⟨⟨asked, _, given, _, _, place, creates.absent⟩, full⟩
  | made => omega

theorem makeNode_failure (stable : Stable c) {path : Option Path} {type : FileType} {major minor : Int}
    (ran : Runs p (makeNode p path type major minor) c h (-1) c' h') : c' = c :=
  (makeNode_runs stable ran).2.resolve_right fun succeeded => by cases succeeded.1

theorem Call.failure {call : Call} (stable : Stable c) (idle : IdleFiles c) (tree : Tree c)
    (ran : Runs p (call.code p) c h (-1) c' h') : Unchanged c c' p ↔ ¬CreatesThenFails c p call := by
  have same {other : Call} (none : ¬CreatesThenFails c p other) (back : c' = c) :
      Unchanged c c' p ↔ ¬CreatesThenFails c p other := iff_of_true (back ▸ .refl c p) none
  cases call with
  | «open» path omode => exact open_failure stable idle tree ran
  | mkdir path | mknod path major minor => exact same id (makeNode_failure stable ran)
  | link old new => exact same id ((sysLink_runs stable ran).2.resolve_right fun succeeded => by cases succeeded.1)
  | unlink path => exact same id ((sysUnlink_runs stable ran).2.resolve_right fun succeeded => by cases succeeded.1)
  | chdir path => exact same id ((sysChdir_runs stable ran).2.resolve_right fun succeeded => by cases succeeded.1)
  | close fd => exact same id ((sysClose_runs ran).2.resolve_right fun succeeded => by cases succeeded.1)

theorem failed_call_unchanged_iff {s s' : State} {call : Call} {held : Held} (consistent : Consistent s.core)
    (failed : run p (call.code p) s (fun _ => none) = .done (-1) s' held) :
    Unchanged s.core s'.core p ↔ ¬CreatesThenFails s.core p call :=
  Call.failure consistent.stable consistent.idle consistent.counted.tree ⟨s, s', rfl, rfl, failed⟩

def returned {A : Type} : Outcome State Nat Nat A → Option (A × State)
  | .done a s _ => some (a, s)
  | _ => none

theorem returned_done {A : Type} {o : Outcome State Nat Nat A} {a : A} {s : State} (value : returned o = some (a, s)) :
    ∃ locks, o = .done a s locks := by
  cases o with
  | done b s locks =>
    cases value
    exact ⟨locks, rfl⟩
  | panicked s => cases value
  | blocked s on => cases value

theorem failed_call_unchanged_iff_mkdir :
    ∃ s' : State, (s'.core.inodes 2).slots = (sample.inodes 2).slots ∧ (Unchanged sample s'.core 0 ↔
      ¬CreatesThenFails sample 0 (.mkdir (some ['/', 'a']))) := by
  have result : (returned (run 0 ((Call.mkdir (some ['/', 'a'])).code 0) sampleState fun _ => none)).map
      (fun r => (r.1, (r.2.core.inodes 2).slots)) = some (-1, (sample.inodes 2).slots) := by decide +kernel
  obtain ⟨⟨r, s'⟩, value, same⟩ := Option.map_eq_some_iff.mp result
  obtain ⟨rfl, slots⟩ := Prod.mk.inj same
  obtain ⟨locks, failed⟩ := returned_done value
  exact ⟨s', slots, failed_call_unchanged_iff (s := sampleState) sample_consistent failed⟩

def crowded : Core :=
  { sample with
    ref := fun i => if i = 2 then 1 else if i = 3 then 1 else 0
    valid := fun i => decide (i = 2 ∨ i = 3)
    used := 2
    files := { openedFile 3 oRdwr with ref := nofile } :: List.replicate (nfile - 1) emptyFile
    procs := [{ cwd := 2, ofile := List.replicate nofile (some 0) }] }

def crowdedState : State := { core := crowded, outstanding := 0, logged := [] }

theorem crowded_stable : Stable crowded where
  fits := sample_stable.fits
  valid i := by
    by_cases two : i = 2
    · simp [two, crowded]
    · by_cases three : i = 3
      · simp [three, crowded]
      · simp [two, three, crowded]
  typed i positive := by
    by_cases two : i = 2
    · subst two
      decide
    · by_cases three : i = 3
      · subst three
        decide
      · simp [two, three, crowded] at positive
  kept i typed := by rcases sample_allocated typed with rfl | rfl | rfl <;> decide

theorem crowded_consistent : Consistent crowded where
  stable := crowded_stable
  idle file listed := by
    rcases List.mem_cons.mp listed with rfl | idle
    · simp [nofile]
    · rw [List.eq_of_mem_replicate idle]
      exact fun _ => rfl
  counted := SameDisk.counted (c := sample) ⟨rfl, rfl, rfl⟩ sample_counted
  accounted i := by
    by_cases two : i = 2
    · simp [crowded, two, List.countP_replicate, Proc.refersTo, File.refersTo, emptyFile, openedFile]
    · by_cases three : i = 3
      · simp [crowded, three, List.countP_replicate, Proc.refersTo, File.refersTo, emptyFile, openedFile, nofile]
      · simp [crowded, two, three, List.countP_replicate, Proc.refersTo, File.refersTo, emptyFile, openedFile,
          eq_comm]
  parents := sample_consistent.parents

/-- The descriptors are used up: `open` of a new name with `O_CREATE` fails and leaves the file behind. -/
theorem failed_open_leaves_file : ∃ s s' locks, Consistent s.core ∧
      run 0 (sysOpen 0 (some ['/', 'x']) (oCreate ||| oRdwr)) s (fun _ => none) = .done (-1) s' locks ∧
      (s'.core.inodes 1).slots = (s.core.inodes 1).slots ++ [{ inum := 4, name := ['x'] }] ∧
      ¬Unchanged s.core s'.core 0 := by
  have result : (returned (run 0 (sysOpen 0 (some ['/', 'x']) (oCreate ||| oRdwr)) crowdedState fun _ => none)).map
      (fun r => (r.1, (r.2.core.inodes 1).slots)) =
      some (-1, (crowded.inodes 1).slots ++ [{ inum := 4, name := ['x'] }]) := by decide +kernel
  obtain ⟨⟨r, s'⟩, value, same⟩ := Option.map_eq_some_iff.mp result
  obtain ⟨rfl, slots⟩ := Prod.mk.inj same
  obtain ⟨locks, failed⟩ := returned_done value
  refine ⟨crowdedState, s', locks, crowded_consistent, failed, slots, fun unchanged => ?_⟩
  have present : { inum := 4, name := ['x'] } ∈ (s'.core.inodes 1).entries := by
    refine ⟨?_, by decide⟩
    rw [show (s'.core.inodes 1).slots = _ from slots]
    decide
  rw [unchanged.entries 1 (Or.inl rfl)] at present
  exact absurd present.1 (by decide)

end Failures

end Xv6.Fs
