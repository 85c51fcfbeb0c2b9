import Xv6.Fs.Tree

set_option autoImplicit false

namespace Xv6.Fs

open Threads

/-- The calls that change directories, link counts or references; `none` is an argument that argstr
refuses. -/
inductive Call where
  | open (path : Option Path) (omode : Nat)
  | mkdir (path : Option Path)
  | mknod (path : Option Path) (major minor : Int)
  | link (old new : Option Path)
  | unlink (path : Option Path)
  | chdir (path : Option Path)
  | close (fd : Int)
deriving DecidableEq, Repr

def Call.code (p : Nat) : Call → Code Int
  | .open path omode => sysOpen p path omode
  | .mkdir path => sysMkdir p path
  | .mknod path major minor => sysMknod p path major minor
  | .link old new => sysLink p old new
  | .unlink path => sysUnlink p path
  | .chdir path => sysChdir p path
  | .close fd => sysClose p fd

-- One call of a process, with no other call going on; `none` unless it returns.
def perform (s : State) (p : Nat) (call : Call) : Option State :=
  if p < s.core.procs.length then
    match run p (call.code p) s fun _ => none with
    | .done _ s' _ => some s'
    | _ => none
  else none

inductive Reaches (ok : Core → Nat → Call → Core → Prop) (s : State) : State → Prop where
  | start : Reaches ok s s
  | step {s₁ s₂ : State} {p : Nat} {call : Call} (before : Reaches ok s s₁)
      (performed : perform s₁ p call = some s₂) (allowed : ok s₁.core p call s₂.core) : Reaches ok s s₂

def performAll (s : State) : List (Nat × Call) → Option State
  | [] => some s
  | (p, call) :: rest => (perform s p call).bind fun s' => performAll s' rest

theorem Reaches.performAll {ok : Core → Nat → Call → Core → Prop} {s s₁ s₂ : State} {calls : List (Nat × Call)}
    (before : Reaches ok s s₁) (always : ∀ c p call c', ok c p call c')
    (performed : performAll s₁ calls = some s₂) : Reaches ok s s₂ := by
  induction calls generalizing s₁ with
  | nil =>
    cases performed
    exact before
  | cons first rest ih =>
    obtain ⟨s', now, later⟩ := Option.bind_eq_some_iff.mp performed
    exact ih (.step before now (always _ _ _ _)) later

def Call.newPath : Call → Option Path
  | .open path omode => if omode &&& oCreate ≠ 0 then path else none
  | .mkdir path => path
  | .mknod path _ _ => path
  | .link _ new => new
  | _ => none

def Call.place (call : Call) (c : Core) (p : Nat) : Option (Nat × Name) :=
  call.newPath.bind fun path => resolve c p path true

section Net

/-- What a call does to the inode table: `dp` is the directory and `i` the inode of the entry. -/
inductive Edit (c : Core) (p : Nat) (call : Call) (dp i : Nat) : Core → Prop where
  | make {name : Name} {type : FileType} {major minor : Int} {e : Core}
      (creates : Creates c dp name type major minor i e) (kind : type ≠ .free)
      (place : call.place c p = some (dp, name)) : Edit c p call dp i e
  | link {name : Name} {e : Core} (links : Links c i dp name e)
      (place : call.place c p = some (dp, name)) : Edit c p call dp i e
  | unlink {name : Name} {off : Nat} {e : Core} (unlinks : Unlinks c dp name i off e) :
      Edit c p call dp i (unlinked e dp i (c.inodes i).type)

inductive Net (c : Core) (p : Nat) (call : Call) : Core → Prop where
  | idle : Net c p call c
  | edit {dp i : Nat} {e : Core} (edit : Edit c p call dp i e) : Net c p call ((e.reap dp).reap i)
  | editOpen {dp i omode f fd : Nat} {e : Core} (edit : Edit c p call dp i e)
      (opens : Opens (e.reap dp) p i omode f fd) : Net c p call (opened (e.reap dp) p i omode f fd)
  | open {i omode f fd : Nat} (typed : (c.inodes i).type ≠ .free) (opens : Opens c p i omode f fd) :
      Net c p call (opened c p i omode f fd)
  | chdir {i : Nat} (isDir : (c.inodes i).type = .dir) :
      Net c p call (((c.hold i).put (cwdOf c p)).setProc p { procAt c p with cwd := i })
  | close {fd f : Nat} (present : (procAt c p).ofile[fd]? = some (some f)) (positive : 0 < (fileAt c f).ref) :
      Net c p call (closed (c.setProc p { procAt c p with ofile := (procAt c p).ofile.set fd none }) f)

variable {c c' : Core} {p : Nat} {h h' : Held} {r : Int} {i dp : Nat}

theorem reap_addLink {n : Int} (apart : dp ≠ i) : (c.reap dp).addLink i n = (c.addLink i n).reap dp := by
  unfold Core.reap
  rw [addLink_other apart]
  by_cases gone : (c.inodes dp).nlink = 0 ∧ c.ref dp = 0
  · rw [if_pos gone, if_pos (show (c.inodes dp).nlink = 0 ∧ (c.addLink i n).ref dp = 0 from gone)]
    simp [Core.ifree, Core.addLink, Core.setInode, apart, Function.update_comm apart, Ne.symm apart]
  · rw [if_neg gone, if_neg (show ¬((c.inodes dp).nlink = 0 ∧ (c.addLink i n).ref dp = 0) from gone)]

theorem makeNode_net {call : Call} {path : Option Path} {type : FileType} {major minor : Int}
    (stable : Stable c) (kind : type ≠ .free) (new : call.newPath = path)
    (ran : Runs p (makeNode p path type major minor) c h r c' h') : Net c p call c' := by
  rcases (makeNode_runs stable ran).2 with rfl | ⟨_, dp, name, i, e, creates, ⟨q, rfl, place⟩, rfl⟩
  · exact .idle
  · exact .edit (.make creates kind (by rw [Call.place, new]; exact place))

theorem Call.net {call : Call} (stable : Stable c) (idle : IdleFiles c)
    (ran : Runs p (call.code p) c h r c' h') : Net c p call c' := by
  cases call with
  | «open» path omode =>
    have edit {dp i : Nat} {name : Name} {e : Core} {q : Path} (creates : Creates c dp name .file 0 0 i e)
        (asked : omode &&& oCreate ≠ 0) (given : path = some q) (place : resolve c p q true = some (dp, name)) :
        Edit c p (.open path omode) dp i e := by
      refine .make creates (by decide) ?_
      rw [Call.place, Call.newPath, if_pos asked, given]
      exact place
    cases (sysOpen_runs stable idle ran).2 with
    | failed => exact .idle
    | found _ typed opens => exact .open typed opens
    | lost creates asked given place => exact .edit (edit creates asked given place)
    | made creates asked given place opens => exact .editOpen (edit creates asked given place) opens
  | mkdir path | mknod path major minor => exact makeNode_net stable (by decide) rfl ran
  | link old new =>
    rcases (sysLink_runs stable ran).2 with rfl | ⟨_, i, dp, name, e, links, ⟨q, rfl, place⟩, rfl⟩
    · exact .idle
    · exact .edit (.link links place)
  | unlink path =>
    rcases (sysUnlink_runs stable ran).2 with rfl | ⟨_, dp, name, i, off, e, unlinks, rfl⟩
    · exact .idle
    · rw [reap_addLink unlinks.apart]
      exact .edit (.unlink unlinks)
  | chdir path =>
    rcases (sysChdir_runs stable ran).2 with rfl | ⟨_, i, isDir, rfl⟩
    · exact .idle
    · exact .chdir isDir
  | close fd =>
    rcases (sysClose_runs ran).2 with rfl | ⟨_, f, _, present, positive, rfl⟩
    · exact .idle
    · exact .close present positive

theorem perform_net {s s' : State} {call : Call} (stable : Stable s.core) (idle : IdleFiles s.core)
    (performed : perform s p call = some s') : p < s.core.procs.length ∧ Net s.core p call s'.core := by
  unfold perform at performed
  split at performed
  next known =>
    split at performed
    next value =>
      cases performed
      exact ⟨known, Call.net stable idle ⟨s, s', rfl, rfl, value⟩⟩
    next => cases performed
  next => cases performed

end Net

section Stability

variable {c e : Core} {p i j dp : Nat} {call : Call}

/-- `Stable`, except that an inode without links and references may not have been freed yet. -/
structure Settling (c : Core) : Prop where
  fits : ∀ i, short (c.inodes i).nlink = (c.inodes i).nlink
  valid : ∀ i, c.valid i = true ↔ 0 < c.ref i
  typed : ∀ i, 0 < c.ref i → (c.inodes i).type ≠ .free

def Kept (c : Core) (i : Nat) : Prop := (c.inodes i).type ≠ .free → (c.inodes i).nlink = 0 → 0 < c.ref i

theorem short_short (n : Int) : short (short n) = short n := Int.bmod_bmod

theorem reap_inodes_other (away : j ≠ i) : (c.reap i).inodes j = c.inodes j := by
  unfold Core.reap
  split
  · exact ifree_inodes_other away
  · rfl

theorem reap_nlink : ((c.reap i).inodes j).nlink = (c.inodes j).nlink := by
  by_cases here : j = i
  · unfold Core.reap
    split
    · simp [Core.ifree, here]
    · rfl
  · rw [reap_inodes_other here]

theorem Settling.reap (settling : Settling c) : Settling (c.reap i) where
  fits j := by
    rw [reap_nlink]
    exact settling.fits j
  valid j := by
    unfold Core.reap
    split
    next gone =>
      by_cases here : j = i
      · simp [Core.ifree, here, gone.2]
      · simpa [Core.ifree, here] using settling.valid j
    next => exact settling.valid j
  typed j positive := by
    rw [reap_ref] at positive
    unfold Core.reap
    split
    next gone =>
      have away : j ≠ i := by
        rintro rfl
        omega
      rw [ifree_inodes_other away]
      exact settling.typed j positive
    next => exact settling.typed j positive

theorem Kept.reap (kept : j ≠ i → Kept c j) : Kept (c.reap i) j := by
  intro typed unlinked
  rw [reap_nlink] at unlinked
  rw [reap_ref]
  by_cases here : j = i
  · subst here
    by_contra idle
    rw [Core.reap, if_pos ⟨unlinked, by omega⟩] at typed
    simp at typed
  · rw [reap_inodes_other here] at typed
    exact kept here typed unlinked

theorem Settling.stable (settling : Settling e) (kept : ∀ j, j ≠ dp → j ≠ i → Kept e j) :
    Stable ((e.reap dp).reap i) where
  fits := settling.reap.reap.fits
  valid := settling.reap.reap.valid
  typed := settling.reap.reap.typed
  kept _ := Kept.reap fun awayI => Kept.reap fun awayDp => kept _ awayDp awayI

theorem Edit.refs (edit : Edit c p call dp i e) : SameRefs c e := by
  cases edit with
  | make creates => exact created_refs creates.value
  | link links => exact (setInode_refs _).trans (writeSlot_refs links.value)
  | unlink unlinks =>
    exact ((writeSlot_refs unlinks.value).trans (unlinkDir_refs _)).trans (setInode_refs _)

theorem Edit.apart (edit : Edit c p call dp i e) : dp ≠ i := by
  cases edit with
  | make creates => exact creates.apart
  | link links => exact links.apart
  | unlink unlinks => exact unlinks.apart

theorem Links.linked_of_tree {name : Name} (links : Links c i dp name e) (tree : Tree c) : Linked c i dp name e := by
  have := tree.bound i links.typed
  have := tree.small
  exact links.linked (by omega)

theorem Creates.made_of_tree {name : Name} {type : FileType} {major minor : Int}
    (creates : Creates c dp name type major minor i e) (tree : Tree c) : Made c dp name type major minor i e :=
  creates.made tree.small (tree.dirBound creates.isDir)

theorem Edit.others (edit : Edit c p call dp i e) (tree : Tree c) (awayI : j ≠ i) (awayDp : j ≠ dp) :
    e.inodes j = c.inodes j := by
  cases edit with
  | make creates => exact (creates.made_of_tree tree).others j awayI awayDp
  | link links => exact (links.linked_of_tree tree).others j awayI awayDp
  | unlink unlinks => exact unlinks.unlinked.others j awayI awayDp

theorem Edit.target (edit : Edit c p call dp i e) (tree : Tree c) :
    (e.inodes i).type ≠ .free ∧ short (e.inodes i).nlink = (e.inodes i).nlink := by
  cases edit with
  | make creates kind =>
    rw [(creates.made_of_tree tree).made]
    exact ⟨kind, show short 1 = 1 by decide⟩
  | link links =>
    rw [(links.linked_of_tree tree).target]
    exact ⟨links.typed, short_short _⟩
  | unlink unlinks =>
    rw [unlinks.unlinked.target]
    exact ⟨unlinks.typed, short_short _⟩

theorem Edit.parent (edit : Edit c p call dp i e) (tree : Tree c) (stable : Stable c) :
    (e.inodes dp).type = .dir ∧ short (e.inodes dp).nlink = (e.inodes dp).nlink := by
  have fits {up : Prop} [Decidable up] {n : Int} :
      short (if up then short n else (c.inodes dp).nlink) = if up then short n else (c.inodes dp).nlink := by
    split
    · exact short_short n
    · exact stable.fits dp
  cases edit with
  | make creates kind =>
    rw [(creates.made_of_tree tree).parent]
    exact ⟨creates.isDir, fits⟩
  | link links =>
    rw [(links.linked_of_tree tree).parent]
    exact ⟨links.isDir, stable.fits dp⟩
  | unlink unlinks =>
    rw [unlinks.unlinked.parent]
    exact ⟨unlinks.isDir, fits⟩

theorem Edit.settling (edit : Edit c p call dp i e) (tree : Tree c) (stable : Stable c) : Settling e where
  fits j := by
    by_cases here : j = i
    · exact here ▸ (edit.target tree).2
    · by_cases parent : j = dp
      · exact parent ▸ (edit.parent tree stable).2
      · rw [edit.others tree here parent]
        exact stable.fits j
  valid j := by
    rw [edit.refs.valid, edit.refs.ref]
    exact stable.valid j
  typed j positive := by
    by_cases here : j = i
    · exact here ▸ (edit.target tree).1
    · by_cases parent : j = dp
      · rw [parent, (edit.parent tree stable).1]
        decide
      · rw [edit.refs.ref] at positive
        rw [edit.others tree here parent]
        exact stable.typed j positive

theorem Edit.kept (edit : Edit c p call dp i e) (tree : Tree c) (stable : Stable c) (awayDp : j ≠ dp)
    (awayI : j ≠ i) : Kept e j := by
  unfold Kept
  rw [edit.others tree awayI awayDp, edit.refs.ref]
  exact stable.kept j

theorem Stable.put (stable : Stable c) : Stable (c.put i) := by
  unfold Core.put
  by_cases last : lastPut c i = true
  · rw [if_pos last]
    have last : c.valid i = true ∧ (c.inodes i).nlink = 0 ∧ c.ref i = 1 := by simpa [lastPut] using last
    refine ⟨fun j => ?_, fun j => ?_, fun j positive => ?_, fun j typed unlinked => ?_⟩
    · by_cases here : j = i
      · simpa [Core.unref, Core.ifree, here] using stable.fits i
      · simpa [Core.unref, Core.ifree, here] using stable.fits j
    · by_cases here : j = i
      · simp [Core.unref, Core.ifree, here, last]
      · simpa [Core.unref, Core.ifree, here] using stable.valid j
    · by_cases here : j = i
      · simp [Core.unref, Core.ifree, here, last] at positive
      · simpa [Core.unref, Core.ifree, here] using stable.typed j (by simpa [Core.unref, Core.ifree, here] using positive)
    · by_cases here : j = i
      · simp [Core.unref, Core.ifree, here] at typed
      · simpa [Core.unref, Core.ifree, here] using stable.kept j (by simpa [Core.unref, Core.ifree, here] using typed)
          (by simpa [Core.unref, Core.ifree, here] using unlinked)
  · rw [if_neg last]
    refine ⟨stable.fits, fun j => ?_, fun j positive => ?_, fun j typed unlinked => ?_⟩
    · by_cases here : j = i
      · have := stable.valid i
        simp [Core.unref, here, this]
        omega
      · simpa [Core.unref, here] using stable.valid j
    · by_cases here : j = i
      · simp only [Core.unref, here, Function.update_self] at positive
        exact here ▸ stable.typed i (by omega)
      · exact stable.typed j (by simpa [Core.unref, here] using positive)
    · have positive := stable.kept j typed unlinked
      by_cases here : j = i
      · subst here
        have := (stable.valid j).mpr positive
        have unlinked : (c.inodes j).nlink = 0 := unlinked
        simp [lastPut, this, unlinked] at last
        simp [Core.unref]
        omega
      · simpa [Core.unref, here] using positive

theorem Settling.hold (settling : Settling c) (kept : ∀ j, j ≠ i → Kept c j) (typed : (c.inodes i).type ≠ .free) :
    Stable (c.hold i) where
  fits := settling.fits
  valid j := by
    by_cases here : j = i
    · simp [here]
    · simpa [here] using settling.valid j
  typed j positive := by
    by_cases here : j = i
    · exact here ▸ typed
    · exact settling.typed j (by simpa [here] using positive)
  kept j typed unlinked := by
    by_cases here : j = i
    · simp [here]
    · simpa [here] using kept j here typed unlinked

theorem Stable.sameInodes {c' : Core} (stable : Stable c) (inodes : c'.inodes = c.inodes) (ref : c'.ref = c.ref)
    (valid : c'.valid = c.valid) : Stable c' where
  fits := inodes ▸ stable.fits
  valid := by rw [valid, ref]; exact stable.valid
  typed := by rw [inodes, ref]; exact stable.typed
  kept := by rw [inodes, ref]; exact stable.kept

theorem Net.stable {c' : Core} (net : Net c p call c') (tree : Tree c) (stable : Stable c) : Stable c' := by
  cases net with
  | idle => exact stable
  | edit edit => exact (edit.settling tree stable).stable fun j => edit.kept tree stable
  | @editOpen dp i omode f fd e edit opens =>
    have settling : Settling (e.reap dp) := (edit.settling tree stable).reap
    refine (settling.hold (fun j away => Kept.reap fun awayDp => edit.kept tree stable awayDp away) ?_).sameInodes
      rfl rfl rfl
    rw [reap_inodes_other edit.apart.symm]
    exact (edit.target tree).1
  | «open» typed opens => exact (stable.hold typed).sameInodes rfl rfl rfl
  | chdir isDir => exact (stable.hold (by simp [isDir])).put.sameInodes rfl rfl rfl
  | close present positive =>
    unfold closed
    split
    · exact stable.sameInodes rfl rfl rfl
    · split
      · apply Stable.put
        exact stable.sameInodes rfl rfl rfl
      · exact stable.sameInodes rfl rfl rfl

theorem Edit.idleFiles (edit : Edit c p call dp i e) (idle : IdleFiles c) : IdleFiles e := by
  rw [IdleFiles, edit.refs.files]
  exact idle

theorem IdleFiles.setFile (idle : IdleFiles c) {f : Nat} {file : File} (fits : file.ref = 0 → file.type = .none) :
    IdleFiles (c.setFile f file) := by
  intro member present
  rcases List.mem_or_eq_of_mem_set present with old | rfl
  · exact idle member old
  · exact fits

theorem fileAt_setProc {f : Nat} {proc : Proc} : fileAt (c.setProc p proc) f = fileAt c f := rfl

theorem Net.idleFiles {c' : Core} (net : Net c p call c') (idle : IdleFiles c) : IdleFiles c' := by
  cases net with
  | idle => exact idle
  | edit edit =>
    rw [IdleFiles, reap_files, reap_files]
    exact edit.idleFiles idle
  | @editOpen dp i omode f fd e edit opens =>
    have before : IdleFiles ((e.reap dp).hold i) := by
      rw [IdleFiles, hold_files, reap_files]
      exact edit.idleFiles idle
    exact before.setFile (by simp [openedFile])
  | @«open» i omode f fd typed opens =>
    have before : IdleFiles (c.hold i) := idle
    exact before.setFile (by simp [openedFile])
  | chdir isDir =>
    intro file present
    rw [Core.setProc, put_files] at present
    exact idle file present
  | close present positive =>
    unfold closed
    rw [fileAt_setProc]
    split
    next shared =>
      refine IdleFiles.setFile idle fun zero => ?_
      have : (fileAt c _).ref - 1 = 0 := zero
      omega
    next =>
      split
      next =>
        rw [IdleFiles, put_files]
        exact IdleFiles.setFile idle fun _ => rfl
      next => exact IdleFiles.setFile idle fun _ => rfl

end Stability

section Disk

variable {c d e : Core} {p i dp : Nat} {call : Call}

structure SameDisk (c c' : Core) : Prop where
  ninodes : c'.ninodes = c.ninodes
  inodes : c'.inodes = c.inodes
  freeBlocks : c'.freeBlocks = c.freeBlocks

/-- Inodes without links are freed, and apart from that the disk stays as it is. -/
inductive Settles (c : Core) : Core → Prop where
  | refl : Settles c c
  | disk {d e : Core} (before : Settles c d) (same : SameDisk d e) : Settles c e
  | free {d : Core} {i : Nat} (before : Settles c d) (typed : (d.inodes i).type ≠ .free)
      (unlinked : (d.inodes i).nlink = 0) : Settles c (d.ifree i)

theorem Settles.keeps {holds : Core → Prop} (disk : ∀ d e, SameDisk d e → holds d → holds e)
    (free : ∀ d i, (d.inodes i).type ≠ .free → (d.inodes i).nlink = 0 → holds d → holds (d.ifree i))
    (settles : Settles c d) (initially : holds c) : holds d := by
  induction settles with
  | refl => exact initially
  | disk _ same ih => exact disk _ _ same ih
  | free _ typed unlinked ih => exact free _ _ typed unlinked ih

theorem Settles.reap (settles : Settles c d) (typed : (d.inodes i).type ≠ .free) : Settles c (d.reap i) := by
  unfold Core.reap
  split
  next gone => exact .free settles typed gone.1
  next => exact settles

theorem Settles.put (settles : Settles c d) (typed : 0 < d.ref i → (d.inodes i).type ≠ .free)
    (valid : d.valid i = true → 0 < d.ref i) : Settles c (d.put i) := by
  unfold Core.put
  split
  next last =>
    simp only [lastPut, Bool.and_eq_true, decide_eq_true_eq] at last
    exact .disk (.free settles (typed (valid last.1)) last.2.1) ⟨rfl, rfl, rfl⟩
  next => exact .disk settles ⟨rfl, rfl, rfl⟩

theorem Net.settles {c' : Core} (net : Net c p call c') (tree : Tree c) (stable : Stable c) :
    Settles c c' ∨ ∃ dp i e, Edit c p call dp i e ∧ Settles e c' := by
  cases net with
  | idle => exact Or.inl .refl
  | @edit dp i e edit =>
    refine Or.inr ⟨dp, i, e, edit, ?_⟩
    refine (Settles.reap .refl (by simp [(edit.parent tree stable).1])).reap ?_
    rw [reap_inodes_other edit.apart.symm]
    exact (edit.target tree).1
  | @editOpen dp i omode f fd e edit opens =>
    refine Or.inr ⟨dp, i, e, edit, ?_⟩
    exact .disk (Settles.reap .refl (by simp [(edit.parent tree stable).1])) ⟨rfl, rfl, rfl⟩
  | «open» typed opens => exact Or.inl (.disk .refl ⟨rfl, rfl, rfl⟩)
  | @chdir i isDir =>
    have held : Stable (c.hold i) := stable.hold (by simp [isDir])
    have settles : Settles c (c.hold i) := .disk .refl ⟨rfl, rfl, rfl⟩
    exact Or.inl (.disk (settles.put (held.typed _) (held.valid _).mp) ⟨rfl, rfl, rfl⟩)
  | close present positive =>
    refine Or.inl ?_
    unfold closed
    split
    · exact .disk .refl ⟨rfl, rfl, rfl⟩
    · split
      · exact Settles.put (.disk .refl ⟨rfl, rfl, rfl⟩) (stable.typed _) (stable.valid _).mp
      · exact .disk .refl ⟨rfl, rfl, rfl⟩

theorem SameDisk.links (disk : SameDisk c e) (x : Nat) : links e x = links c x := by
  rw [Fs.links, Fs.links, disk.ninodes, disk.inodes]

theorem SameDisk.attached (disk : SameDisk c e) : Attached e i ↔ Attached c i :=
  attached_congr (by rw [disk.inodes]) fun _ => disk.links i

theorem SameDisk.uplinks (disk : SameDisk c e) (x : Nat) : uplinks e x = uplinks c x := by
  unfold Fs.uplinks uplink
  simp only [disk.ninodes, disk.attached, disk.inodes]

theorem SameDisk.tree (disk : SameDisk c e) (tree : Tree c) : Tree e := by
  refine ⟨?_, ?_, ?_, ?_, ?_, ?_, ?_, ?_, ?_⟩
  all_goals simp only [disk.ninodes, disk.inodes, disk.links]
  · exact tree.small
  · exact tree.bound
  · exact tree.shaped
  · exact tree.rootDir
  · exact tree.rootUp
  · exact tree.rootUnnamed
  · exact tree.once
  · exact tree.placed
  · exact tree.unnamed

end Disk

end Xv6.Fs
