import Xv6.Fs.LinkCounts
import Xv6.Fs.Progress

set_option autoImplicit false

namespace Xv6.Fs

open Threads

section Settles

variable {c d : Core} {i : Nat}

theorem Settles.nlink (settles : Settles c d) (i : Nat) : (d.inodes i).nlink = (c.inodes i).nlink := by
  induction settles with
  | refl => rfl
  | disk _ same ih => rw [same.inodes, ih]
  | @free d j _ _ _ ih =>
    by_cases here : i = j
    · rw [← ih, here]
      simp [Core.ifree]
    · rw [ifree_inodes_other here, ih]

theorem Settles.kept (settles : Settles c d) (typed : (d.inodes i).type ≠ .free) : d.inodes i = c.inodes i := by
  induction settles with
  | refl => rfl
  | disk _ same ih =>
    rw [same.inodes] at typed ⊢
    exact ih typed
  | @free d j _ _ _ ih =>
    have away : i ≠ j := by
      rintro rfl
      simp at typed
    rw [ifree_inodes_other away] at typed ⊢
    exact ih typed

theorem Settles.freed (settles : Settles c d) (before : (c.inodes i).type ≠ .free)
    (after : (d.inodes i).type = .free) : (c.inodes i).nlink = 0 := by
  induction settles with
  | refl => exact absurd after before
  | disk _ same ih => exact ih (by rwa [same.inodes] at after)
  | @free d j inner typed unlinked ih =>
    by_cases here : i = j
    · rw [← inner.nlink, here]
      exact unlinked
    · rw [ifree_inodes_other here] at after
      exact ih after

end Settles

section Backed

/-- No name and no `..` of the tree is without a link that counts it. -/
structure Backed (c : Core) : Prop where
  tree : Tree c
  linked : ∀ i, (c.inodes i).type ≠ .free → (links c i + uplinks c i : Int) ≤ (c.inodes i).nlink

variable {c e : Core} {p i dp : Nat} {call : Call}

theorem short_of_nonneg {n : Int} (fits : short n = n) (room : 0 ≤ short (n + 1)) : short (n + 1) = n + 1 := by
  have low := Int.le_bmod (x := n) (m := 2 ^ 16) (by decide)
  have high := Int.bmod_lt (x := n) (m := 2 ^ 16) (by decide)
  unfold short at fits room ⊢
  rw [fits] at low high
  by_cases full : n = 32767
  · subst full
    exact absurd room (by decide)
  · rw [Int.bmod_eq_of_le] <;> omega

theorem NewName.backed {name : Name} (new : NewName c e dp i name) (backed : Backed c) (tree : Tree e)
    (up : (e.inodes i).type = .dir → (e.inodes i).up = dp)
    (target : (links c i + uplinks c i + 1 : Int) ≤ (e.inodes i).nlink)
    (parent : (c.inodes dp).nlink + (if (e.inodes i).type = .dir then 1 else 0) = (e.inodes dp).nlink) :
    Backed e := by
  refine ⟨tree, fun j typed => ?_⟩
  have names := new.links_add backed.tree (tree.bound j typed).1
  have ups := new.uplinks_add backed.tree (x := j)
  by_cases here : j = i
  · subst here
    rw [if_neg (fun both => new.apart ((up both.1).symm.trans both.2))] at ups
    rw [if_pos rfl] at names
    omega
  · rw [if_neg (Ne.symm here)] at names
    rw [new.type here] at typed
    have before := backed.linked j typed
    by_cases above : j = dp
    · subst above
      by_cases isDir : (e.inodes i).type = .dir
      · rw [if_pos ⟨isDir, up isDir⟩] at ups
        rw [if_pos isDir] at parent
        omega
      · rw [if_neg (fun both => isDir both.1)] at ups
        rw [if_neg isDir] at parent
        omega
    · rw [if_neg (fun both => above (both.2.symm.trans (up both.1)))] at ups
      rw [new.others j here above]
      omega

theorem LostName.backed (lost : LostName c e dp i) (backed : Backed c) (stable : Stable c)
    (target : (e.inodes i).nlink = short ((c.inodes i).nlink - 1)) (parent : (e.inodes dp).nlink =
      if (c.inodes i).type = .dir then short ((c.inodes dp).nlink - 1) else (c.inodes dp).nlink) : Backed e := by
  have less (j : Nat) (typed : (c.inodes j).type ≠ .free) (positive : 0 < links c j + uplinks c j) :
      short ((c.inodes j).nlink - 1) = (c.inodes j).nlink - 1 := by
    have linked := backed.linked j typed
    have high := Int.bmod_lt (x := (c.inodes j).nlink) (m := 2 ^ 16) (by decide)
    have fits := stable.fits j
    unfold short at fits
    rw [fits] at high
    rw [short_eq] <;> omega
  refine ⟨lost.tree backed.tree, fun j typed => ?_⟩
  rw [lost.type] at typed
  have names := lost.links_sub backed.tree (backed.tree.bound j typed).1
  have ups := lost.uplinks_sub backed.tree (x := j)
  have before := backed.linked j typed
  by_cases here : j = i
  · subst here
    rw [if_neg (fun both => lost.apart both.2)] at ups
    rw [if_pos rfl] at names
    rw [target, less j typed (by omega)]
    omega
  · rw [if_neg (Ne.symm here)] at names
    by_cases above : j = dp
    · subst above
      rw [parent]
      by_cases isDir : (c.inodes i).type = .dir
      · rw [if_pos ⟨isDir, rfl⟩] at ups
        rw [if_pos isDir, less j typed (by omega)]
        omega
      · rw [if_neg (fun both => isDir both.1)] at ups
        rw [if_neg isDir]
        omega
    · rw [if_neg (fun both => above both.2.symm)] at ups
      rw [lost.others j here above]
      omega

theorem Edit.backed (edit : Edit c p call dp i e) (backed : Backed c) (stable : Stable c)
    (target : 0 ≤ (e.inodes i).nlink) (parent : 0 ≤ (e.inodes dp).nlink) : Backed e := by
  have refs := edit.refs
  cases edit with
  | make creates kind =>
    have made := creates.made_of_tree backed.tree
    have new := made.newName creates kind
    have free := findFree_free creates.fresh
    refine new.backed backed (made.tree creates kind backed.tree) (fun isDir => made.up isDir) ?_ ?_
    · rw [backed.tree.unnamed i new.bound.1 free, backed.tree.uplinks_zero (by simp [free]), made.made]
      exact le_refl 1
    · rw [made.parent] at parent ⊢
      rw [made.sameType]
      dsimp only at parent ⊢
      split
      next isDir =>
        rw [if_pos isDir] at parent
        exact (short_of_nonneg (stable.fits dp) parent).symm
      next => exact Int.add_zero _
  | link linking =>
    have table := linking.linked_of_tree backed.tree
    have new := table.newName linking backed.tree
    have notDir : (e.inodes i).type ≠ .dir := by
      rw [table.target]
      exact linking.notDir
    refine new.backed backed (table.tree linking backed.tree) (fun isDir => absurd isDir notDir) ?_ ?_
    · rw [table.target] at target ⊢
      have := backed.linked i linking.typed
      have := short_of_nonneg (stable.fits i) target
      dsimp only
      omega
    · rw [if_neg notDir, table.parent]
      exact Int.add_zero _
  | unlink unlinks =>
    have table := unlinks.unlinked
    refine (table.lostName unlinks refs.ninodes backed.tree).backed backed stable ?_ ?_
    · rw [table.target]
    · rw [table.parent]

theorem Backed.ifree (backed : Backed c) (typed : (c.inodes i).type ≠ .free)
    (unlinked : (c.inodes i).nlink = 0) : Backed (c.ifree i) := by
  have linked := backed.linked i typed
  have unneeded : Unneeded c i := ⟨typed, by omega, by omega⟩
  refine ⟨unneeded.tree backed.tree, fun j typed' => ?_⟩
  have away : j ≠ i := by
    rintro rfl
    simp at typed'
  rw [ifree_inodes_other away] at typed' ⊢
  have names := ifree_links (x := j) (backed.tree.bound i typed).2
  have := backed.linked j typed'
  rw [unneeded.uplinks_same backed.tree]
  omega

theorem SameDisk.backed (disk : SameDisk c e) (backed : Backed c) : Backed e := by
  refine ⟨disk.tree backed.tree, ?_⟩
  simp only [disk.inodes, disk.links, disk.uplinks]
  exact backed.linked

theorem Settles.backed (settles : Settles c e) (backed : Backed c) : Backed e :=
  settles.keeps (fun _ _ disk => disk.backed) (fun _ _ typed unlinked backed => backed.ifree typed unlinked) backed

end Backed

section Parents

variable {c c' : Core} {p : Nat} {call : Call}

/-- A call that overflows no link count and does not free the parent of a removed directory still in use. -/
structure Careful (c c' : Core) : Prop where
  counts : ∀ i, (c'.inodes i).type ≠ .free → 0 ≤ (c'.inodes i).nlink
  parents : ∀ d, (c'.inodes d).type = .dir → ¬Attached c' d → (c.inodes (c'.inodes d).up).type ≠ .free →
    (c'.inodes (c'.inodes d).up).type ≠ .free

def ParentsAllocated (c : Core) : Prop :=
  ∀ d, (c.inodes d).type = .dir → (c.inodes (c.inodes d).up).type ≠ .free

theorem Net.backed (net : Net c p call c') (careful : Careful c c') (backed : Backed c) (stable : Stable c) :
    Backed c' := by
  rcases net.settles backed.tree stable with settles | ⟨dp, i, e, edit, settles⟩
  · exact settles.backed backed
  · have nonneg (j : Nat) (typed : (e.inodes j).type ≠ .free) : 0 ≤ (e.inodes j).nlink := by
      by_cases freed : (c'.inodes j).type = .free
      · rw [settles.freed typed freed]
      · rw [← settles.nlink]
        exact careful.counts j freed
    have parent := (edit.parent backed.tree stable).1
    exact settles.backed (edit.backed backed stable (nonneg i (edit.target backed.tree).1)
      (nonneg dp (by simp [parent])))

theorem Net.up (net : Net c p call c') (backed : Backed c) (stable : Stable c)
    (parents : ParentsAllocated c) {d : Nat} (isDir : (c'.inodes d).type = .dir) :
    (c.inodes (c'.inodes d).up).type ≠ .free := by
  rcases net.settles backed.tree stable with settles | ⟨dp, i, e, edit, settles⟩
  · have same := settles.kept (i := d) (by simp [isDir])
    rw [same] at isDir ⊢
    exact parents d isDir
  · have same := settles.kept (i := d) (by simp [isDir])
    rw [same] at isDir ⊢
    have refs := edit.refs
    cases edit with
    | make creates kind =>
      have made := creates.made_of_tree backed.tree
      have new := made.newName creates kind
      by_cases here : d = i
      · subst here
        rw [made.up isDir]
        simp [creates.isDir]
      · rw [new.type here] at isDir
        rw [new.up backed.tree here]
        exact parents d isDir
    | link linking =>
      have table := linking.linked_of_tree backed.tree
      have new := table.newName linking backed.tree
      by_cases here : d = i
      · subst here
        rw [table.target] at isDir
        exact absurd isDir linking.notDir
      · rw [new.type here] at isDir
        rw [new.up backed.tree here]
        exact parents d isDir
    | unlink unlinks =>
      have lost := unlinks.unlinked.lostName unlinks refs.ninodes backed.tree
      rw [lost.type] at isDir
      rw [lost.up]
      exact parents d isDir

theorem Net.parents (net : Net c p call c') (careful : Careful c c') (backed : Backed c) (stable : Stable c)
    (parents : ParentsAllocated c) : ParentsAllocated c' := by
  intro d isDir
  by_cases attached : Attached c' d
  · simp [(net.backed careful backed stable).tree.up_isDir attached]
  · exact careful.parents d isDir attached (net.up backed stable parents isDir)

theorem Backed.whole (backed : Backed c) (parents : ParentsAllocated c) : Whole c := by
  intro d isDir entry present used
  have above := parents d isDir
  obtain ⟨up, rest, slots, upUsed, _⟩ := backed.tree.shaped d isDir
  have upSame : (c.inodes d).up = up := by
    rw [Inode.up, slots]
    rfl
  rw [slots] at present
  rcases List.mem_cons.mp present with rfl | present
  · simp [isDir]
  · rcases List.mem_cons.mp present with rfl | present
    · rwa [upSame] at above
    · intro free
      have named : 0 < (c.inodes d).names entry.inum := by
        rw [Inode.names, if_pos isDir, slots]
        exact naming_pos present
      have := backed.tree.links_pos named
      have := backed.tree.unnamed entry.inum used free
      omega

end Parents

section Accounts

variable {c c' : Core} {p i f fd omode : Nat} {call : Call}

theorem countP_set {A : Type} {l : List A} {n : Nat} {a x : A} (holds : A → Bool) (present : l[n]? = some x) :
    (l.set n a).countP holds + (if holds x then 1 else 0) = l.countP holds + if holds a then 1 else 0 := by
  induction l generalizing n with
  | nil => simp at present
  | cons head rest ih =>
    cases n with
    | zero =>
      have same : head = x := by simpa using present
      simp only [List.set_cons_zero, List.countP_cons, same]
      omega
    | succ n =>
      have := ih (by simpa using present)
      simp only [List.set_cons_succ, List.countP_cons]
      omega

theorem procAt_eq (known : p < c.procs.length) : c.procs[p]? = some (procAt c p) := by
  simp [procAt, known]

theorem fileAt_eq (known : f < c.files.length) : c.files[f]? = some (fileAt c f) := by
  simp [fileAt, known]

theorem cwds_setProc (known : p < c.procs.length) (proc : Proc) (j : Nat) :
    (c.setProc p proc).procs.countP (fun proc => proc.refersTo j) + (if (procAt c p).refersTo j then 1 else 0) =
      c.procs.countP (fun proc => proc.refersTo j) + if proc.refersTo j then 1 else 0 :=
  countP_set _ (procAt_eq known)

theorem opens_setFile (known : f < c.files.length) (file : File) (j : Nat) :
    (c.setFile f file).files.countP (fun file => file.refersTo j) + (if (fileAt c f).refersTo j then 1 else 0) =
      c.files.countP (fun file => file.refersTo j) + if file.refersTo j then 1 else 0 :=
  countP_set _ (fileAt_eq known)

theorem fileAt_bound (positive : 0 < (fileAt c f).ref) : f < c.files.length := by
  by_contra outside
  have none : c.files[f]? = none := by simpa using outside
  simp [fileAt, none, emptyFile] at positive

theorem put_ref : (c.put i).ref = Function.update c.ref i (c.ref i - 1) := by
  unfold Core.put
  split <;> rfl

theorem Accounted.setOfile (accounted : Accounted c) (known : p < c.procs.length) {ofile : List (Option Nat)} :
    Accounted (c.setProc p { procAt c p with ofile }) := by
  intro j
  have cwds := cwds_setProc known { procAt c p with ofile } j
  have same : Proc.refersTo { procAt c p with ofile } j = (procAt c p).refersTo j := rfl
  rw [same] at cwds
  have before := accounted j
  change c.ref j = _ + c.files.countP fun file => file.refersTo j
  omega

theorem Accounted.open (accounted : Accounted c) (opening : Opens c p i omode f fd) :
    Accounted ((c.hold i).setFile f (openedFile i omode)) := by
  intro j
  have files := opens_setFile opening.bound (openedFile i omode) j
  have unused : (fileAt c f).refersTo j = false := by simp [File.refersTo, opening.idle]
  have before := accounted j
  rw [unused] at files
  change Function.update c.ref i (c.ref i + 1) j = c.procs.countP (fun proc => proc.refersTo j) +
    (c.setFile f (openedFile i omode)).files.countP fun file => file.refersTo j
  by_cases here : j = i
  · subst here
    have counted : (openedFile j omode).refersTo j = true := by simp [File.refersTo, openedFile]
    rw [counted] at files
    rw [Function.update_self]
    simp only [Bool.false_eq_true, if_false, if_true] at files
    omega
  · have uncounted : (openedFile i omode).refersTo j = false := by
      simp [File.refersTo, openedFile, Ne.symm here]
    rw [uncounted] at files
    rw [Function.update_of_ne here]
    simp only [Bool.false_eq_true, if_false] at files
    omega

theorem Accounted.opened (accounted : Accounted c) (known : p < c.procs.length) (opening : Opens c p i omode f fd) :
    Accounted (opened c p i omode f fd) := (accounted.open opening).setOfile (show p < c.procs.length from known)

theorem hold_put_ref {old j : Nat} (positive : 0 < c.ref old) :
    ((c.hold i).put old).ref j + (if old = j then 1 else 0) = c.ref j + if i = j then 1 else 0 := by
  rw [put_ref, hold_ref]
  by_cases left : old = j <;> by_cases entered : i = j
  · subst left entered
    simp
  · subst left
    simp only [Function.update_self, Function.update_of_ne (Ne.symm entered), if_true, entered, if_false]
    omega
  · subst entered
    simp [left, Ne.symm left]
  · simp [left, entered, Ne.symm left, Ne.symm entered]

theorem cwdOf_eq (known : p < c.procs.length) : cwdOf c p = (procAt c p).cwd := by simp [cwdOf, procAt, known]

theorem Accounted.cwd_ref (accounted : Accounted c) (known : p < c.procs.length) : 0 < c.ref (cwdOf c p) := by
  have member : procAt c p ∈ c.procs := List.mem_of_getElem? (procAt_eq known)
  have positive : 0 < c.procs.countP fun proc => proc.refersTo (cwdOf c p) :=
    List.countP_pos_iff.mpr ⟨procAt c p, member, by simp [Proc.refersTo, cwdOf_eq known]⟩
  rw [accounted]
  omega

theorem Accounted.chdir (accounted : Accounted c) (known : p < c.procs.length) :
    Accounted (((c.hold i).put (cwdOf c p)).setProc p { procAt c p with cwd := i }) := by
  intro j
  have cwds := cwds_setProc known { procAt c p with cwd := i } j
  have refs := hold_put_ref (i := i) (j := j) (accounted.cwd_ref known)
  have before := accounted j
  have leaving : (procAt c p).refersTo j = decide (cwdOf c p = j) := by rw [cwdOf_eq known]; rfl
  have entering : Proc.refersTo { procAt c p with cwd := i } j = decide (i = j) := rfl
  simp only [leaving, entering, decide_eq_true_eq] at cwds
  have procs : (((c.hold i).put (cwdOf c p)).setProc p { procAt c p with cwd := i }).procs =
      (c.setProc p { procAt c p with cwd := i }).procs := by
    simp only [Core.setProc, put_procs, hold_procs]
  have files : (((c.hold i).put (cwdOf c p)).setProc p { procAt c p with cwd := i }).files = c.files := by
    simp only [Core.setProc, put_files, hold_files]
  rw [procs, files]
  change ((c.hold i).put (cwdOf c p)).ref j = _
  dsimp only at cwds ⊢
  omega

theorem Accounted.setFile (accounted : Accounted c) (known : f < c.files.length) {file : File}
    (same : ∀ j, file.refersTo j = (fileAt c f).refersTo j) : Accounted (c.setFile f file) := by
  intro j
  have files := opens_setFile known file j
  rw [same] at files
  have before := accounted j
  change c.ref j = c.procs.countP (fun proc => proc.refersTo j) + _
  omega

theorem Accounted.shut (accounted : Accounted c) (positive : 0 < (fileAt c f).ref)
    (isInode : (fileAt c f).type = .inode) : Accounted ((shut c f).put (fileAt c f).ip) := by
  intro j
  have files := opens_setFile (fileAt_bound positive) { fileAt c f with ref := 0, type := .none } j
  have before := accounted j
  have gone : File.refersTo { fileAt c f with ref := 0, type := .none } j = false := by simp [File.refersTo]
  have present : (fileAt c f).refersTo j = decide ((fileAt c f).ip = j) := by
    simp [File.refersTo, positive, isInode]
  rw [gone, present] at files
  simp only [Bool.false_eq_true, if_false, decide_eq_true_eq, Nat.add_zero] at files
  rw [put_ref, put_procs, put_files]
  change Function.update c.ref _ (c.ref _ - 1) j = c.procs.countP (fun proc => proc.refersTo j) +
    (c.setFile f _).files.countP fun file => file.refersTo j
  by_cases here : (fileAt c f).ip = j
  · subst here
    rw [Function.update_self]
    simp only [if_true] at files
    dsimp only
    omega
  · rw [Function.update_of_ne (Ne.symm here)]
    simp only [here, if_false] at files
    dsimp only
    omega

theorem Accounted.closed (accounted : Accounted c) (positive : 0 < (fileAt c f).ref) : Accounted (closed c f) := by
  have bound := fileAt_bound positive
  unfold Fs.closed
  split
  next shared =>
    refine accounted.setFile bound fun j => ?_
    have both : 0 < (fileAt c f).ref - 1 ∧ 0 < (fileAt c f).ref := by omega
    simp [File.refersTo, both]
  next =>
    split
    next isInode => exact accounted.shut positive isInode
    next notInode => exact accounted.setFile bound fun j => by simp [File.refersTo, notInode]

theorem Net.accounted (net : Net c p call c') (known : p < c.procs.length) (accounted : Accounted c) :
    Accounted c' := by
  cases net with
  | idle => exact accounted
  | edit edit =>
    intro j
    rw [reap_ref, reap_ref, reap_procs, reap_procs, reap_files, reap_files, edit.refs.ref, edit.refs.procs,
      edit.refs.files]
    exact accounted j
  | @editOpen dp i omode f fd e edit opening =>
    have procs : (e.reap dp).procs = c.procs := by rw [reap_procs, edit.refs.procs]
    have before : Accounted (e.reap dp) := by
      intro j
      rw [reap_ref, procs, reap_files, edit.refs.ref, edit.refs.files]
      exact accounted j
    exact before.opened (procs ▸ known) opening
  | «open» typed opening => exact accounted.opened known opening
  | chdir isDir => exact accounted.chdir known
  | close present positive => exact (accounted.setOfile known).closed positive

end Accounts

section Runs

structure NoDangling (c : Core) : Prop where
  entries : ∀ d, ((∃ proc ∈ c.procs, proc.cwd = d) ∨ ∃ file ∈ c.files, file.refersTo d = true) →
    (c.inodes d).type = .dir → ∀ entry ∈ (c.inodes d).slots, entry.inum ≠ 0 → (c.inodes entry.inum).type ≠ .free
  walks : ∀ s p path parent, s.core = c → p < c.procs.length → c.used + 2 ≤ ninode →
    ∃ found s', run p (namex p path parent) s (fun _ => none) = .done found s' fun _ => none

theorem Counted.backed {c : Core} (counted : Counted c) : Backed c :=
  ⟨counted.tree, fun i typed => by rw [counted.exact i typed]⟩

theorem Net.bound {c c' : Core} {p i : Nat} {call : Call} (net : Net c p call c') (tree : Tree c)
    (stable : Stable c) (typed : (c'.inodes i).type ≠ .free) : i < c.ninodes := by
  rcases net.settles tree stable with settles | ⟨dp, j, e, edit, settles⟩
  · rw [settles.kept typed] at typed
    exact (tree.bound i typed).2
  · rw [settles.kept typed] at typed
    by_cases target : i = j
    · subst target
      cases edit with
      | make creates => exact (findFree_bound creates.fresh).2
      | link links => exact (tree.bound i links.typed).2
      | unlink unlinks => exact (tree.bound i unlinks.typed).2
    · by_cases parent : i = dp
      · subst parent
        cases edit with
        | make creates => exact (tree.dirBound creates.isDir).2
        | link links => exact (tree.dirBound links.isDir).2
        | unlink unlinks => exact (tree.dirBound unlinks.isDir).2
      · rw [edit.others tree target parent] at typed
        exact (tree.bound i typed).2

theorem mkdir_below_child : ((perform sampleState 0 (.mkdir (some ['b']))).map fun s => decide (∀ d < 6,
      0 ≤ (s.core.inodes d).nlink ∧ ((s.core.inodes d).type = .dir → Attached s.core d))) = some true := by
  decide +kernel

def removeParent : List (Nat × Call) :=
  [(0, .mkdir (some ['b'])), (0, .chdir (some ['b'])), (0, .unlink (some ['/', 'a', '/', 'b'])),
    (0, .unlink (some ['/', 'a']))]

theorem removeParent_performed : ((performAll sampleState removeParent).map fun s =>
      (s.core.procs.map Proc.cwd, (s.core.inodes 4).type, (s.core.inodes 4).slots, (s.core.inodes 2).type)) =
    some ([4], .dir, [{ inum := 4, name := dot }, { inum := 2, name := dotdot }], .free) := by
  decide +kernel

end Runs

end Xv6.Fs
