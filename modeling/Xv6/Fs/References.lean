import Xv6.Fs.Dangling
import Xv6.Shared.Runs

set_option autoImplicit false

namespace Xv6.Fs

open Threads

def accounted (files : List File) (others : List Proc) (i : Nat) : Nat :=
  others.countP (fun proc => proc.refersTo i) + files.countP fun file => file.refersTo i

/-- What process `p` has at one point of a call: the references that it has taken, the locks that it holds and
the open log operations. Inode 0 does not exist. -/
structure Carries (p : Nat) (files : List File) (others : List Proc) (home : Nat) (taken held : List Nat)
    (ops : Nat) (s : State) (locks : Held) : Prop where
  sameFiles : s.core.files = files
  sameOthers : s.core.procs.eraseIdx p = others
  known : p < s.core.procs.length
  atHome : cwdOf s.core p = home
  ref : ∀ i, i ≠ 0 → s.core.ref i = accounted files others i + taken.count i
  owner : locks = fun i => if i ∈ held then some p else none
  once : held.Nodup
  begun : s.outstanding = ops

section Inodes

variable {A : Type} {p i dp ops : Nat} {files : List File} {others : List Proc} {home : Nat} {taken held : List Nat}
  {s : State} {locks : Held}

theorem Carries.perm {taken' held' : List Nat} (carries : Carries p files others home taken held ops s locks)
    (refs : taken.Perm taken') (inodes : held.Perm held') : Carries p files others home taken' held' ops s locks :=
  { carries with
    ref := fun i used => by
      rw [← refs.count_eq]
      exact carries.ref i used
    owner := by
      rw [carries.owner]
      funext i
      simp only [inodes.mem_iff]
    once := inodes.nodup_iff.mp carries.once }

theorem Carries.lock (carries : Carries p files others home taken held ops s locks) (free : locks i = none) :
    Carries p files others home taken (i :: held) ops s (Function.update locks i (some p)) := { carries with
    owner := by
      funext j
      by_cases same : j = i
      · simp [same]
      · simp [same, carries.owner]
    once := by
      refine List.nodup_cons.mpr ⟨fun locked => ?_, carries.once⟩
      rw [carries.owner] at free
      simp [locked] at free }

theorem Carries.unlock (carries : Carries p files others home taken (i :: held) ops s locks) :
    Carries p files others home taken held ops s (Function.update locks i none) := { carries with
    owner := by
      have released := (List.nodup_cons.mp carries.once).1
      funext j
      by_cases same : j = i
      · simp [same, released]
      · simp [same, carries.owner]
    once := (List.nodup_cons.mp carries.once).2 }

variable {blocks : Core → List LogBlock} {f : Core → Option (A × Core)} {type : FileType}

theorem returns_change {pre : State → Held → Prop} {post : A → State → Held → Prop}
    (holds : ∀ s locks, pre s locks → ∀ a c' logged, f s.core = some (a, c') →
      post a { s with core := c', logged } locks) : Returns p pre (change blocks f) post := by
  refine returns_atomic fun s locks before a s' value => ?_
  obtain ⟨⟨b, c'⟩, found, equal⟩ := Option.map_eq_some_iff.mp value
  cases equal
  exact holds s locks before _ c' _ found

theorem returns_keep (kept : ∀ c a c', f c = some (a, c') → c'.ref = c.ref ∧ c'.files = c.files ∧ c'.procs = c.procs) :
    Preserves p (Carries p files others home taken held ops) (change blocks f) := by
  refine returns_change fun s locks carries a c' logged value => ?_
  obtain ⟨ref, sameFiles, sameProcs⟩ := kept s.core a c' value
  exact
    { sameFiles := sameFiles.trans carries.sameFiles
      sameOthers := sameProcs ▸ carries.sameOthers
      known := sameProcs ▸ carries.known
      atHome := by
        rw [← carries.atHome, cwdOf, cwdOf, sameProcs]
      ref := fun i used => (congrFun ref i).trans (carries.ref i used)
      owner := carries.owner
      once := carries.once
      begun := carries.begun }

theorem returns_update {f : Core → Core}
    (kept : ∀ c, (f c).ref = c.ref ∧ (f c).files = c.files ∧ (f c).procs = c.procs) :
    Preserves p (Carries p files others home taken held ops) (update blocks f) := returns_keep fun c a c' value => by
    cases value
    exact kept c

theorem returns_look {f : Core → A} : Preserves p (Carries p files others home taken held ops) (read f) := by
  refine returns_atomic fun s locks carries b s' read => ?_
  cases read
  exact carries

theorem returns_beginOp : Returns p (Carries p files others home taken held ops) beginOp
    fun _ => Carries p files others home taken held (ops + 1) :=
  returns_await fun _ _ carries => { carries with begun := congrArg (· + 1) carries.begun }

theorem returns_endOp : Returns p (Carries p files others home taken held (ops + 1)) endOp
    fun _ => Carries p files others home taken held ops := by
  refine returns_atomic fun s locks carries a s' value => ?_
  cases value
  exact { carries with begun := by simp [carries.begun] }

theorem returns_ended {a : A} : Returns p (Carries p files others home taken held (ops + 1))
    (endOp >>= fun _ => pure a) fun _ => Carries p files others home taken held ops := returns_then returns_endOp

theorem Carries.igot {logged : List LogBlock} (carries : Carries p files others home taken held ops s locks) :
    Carries p files others home (i :: taken) held ops { s with core := s.core.igot i, logged } locks := { carries with
    ref := fun j used => by
      have before := carries.ref j used
      by_cases same : j = i
      · subst same
        simp only [Core.igot, Function.update_self, List.count_cons_self]
        omega
      · simp only [Core.igot, Function.update_of_ne same, List.count_cons_of_ne (Ne.symm same)]
        exact before }

theorem Carries.unref {logged : List LogBlock} (carries : Carries p files others home (i :: taken) held ops s locks) :
    Carries p files others home taken held ops { s with core := s.core.unref i, logged } locks := { carries with
    ref := fun j used => by
      have before := carries.ref j used
      by_cases same : j = i
      · subst same
        rw [List.count_cons_self] at before
        simp only [Core.unref, Function.update_self]
        omega
      · rw [List.count_cons_of_ne (Ne.symm same)] at before
        simp only [Core.unref, Function.update_of_ne same]
        exact before }

theorem returns_lock {via : Via} : Returns p (Carries p files others home taken held ops) (acquire via i)
    fun _ => Carries p files others home taken (i :: held) ops :=
  returns_acquire fun _ _ carries free => carries.lock free

theorem returns_unlock : Returns p (Carries p files others home taken (i :: held) ops) (release i : Code Unit)
    fun _ => Carries p files others home taken held ops := returns_release fun _ _ carries => carries.unlock

theorem returns_iget : Returns p (Carries p files others home taken held ops) (iget i)
    fun _ => Carries p files others home (i :: taken) held ops := by
  refine returns_change fun s locks carries a c' logged value => ?_
  split at value <;> cases value
  exact carries.igot

theorem returns_idup : Returns p (Carries p files others home taken held ops) (idup i)
    fun _ => Carries p files others home (i :: taken) held ops := by
  unfold idup update
  refine returns_change fun s locks carries a c' logged value => ?_
  cases value
  exact carries.igot

theorem returns_checkRef : Preserves p (Carries p files others home taken held ops) (checkRef i) := by
  refine returns_keep fun c a c' value => ?_
  split at value <;> cases value
  exact ⟨rfl, rfl, rfl⟩

theorem returns_ilock : Returns p (Carries p files others home taken held ops) (ilock i)
    fun _ => Carries p files others home taken (i :: held) ops := by
  refine returns_bind returns_checkRef fun _ => ?_
  refine returns_bind returns_lock fun _ => ?_
  refine returns_keep fun c a c' value => ?_
  split at value
  next =>
    cases value
    exact ⟨rfl, rfl, rfl⟩
  next =>
    split at value <;> cases value
    exact ⟨rfl, rfl, rfl⟩

theorem returns_iunlock : Returns p (Carries p files others home taken (i :: held) ops) (iunlock i)
    fun _ => Carries p files others home taken held ops := returns_bind returns_checkRef fun _ => returns_unlock

theorem returns_iput : Returns p (Carries p files others home (i :: taken) held ops) (iput i)
    fun _ => Carries p files others home taken held ops := by
  refine returns_bind returns_lock fun _ => ?_
  refine returns_bind (returns_update fun c => ?_) fun _ => ?_
  · split <;> exact ⟨rfl, rfl, rfl⟩
  · refine returns_bind returns_unlock fun _ => ?_
    refine returns_change fun s locks carries a c' logged value => ?_
    cases value
    exact carries.unref

theorem returns_iunlockput : Returns p (Carries p files others home (i :: taken) (i :: held) ops) (iunlockput i)
    fun _ => Carries p files others home taken held ops := returns_bind returns_iunlock fun _ => returns_iput

theorem returns_putEnded {a : A} : Returns p (Carries p files others home (i :: taken) (i :: held) (ops + 1))
    (iunlockput i >>= fun _ => endOp >>= fun _ => pure a) fun _ => Carries p files others home taken held ops :=
  returns_bind returns_iunlockput fun _ => returns_ended

theorem returns_iunlockput_second {j : Nat} :
    Returns p (Carries p files others home (j :: i :: taken) (i :: held) ops) (iunlockput i)
      fun _ => Carries p files others home (j :: taken) held ops :=
  returns_weaken returns_iunlockput (fun _ _ carries => carries.perm (.swap _ _ _) (.refl _)) fun _ _ _ => id

theorem returns_ialloc : Returns p (Carries p files others home taken held ops) (ialloc type)
    fun i => Carries p files others home (i :: taken) held ops := by
  refine returns_bind (returns_keep fun c i c' value => ?_) fun i => ?_
  · obtain ⟨_, _, equal⟩ := Option.map_eq_some_iff.mp value
    cases equal
    exact ⟨rfl, rfl, rfl⟩
  · exact returns_then returns_iget

theorem returns_dirlookup {name : Name} : Returns p (Carries p files others home taken held ops) (dirlookup dp name)
    fun found => Carries p files others home ((found.map Prod.fst).toList ++ taken) held ops := by
  refine returns_bind returns_look fun dir => ?_
  split
  next => exact returns_panic
  next =>
    split
    next => exact returns_done rfl
    next => exact returns_then returns_iget

theorem writeSlot_tables {c c' : Core} {off : Nat} {entry : Dirent} (value : writeSlot c dp off entry = some c') :
    c'.ref = c.ref ∧ c'.files = c.files ∧ c'.procs = c.procs := by
  have refs := writeSlot_refs value
  exact ⟨refs.ref, refs.files, refs.procs⟩

theorem returns_dirlink {name : Name} : Preserves p (Carries p files others home taken held ops) (dirlink dp name i) := by
  refine returns_bind returns_dirlookup fun found => ?_
  cases found with
  | some entry => exact returns_then returns_iput
  | none =>
    refine returns_then (returns_keep fun c a c' value => ?_)
    obtain ⟨c₁, added, equal⟩ := Option.map_eq_some_iff.mp value
    cases equal
    exact writeSlot_tables added

theorem returns_namexLoop {parent : Bool} {names : List Name} :
    Returns p (Carries p files others home (i :: taken) held ops) (namexLoop parent i names)
      fun found => Carries p files others home ((found.map Prod.fst).toList ++ taken) held ops := by
  induction names generalizing i with
  | nil =>
    unfold namexLoop
    split
    next => exact returns_then returns_iput
    next => exact returns_done rfl
  | cons name rest ih =>
    unfold namexLoop
    refine returns_bind returns_ilock fun _ => returns_bind returns_look fun type => ?_
    split
    next => exact returns_then returns_iunlockput
    next =>
      split
      next => exact returns_then returns_iunlock
      next =>
        refine returns_bind returns_dirlookup fun found => ?_
        cases found with
        | none => exact returns_then returns_iunlockput
        | some entry => exact returns_bind returns_iunlockput_second fun _ => ih

theorem returns_namex {path : Path} {parent : Bool} :
    Returns p (Carries p files others home taken held ops) (namex p path parent)
      fun found => Carries p files others home ((found.map Prod.fst).toList ++ taken) held ops := by
  unfold namex
  split
  next => exact returns_bind returns_iget fun _ => returns_namexLoop
  next => exact returns_bind returns_look fun cwd => returns_bind returns_idup fun _ => returns_namexLoop

theorem returns_namei {path : Path} : Returns p (Carries p files others home taken held ops) (namei p path)
    fun found => Carries p files others home (found.toList ++ taken) held ops :=
  returns_bind returns_namex fun _ => returns_done rfl

theorem returns_addLink {n : Int} : Preserves p (Carries p files others home taken held ops) (addLink i n) :=
  returns_update fun _ => ⟨rfl, rfl, rfl⟩

theorem returns_createDots : Preserves p (Carries p files others home taken held ops) (createDots dp i) := by
  refine returns_bind returns_addLink fun _ => returns_bind returns_dirlink fun first => ?_
  split
  next =>
    refine returns_bind returns_dirlink fun second => ?_
    split
    next => exact returns_done rfl
    next => exact returns_panic
  next => exact returns_panic

theorem returns_createNew {name : Name} {major minor : Int} :
    Returns p (Carries p files others home (dp :: taken) (dp :: held) ops) (createNew dp name type major minor)
      fun made => Carries p files others home (made.toList ++ taken) (made.toList ++ held) ops := by
  refine returns_bind returns_ialloc fun i => returns_bind returns_ilock fun _ => ?_
  refine returns_bind (returns_update fun _ => ⟨rfl, rfl, rfl⟩) fun _ => ?_
  have dots : Preserves p (Carries p files others home (i :: dp :: taken) (i :: dp :: held) ops)
      (if type = .dir then createDots dp i else return ()) := by
    split
    next => exact returns_createDots
    next => exact returns_done rfl
  refine returns_bind dots fun _ => returns_bind returns_dirlink fun linked => ?_
  split
  next =>
    have unlocked : Returns p (Carries p files others home (i :: dp :: taken) (i :: dp :: held) ops) (iunlockput dp)
        fun _ => Carries p files others home (i :: taken) (i :: held) ops :=
      returns_weaken returns_iunlockput (fun _ _ carries => carries.perm (.swap _ _ _) (.swap _ _ _)) fun _ _ _ => id
    exact returns_then unlocked
  next => exact returns_panic

theorem returns_create {path : Path} {major minor : Int} :
    Returns p (Carries p files others home taken held ops) (create p path type major minor)
      fun made => Carries p files others home (made.toList ++ taken) (made.toList ++ held) ops := by
  refine returns_bind returns_namex fun found => ?_
  cases found with
  | none => exact returns_done rfl
  | some place =>
    refine returns_bind returns_ilock fun _ => returns_bind returns_dirlookup fun entry => ?_
    cases entry with
    | none => exact returns_createNew
    | some entry =>
      refine returns_bind returns_iunlockput_second fun _ => returns_bind returns_ilock fun _ => ?_
      refine returns_bind returns_look fun found => ?_
      split
      next => exact returns_done rfl
      next => exact returns_then returns_iunlockput

theorem returns_readi {off n : Nat} {answer : Answer} :
    Preserves p (Carries p files others home taken (i :: held) ops) (readi i off n answer) := by
  refine returns_bind returns_look fun ip => ?_
  split
  next =>
    split
    next => exact returns_bind returns_iunlock fun _ => returns_then returns_ilock
    next => exact returns_done rfl
  next =>
    split
    next => exact returns_done rfl
    next => exact returns_done rfl

theorem returns_execReads {answer : Answer} {reads : List (Nat × Nat)} :
    Preserves p (Carries p files others home taken (i :: held) ops) (execReads i answer reads) := by
  induction reads with
  | nil => exact returns_done rfl
  | cons first rest ih => exact returns_bind returns_readi fun _ => ih

end Inodes

section Files

variable {A : Type} {p f i ops : Nat} {files : List File} {others : List Proc} {home : Nat}
  {taken taken' held held' : List Nat} {s : State} {locks : Held}

def Settled (p : Nat) (others : List Proc) (home : Nat) (taken held : List Nat) (ops : Nat) (s : State)
    (locks : Held) : Prop :=
  IdleFiles s.core ∧ Carries p s.core.files others home taken held ops s locks

theorem Carries.settled (carries : Carries p files others home taken held ops s locks)
    (idle : ∀ file ∈ files, file.ref = 0 → file.type = .none) : Settled p others home taken held ops s locks := by
  obtain rfl := carries.sameFiles
  exact ⟨idle, carries⟩

theorem returns_settled {ops' : Nat} {x : Code A} {taken' held' : A → List Nat}
    (each : ∀ files, Returns p (Carries p files others home taken held ops) x
      fun a => Carries p files others home (taken' a) (held' a) ops') :
    Returns p (Settled p others home taken held ops) x fun a => Settled p others home (taken' a) (held' a) ops' := by
  rintro s locks a s' locks' ⟨idle, carries⟩ value
  exact (each s.core.files s locks a s' locks' carries value).settled idle

theorem Carries.setFile {file : File} {logged : List LogBlock}
    (carries : Carries p s.core.files others home taken held ops s locks) (bound : f < s.core.files.length)
    (moved : ∀ j, (if file.refersTo j then 1 else 0) + taken'.count j =
      (if (fileAt s.core f).refersTo j then 1 else 0) + taken.count j) :
    Carries p (s.core.setFile f file).files others home taken' held ops
      { s with core := s.core.setFile f file, logged } locks := { carries with
    sameFiles := rfl
    ref := fun j used => by
      have before := carries.ref j used
      have counted := opens_setFile bound file j
      have moved := moved j
      simp only [accounted] at before ⊢
      change s.core.ref j = _
      omega }

def closing : Option File → List Nat
  | none => []
  | some file => if file.type = .inode then [file.ip] else []

theorem returns_dropFile : Returns p (Settled p others home taken held ops) (dropFile f)
    fun last => Settled p others home (closing last ++ taken) held ops := by
  refine returns_change fun s locks ⟨idle, carries⟩ a c' logged value => ?_
  split at value
  next => cases value
  next positive =>
    have bound := fileAt_bound (c := s.core) (f := f) (by omega)
    split at value
    next shared =>
      cases value
      refine ⟨idle.setFile fun zero => ?_, carries.setFile bound fun j => ?_⟩
      · have : (fileAt s.core f).ref - 1 = 0 := zero
        omega
      · have both : 0 < (fileAt s.core f).ref - 1 ∧ 0 < (fileAt s.core f).ref := by omega
        simp [File.refersTo, both, closing]
    next =>
      cases value
      refine ⟨idle.setFile fun _ => rfl, carries.setFile bound fun j => ?_⟩
      have used : 0 < (fileAt s.core f).ref := by omega
      by_cases isInode : (fileAt s.core f).type = .inode
      · simp [File.refersTo, closing, isInode, used, List.count_cons, Nat.add_comm]
      · simp [File.refersTo, closing, isInode]

theorem returns_fileclose : Preserves p (Settled p others home taken held ops) (fileclose f) := by
  refine returns_bind returns_dropFile fun last => ?_
  cases last with
  | none => exact returns_done rfl
  | some file =>
    by_cases isInode : file.type = .inode
    · simp only [closing, isInode, if_true]
      refine returns_settled fun files => ?_
      exact returns_bind returns_beginOp fun _ => returns_bind returns_iput fun _ => returns_endOp
    · simp only [closing, isInode, if_false]
      exact returns_done rfl

theorem returns_filedup : Preserves p (Settled p others home taken held ops) (filedup f) := by
  refine returns_change fun s locks ⟨idle, carries⟩ a c' logged value => ?_
  split at value
  next => cases value
  next positive =>
    cases value
    have used : 0 < (fileAt s.core f).ref := by omega
    refine ⟨idle.setFile fun zero => ?_, carries.setFile (fileAt_bound used) fun j => ?_⟩
    · have : (fileAt s.core f).ref + 1 = 0 := zero
      omega
    · simp [File.refersTo, used]

theorem returns_dupFiles {ofile : List (Option Nat)} : Preserves p (Settled p others home taken held ops)
    (dupFiles ofile) := by
  induction ofile with
  | nil => exact returns_done rfl
  | cons slot rest ih =>
    cases slot with
    | none => exact ih
    | some f => exact returns_bind returns_filedup fun _ => ih

def Unopened (files : List File) (f : Nat) : Prop :=
  ∃ file, files[f]? = some file ∧ 0 < file.ref ∧ file.type = .none

theorem returns_filealloc : Returns p (Settled p others home taken held ops) filealloc
    fun found s locks => ∃ files, ((∀ file ∈ files, file.ref = 0 → file.type = .none) ∧
      ∀ f, found = some f → Unopened files f) ∧ Carries p files others home taken held ops s locks := by
  refine returns_change fun s locks ⟨idle, carries⟩ a c' logged value => ?_
  split at value
  next =>
    cases value
    refine ⟨s.core.files, ⟨idle, fun f found => ?_⟩, { carries with }⟩
    cases found
  next f present =>
    cases value
    obtain ⟨bound, unused, _⟩ := List.findIdx?_eq_some_iff_getElem.mp present
    have unused : (fileAt s.core f).ref = 0 := by simpa [fileAt, bound] using unused
    have noType : (fileAt s.core f).type = .none := idle _ (by simp [fileAt, bound]) unused
    refine ⟨_, ⟨idle.setFile (f := f) fun zero => ?_, fun g found => ?_⟩, carries.setFile bound fun j => ?_⟩
    · cases zero
    · cases found
      exact ⟨{ fileAt s.core f with ref := 1 }, by simp [Core.setFile, bound], Nat.one_pos, noType⟩
    · simp [File.refersTo, noType]

theorem Carries.setOfile {c' : Core} {ofile : List (Option Nat)} {logged : List LogBlock}
    (carries : Carries p files others home taken held ops s locks)
    (value : c' = s.core.setProc p { procAt s.core p with ofile }) :
    Carries p files others home taken held ops { s with core := c', logged } locks := by
  subst value
  exact
    { carries with
      sameOthers := by
        rw [← carries.sameOthers]
        exact List.eraseIdx_set_eq
      known := by simpa [Core.setProc] using carries.known
      atHome := by
        rw [← carries.atHome]
        simp [cwdOf, procAt, Core.setProc, carries.known] }

theorem returns_fdalloc : Preserves p (Carries p files others home taken held ops) (fdalloc p f) := by
  refine returns_change fun s locks carries a c' logged value => ?_
  split at value
  next =>
    cases value
    exact { carries with }
  next =>
    cases value
    exact carries.setOfile rfl

theorem returns_openFail : Returns p (Carries p files others home (i :: taken) (i :: held) (ops + 1)) (openFail i)
    fun _ => Carries p files others home taken held ops := returns_putEnded

theorem returns_openInode {omode : Nat} :
    Returns p (Settled p others home (i :: taken) (i :: held) (ops + 1)) (openInode p i omode)
      fun _ => Settled p others home taken held ops := by
  refine returns_bind returns_filealloc fun found => ?_
  refine returns_exists fun files => returns_given fun ⟨idle, fresh⟩ => ?_
  cases found with
  | none =>
    exact returns_weaken returns_openFail (fun _ _ => id) fun _ _ _ carries => carries.settled idle
  | some f =>
    refine returns_bind returns_fdalloc fun slot => ?_
    cases slot with
    | none =>
      refine returns_bind (returns_weaken returns_fileclose (fun _ _ carries => carries.settled idle)
        fun _ _ _ => id) fun _ => ?_
      exact returns_settled fun files => returns_openFail
    | some fd =>
      refine returns_bind returns_iunlock fun _ => returns_bind returns_endOp fun _ => ?_
      have opening : Returns p (Carries p files others home (i :: taken) held ops)
          (update unlogged fun c => c.setFile f { fileAt c f with
            type := .inode
            ip := i
            off := 0
            readable := decide (omode &&& oWronly = 0)
            writable := decide (omode &&& oWronly ≠ 0 ∨ omode &&& oRdwr ≠ 0) })
          fun _ => Settled p others home taken held ops := by
        refine returns_change fun s locks carries a c' logged value => ?_
        cases value
        obtain rfl := carries.sameFiles
        obtain ⟨file, present, used, noType⟩ := fresh f rfl
        have same : fileAt s.core f = file := by simp [fileAt, present]
        refine ⟨IdleFiles.setFile idle fun zero => ?_, carries.setFile ?_ fun j => ?_⟩
        · have : (fileAt s.core f).ref = 0 := zero
          rw [same] at this
          omega
        · exact (List.getElem?_eq_some_iff.mp present).1
        · simp [same, File.refersTo, noType, used, List.count_cons, Nat.add_comm]
      exact returns_then opening

end Files

section Calls

variable {p i dp ops : Nat} {files : List File} {others : List Proc} {home : Nat} {taken held : List Nat} {s : State}
  {locks : Held} {path : Option Path}

theorem returns_makeNode {type : FileType} {major minor : Int} :
    Preserves p (Carries p files others home taken held ops) (makeNode p path type major minor) := by
  refine returns_bind returns_beginOp fun _ => ?_
  cases path with
  | none => exact returns_ended
  | some path =>
    refine returns_bind returns_create fun made => ?_
    cases made with
    | none => exact returns_ended
    | some i =>
      exact returns_putEnded

theorem returns_linkBad : Returns p (Carries p files others home (i :: taken) held (ops + 1)) (linkBad i)
    fun _ => Carries p files others home taken held ops :=
  returns_bind returns_ilock fun _ => returns_bind returns_addLink fun _ => returns_putEnded

theorem returns_linkEntry {new : Path} :
    Returns p (Carries p files others home (i :: taken) held (ops + 1)) (linkEntry p i new)
      fun _ => Carries p files others home taken held ops := by
  refine returns_bind returns_namex fun found => ?_
  cases found with
  | none => exact returns_linkBad
  | some place =>
    refine returns_bind returns_ilock fun _ => returns_bind returns_dirlink fun linked => ?_
    refine returns_bind returns_iunlockput fun _ => ?_
    split
    next => exact returns_bind returns_iput fun _ => returns_ended
    next => exact returns_linkBad

theorem returns_sysLink {old new : Option Path} :
    Preserves p (Carries p files others home taken held ops) (sysLink p old new) := by
  unfold sysLink
  split
  next old new =>
    refine returns_bind returns_beginOp fun _ => returns_bind returns_namei fun found => ?_
    cases found with
    | none => exact returns_ended
    | some i =>
      refine returns_bind returns_ilock fun _ => returns_bind returns_look fun type => ?_
      split
      next =>
        exact returns_putEnded
      next =>
        exact returns_bind returns_addLink fun _ => returns_bind returns_iunlock fun _ => returns_linkEntry
  next => exact returns_done rfl

theorem returns_unlinkBad :
    Returns p (Carries p files others home (dp :: taken) (dp :: held) (ops + 1)) (unlinkBad dp)
      fun _ => Carries p files others home taken held ops := returns_putEnded

theorem returns_unlinkEntry {off : Nat} :
    Returns p (Carries p files others home (i :: dp :: taken) (i :: dp :: held) (ops + 1)) (unlinkEntry dp i off)
      fun _ => Carries p files others home taken held ops := by
  refine returns_bind returns_look fun ip => ?_
  split
  next => exact returns_panic
  next =>
    split
    next => exact returns_bind returns_iunlockput fun _ => returns_unlinkBad
    next =>
      refine returns_bind (returns_keep fun c a c' value => ?_) fun _ => ?_
      · obtain ⟨c₁, written, equal⟩ := Option.map_eq_some_iff.mp value
        cases equal
        exact writeSlot_tables written
      · have parent : Returns p (Carries p files others home (i :: dp :: taken) (i :: dp :: held) (ops + 1))
            (if ip.type = .dir then addLink dp (-1) else return ())
            fun _ => Carries p files others home (dp :: i :: taken) (dp :: i :: held) (ops + 1) := by
          have swap (s : State) (locks : Held)
              (carries : Carries p files others home (i :: dp :: taken) (i :: dp :: held) (ops + 1) s locks) :
              Carries p files others home (dp :: i :: taken) (dp :: i :: held) (ops + 1) s locks :=
            carries.perm (.swap _ _ _) (.swap _ _ _)
          split
          next => exact returns_weaken returns_addLink (fun _ _ => id) fun _ => swap
          next => exact returns_ret swap
        refine returns_bind parent fun _ => returns_bind returns_iunlockput fun _ => ?_
        refine returns_bind returns_addLink fun _ => ?_
        exact returns_putEnded

theorem returns_sysUnlink : Preserves p (Carries p files others home taken held ops) (sysUnlink p path) := by
  cases path with
  | none => exact returns_done rfl
  | some path =>
    refine returns_bind returns_beginOp fun _ => returns_bind returns_namex fun found => ?_
    cases found with
    | none => exact returns_ended
    | some place =>
      obtain ⟨dp, name⟩ := place
      refine returns_bind returns_ilock fun _ => ?_
      split
      next => exact returns_unlinkBad
      next =>
        refine returns_bind returns_dirlookup fun entry => ?_
        cases entry with
        | none => exact returns_unlinkBad
        | some entry => exact returns_bind returns_ilock fun _ => returns_unlinkEntry

theorem returns_exec {path : Path} {reads : List (Nat × Nat)} {answer : Answer} {loads : Bool} :
    Preserves p (Carries p files others home taken held ops) (exec p path reads answer loads) := by
  refine returns_bind returns_beginOp fun _ => returns_bind returns_namei fun found => ?_
  cases found with
  | none => exact returns_ended
  | some i =>
    refine returns_bind returns_ilock fun _ => returns_bind returns_execReads fun _ => ?_
    exact returns_putEnded

theorem returns_sysOpen {omode : Nat} :
    Preserves p (Settled p others home taken held ops) (sysOpen p path omode) := by
  cases path with
  | none => exact returns_done rfl
  | some path =>
    refine returns_bind (returns_settled fun files => returns_beginOp) fun _ => ?_
    split
    next =>
      refine returns_bind (returns_settled fun files => returns_create) fun made => ?_
      cases made with
      | none => exact returns_then (returns_settled fun files => returns_endOp)
      | some i => exact returns_openInode
    next =>
      refine returns_bind (returns_settled fun files => returns_namei) fun found => ?_
      cases found with
      | none => exact returns_then (returns_settled fun files => returns_endOp)
      | some i =>
        refine returns_bind (returns_settled fun files => returns_ilock) fun _ => ?_
        refine returns_bind (returns_settled fun files => returns_look) fun type => ?_
        split
        next => exact returns_settled fun files => returns_openFail
        next => exact returns_openInode

theorem returns_clearFd {fd : Nat} : Preserves p (Settled p others home taken held ops)
    (update unlogged fun c => c.setProc p { procAt c p with ofile := (procAt c p).ofile.set fd none }) := by
  refine returns_change fun s locks ⟨idle, carries⟩ a c' logged value => ?_
  cases value
  exact ⟨idle, carries.setOfile rfl⟩

theorem returns_sysClose {fd : Int} : Preserves p (Settled p others home taken held ops) (sysClose p fd) := by
  refine returns_bind (returns_settled fun files => returns_look) fun found => ?_
  cases found with
  | none => exact returns_done rfl
  | some f =>
    exact returns_bind returns_clearFd fun _ => returns_then returns_fileclose

theorem returns_closeFiles {fds : List Nat} : Preserves p (Settled p others home taken held ops) (closeFiles p fds) := by
  induction fds with
  | nil => exact returns_done rfl
  | cons fd rest ih =>
    refine returns_bind (returns_settled fun files => returns_look) fun found => ?_
    cases found with
    | none => exact ih
    | some f => exact returns_bind returns_fileclose fun _ => returns_bind returns_clearFd fun _ => ih

def AtRest (p ops : Nat) (s : State) (locks : Held) : Prop :=
  ∃ others home, Settled p others home [home] [] ops s locks

theorem Carries.chdir {logged : List LogBlock} (carries : Carries p files others home taken held ops s locks)
    (cwd : Nat) : Carries p files others cwd taken held ops
      { s with core := s.core.setProc p { procAt s.core p with cwd }, logged } locks := { carries with
    sameOthers := by
      rw [← carries.sameOthers]
      exact List.eraseIdx_set_eq
    known := by simpa [Core.setProc] using carries.known
    atHome := by simp [cwdOf, Core.setProc, carries.known] }

theorem returns_setCwd {cwd : Nat} : Returns p (Settled p others home taken held ops)
    (update unlogged fun c => c.setProc p { procAt c p with cwd }) fun _ => Settled p others cwd taken held ops := by
  refine returns_change fun s locks ⟨idle, carries⟩ a c' logged value => ?_
  cases value
  exact ⟨idle, carries.chdir cwd⟩

theorem returns_cwd : Returns p (Settled p others home taken held ops) (read fun c => cwdOf c p)
    fun cwd s locks => cwd = home ∧ Settled p others home taken held ops s locks := by
  refine returns_atomic fun s locks settled cwd s' value => ?_
  cases value
  exact ⟨settled.2.atHome, settled⟩

theorem returns_sysChdir :
    Returns p (Settled p others home [home] [] ops) (sysChdir p path) fun _ => AtRest p ops := by
  have back {r : Int} : Returns p (Settled p others home [home] [] (ops + 1)) (do endOp; return r)
      fun _ => AtRest p ops := returns_bind (returns_settled fun files => returns_endOp) fun _ =>
      returns_ret fun _ _ settled => ⟨others, home, settled⟩
  refine returns_bind (returns_settled fun files => returns_beginOp) fun _ => ?_
  cases path with
  | none => exact back
  | some path =>
    refine returns_bind (returns_settled fun files => returns_namei) fun found => ?_
    cases found with
    | none => exact back
    | some i =>
      refine returns_bind (returns_settled fun files => returns_ilock) fun _ => ?_
      refine returns_bind (returns_settled fun files => returns_look) fun type => ?_
      split
      next => exact returns_bind (returns_settled fun files => returns_iunlockput) fun _ => back
      next =>
        refine returns_bind (returns_settled fun files => returns_iunlock) fun _ => ?_
        refine returns_bind returns_cwd fun old => returns_given fun home => home ▸ ?_
        have left : Returns p (Settled p others old [i, old] [] (ops + 1)) (iput old)
            fun _ => Settled p others old [i] [] (ops + 1) := returns_settled fun files => returns_weaken returns_iput
            (fun _ _ carries => carries.perm (.swap _ _ _) (.refl _)) fun _ _ _ => id
        refine returns_bind left fun _ => returns_bind (returns_settled fun files => returns_endOp) fun _ => ?_
        refine returns_bind returns_setCwd fun _ => ?_
        exact returns_ret fun _ _ settled => ⟨others, i, settled⟩

theorem returns_exit : Returns p (Settled p others home [home] [] ops) (exit p) fun _ => AtRest p ops := by
  refine returns_bind returns_closeFiles fun _ => ?_
  refine returns_bind (returns_settled fun files => returns_beginOp) fun _ => ?_
  refine returns_bind returns_cwd fun cwd => returns_given fun same => same ▸ ?_
  refine returns_bind (returns_settled fun files => returns_iput) fun _ => ?_
  refine returns_bind (returns_settled fun files => returns_endOp) fun _ => ?_
  refine returns_weaken returns_setCwd (fun _ _ => id) fun _ s locks ⟨idle, carries⟩ => ⟨others, 0, idle, ?_⟩
  exact { carries with ref := fun i used => by simpa [Ne.symm used] using carries.ref i used }

theorem Carries.forked {proc : Proc} {logged : List LogBlock}
    (carries : Carries p files others home [home, home] [] ops s locks) (same : proc.cwd = home) :
    Carries p files (others ++ [proc]) home [home] [] ops
      { s with core := { s.core with procs := s.core.procs ++ [proc] }, logged } locks := { carries with
    sameOthers := by
      rw [← carries.sameOthers]
      exact List.eraseIdx_append_of_lt_length carries.known _
    known := by
      have := carries.known
      simp only [List.length_append]
      omega
    atHome := by
      rw [← carries.atHome]
      simp [cwdOf, List.getElem?_append_left carries.known]
    ref := fun i used => by
      have before := carries.ref i used
      simp only [accounted, List.countP_append, List.countP_singleton, Proc.refersTo, same, List.count_cons,
        beq_iff_eq, decide_eq_true_eq] at before ⊢
      change s.core.ref i = _
      omega }

theorem returns_fork {allocated : Bool} :
    Returns p (Settled p others home [home] [] ops) (fork p allocated) fun _ => AtRest p ops := by
  unfold fork
  split
  next =>
    have own : Returns p (Settled p others home [home] [] ops) (read fun c => procAt c p)
        fun proc s locks => proc.cwd = home ∧ Settled p others home [home] [] ops s locks := by
      refine returns_atomic fun s locks settled proc s' value => ?_
      cases value
      exact ⟨(cwdOf_eq settled.2.known).symm.trans settled.2.atHome, settled⟩
    refine returns_bind own fun proc => returns_given fun same => ?_
    refine returns_bind returns_dupFiles fun _ => ?_
    rw [same]
    refine returns_bind (returns_settled fun files => returns_idup) fun _ => ?_
    refine returns_change fun s locks ⟨idle, carries⟩ a c' logged value => ?_
    cases value
    exact ⟨others ++ [proc], home, idle, carries.forked same⟩
  next => exact returns_ret fun _ _ settled => ⟨others, home, settled⟩

end Calls

section Balance

inductive Syscall where
  | file (call : Call)
  | fork (allocated : Bool)
  | exit
  | exec (path : Path) (reads : List (Nat × Nat)) (answer : Answer) (loads : Bool)

def Syscall.code (p : Nat) : Syscall → Code Int
  | .file call => call.code p
  | .fork allocated => Fs.fork p allocated
  | .exit => do
      Fs.exit p
      return 0
  | .exec path reads answer loads => Fs.exec p path reads answer loads

/-- Every reference is that of a working directory or of an open file. A process that has exited has no working
directory, and inode 0 does not exist. -/
structure Balanced (c : Core) : Prop where
  idle : IdleFiles c
  exact : ∀ i, i ≠ 0 →
    c.ref i = c.procs.countP (fun proc => proc.refersTo i) + c.files.countP fun file => file.refersTo i

variable {p ops : Nat} {s s' : State} {locks : Held}

theorem cwds_erase (known : p < s.core.procs.length) (i : Nat) : s.core.procs.countP (fun proc => proc.refersTo i) =
      (s.core.procs.eraseIdx p).countP (fun proc => proc.refersTo i) + [cwdOf s.core p].count i := by
  rw [← (List.getElem_cons_eraseIdx_perm known).countP_eq]
  simp [List.countP_cons, Proc.refersTo, cwdOf, known, List.count_cons]

theorem Balanced.atRest (balanced : Balanced s.core) (known : p < s.core.procs.length) :
    AtRest p s.outstanding s fun _ => none := by
  refine ⟨_, _, balanced.idle, rfl, rfl, known, rfl, fun i used => ?_, ?_, List.nodup_nil, rfl⟩
  · have exact := balanced.exact i used
    rw [cwds_erase known] at exact
    unfold accounted
    omega
  · simp

theorem AtRest.balanced (atRest : AtRest p ops s locks) :
    Balanced s.core ∧ locks = (fun _ => none) ∧ s.outstanding = ops := by
  obtain ⟨others, home, idle, carries⟩ := atRest
  refine ⟨⟨idle, fun i used => ?_⟩, by simpa using carries.owner, carries.begun⟩
  have exact := carries.ref i used
  rw [cwds_erase carries.known, carries.sameOthers, carries.atHome]
  unfold accounted at exact
  omega

theorem returns_syscall (call : Syscall) : Preserves p (AtRest p ops) (call.code p) := by
  refine returns_exists fun others => returns_exists fun home => ?_
  have atRest {x : Code Int} (returns : Preserves p (Settled p others home [home] [] ops) x) :
      Returns p (Settled p others home [home] [] ops) x fun _ => AtRest p ops :=
    returns_weaken returns (fun _ _ => id) fun _ _ _ settled => ⟨others, home, settled⟩
  cases call with
  | file call =>
    cases call with
    | «open» path omode => exact atRest returns_sysOpen
    | mkdir path | mknod path major minor => exact atRest (returns_settled fun files => returns_makeNode)
    | link old new => exact atRest (returns_settled fun files => returns_sysLink)
    | unlink path => exact atRest (returns_settled fun files => returns_sysUnlink)
    | chdir path => exact returns_sysChdir
    | close fd => exact atRest returns_sysClose
  | fork allocated => exact returns_fork
  | exit => exact returns_then returns_exit
  | exec path reads answer loads => exact atRest (returns_settled fun files => returns_exec)

theorem Syscall.balanced {call : Syscall} {r : Int} (balanced : Balanced s.core) (known : p < s.core.procs.length)
    (completed : run p (call.code p) s (fun _ => none) = .done r s' locks) :
    Balanced s'.core ∧ locks = (fun _ => none) ∧ s'.outstanding = s.outstanding :=
  (returns_syscall call s _ r s' locks (balanced.atRest known) completed).balanced

-- A process makes a call while no other call is in progress.
def complete (step : Nat × Syscall) (s : State) : Option State :=
  if step.1 < s.core.procs.length then
    match run step.1 (step.2.code step.1) s fun _ => none with
    | .done _ s' _ => some s'
    | _ => none
  else none

theorem complete_some {step : Nat × Syscall} (next : complete step s = some s') : step.1 < s.core.procs.length ∧
      ∃ r locks, run step.1 (step.2.code step.1) s (fun _ => none) = .done r s' locks := by
  unfold complete at next
  split at next
  next known =>
    split at next
    next r _ locks value =>
      cases next
      exact ⟨known, r, locks, value⟩
    next => cases next
  next => cases next

theorem references_balance {call : Syscall} {r : Int}
    (reached : Runs.Reachable complete (fun _ _ => True) (fun s => Balanced s.core) s)
    (known : p < s.core.procs.length)
    (completed : run p (call.code p) s (fun _ => none) = .done r s' locks) :
    Balanced s'.core ∧ locks = (fun _ => none) ∧ s'.outstanding = s.outstanding := by
  have balanced : Balanced s.core := by
    refine reached.invariant (fun s => Balanced s.core) (fun _ => id) fun s step s' balanced _ next => ?_
    obtain ⟨known, r, locks, value⟩ := complete_some next
    exact (Syscall.balanced balanced known value).1
  exact Syscall.balanced balanced known completed

/-- A child exits that shares an open file and the working directory with its parent. -/
theorem references_balance_exit : ∃ s s' r locks, run 1 (Syscall.exit.code 1) s (fun _ => none) = .done r s' locks ∧
      (s'.core.ref 2, s'.core.ref 3) = (1, 1) ∧ Balanced s'.core ∧ locks = (fun _ => none) ∧
      s'.outstanding = s.outstanding := by
  have runs : ((Runs.run complete [(0, .file (.open (some ['/', 'f']) 0)), (0, .fork true)] sampleState).bind
      (complete (1, .exit))).map (fun s => (s.core.ref 2, s.core.ref 3)) = some (1, 1) := by decide +kernel
  obtain ⟨s', whole, refs⟩ := Option.map_eq_some_iff.mp runs
  obtain ⟨s, first, last⟩ := Option.bind_eq_some_iff.mp whole
  obtain ⟨known, r, locks, value⟩ := complete_some last
  have start : Balanced sampleState.core := ⟨sample_consistent.idle, fun i _ => sample_consistent.accounted i⟩
  have begins : Runs.Reachable complete (fun _ _ => True) (fun s => Balanced s.core) sampleState := .start start
  have reached := Runs.reachable_run begins _ first
  exact ⟨s, s', r, locks, value, refs, references_balance reached known value⟩

end Balance

end Xv6.Fs
