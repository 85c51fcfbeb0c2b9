import Xv6.Fs.Copy
import Xv6.Fs.LockOrder

set_option autoImplicit false

namespace Xv6.Fs

open Threads

namespace Holding

def take (h : Holding) (i : Nat) : Holding := { h with refs := i ::ₘ h.refs }

-- With the reference that a lookup returned.
def reach (h : Holding) (found : Option Nat) : Holding := { h with refs := taken h.refs found }

def unlocked (h : Holding) : Local := { toHolding := h }

def lock (h : Holding) (i : Nat) : Local := { toHolding := h, held := [i], typed := [i] }

def lockDir (h : Holding) (d : Nat) : Local := { toHolding := h, held := [d], typed := [d], dirs := [d] }

def lockAbove (h : Holding) (d x : Nat) : Local :=
  { toHolding := h, held := [d], typed := [d], dirs := [d], above := [(d, x)] }

-- The parent first, then the child.
def lockBoth (h : Holding) (d x : Nat) : Local :=
  { toHolding := h, held := [x, d], typed := [x, d], dirs := [d], above := [(d, x)] }

end Holding

section Shapes

variable {p i d x : Nat} {h : Holding} {w : Kernel}

theorem Knows.ofDir (knows : Knows p (h.lockDir d) w) : Knows p (h.lock d) w :=
  knows.forget rfl ⟨by simp [Holding.lock], fun _ => id, by simp [Holding.lock], by simp [Holding.lock]⟩
    (fun _ => Iff.rfl) (fun _ => id) (by simp [Holding.lock]) (by simp [Holding.lock])

theorem Knows.ofAbove (knows : Knows p (h.lockAbove d x) w) : Knows p (h.lockDir d) w :=
  knows.forget rfl ⟨by simp [Holding.lockDir], fun _ => id, fun _ => id, by simp [Holding.lockDir]⟩
    (fun _ => Iff.rfl) (fun _ => id) (fun _ => id) (by simp [Holding.lockDir])

theorem Knows.swap (knows : Knows p ((h.take i).take x).unlocked w) : Knows p ((h.take x).take i).unlocked w := by
  have same : (h.take i).take x = (h.take x).take i := by
    simp [Holding.take, Multiset.cons_swap]
  rwa [same] at knows

theorem Knows.found {name : Name} {off : Nat}
    (knows : Knows p { (h.lock d).seeing d name (some (x, off)) with refs := x ::ₘ h.refs } w) :
    Knows p ((h.take x).lock d) w :=
  knows.forget rfl ⟨by simp [Holding.lock], fun _ => id, by simp [Holding.lock], by simp [Holding.lock]⟩
    (fun _ => Iff.rfl) (fun _ => id) (by simp [Holding.lock]) (by simp [Holding.lock])

theorem Knows.foundBelow {name : Name} {off : Nat} (notDots : ¬(name = dot ∨ name = dotdot))
    (knows : Knows p { (h.lock d).seeing d name (some (x, off)) with refs := x ::ₘ h.refs } w) :
    Knows p ((h.take x).lockAbove d x) w := by
  simp only [Local.seeing, notDots, if_false] at knows
  exact knows

theorem drops_lock : Drops i (h.lock i) h.unlocked :=
  ⟨rfl, rfl, rfl, by simp [Holding.unlocked], by simp [Holding.unlocked, Holding.lock], by simp [Holding.unlocked],
    by simp [Holding.unlocked], by simp [Holding.unlocked]⟩

theorem drops_child (nodup : (h.lockBoth d x).held.Nodup) : Drops x (h.lockBoth d x) (h.lockAbove d x) := by
  have apart : d ≠ x := by
    rintro rfl
    simp [Holding.lockBoth] at nodup
  constructor <;> simp [Holding.lockBoth, Holding.lockAbove, apart]
  grind

theorem drops_parent (nodup : (h.lockBoth d x).held.Nodup) : Drops d (h.lockBoth d x) (h.lock x) := by
  have apart : x ≠ d := by
    rintro rfl
    simp [Holding.lockBoth] at nodup
  constructor <;> simp [Holding.lockBoth, Holding.lock, apart]
  grind

theorem keeps_lockFirst : Does p h.unlocked (ilock i) fun _ => Knows p (h.lock i) :=
  keeps_ilock fun _ held => by cases held

theorem keeps_lockChild : Does p (h.lockAbove d x) (ilock x) fun _ => Knows p (h.lockBoth d x) :=
  keeps_ilock fun _ held => by simpa [Holding.lockAbove] using held

theorem keeps_unlockLast : Does p (h.lock i) (iunlock i) fun _ => Knows p h.unlocked :=
  keeps_iunlock fun _ => drops_lock

theorem keeps_putLast : Does p ((h.take i).lock i) (iunlockput i) fun _ => Knows p h.unlocked :=
  keeps_iunlockput fun _ => drops_lock

end Shapes

section Paths

variable {A : Type} {p i : Nat} {h : Holding}

theorem keeps_readAny {f : Core → A} {l : Local} : Spares p l (read f) := keeps_read fun _ _ => id

theorem keeps_namexLoop {parent : Bool} {names : List Name} {ip : Nat} :
    Does p (h.take ip).unlocked (namexLoop parent ip names) fun found =>
      Knows p (h.reach (found.map Prod.fst)).unlocked := by
  induction names generalizing ip with
  | nil =>
    unfold namexLoop
    by_cases isParent : parent = true
    · rw [if_pos isParent]
      exact keeps_then (keeps_iput (l := h.unlocked))
    · rw [if_neg isParent]
      exact keeps_done rfl
  | cons name rest ih =>
    unfold namexLoop
    refine keeps_bind keeps_lockFirst fun _ => keeps_bind keeps_readAny fun type => ?_
    have giveUp : Does p ((h.take ip).lock ip) (do iunlockput ip; return none) fun found =>
        Knows p (h.reach ((found : Option (Nat × Name)).map Prod.fst)).unlocked := keeps_then keeps_putLast
    by_cases notDir : type ≠ .dir
    · rw [if_pos notDir]
      exact giveUp
    rw [if_neg notDir]
    by_cases last : parent ∧ rest = []
    · rw [if_pos last]
      exact keeps_then keeps_unlockLast
    rw [if_neg last]
    refine keeps_bind (keeps_dirlookup List.mem_cons_self) fun found => ?_
    cases found with
    | none => exact keeps_pre giveUp fun _ _ knows => knows.ofDir
    | some pair =>
      refine keeps_pre ?_ fun _ _ knows => knows.found
      refine keeps_bind (keeps_bind keeps_unlockLast fun _ => ?_) fun _ => ih
      exact keeps_pre keeps_iput fun _ _ knows => knows.swap

theorem keeps_namex {path : Path} {parent : Bool} : Does p h.unlocked (namex p path parent) fun found =>
      Knows p (h.reach (found.map Prod.fst)).unlocked := by
  unfold namex
  split
  · exact keeps_bind keeps_iget fun _ => keeps_namexLoop
  · exact keeps_bind keeps_readAny fun _ => keeps_bind keeps_idup fun _ => keeps_namexLoop

theorem keeps_namei {path : Path} : Does p h.unlocked (namei p path) fun found =>
    Knows p (h.reach found).unlocked := keeps_bind keeps_namex fun _ => keeps_done rfl

theorem keeps_nameiparent {path : Path} : Does p h.unlocked (nameiparent p path) fun found =>
    Knows p (h.reach (found.map Prod.fst)).unlocked := keeps_namex

end Paths

section Files

variable {A : Type} {p i f : Nat} {h : Holding} {l : Local}

theorem openRefs_setFile {c : Core} {file : File} (j : Nat) :
    openRefs (c.setFile f file) j + (if (fileAt c f).type = .inode ∧ (fileAt c f).ip = j then 1 else 0) ≤
      openRefs c j + if file.type = .inode ∧ file.ip = j then 1 else 0 := by
  cases present : c.files[f]? with
  | none =>
    have same : c.files.set f file = c.files := List.set_eq_of_length_le (List.getElem?_eq_none_iff.mp present)
    simp [openRefs, Core.setFile, same, fileAt, present, emptyFile]
  | some old =>
    have change := countP_set (a := file) (fun file => decide (file.type = .inode ∧ file.ip = j)) present
    simp only [decide_eq_true_eq] at change
    simp only [openRefs, Core.setFile, fileAt, present, Option.getD_some]
    omega

theorem setFile_quiet {g : File → File} (type : ∀ file, (g file).type = file.type)
    (ip : ∀ file, (g file).ip = file.ip) (c : Core) : Quiet c (c.setFile f (g (fileAt c f))) := by
  refine ⟨rfl, rfl, rfl, fun _ => Or.inl, fun j => ?_, fun _ => rfl, rfl⟩
  have := @openRefs_setFile f c (g (fileAt c f)) j
  simp only [type, ip] at this
  omega

theorem setProc_quiet {c : Core} {ofile : List (Option Nat)} : Quiet c (c.setProc p { procAt c p with ofile }) := by
  refine ⟨rfl, rfl, rfl, fun _ => Or.inl, fun j => le_rfl, fun q => ?_, by simp [Core.setProc]⟩
  by_cases same : q = p
  · subst same
    by_cases known : q < c.procs.length
    · simp [cwdOf, Core.setProc, procAt, known]
    · simp [cwdOf, Core.setProc, known]
  · simp [cwdOf, Core.setProc, List.getElem?_set_ne (Ne.symm same)]

theorem keeps_filealloc : Spares p l filealloc := by
  refine keeps_quiet fun c a c' value => ?_
  split at value
  · cases value
    exact Quiet.refl c
  next f _ =>
    cases value
    exact @setFile_quiet f (fun file => { file with ref := 1 }) (fun _ => rfl) (fun _ => rfl) c

theorem keeps_fdalloc : Spares p l (fdalloc p f) := by
  refine keeps_quiet fun c a c' value => ?_
  split at value
  · cases value
    exact Quiet.refl c
  · cases value
    exact setProc_quiet

theorem keeps_advance {n : Nat} : Spares p l (advance f n) := by
  unfold advance update
  refine keeps_quiet fun c a c' value => ?_
  cases value
  exact @setFile_quiet f (fun file => { file with off := file.off + n }) (fun _ => rfl) (fun _ => rfl) c

def givenBack : Option File → Option Nat
  | none => none
  | some file => if file.type = .inode then some file.ip else none

theorem keeps_dropFile : Does p l (dropFile f) fun file =>
    Knows p { l with refs := taken l.refs (givenBack file) } := by
  refine keeps_moves (fun file => taken l.refs (givenBack file)) l.cwd fun c _ here a c' value => ?_
  split at value
  · cases value
  split at value
  · cases value
    exact ⟨(@setFile_quiet f (fun file => { file with ref := file.ref - 1 }) (fun _ => rfl) (fun _ => rfl) c).moves _,
      here⟩
  · cases value
    refine ⟨⟨rfl, rfl, fun _ => Or.inl, rfl, fun _ _ => rfl, fun j => ?_⟩, here⟩
    have := @openRefs_setFile f c { fileAt c f with ref := 0, type := .none } j
    simp only [reduceCtorEq, false_and, if_false] at this
    change _ + _ + c.ref j ≤ _ + _ + c.ref j
    by_cases isInode : (fileAt c f).type = .inode
    · simp only [givenBack, isInode, taken, if_true, Multiset.count_cons, true_and, eq_comm] at this ⊢
      omega
    · simp only [givenBack, isInode, taken, if_false] at this ⊢
      omega

theorem keeps_fileclose : Spares p l (fileclose f) := by
  refine keeps_bind keeps_dropFile fun file => ?_
  cases file with
  | none => exact keeps_done rfl
  | some file =>
    by_cases isInode : file.type = .inode
    · simp only [givenBack, isInode, if_true, taken]
      exact keeps_bind keeps_beginOp fun _ => keeps_bind keeps_iput fun _ => keeps_endOp
    · simp only [givenBack, isInode, if_false, taken]
      exact keeps_done rfl

end Files

section Content

variable {p i f : Nat} {h : Holding}

theorem keeps_relock {A : Type} {a : A} : Spares p (h.lock i) (do iunlock i; ilock i; return a) :=
  keeps_bind keeps_unlockLast fun _ => keeps_then keeps_lockFirst

theorem keeps_readi {off n : Nat} {answer : Answer} : Spares p (h.lock i) (readi i off n answer) := by
  refine keeps_bind keeps_readAny fun ip => ?_
  split
  · split
    · exact keeps_relock
    · exact keeps_done rfl
  · split
    · exact keeps_done rfl
    · exact keeps_done rfl

theorem keeps_writei {off : Nat} {bytes : List UInt8} : Spares p (h.lock i) (writei i off bytes) := by
  refine keeps_bind keeps_readAny fun ip => ?_
  split
  · split
    · exact keeps_relock
    · exact keeps_done rfl
  split
  · exact keeps_done rfl
  split
  · exact keeps_done rfl
  refine keeps_then (keeps_edits List.mem_cons_self fun w inv knows a c' value => ?_)
  obtain ⟨e, written, same⟩ := Option.map_eq_some_iff.mp value
  cases same
  simp only [writeBytes] at written
  split at written
  · cases written
  cases written
  refine ⟨rfl, fun j away => ?_, ?_, fun entry present => Or.inl ?_, rfl, rfl, rfl, rfl⟩
  · simp [Core.setInode, away]
  · simp [Core.setInode]
  · simpa [Core.setInode] using present

theorem keeps_fileread {n : Nat} {answer : Answer} : Spares p h.unlocked (fileread f n answer) := by
  refine keeps_bind keeps_readAny fun file => ?_
  split
  · exact keeps_done rfl
  split
  · refine keeps_bind keeps_lockFirst fun _ => keeps_bind keeps_readAny fun off => keeps_bind keeps_readi fun bytes => ?_
    cases bytes with
    | none => exact keeps_then keeps_unlockLast
    | some bytes =>
      exact keeps_bind keeps_advance fun _ => keeps_then keeps_unlockLast
  · exact keeps_panic

theorem keeps_writeChunk {chunk : List UInt8} : Spares p h.unlocked (writeChunk f i chunk) :=
  keeps_bind keeps_beginOp fun _ => keeps_bind keeps_lockFirst fun _ => keeps_bind keeps_readAny fun _ =>
    keeps_bind keeps_writei fun _ => keeps_bind keeps_advance fun _ => keeps_bind keeps_unlockLast fun _ =>
      keeps_then keeps_endOp

theorem keeps_filewriteLoop {chunks : List (List UInt8)} : Spares p h.unlocked (filewriteLoop f i chunks) := by
  induction chunks with
  | nil => exact keeps_done rfl
  | cons chunk rest ih =>
    refine keeps_bind keeps_writeChunk fun r => ?_
    split
    · exact keeps_done rfl
    split
    · exact keeps_panic
    · exact ih

theorem keeps_filewrite {bytes : List UInt8} : Spares p h.unlocked (filewrite f bytes) := by
  refine keeps_bind keeps_readAny fun file => ?_
  split
  · exact keeps_done rfl
  split
  · exact keeps_bind keeps_filewriteLoop fun _ => keeps_done rfl
  · exact keeps_panic

end Content

section Calls

variable {p i d : Nat} {name : Name} {h : Holding} {answer : Answer} {path : Option Path} {type : FileType}

theorem keeps_sysRead {fd : Int} {n : Nat} : Spares p h.unlocked (sysRead p fd n answer) := by
  refine keeps_bind keeps_readAny fun file => ?_
  cases file with
  | none => exact keeps_done rfl
  | some f => exact keeps_bind keeps_fileread fun _ => keeps_done rfl

theorem keeps_sysWrite {fd : Int} {bytes : List UInt8} : Spares p h.unlocked (sysWrite p fd bytes) := by
  refine keeps_bind keeps_readAny fun file => ?_
  cases file with
  | none => exact keeps_done rfl
  | some f => exact keeps_filewrite

theorem keeps_sysClose {fd : Int} : Spares p h.unlocked (sysClose p fd) := by
  refine keeps_bind keeps_readAny fun file => ?_
  cases file with
  | none => exact keeps_done rfl
  | some f =>
    have forgotten : Spares p h.unlocked (update unlogged fun c =>
        c.setProc p { procAt c p with ofile := (procAt c p).ofile.set fd.toNat none }) := by
      unfold update
      refine keeps_quiet fun c a c' value => ?_
      cases value
      exact setProc_quiet
    exact keeps_bind forgotten fun _ => keeps_then keeps_fileclose

theorem keeps_fail {l : Local} {r : Int} : Spares p l (do endOp; return r) := keeps_then keeps_endOp

theorem Knows.ofPlain {w : Kernel} (knows : Knows p { h with plain := {i} }.unlocked w) (none : h.plain = 0) :
    Knows p (h.take i).unlocked w := by
  refine { knows with own := ?_, plain := ?_ }
  · rw [knows.own]
    simp only [Holding.unlocked, Holding.take, none, add_zero]
    rw [add_comm, Multiset.singleton_add]
  · simp [Holding.unlocked, Holding.take, none]

theorem Knows.toPlain {w : Kernel} (knows : Knows p ((h.take i).lock i) w) (none : h.plain = 0)
    (notDir : (inodeOf w i).type ≠ .dir) : Knows p ({ h with plain := {i} }.lock i) w := by
  refine { knows with own := ?_, plain := fun j plain => ?_ }
  · rw [knows.own]
    simp only [Holding.lock, Holding.take, none, add_zero]
    rw [add_comm, Multiset.singleton_add]
  · cases Multiset.mem_singleton.mp plain
    exact ⟨(knows.typed i List.mem_cons_self).2, notDir⟩

theorem keeps_linkBad : Does p (h.take i).unlocked (linkBad i) fun _ => Knows p h.unlocked :=
  keeps_bind keeps_lockFirst fun _ => keeps_bind (keeps_addLink List.mem_cons_self) fun _ =>
    keeps_bind keeps_putLast fun _ => keeps_fail

theorem keeps_linkEntry {new : Path} (none : h.plain = 0) :
    Does p { h with plain := {i} }.unlocked (linkEntry p i new) fun _ => Knows p h.unlocked := by
  have back : ∀ w, Ordered w → Knows p { h with plain := {i} }.unlocked w → Knows p (h.take i).unlocked w :=
    fun w _ knows => knows.ofPlain none
  refine keeps_bind keeps_nameiparent fun found => ?_
  cases found with
  | none => exact keeps_pre keeps_linkBad back
  | some pair =>
    refine keeps_bind keeps_lockFirst fun _ => ?_
    refine keeps_bind (keeps_dirlink List.mem_cons_self (Or.inr (Or.inr (Or.inr (Multiset.mem_singleton_self i)))))
      fun linked => ?_
    refine keeps_bind (keeps_putLast (h := { h with plain := {i} })) fun _ => ?_
    cases linked with
    | false => exact keeps_pre keeps_linkBad back
    | true => exact keeps_pre (keeps_bind keeps_iput fun _ => keeps_fail) back

theorem keeps_sysLink {old new : Option Path} (none : h.plain = 0) : Spares p h.unlocked (sysLink p old new) := by
  cases old with
  | none => exact keeps_done rfl
  | some old =>
    cases new with
    | none => exact keeps_done rfl
    | some new =>
      refine keeps_bind keeps_beginOp fun _ => keeps_bind keeps_namei fun found => ?_
      cases found with
      | none => exact keeps_fail
      | some i =>
        have look : Does p ((h.take i).lock i) (read fun c => (c.inodes i).type)
            fun type w => Knows p ((h.take i).lock i) w ∧
              (type ≠ .dir → Knows p ({ h with plain := {i} }.lock i) w) :=
          keeps_read fun w _ knows => ⟨knows, knows.toPlain none⟩
        refine keeps_bind keeps_lockFirst fun _ => keeps_bind look fun type => ?_
        split
        · exact keeps_pre (keeps_bind keeps_putLast fun _ => keeps_fail) fun _ _ knows => knows.1
        next notDir =>
          refine keeps_pre (keeps_bind (keeps_addLink List.mem_cons_self) fun _ =>
            keeps_bind keeps_unlockLast fun _ => keeps_linkEntry none) fun _ _ knows => knows.2 notDir

theorem keeps_unlinkBad : Does p ((h.take d).lock d) (unlinkBad d) fun _ => Knows p h.unlocked :=
  keeps_bind keeps_putLast fun _ => keeps_fail

theorem keeps_putChild : Does p ((h.take i).lockBoth d i) (iunlockput i) fun _ =>
    Knows p (h.lockAbove d i) := keeps_iunlockput drops_child

theorem keeps_putParent : Does p ((h.take d).lockBoth d i) (iunlockput d) fun _ =>
    Knows p (h.lock i) := keeps_iunlockput drops_parent

theorem Knows.swapBoth {w : Kernel} (knows : Knows p (((h.take d).take i).lockBoth d i) w) :
    Knows p (((h.take i).take d).lockBoth d i) w := by
  have same : (h.take d).take i = (h.take i).take d := by
    simp [Holding.take, Multiset.cons_swap]
  rwa [same] at knows

theorem keeps_unlinkEntry {off : Nat} : Does p (((h.take d).take i).lockBoth d i) (unlinkEntry d i off) fun _ =>
      Knows p h.unlocked := by
  have parent : d ∈ (((h.take d).take i).lockBoth d i).held := by simp [Holding.lockBoth]
  refine keeps_bind keeps_readAny fun ip => ?_
  split
  · exact keeps_panic
  split
  · exact keeps_bind keeps_putChild fun _ => keeps_pre keeps_unlinkBad fun _ _ knows => knows.ofAbove.ofDir
  refine keeps_bind (keeps_clearSlot parent) fun _ => ?_
  have unlinked : Spares p (((h.take d).take i).lockBoth d i)
      (if ip.type = .dir then addLink d (-1) else return ()) := by
    split
    · exact keeps_addLink parent
    · exact keeps_done rfl
  refine keeps_bind unlinked fun _ => keeps_pre ?_ fun _ _ knows => knows.swapBoth
  exact keeps_bind keeps_putParent fun _ => keeps_bind (keeps_addLink List.mem_cons_self) fun _ =>
    keeps_bind keeps_putLast fun _ => keeps_fail

theorem keeps_sysUnlink : Spares p h.unlocked (sysUnlink p path) := by
  cases path with
  | none => exact keeps_done rfl
  | some path =>
    refine keeps_bind keeps_beginOp fun _ => keeps_bind keeps_nameiparent fun found => ?_
    cases found with
    | none => exact keeps_fail
    | some pair =>
      refine keeps_bind keeps_lockFirst fun _ => ?_
      split
      · exact keeps_unlinkBad
      next notDots =>
        refine keeps_bind (keeps_dirlookup List.mem_cons_self) fun entry => ?_
        cases entry with
        | none => exact keeps_pre keeps_unlinkBad fun _ _ knows => knows.ofDir
        | some entry =>
          exact keeps_pre (keeps_bind keeps_lockChild fun _ => keeps_unlinkEntry) fun _ _ knows =>
            knows.foundBelow notDots

theorem keeps_createDots {l : Local} (parent : d ∈ l.held) (child : i ∈ l.held) : Spares p l (createDots d i) := by
  refine keeps_bind (keeps_addLink parent) fun _ => keeps_bind (keeps_dirlink child (Or.inl rfl)) fun first => ?_
  split
  · refine keeps_bind (keeps_dirlink child (Or.inr (Or.inl rfl))) fun second => ?_
    split
    · exact keeps_done rfl
    · exact keeps_panic
  · exact keeps_panic

def Holding.created (h : Holding) : Option Nat → Local
  | none => h.unlocked
  | some i => (h.take i).lock i

theorem keeps_createNew {major minor : Int} :
    Does p ((h.take d).lockDir d) (createNew d name type major minor) fun made =>
      Knows p (h.created made) := by
  refine keeps_bind keeps_ialloc fun i => ?_
  refine keeps_bind (keeps_lockChild (h := (h.take d).take i)) fun _ => ?_
  have parent : d ∈ (((h.take d).take i).lockBoth d i).held := by simp [Holding.lockBoth]
  have child : i ∈ (((h.take d).take i).lockBoth d i).held := List.mem_cons_self
  refine keeps_bind (keeps_initInode child) fun _ => ?_
  have dots : Spares p (((h.take d).take i).lockBoth d i)
      (if type = .dir then createDots d i else return ()) := by
    split
    · exact keeps_createDots parent child
    · exact keeps_done rfl
  refine keeps_bind dots fun _ => keeps_bind (keeps_dirlink parent ?_) fun linked => ?_
  · exact Or.inr (Or.inr (Or.inl ⟨by simp [Holding.lockBoth], List.mem_cons_self⟩))
  split
  · exact keeps_pre (keeps_then keeps_putParent) fun _ _ knows => knows.swapBoth
  · exact keeps_panic

theorem keeps_create {path : Path} {major minor : Int} :
    Does p h.unlocked (create p path type major minor) fun made =>
      Knows p (h.created made) := by
  refine keeps_bind keeps_nameiparent fun found => ?_
  cases found with
  | none => exact keeps_done rfl
  | some pair =>
    refine keeps_bind keeps_lockFirst fun _ => keeps_bind (keeps_dirlookup List.mem_cons_self) fun entry => ?_
    cases entry with
    | none => exact keeps_createNew
    | some entry =>
      refine keeps_pre (keeps_bind (keeps_bind keeps_unlockLast fun _ =>
        keeps_pre (keeps_iput (l := (h.take entry.1).unlocked)) fun _ _ knows => knows.swap) fun _ => ?_) fun _ _ knows => knows.found
      refine keeps_bind keeps_lockFirst fun _ => keeps_bind keeps_readAny fun type => ?_
      split
      · exact keeps_done rfl
      · exact keeps_then keeps_putLast

theorem keeps_openFail : Does p ((h.take i).lock i) (openFail i) fun _ => Knows p h.unlocked :=
  keeps_bind keeps_putLast fun _ => keeps_fail

theorem keeps_openInode {omode : Nat} :
    Does p ((h.take i).lock i) (openInode p i omode) fun _ => Knows p h.unlocked := by
  refine keeps_bind keeps_filealloc fun file => ?_
  cases file with
  | none => exact keeps_openFail
  | some f =>
    refine keeps_bind keeps_fdalloc fun fd => ?_
    cases fd with
    | none => exact keeps_bind keeps_fileclose fun _ => keeps_openFail
    | some fd =>
      refine keeps_bind keeps_unlockLast fun _ => keeps_bind keeps_endOp fun _ => keeps_bind ?_ fun _ =>
        keeps_done rfl
      unfold update
      refine keeps_moves (fun _ => h.refs) h.cwd fun c _ here a c' value => ?_
      cases value
      refine ⟨⟨rfl, rfl, fun _ => Or.inl, rfl, fun _ _ => rfl, fun j => ?_⟩, here⟩
      have := @openRefs_setFile f c { fileAt c f with
        type := .inode
        ip := i
        off := 0
        readable := decide (omode &&& oWronly = 0)
        writable := decide (omode &&& oWronly ≠ 0 ∨ omode &&& oRdwr ≠ 0) } j
      simp only [Holding.unlocked, Holding.take, Multiset.count_cons, true_and, @eq_comm _ j i] at this ⊢
      change _ + _ + c.ref j ≤ _ + _ + c.ref j
      omega

theorem keeps_sysOpen {omode : Nat} : Spares p h.unlocked (sysOpen p path omode) := by
  cases path with
  | none => exact keeps_done rfl
  | some path =>
    refine keeps_bind keeps_beginOp fun _ => ?_
    split
    · refine keeps_bind keeps_create fun made => ?_
      cases made with
      | none => exact keeps_fail
      | some i => exact keeps_openInode
    · refine keeps_bind keeps_namei fun found => ?_
      cases found with
      | none => exact keeps_fail
      | some i =>
        refine keeps_bind keeps_lockFirst fun _ => keeps_bind keeps_readAny fun type => ?_
        split
        · exact keeps_openFail
        · exact keeps_openInode

theorem keeps_makeNode {major minor : Int} : Spares p h.unlocked (makeNode p path type major minor) := by
  refine keeps_bind keeps_beginOp fun _ => ?_
  cases path with
  | none => exact keeps_fail
  | some path =>
    refine keeps_bind keeps_create fun made => ?_
    cases made with
    | none => exact keeps_fail
    | some i => exact keeps_bind keeps_putLast fun _ => keeps_fail

def atRest (cwd : Nat) : Holding := { refs := {cwd}, cwd }

theorem keeps_sysChdir {cwd : Nat} : Does p (atRest cwd).unlocked (sysChdir p path) fun _ w =>
      ∃ cwd', Knows p (atRest cwd').unlocked w := by
  have stay {a : Int} : Does p (atRest cwd).unlocked (do endOp; return a) fun _ w =>
      ∃ cwd', Knows p (atRest cwd').unlocked w :=
    keeps_bind keeps_endOp fun _ => keeps_ret fun _ _ knows => ⟨cwd, knows⟩
  refine keeps_bind keeps_beginOp fun _ => ?_
  cases path with
  | none => exact stay
  | some path =>
    refine keeps_bind keeps_namei fun found => ?_
    cases found with
    | none => exact stay
    | some i =>
      refine keeps_bind keeps_lockFirst fun _ => keeps_bind keeps_readAny fun type => ?_
      split
      · exact keeps_bind (keeps_putLast (h := atRest cwd)) fun _ => stay
      have old : Does p ((atRest cwd).take i).unlocked (read fun c => cwdOf c p) fun a w =>
          a = cwd ∧ Knows p ((atRest cwd).take i).unlocked w := keeps_read fun w _ knows => ⟨knows.cwd, knows⟩
      refine keeps_bind keeps_unlockLast fun _ => keeps_bind old fun a => keeps_fact fun same => ?_
      subst same
      have put : Does p ((atRest a).take i).unlocked (iput a) fun _ =>
          Knows p ({ refs := {i}, cwd := a } : Holding).unlocked := keeps_pre keeps_iput fun w _ knows => by
          have same : (atRest a).take i = { refs := a ::ₘ {i}, cwd := a } :=
            congrArg (fun refs => ({ refs, cwd := a } : Holding)) (Multiset.pair_comm i a)
          rwa [same] at knows
      refine keeps_bind put fun _ => keeps_bind keeps_endOp fun _ => keeps_bind ?_ fun _ =>
        keeps_ret fun _ _ knows => ⟨i, knows⟩
      unfold update
      refine keeps_moves (fun _ => {i}) i fun c known _ _ c' value => ?_
      cases value
      refine ⟨⟨rfl, rfl, fun _ => Or.inl, by simp [Core.setProc], fun q away => ?_, fun _ => le_rfl⟩, ?_⟩
      · simp [cwdOf, Core.setProc, List.getElem?_set_ne (Ne.symm away)]
      · simp [cwdOf, Core.setProc, known]

theorem keeps_execReads {reads : List (Nat × Nat)} : Spares p (h.lock i) (execReads i answer reads) := by
  induction reads with
  | nil => exact keeps_done rfl
  | cons range rest ih => exact keeps_bind keeps_readi fun _ => ih

theorem keeps_exec {path : Path} {reads : List (Nat × Nat)} {loads : Bool} :
    Spares p h.unlocked (exec p path reads answer loads) := by
  refine keeps_bind keeps_beginOp fun _ => keeps_bind keeps_namei fun found => ?_
  cases found with
  | none => exact keeps_fail
  | some i =>
    exact keeps_bind keeps_lockFirst fun _ => keeps_bind keeps_execReads fun _ =>
      keeps_bind keeps_putLast fun _ => keeps_fail

end Calls

section Depth

variable {c : Core} {d x k m : Nat}

inductive Depth (c : Core) : Nat → Nat → Prop where
  | root : Depth c rootIno 0
  | entry {d x k : Nat} (above : Depth c d k) (used : x ≠ 0) (named : 0 < (c.inodes d).names x) : Depth c x (k + 1)

theorem Descends.depth (below : Descends c d) : ∃ k, Depth c d k := by
  induction below with
  | root => exact ⟨0, .root⟩
  | entry _ used named ih =>
    obtain ⟨k, depth⟩ := ih
    exact ⟨k + 1, .entry depth used named⟩

theorem Depth.unique (tree : Tree c) (isDir : (c.inodes x).type = .dir) (first : Depth c x k)
    (second : Depth c x m) : k = m := by
  induction first generalizing m with
  | root =>
    cases second with
    | root => rfl
    | entry _ _ named => exact absurd rfl (tree.ne_root (tree.links_pos named))
  | @entry d x k above used named ih =>
    cases second with
    | root => exact absurd rfl (tree.ne_root (tree.links_pos named))
    | @entry d' _ m above' _ named' =>
      have same : d = d' := (tree.up_of_names isDir named).symm.trans (tree.up_of_names isDir named')
      subst same
      rw [ih (names_isDir named) above']

open Classical in
noncomputable def depthOf (c : Core) (i : Nat) : Nat :=
  if reached : i < c.ninodes ∧ ∃ k, Depth c i k then reached.2.choose else 0

theorem depthOf_eq (tree : Tree c) (isDir : (c.inodes x).type = .dir) (depth : Depth c x k) : depthOf c x = k := by
  have reached : x < c.ninodes ∧ ∃ k, Depth c x k := ⟨(tree.dirBound isDir).2, k, depth⟩
  rw [depthOf, dif_pos reached]
  exact Depth.unique tree isDir reached.2.choose_spec depth

theorem Counted.depth_lt (counted : Counted c) (isDir : (c.inodes x).type = .dir) (used : x ≠ 0)
    (named : 0 < (c.inodes d).names x) : depthOf c d < depthOf c x := by
  have attached : Attached c d := by
    by_contra detached
    rw [counted.bare d detached x used] at named
    exact Nat.lt_irrefl 0 named
  obtain ⟨k, depth⟩ := (counted.descends d attached).depth
  rw [depthOf_eq counted.tree attached.1 depth, depthOf_eq counted.tree isDir (.entry depth used named)]
  exact Nat.lt_succ_self k

end Depth

section Runs

/-- The calls that process `p` may be in. Which reads exec makes and whether it succeeds is left open. -/
inductive IsCall (p : Nat) : Code Int → Prop where
  | «open» (path : Option Path) (omode : Nat) : IsCall p (sysOpen p path omode)
  | link (old new : Option Path) : IsCall p (sysLink p old new)
  | unlink (path : Option Path) : IsCall p (sysUnlink p path)
  | mkdir (path : Option Path) : IsCall p (sysMkdir p path)
  | mknod (path : Option Path) (major minor : Int) : IsCall p (sysMknod p path major minor)
  | chdir (path : Option Path) : IsCall p (sysChdir p path)
  | read (fd : Int) (n : Nat) (answer : Answer) : IsCall p (sysRead p fd n answer)
  | write (fd : Int) (bytes : List UInt8) : IsCall p (sysWrite p fd bytes)
  | close (fd : Int) : IsCall p (sysClose p fd)
  | exec (path : Path) (reads : List (Nat × Nat)) (answer : Answer) (loads : Bool) :
      IsCall p (exec p path reads answer loads)

def calls (n p : Nat) (x : Code Int) : Prop := p < n ∧ IsCall p x

abbrev Machine := Config State Nat Via Nat Int

structure Boots (n : Nat) (c : Machine) : Prop where
  consistent : Consistent c.state.core
  procs : c.state.core.procs.length = n
  unlocked : ∀ i, c.locks i = none
  resting : ∀ p, c.code p = none

def Rests (n p : Nat) (w : Kernel) : Prop := p < n → ∃ cwd, Knows p (atRest cwd).unlocked w

theorem rests_stays {n : Nat} (p : Nat) : lockOrder.Stays p (Rests n p) := by
  intro w w' rests moved inv known
  obtain ⟨cwd, knows⟩ := rests known
  exact ⟨cwd, knows_stays w w' knows moved inv⟩

theorem IsCall.keeps {p cwd : Nat} {x : Code Int} (call : IsCall p x) :
    Does p (atRest cwd).unlocked x fun _ w => ∃ cwd', Knows p (atRest cwd').unlocked w := by
  have stays {y : Code Int} (keeps : Spares p (atRest cwd).unlocked y) :
      Does p (atRest cwd).unlocked y fun _ w => ∃ cwd', Knows p (atRest cwd').unlocked w :=
    keeps_post keeps fun _ _ knows => ⟨cwd, knows⟩
  cases call with
  | «open» path omode => exact stays keeps_sysOpen
  | link old new => exact stays (keeps_sysLink rfl)
  | unlink path => exact stays keeps_sysUnlink
  | mkdir path => exact stays keeps_makeNode
  | mknod path major minor => exact stays keeps_makeNode
  | chdir path => exact keeps_sysChdir
  | read fd n answer => exact stays keeps_sysRead
  | write fd bytes => exact stays keeps_sysWrite
  | close fd => exact stays keeps_sysClose
  | exec path reads answer loads => exact stays keeps_exec

variable {n : Nat} {c c' : Machine}

/-- Directories are stamped with their depth, and every process has the reference of its working directory. -/
noncomputable def bootGhost (core : Core) : Ghost where
  stamp := depthOf core
  clock := (Finset.range core.ninodes).sup (depthOf core) + 1
  own p := {cwdOf core p}

theorem bootGhost_past (core : Core) (i : Nat) : (bootGhost core).stamp i < (bootGhost core).clock := by
  refine Nat.lt_succ_of_le ?_
  by_cases known : i < core.ninodes
  · exact Finset.le_sup (f := depthOf core) (Finset.mem_range.mpr known)
  · have zero : depthOf core i = 0 := by simp [depthOf, known]
    simp [bootGhost, zero]

theorem sum_cwd (procs : List Proc) (i : Nat) :
    ∑ p ∈ Finset.range procs.length, ({((procs[p]?).map Proc.cwd).getD 0} : Multiset Nat).count i =
      procs.countP fun proc => proc.refersTo i := by
  induction procs with
  | nil => rfl
  | cons proc rest ih =>
    rw [List.length_cons, Finset.sum_range_succ', List.countP_cons, ← ih]
    simp [Multiset.count_singleton, Proc.refersTo, eq_comm]

theorem ownRefs_boot (core : Core) (i : Nat) :
    ownRefs core.procs.length (bootGhost core).own i = core.procs.countP fun proc => proc.refersTo i :=
  sum_cwd core.procs i

theorem openRefs_boot {core : Core} (idle : IdleFiles core) (i : Nat) :
    openRefs core i = core.files.countP fun file => file.refersTo i := by
  refine List.countP_congr fun file present => ?_
  simp only [File.refersTo, decide_eq_true_eq]
  constructor
  · rintro ⟨isInode, same⟩
    refine ⟨Nat.pos_of_ne_zero fun zero => ?_, isInode, same⟩
    rw [idle file present zero] at isInode
    cases isInode
  · exact fun opened => opened.2

theorem Boots.ordered (boots : Boots n c) : Ordered ⟨c.state, c.locks, bootGhost c.state.core⟩ := by
  have tree := boots.consistent.counted.tree
  refine ⟨tree.small, fun i typed => (tree.bound i typed).2, bootGhost_past _,
    fun d isDir entry present used notDot notDotdot isDir' => ?_, fun i valid => ?_, fun i => ?_⟩
  · refine boots.consistent.counted.depth_lt isDir' used ?_
    obtain ⟨up, rest, slots, _⟩ := tree.shaped d isDir
    rw [inodeOf, slots] at present
    rw [Inode.names, if_pos isDir, slots]
    rcases List.mem_cons.mp present with rfl | present
    · exact absurd rfl notDot
    rcases List.mem_cons.mp present with rfl | present
    · exact absurd rfl notDotdot
    · exact naming_pos present
  · exact boots.consistent.stable.typed i ((boots.consistent.stable.valid i).mp valid)
  · rw [ownRefs_boot, openRefs_boot boots.consistent.idle]
    exact (boots.consistent.accounted i).ge

theorem Boots.disciplined (boots : Boots n c) : c.Disciplined lockOrder (Rests n) := by
  refine ⟨bootGhost c.state.core, boots.ordered, fun p => ?_⟩
  rw [boots.resting p]
  intro known
  refine ⟨cwdOf c.state.core p, ?_⟩
  refine ⟨boots.procs ▸ known, List.nodup_nil, fun i => ?_, by simp [bootGhost, Holding.unlocked, atRest], rfl, ?_, ?_,
    ?_, ?_⟩
  · simp [boots.unlocked, Holding.unlocked]
  all_goals simp [Holding.unlocked, atRest]

def askedStamp (c : Machine) (stamp : Nat → Nat) (p : Nat) : Nat :=
  match c.code p with
  | some (.acquire _ i _) => stamp i
  | _ => 0

theorem askedStamp_eq {stamp : Nat → Nat} {p i : Nat} {via : Via} (asks : c.Requests p via i) :
    askedStamp c stamp p = stamp i := by
  obtain ⟨k, here⟩ := asks
  simp [askedStamp, here]

theorem Boots.keepsOrder (boots : Boots n c) (reached : Threads.Reachable (calls n) c c') :
    ∃ stamp : Nat → Nat, ∀ p i, c'.Requests p .ilock i → ∀ d, c'.locks d = some p →
      (c'.state.core.inodes d).type = .dir ∧ ((c'.state.core.inodes i).type = .dir → stamp d < stamp i) := by
  have begins (p : Nat) (x : Code Int) (call : calls n p x) (w : Kernel) (inv : Ordered w) (rests : Rests n p w) :
      lockOrder.Safe p (fun _ => Rests n p) x w := by
    obtain ⟨cwd, knows⟩ := rests call.1
    exact safe_post (fun _ _ after _ => after) (call.2.keeps w inv knows)
  obtain ⟨ghost, inv, waits⟩ := disciplined_waits (reachable_disciplined rests_stays begins boots.disciplined reached)
  exact ⟨ghost.stamp, fun p i asks => waits p .ilock i asks rfl⟩

def sampleMachine : Machine := { state := sampleState, locks := fun _ => none, code := fun _ => none }

theorem sampleMachine_boots : Boots 1 sampleMachine := ⟨sample_consistent, rfl, fun _ => rfl, fun _ => rfl⟩

theorem sample_link_blocked :
    blockedOn (run 0 (sysLink 0 (some ['/', 'f']) (some ['/', 'a', '/', '.'])) sampleState fun _ => none) =
      some 2 := by
  decide +kernel

end Runs

end Xv6.Fs
