import Xv6.Kernel.Param
import Xv6.Shared.Threads

set_option autoImplicit false

namespace Xv6.Fs

open Threads

abbrev Path := List Char

-- A directory name without its padding: at most DIRSIZ characters.
abbrev Name := List Char

def skipelem (path : Path) : Option (Name × Path) :=
  match path.dropWhile (· == '/') with
  | [] => none
  | first :: rest =>
    let elem := (first :: rest).takeWhile (· != '/')
    some (elem.take dirSiz, ((first :: rest).drop elem.length).dropWhile (· == '/'))

-- The names that the loop of namex gets from skipelem.
def elementsLoop : Nat → Path → List Name
  | 0, _ => []
  | fuel + 1, path =>
    match skipelem path with
    | none => []
    | some (name, rest) => name :: elementsLoop fuel rest

def elements (path : Path) : List Name := elementsLoop path.length path

def dot : Name := ['.']
def dotdot : Name := ['.', '.']

inductive FileType where
  | free
  | dir
  | file
  | dev
deriving DecidableEq, Repr

structure Dirent where
  inum : Nat
  name : Name
deriving DecidableEq, Repr

/-- An inode with its content: the entries of a directory, or the bytes of a file. -/
structure Inode where
  type : FileType
  major : Int
  minor : Int
  nlink : Int
  slots : List Dirent
  data : List UInt8
deriving DecidableEq, Repr

def short (n : Int) : Int := Int.bmod n (2 ^ 16)

def encodeDirent (entry : Dirent) : List UInt8 :=
  [UInt8.ofNat entry.inum, UInt8.ofNat (entry.inum / 256)] ++
    ((entry.name.map fun char : Char => UInt8.ofNat char.toNat) ++ List.replicate dirSiz 0).take dirSiz

def Inode.bytes (ip : Inode) : List UInt8 :=
  if ip.type = .dir then ip.slots.flatMap encodeDirent else ip.data

def direntSize : Nat := 16

def Inode.size (ip : Inode) : Nat :=
  if ip.type = .dir then direntSize * ip.slots.length else ip.data.length

-- Data blocks and the indirect block of a file of this size.
def blocksFor (size : Nat) : Nat :=
  let n := (size + bSize - 1) / bSize
  if n > nDirect then n + 1 else n

inductive FdType where
  | none
  | inode
deriving DecidableEq, Repr

structure File where
  type : FdType
  ref : Nat
  readable : Bool
  writable : Bool
  ip : Nat
  off : Nat
deriving DecidableEq, Repr

structure Proc where
  cwd : Nat
  ofile : List (Option Nat)
deriving DecidableEq, Repr

/-- Inodes are named by their number. `ref` and `valid` are those of the cache entry of an inode, 0 and
false when it has none; `used` counts the entries with a reference, `freeBlocks` the free disk blocks. -/
structure Core where
  ninodes : Nat
  inodes : Nat → Inode
  ref : Nat → Nat
  valid : Nat → Bool
  used : Nat
  freeBlocks : Nat
  files : List File
  procs : List Proc

inductive LogBlock where
  | bitmap
  | inode (block : Nat)
  | data (inum bn : Nat)
  | indirect (inum : Nat)
deriving DecidableEq, Repr

structure State where
  core : Core
  outstanding : Nat
  logged : List LogBlock

inductive Via where
  | ilock
  | iput
deriving DecidableEq, Repr

abbrev Code := Prog State Nat Via

def logAll (logged : List LogBlock) : List LogBlock → List LogBlock
  | [] => logged
  | block :: rest => logAll (if block ∈ logged then logged else logged ++ [block]) rest

def read {A : Type} (f : Core → A) : Code A := atomic fun s => some (f s.core, s)

-- An atomic change of the file system that logs some blocks; `none` is a panic.
def change {A : Type} (blocks : Core → List LogBlock) (f : Core → Option (A × Core)) : Code A :=
  atomic fun s => (f s.core).map fun result =>
    (result.1, { s with core := result.2, logged := logAll s.logged (blocks s.core) })

def update (blocks : Core → List LogBlock) (f : Core → Core) : Code Unit :=
  change blocks fun c => some ((), f c)

def unlogged (_ : Core) : List LogBlock := []

def beginOp : Code Unit :=
  await (fun s => decide (s.logged.length + (s.outstanding + 1) * maxOpBlocks ≤ logSize)) fun s =>
    { s with outstanding := s.outstanding + 1 }

-- The last operation commits, which empties the log.
def endOp : Code Unit :=
  atomic fun s => some ((), { s with
    outstanding := s.outstanding - 1
    logged := if s.outstanding = 1 then [] else s.logged })

namespace Core

def setInode (c : Core) (i : Nat) (ip : Inode) : Core := { c with inodes := Function.update c.inodes i ip }

def igot (c : Core) (i : Nat) : Core :=
  { c with
    ref := Function.update c.ref i (c.ref i + 1)
    used := if c.ref i = 0 then c.used + 1 else c.used }

def loaded (c : Core) (i : Nat) : Core := { c with valid := Function.update c.valid i true }

-- An entry without references is not found by iget again.
def unref (c : Core) (i : Nat) : Core :=
  { c with
    ref := Function.update c.ref i (c.ref i - 1)
    used := if c.ref i = 1 then c.used - 1 else c.used
    valid := Function.update c.valid i (c.valid i && decide (c.ref i ≠ 1)) }

-- itrunc, type = 0 and iupdate of the last iput.
def ifree (c : Core) (i : Nat) : Core :=
  { c with
    inodes := Function.update c.inodes i { c.inodes i with type := .free, slots := [], data := [] }
    valid := Function.update c.valid i false
    freeBlocks := c.freeBlocks + blocksFor (c.inodes i).size }

def addLink (c : Core) (i : Nat) (n : Int) : Core :=
  c.setInode i { c.inodes i with nlink := short ((c.inodes i).nlink + n) }

end Core

end Xv6.Fs
