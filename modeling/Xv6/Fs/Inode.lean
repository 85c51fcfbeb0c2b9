import Xv6.Fs.State

set_option autoImplicit false

namespace Xv6.Fs

open Threads

def inodeBlock (i : Nat) (_ : Core) : List LogBlock := [.inode (i / 8)]

def iget (i : Nat) : Code Unit :=
  change unlogged fun c =>
    if c.ref i = 0 ∧ c.used ≥ ninode then none else some ((), c.igot i)

def idup (i : Nat) : Code Unit := update unlogged fun c => c.igot i

def checkRef (i : Nat) : Code Unit :=
  change unlogged fun c => if c.ref i < 1 then none else some ((), c)

def ilock (i : Nat) : Code Unit := do
  checkRef i
  acquire .ilock i
  change unlogged fun c =>
    if c.valid i then some ((), c)
    else if (c.inodes i).type = .free then none
    else some ((), c.loaded i)

def iunlock (i : Nat) : Code Unit := do
  checkRef i
  release i

def lastPut (c : Core) (i : Nat) : Bool :=
  c.valid i && decide ((c.inodes i).nlink = 0 ∧ c.ref i = 1)

def iput (i : Nat) : Code Unit := do
  acquire .iput i
  update (fun c => if lastPut c i then .bitmap :: inodeBlock i c else []) fun c =>
    if lastPut c i then c.ifree i else c
  release i
  update unlogged fun c => c.unref i

def iunlockput (i : Nat) : Code Unit := do
  iunlock i
  iput i

def freshInode (type : FileType) : Inode :=
  { type, major := 0, minor := 0, nlink := 0, slots := [], data := [] }

def findFree (c : Core) : Option Nat :=
  (List.range' 1 (c.ninodes - 1)).find? fun i => decide ((c.inodes i).type = .free)

def ialloc (type : FileType) : Code Nat := do
  let i ← change (fun c => ((findFree c).map fun i => inodeBlock i c).getD []) fun c =>
    (findFree c).map fun i => (i, c.setInode i (freshInode type))
  iget i
  return i

-- The blocks that writei logs for n bytes at off into an inode of some size.
def writeLog (i size off n : Nat) : List LogBlock :=
  let grown := max size (off + n)
  let first := off / bSize
  let last := (off + n + bSize - 1) / bSize
  (List.range' first (last - first)).map (LogBlock.data i) ++
    (if blocksFor grown > blocksFor size then
      .bitmap :: (if blocksFor grown > nDirect then [.indirect i] else [])
    else []) ++
    (if grown > size then [.inode (i / 8)] else [])

def putSlot (slots : List Dirent) (off : Nat) (entry : Dirent) : List Dirent :=
  if off < slots.length then slots.set off entry else slots ++ [entry]

def slotNeed (slots : List Dirent) (off : Nat) (entry : Dirent) : Nat :=
  blocksFor (direntSize * (putSlot slots off entry).length) - blocksFor (direntSize * slots.length)

def Core.putEntry (c : Core) (dp off : Nat) (entry : Dirent) : Core :=
  { c.setInode dp { c.inodes dp with slots := putSlot (c.inodes dp).slots off entry } with
    freeBlocks := c.freeBlocks - slotNeed (c.inodes dp).slots off entry }

-- writei of one dirent; `none` when it is refused for the size or balloc runs out of blocks.
def writeSlot (c : Core) (dp off : Nat) (entry : Dirent) : Option Core :=
  if direntSize * (off + 1) > maxFile * bSize ∨ slotNeed (c.inodes dp).slots off entry > c.freeBlocks then none
  else some (c.putEntry dp off entry)

def slotLog (dp off : Nat) (c : Core) : List LogBlock :=
  writeLog dp (direntSize * (c.inodes dp).slots.length) (direntSize * off) direntSize

def findSlot (name : Name) : List Dirent → Nat → Option (Nat × Nat)
  | [], _ => none
  | entry :: rest, off =>
    if entry.inum ≠ 0 ∧ entry.name = name then some (entry.inum, off) else findSlot name rest (off + 1)

-- The inode number and the slot of the entry; the reference is the caller's.
def dirlookup (dp : Nat) (name : Name) : Code (Option (Nat × Nat)) := do
  let dir ← read fun c => c.inodes dp
  if dir.type ≠ .dir then panic
  else
    match findSlot name dir.slots 0 with
    | none => return none
    | some (i, off) => do
        iget i
        return some (i, off)

def emptySlot (slots : List Dirent) : Nat := slots.findIdx fun entry => decide (entry.inum = 0)

def addEntry (c : Core) (dp : Nat) (name : Name) (i : Nat) : Option Core :=
  writeSlot c dp (emptySlot (c.inodes dp).slots) { inum := i % 2 ^ 16, name }

def appendEntry (dp : Nat) (name : Name) (i : Nat) : Code Unit :=
  change (fun c => slotLog dp (emptySlot (c.inodes dp).slots) c) fun c =>
    (addEntry c dp name i).map fun c => ((), c)

-- false is the return value -1.
def dirlink (dp : Nat) (name : Name) (i : Nat) : Code Bool := do
  match ← dirlookup dp name with
  | some (ip, _) => do
      iput ip
      return false
  | none => do
      appendEntry dp name i
      return true

def namexLoop (parent : Bool) : Nat → List Name → Code (Option (Nat × Name))
  | ip, [] =>
    if parent then do
      iput ip
      return none
    else return some (ip, [])
  | ip, name :: rest => do
      ilock ip
      let type ← read fun c => (c.inodes ip).type
      if type ≠ .dir then do
        iunlockput ip
        return none
      else if parent ∧ rest = [] then do
        iunlock ip
        return some (ip, name)
      else do
        match ← dirlookup ip name with
        | none => do
            iunlockput ip
            return none
        | some (next, _) => do
            iunlockput ip
            namexLoop parent next rest

def cwdOf (c : Core) (p : Nat) : Nat := ((c.procs[p]?).map Proc.cwd).getD 0

def namex (p : Nat) (path : Path) (parent : Bool) : Code (Option (Nat × Name)) :=
  if path.head? = some '/' then do
    iget rootIno
    namexLoop parent rootIno (elements path)
  else do
    let cwd ← read fun c => cwdOf c p
    idup cwd
    namexLoop parent cwd (elements path)

def namei (p : Nat) (path : Path) : Code (Option Nat) := do
  let found ← namex p path false
  return found.map Prod.fst

def nameiparent (p : Nat) (path : Path) : Code (Option (Nat × Name)) := namex p path true

end Xv6.Fs
