import Xv6.Fs.Inode

set_option autoImplicit false

namespace Xv6.Fs

open Threads

def console : Int := 1

-- What the console answers to consoleread: the bytes typed, or -1 for a killed reader.
abbrev Answer := Option (List UInt8)

-- none is the return value -1. Only devsw[CONSOLE] is set, and its functions give the lock up meanwhile.
def readi (i off n : Nat) (answer : Answer) : Code (Option (List UInt8)) := do
  let ip ← read fun c => c.inodes i
  if ip.type = .dev then
    if ip.major = console then do
      iunlock i
      ilock i
      return answer.map fun bytes => bytes.take n
    else return none
  else if off > ip.size ∨ (off + n) % 2 ^ 32 < off then return none
  else return some ((ip.bytes.drop off).take n)

def overwrite (old : List UInt8) (off : Nat) (bytes : List UInt8) : List UInt8 :=
  old.take off ++ bytes ++ old.drop (off + bytes.length)

def writeBytes (c : Core) (i off : Nat) (bytes : List UInt8) : Option Core :=
  let data := overwrite (c.inodes i).data off bytes
  let need := blocksFor data.length - blocksFor (c.inodes i).data.length
  if need > c.freeBlocks then none
  else some { c.setInode i { c.inodes i with data } with freeBlocks := c.freeBlocks - need }

def writei (i off : Nat) (bytes : List UInt8) : Code Int := do
  let ip ← read fun c => c.inodes i
  if ip.type = .dev then
    if ip.major = console then do
      iunlock i
      ilock i
      return bytes.length
    else return -1
  else if off > ip.size ∨ (off + bytes.length) % 2 ^ 32 < off then return -1
  else if (off + bytes.length) % 2 ^ 32 > maxFile * bSize then return -1
  else do
    change (fun _ => writeLog i ip.size off bytes.length) fun c =>
      (writeBytes c i off bytes).map fun c => ((), c)
    return bytes.length

/-! file.c -/

def emptyFile : File := { type := .none, ref := 0, readable := false, writable := false, ip := 0, off := 0 }

def fileAt (c : Core) (f : Nat) : File := c.files[f]?.getD emptyFile

def Core.setFile (c : Core) (f : Nat) (file : File) : Core := { c with files := c.files.set f file }

def Core.setProc (c : Core) (p : Nat) (proc : Proc) : Core := { c with procs := c.procs.set p proc }

def filealloc : Code (Option Nat) :=
  change unlogged fun c =>
    match c.files.findIdx? fun file => decide (file.ref = 0) with
    | none => some (none, c)
    | some f => some (some f, c.setFile f { fileAt c f with ref := 1 })

def filedup (f : Nat) : Code Unit :=
  change unlogged fun c =>
    if (fileAt c f).ref < 1 then none
    else some ((), c.setFile f { fileAt c f with ref := (fileAt c f).ref + 1 })

-- The open file whose last reference went.
def dropFile (f : Nat) : Code (Option File) :=
  change unlogged fun c =>
    if (fileAt c f).ref < 1 then none
    else if (fileAt c f).ref > 1 then
      some (none, c.setFile f { fileAt c f with ref := (fileAt c f).ref - 1 })
    else some (some (fileAt c f), c.setFile f { fileAt c f with ref := 0, type := .none })

def fileclose (f : Nat) : Code Unit := do
  match ← dropFile f with
  | none => return ()
  | some file =>
    if file.type = .inode then do
      beginOp
      iput file.ip
      endOp
    else return ()

def advance (f n : Nat) : Code Unit :=
  update unlogged fun c => c.setFile f { fileAt c f with off := (fileAt c f).off + n }

def fileread (f n : Nat) (answer : Answer) : Code (Option (List UInt8)) := do
  let file ← read fun c => fileAt c f
  if file.readable = false then return none
  else if file.type = .inode then do
    ilock file.ip
    let off ← read fun c => (fileAt c f).off
    match ← readi file.ip off n answer with
    | none => do
        iunlock file.ip
        return none
    | some bytes => do
        advance f bytes.length
        iunlock file.ip
        return some bytes
  else panic

def writeMax : Nat := (maxOpBlocks - 1 - 1 - 2) / 2 * 512

def chunksLoop : Nat → List UInt8 → List (List UInt8)
  | 0, _ => []
  | fuel + 1, bytes =>
    if bytes = [] then [] else bytes.take writeMax :: chunksLoop fuel (bytes.drop writeMax)

theorem chunksLoop_short {fuel : Nat} {bytes chunk : List UInt8} (present : chunk ∈ chunksLoop fuel bytes) :
    chunk.length ≤ writeMax := by
  induction fuel generalizing bytes with
  | zero => cases present
  | succ fuel ih =>
    unfold chunksLoop at present
    split at present
    next => cases present
    next =>
      rcases List.mem_cons.mp present with rfl | later
      · exact List.length_take_le _ _
      · exact ih later

def chunks (bytes : List UInt8) : List (List UInt8) := chunksLoop bytes.length bytes

def writeChunk (f i : Nat) (chunk : List UInt8) : Code Int := do
  beginOp
  ilock i
  let off ← read fun c => (fileAt c f).off
  let r ← writei i off chunk
  advance f r.toNat
  iunlock i
  endOp
  return r

def filewriteLoop (f i : Nat) : List (List UInt8) → Code Bool
  | [] => return true
  | chunk :: rest => do
      let r ← writeChunk f i chunk
      if r < 0 then return false
      else if r ≠ chunk.length then panic
      else filewriteLoop f i rest

def filewrite (f : Nat) (bytes : List UInt8) : Code Int := do
  let file ← read fun c => fileAt c f
  if file.writable = false then return -1
  else if file.type = .inode then do
    let complete ← filewriteLoop f file.ip (chunks bytes)
    return if complete then bytes.length else -1
  else panic

/-! sysfile.c -/

def procAt (c : Core) (p : Nat) : Proc := c.procs[p]?.getD { cwd := 0, ofile := [] }

def argfd (p : Nat) (fd : Int) : Code (Option Nat) :=
  read fun c => if fd < 0 then none else ((procAt c p).ofile[fd.toNat]?).join

def fdalloc (p f : Nat) : Code (Option Nat) :=
  change unlogged fun c =>
    match (procAt c p).ofile.findIdx? Option.isNone with
    | none => some (none, c)
    | some fd => some (some fd, c.setProc p { procAt c p with ofile := (procAt c p).ofile.set fd (some f) })

def sysRead (p : Nat) (fd : Int) (n : Nat) (answer : Answer) : Code Int := do
  match ← argfd p fd with
  | none => return -1
  | some f => do
      let bytes ← fileread f n answer
      return (bytes.map fun bytes => (bytes.length : Int)).getD (-1)

def sysWrite (p : Nat) (fd : Int) (bytes : List UInt8) : Code Int := do
  match ← argfd p fd with
  | none => return -1
  | some f => filewrite f bytes

def sysClose (p : Nat) (fd : Int) : Code Int := do
  match ← argfd p fd with
  | none => return -1
  | some f => do
      update unlogged fun c => c.setProc p { procAt c p with ofile := (procAt c p).ofile.set fd.toNat none }
      fileclose f
      return 0

def addLink (i : Nat) (n : Int) : Code Unit := update (inodeBlock i) fun c => c.addLink i n

def linkBad (i : Nat) : Code Int := do
  ilock i
  addLink i (-1)
  iunlockput i
  endOp
  return -1

def linkEntry (p i : Nat) (new : Path) : Code Int := do
  match ← nameiparent p new with
  | none => linkBad i
  | some (dp, name) => do
      ilock dp
      let linked ← dirlink dp name i
      iunlockput dp
      if linked then do
        iput i
        endOp
        return 0
      else linkBad i

def sysLink (p : Nat) : Option Path → Option Path → Code Int
  | some old, some new => do
      beginOp
      match ← namei p old with
      | none => do
          endOp
          return -1
      | some i => do
          ilock i
          let type ← read fun c => (c.inodes i).type
          if type = .dir then do
            iunlockput i
            endOp
            return -1
          else do
            addLink i 1
            iunlock i
            linkEntry p i new
  | _, _ => return -1

def isdirempty (dir : Inode) : Bool := (dir.slots.drop 2).all fun entry => decide (entry.inum = 0)

def clearSlot (dp off : Nat) : Code Unit :=
  change (slotLog dp off) fun c => (writeSlot c dp off { inum := 0, name := [] }).map fun c => ((), c)

def unlinkBad (dp : Nat) : Code Int := do
  iunlockput dp
  endOp
  return -1

def unlinkEntry (dp i off : Nat) : Code Int := do
  let ip ← read fun c => c.inodes i
  if ip.nlink < 1 then panic
  else if ip.type = .dir ∧ isdirempty ip = false then do
    iunlockput i
    unlinkBad dp
  else do
    clearSlot dp off
    (if ip.type = .dir then addLink dp (-1) else return ())
    iunlockput dp
    addLink i (-1)
    iunlockput i
    endOp
    return 0

def sysUnlink (p : Nat) : Option Path → Code Int
  | none => return -1
  | some path => do
      beginOp
      match ← nameiparent p path with
      | none => do
          endOp
          return -1
      | some (dp, name) => do
          ilock dp
          if name = dot ∨ name = dotdot then unlinkBad dp
          else do
            match ← dirlookup dp name with
            | none => unlinkBad dp
            | some (i, off) => do
                ilock i
                unlinkEntry dp i off

def initInode (i : Nat) (major minor : Int) : Code Unit :=
  update (inodeBlock i) fun c => c.setInode i { c.inodes i with major := short major, minor := short minor, nlink := 1 }

def createDots (dp i : Nat) : Code Unit := do
  addLink dp 1
  let first ← dirlink i dot i
  if first then do
    let second ← dirlink i dotdot dp
    if second then return () else panic
  else panic

def createNew (dp : Nat) (name : Name) (type : FileType) (major minor : Int) : Code (Option Nat) := do
  let i ← ialloc type
  ilock i
  initInode i major minor
  (if type = .dir then createDots dp i else return ())
  let linked ← dirlink dp name i
  if linked then do
    iunlockput dp
    return some i
  else panic

-- The inode comes back locked.
def create (p : Nat) (path : Path) (type : FileType) (major minor : Int) : Code (Option Nat) := do
  match ← nameiparent p path with
  | none => return none
  | some (dp, name) => do
      ilock dp
      match ← dirlookup dp name with
      | some (i, _) => do
          iunlockput dp
          ilock i
          let found ← read fun c => (c.inodes i).type
          if type = .file ∧ found = .file then return some i
          else do
            iunlockput i
            return none
      | none => createNew dp name type major minor

def oWronly : Nat := 0x001
def oRdwr : Nat := 0x002
def oCreate : Nat := 0x200

def openFail (i : Nat) : Code Int := do
  iunlockput i
  endOp
  return -1

def openInode (p i omode : Nat) : Code Int := do
  match ← filealloc with
  | none => openFail i
  | some f => do
      match ← fdalloc p f with
      | none => do
          fileclose f
          openFail i
      | some fd => do
          iunlock i
          endOp
          update unlogged fun c => c.setFile f { fileAt c f with
            type := .inode
            ip := i
            off := 0
            readable := decide (omode &&& oWronly = 0)
            writable := decide (omode &&& oWronly ≠ 0 ∨ omode &&& oRdwr ≠ 0) }
          return fd

def sysOpen (p : Nat) (path : Option Path) (omode : Nat) : Code Int :=
  match path with
  | none => return -1
  | some path => do
      beginOp
      if omode &&& oCreate ≠ 0 then do
        match ← create p path .file 0 0 with
        | none => do
            endOp
            return -1
        | some i => openInode p i omode
      else do
        match ← namei p path with
        | none => do
            endOp
            return -1
        | some i => do
            ilock i
            let type ← read fun c => (c.inodes i).type
            if type = .dir ∧ omode ≠ 0 then openFail i
            else openInode p i omode

-- sys_mkdir and sys_mknod.
def makeNode (p : Nat) (path : Option Path) (type : FileType) (major minor : Int) : Code Int := do
  beginOp
  match path with
  | none => do
      endOp
      return -1
  | some path => do
      match ← create p path type major minor with
      | none => do
          endOp
          return -1
      | some i => do
          iunlockput i
          endOp
          return 0

def sysMkdir (p : Nat) (path : Option Path) : Code Int := makeNode p path .dir 0 0

def sysMknod (p : Nat) (path : Option Path) (major minor : Int) : Code Int := makeNode p path .dev major minor

def sysChdir (p : Nat) (path : Option Path) : Code Int := do
  beginOp
  match path with
  | none => do
      endOp
      return -1
  | some path => do
      match ← namei p path with
      | none => do
          endOp
          return -1
      | some i => do
          ilock i
          let type ← read fun c => (c.inodes i).type
          if type ≠ .dir then do
            iunlockput i
            endOp
            return -1
          else do
            iunlock i
            let old ← read fun c => cwdOf c p
            iput old
            endOp
            update unlogged fun c => c.setProc p { procAt c p with cwd := i }
            return 0

def execReads (i : Nat) (answer : Answer) : List (Nat × Nat) → Code Unit
  | [] => return ()
  | (off, n) :: rest => do
      let _ ← readi i off n answer
      execReads i answer rest

-- Which reads exec makes, and whether it succeeds, depends on the file's content and on memory.
def exec (p : Nat) (path : Path) (reads : List (Nat × Nat)) (answer : Answer) (loads : Bool) : Code Int := do
  beginOp
  match ← namei p path with
  | none => do
      endOp
      return -1
  | some i => do
      ilock i
      execReads i answer reads
      iunlockput i
      endOp
      return if loads then 0 else -1

/-! proc.c -/

def dupFiles : List (Option Nat) → Code Unit
  | [] => return ()
  | none :: rest => dupFiles rest
  | some f :: rest => do
      filedup f
      dupFiles rest

-- Whether allocproc and copyuvm succeed depends on the process table and on memory.
def fork (p : Nat) (allocated : Bool) : Code Int :=
  if allocated then do
    let proc ← read fun c => procAt c p
    dupFiles proc.ofile
    idup proc.cwd
    change unlogged fun c => some ((c.procs.length : Int), { c with procs := c.procs ++ [proc] })
  else return -1

def closeFiles (p : Nat) : List Nat → Code Unit
  | [] => return ()
  | fd :: rest => do
      match ← read fun c => ((procAt c p).ofile[fd]?).join with
      | none => closeFiles p rest
      | some f => do
          fileclose f
          update unlogged fun c => c.setProc p { procAt c p with ofile := (procAt c p).ofile.set fd none }
          closeFiles p rest

-- The process stays in the table as a zombie, without a working directory.
def exit (p : Nat) : Code Unit := do
  closeFiles p (List.range nofile)
  beginOp
  let cwd ← read fun c => cwdOf c p
  iput cwd
  endOp
  update unlogged fun c => c.setProc p { procAt c p with cwd := 0 }

/-! sys_copy -/

def openCopy (f i : Nat) (readable : Bool) : Code Unit :=
  update unlogged fun c => c.setFile f { fileAt c f with
    type := .inode, ip := i, off := 0, readable, writable := !readable }

-- One more round than a file has blocks ends with a read of 0 bytes.
def copyLoop (source target : Nat) : Nat → Code Bool
  | 0 => panic
  | fuel + 1 => do
      match ← fileread source 512 none with
      | none => return true
      | some bytes =>
        if bytes = [] then return true
        else do
          let n ← filewrite target bytes
          if n ≠ bytes.length then return false else copyLoop source target fuel

def copyFiles (source target : Nat) : Code Int := do
  let copied ← copyLoop source target (maxFile + 2)
  fileclose source
  fileclose target
  endOp
  return if copied then 0 else -1

def sysCopy (p : Nat) : Option Path → Option Path → Code Int
  | some src, some dst => do
      beginOp
      match ← namei p src with
      | none => do
          endOp
          return -1
      | some i => do
          ilock i
          match ← filealloc with
          | none => do
              iunlockput i
              endOp
              return -1
          | some source => do
              openCopy source i true
              match ← create p dst .file 0 0 with
              | none => do
                  fileclose source
                  endOp
                  return -1
              | some j => do
                  match ← filealloc with
                  | none => do
                      fileclose source
                      iunlockput j
                      endOp
                      return -1
                  | some target => do
                      openCopy target j false
                      copyFiles source target
  | _, _ => return -1

end Xv6.Fs
