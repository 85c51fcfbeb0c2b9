import Xv6.Blocks.Layout

set_option autoImplicit false

namespace Xv6.Mkfs

open Halting Bytes Blocks

section Layout

def nInodes : Nat := 200

def nbitmap : Nat := fsSize / (bSize * 8) + 1
def ninodeblocks : Nat := nInodes / ipb + 1
def nmeta : Nat := 2 + nlog + ninodeblocks + nbitmap
def nblocks : Nat := fsSize - nmeta

def logstart : Nat := 2

def sb : Superblock where
  size := fsSize
  nblocks := nblocks
  ninodes := nInodes
  inodestart := 2 + nlog
  bmapstart := 2 + nlog + ninodeblocks

def sbBytes (o : Nat) : Byte :=
  leByte ([sb.size, sb.nblocks, sb.ninodes, nlog, logstart, sb.inodestart, sb.bmapstart].getD (o / 4) 0) (o % 4)

def sbSize : Nat := 28

def zeroes : Block := fun _ => 0

end Layout

/-- The image file, its length in sectors, and the two counters of mkfs. `inodeWrites` records the blocks
that winode has written. -/
structure State where
  sectors : Nat → Block
  length : Nat
  freeinode : Nat
  freeblock : Nat
  inodeWrites : List Nat

-- Where lseek goes: `sec * BSIZE` is a uint.
def seek (sec : Nat) : Nat := sec * bSize % 2 ^ 32 / bSize

def wsect (sec : Nat) (buf : Block) : Halt State Unit :=
  modify fun s => { s with
    sectors := Function.update s.sectors (seek sec) buf
    length := max s.length (seek sec + 1) }

-- A panic is a failed assert or exit(1): here, the end of the file is before the end of the sector.
def rsect (sec : Nat) : Halt State Block := do
  let s ← get
  if seek sec < s.length then pure (s.sectors (seek sec)) else panic

def winode (inum : Nat) (ip : Dinode) : Halt State Unit := do
  let bn := iblock inum sb
  let buf ← rsect bn
  wsect bn (writeDinode buf (inum % ipb * dinodeSize) ip)
  modify fun s => { s with inodeWrites := bn :: s.inodeWrites }

def rinode (inum : Nat) : Halt State Dinode := do
  let buf ← rsect (iblock inum sb)
  pure (readDinode buf (inum % ipb * dinodeSize))

def ialloc (type : Nat) : Halt State Nat := do
  let s ← get
  modify fun s => { s with freeinode := s.freeinode + 1 }
  winode s.freeinode { type, major := 0, minor := 0, nlink := 1, size := 0, addrs := fun _ => 0 }
  pure s.freeinode

def bitmap (used : Nat) : Block := (List.range used).foldl markBit zeroes

def balloc (used : Nat) : Halt State Unit :=
  if used < bSize * 8 then wsect sb.bmapstart (bitmap used) else panic

section Append

-- `freeblock++`
def nextBlock : Halt State Nat := do
  let s ← get
  modify fun s => { s with freeblock := s.freeblock + 1 }
  pure s.freeblock

-- addrs[j] gets a block if it has none.
def fillSlot (din : Dinode) (j : Nat) : Halt State Dinode :=
  if din.addrs j = 0 then do
    let b ← nextBlock
    pure { din with addrs := Function.update din.addrs j b }
  else pure din

-- The same for an entry of the indirect block, which is written back.
def fillEntry (sec : Nat) (indirect : Block) (j : Nat) : Halt State Block :=
  if getLe indirect (4 * j) 4 = 0 then do
    let b ← nextBlock
    wsect sec (putLe indirect (4 * j) 4 b)
    pure (putLe indirect (4 * j) 4 b)
  else pure indirect

def blockAt (din : Dinode) (fbn : Nat) : Halt State (Dinode × Nat) :=
  if fbn < nDirect then do
    let din ← fillSlot din fbn
    pure (din, din.addrs fbn)
  else do
    let din ← fillSlot din nDirect
    let indirect ← rsect (din.addrs nDirect)
    let indirect ← fillEntry (din.addrs nDirect) indirect (fbn - nDirect)
    pure (din, getLe indirect (4 * (fbn - nDirect)) 4)

-- How many bytes of `p` go into the block that `off` lies in.
def n1 (off : Nat) (p : List Byte) : Nat := min p.length ((off / bSize + 1) * bSize - off)

def appendBlock (din : Dinode) (off : Nat) (p : List Byte) : Halt State Dinode := do
  let fbn := off / bSize
  if fbn < maxFile then
    let (din, x) ← blockAt din fbn
    let buf ← rsect x
    wsect x (memmove buf (off - fbn * bSize) (n1 off p) fun k => p.getD k 0)
    pure din
  else panic

theorem room_pos (off : Nat) : 0 < (off / bSize + 1) * bSize - off := by
  unfold bSize
  omega

theorem n1_pos (off : Nat) {p : List Byte} (more : p ≠ []) : 0 < n1 off p :=
  Nat.lt_min.mpr ⟨List.length_pos_iff.mpr more, room_pos off⟩

theorem n1_le (off : Nat) (p : List Byte) : n1 off p ≤ p.length := Nat.min_le_left _ _

def appendLoop (din : Dinode) (off : Nat) (p : List Byte) : Halt State (Dinode × Nat) :=
  if p = [] then pure (din, off)
  else do
    let din ← appendBlock din off p
    appendLoop din (off + n1 off p) (p.drop (n1 off p))
termination_by p.length
decreasing_by
  have := n1_pos off ‹_›
  have := n1_le off p
  rw [List.length_drop]
  omega

def iappend (inum : Nat) (p : List Byte) : Halt State Unit := do
  let din ← rinode inum
  let (din, off) ← appendLoop din din.size p
  winode inum { din with size := off }

end Append

section Main

abbrev Chunk := { bytes : List Byte // bytes ≠ [] ∧ bytes.length ≤ bSize }

/-- A file of the host: its name, and the chunks in which read returns its bytes, unless it cannot be
opened. -/
structure HostFile where
  name : List Byte
  chunks : Option (List Chunk)

def HostFile.bytes (file : HostFile) : List Byte := (file.chunks.getD []).flatMap Subtype.val

def slash : Byte := 47
def underscore : Byte := 95
def dot : Byte := 46

def strncpy (name : List Byte) (n : Nat) : List Byte := name.take n ++ List.replicate (n - name.length) 0

def dirent (inum : Nat) (name : List Byte) : List Byte := leByte inum 0 :: leByte inum 1 :: strncpy name dirSiz

def skipUnderscore : List Byte → List Byte
  | [] => []
  | c :: rest => if c = underscore then rest else c :: rest

def appendAll (inum : Nat) : List Chunk → Halt State Unit
  | [] => pure ()
  | chunk :: rest => do
      iappend inum chunk.val
      appendAll inum rest

def addFile (rootino : Nat) (file : HostFile) : Halt State Unit :=
  if slash ∈ file.name then panic
  else match file.chunks with
    | none => panic
    | some chunks => do
        let inum ← ialloc tFile
        iappend rootino (dirent inum (skipUnderscore file.name))
        appendAll inum chunks

def addFiles (rootino : Nat) : List HostFile → Halt State Unit
  | [] => pure ()
  | file :: rest => do
      addFile rootino file
      addFiles rootino rest

-- The loop over all sectors of the new file.
def wipe : Nat → Halt State Unit
  | 0 => pure ()
  | i + 1 => do
      wipe i
      wsect i zeroes

-- Zero sectors and the super block.
def format : Halt State Unit := do
  wipe fsSize
  wsect 1 (memmove zeroes 0 sbSize sbBytes)

def fixRootSize (rootino : Nat) : Halt State Unit := do
  let din ← rinode rootino
  winode rootino { din with size := (din.size / bSize + 1) * bSize }

def main (files : List HostFile) : Halt State Unit := do
  format
  let rootino ← ialloc tDir
  if rootino = rootIno then
    iappend rootino (dirent rootino [dot])
    iappend rootino (dirent rootino [dot, dot])
    addFiles rootino files
    fixRootSize rootino
    let s ← get
    balloc s.freeblock
  else panic

def start : State where
  sectors _ := zeroes
  length := 0
  freeinode := 1
  freeblock := nmeta
  inodeWrites := []

/-- The state in which mkfs reaches exit(0), if it does. -/
def mkfs (files : List HostFile) : Option State :=
  match (main files).run start with
  | (some _, s) => some s
  | (none, _) => none

end Main

end Xv6.Mkfs
