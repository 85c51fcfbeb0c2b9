import Xv6.Blocks.Layout

set_option autoImplicit false

namespace Xv6.Blocks

open Bytes

section Read

-- fsinit copies it from block 1.
def readsb (disk : Nat → Block) : Superblock where
  size := getLe (disk 1) 0 4
  nblocks := getLe (disk 1) 4 4
  ninodes := getLe (disk 1) 8 4
  inodestart := getLe (disk 1) 20 4
  bmapstart := getLe (disk 1) 24 4

-- idestart panics on a block number from FSSIZE on.
def bread (disk : Nat → Block) (b : Nat) : Option Block := if b < fsSize then some (disk b) else none

-- The inode as ilock fills it in; it panics if there is none.
def ilock (sb : Superblock) (disk : Nat → Block) (inum : Nat) : Option Dinode := do
  let blk ← bread disk (iblock inum sb)
  let ip := readDinode blk (inum % ipb * dinodeSize)
  if ip.type = 0 then none else some ip

-- Where bmap finds no block it calls balloc; readers have no transaction open, and log_write panics.
def present (addr : Nat) : Option Nat := if addr = 0 then none else some addr

def bmap (disk : Nat → Block) (ip : Dinode) (bn : Nat) : Option Nat :=
  if bn < nDirect then present (ip.addrs bn)
  else if bn - nDirect < nIndirect then do
    let addr ← present (ip.addrs nDirect)
    let a ← bread disk addr
    present (getLe a (4 * (bn - nDirect)) 4)
  else none

/-- The loop of readi, with `n` bytes left to copy; the result is what it copies. -/
def readLoop (disk : Nat → Block) (ip : Dinode) (off n : Nat) : Option (List Byte) :=
  if n = 0 then some []
  else do
    let b ← bmap disk ip (off / bSize)
    let blk ← bread disk b
    let m := min n (bSize - off % bSize)
    let rest ← readLoop disk ip (off + m) (n - m)
    some ((List.range m).map (fun k => blk (off % bSize + k)) ++ rest)
termination_by n
decreasing_by
  have : off % bSize < bSize := Nat.mod_lt _ (by decide)
  omega

/-- The value and the copied bytes of readi on a file or directory, as fileread calls it; a device is read
by its driver. -/
def readi (disk : Nat → Block) (ip : Dinode) (off n : Nat) : Option (Int × List Byte) :=
  if ip.type = tDev then none
  else if off > ip.size ∨ (off + n) % 2 ^ 32 < off then some (-1, [])
  else
    let n := if (off + n) % 2 ^ 32 > ip.size then ip.size - off else n
    (readLoop disk ip off n).map fun copied => ((n : Int), copied)

end Read

end Xv6.Blocks
