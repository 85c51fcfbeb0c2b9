import Xv6.Fs.State
import Xv6.Shared.Bytes
import Xv6.Shared.Halting

set_option autoImplicit false

namespace Xv6.Blocks

open Halting Bytes

section Format

structure Superblock where
  size : Nat
  nblocks : Nat
  ninodes : Nat
  inodestart : Nat
  bmapstart : Nat
deriving Repr

def bpb : Nat := bSize * 8
def ipb : Nat := bSize / 64

def bblock (b : Nat) (sb : Superblock) : Nat := b / bpb + sb.bmapstart
def iblock (i : Nat) (sb : Superblock) : Nat := i / ipb + sb.inodestart

def Superblock.dataStart (sb : Superblock) : Nat := sb.size - sb.nblocks

def tDir : Nat := 1
def tFile : Nat := 2
def tDev : Nat := 3

@[ext] structure Dinode where
  type : Nat
  major : Int
  minor : Int
  nlink : Int
  size : Nat
  addrs : Nat → Nat

def short16 (n : Int) : Nat := (n % 2 ^ 16).toNat

def dinodeSize : Nat := 64

def Dinode.bytes (d : Dinode) (o : Nat) : Byte :=
  if o < 2 then leByte d.type o
  else if o < 4 then leByte (short16 d.major) (o - 2)
  else if o < 6 then leByte (short16 d.minor) (o - 4)
  else if o < 8 then leByte (short16 d.nlink) (o - 6)
  else if o < 12 then leByte d.size (o - 8)
  else leByte (d.addrs ((o - 12) / 4)) ((o - 12) % 4)

def readDinode (blk : Block) (k : Nat) : Dinode where
  type := getLe blk k 2
  major := Fs.short (getLe blk (k + 2) 2)
  minor := Fs.short (getLe blk (k + 4) 2)
  nlink := Fs.short (getLe blk (k + 6) 2)
  size := getLe blk (k + 8) 4
  addrs j := if j ≤ nDirect then getLe blk (k + 12 + 4 * j) 4 else 0

def writeDinode (blk : Block) (k : Nat) (d : Dinode) : Block := memmove blk k dinodeSize d.bytes

variable {blk : Block} {k k' j : Nat} {d : Dinode}

theorem readDinode_type : (readDinode (writeDinode blk k d) k).type = d.type % 2 ^ 16 := by
  refine getLe_of_bytes fun t small => ?_
  rw [writeDinode, memmove_inside (by unfold dinodeSize; omega), Dinode.bytes, if_pos small]

theorem readDinode_size : (readDinode (writeDinode blk k d) k).size = d.size % 2 ^ 32 := by
  refine getLe_of_bytes fun t small => ?_
  rw [writeDinode, Nat.add_assoc, memmove_inside (by unfold dinodeSize; omega), Dinode.bytes]
  repeat rw [if_neg (by omega)]
  rw [if_pos (by omega)]
  congr 1
  omega

theorem readDinode_addrs (index : j ≤ nDirect) :
    (readDinode (writeDinode blk k d) k).addrs j = d.addrs j % 2 ^ 32 := by
  simp only [readDinode, if_pos index]
  refine getLe_of_bytes fun t small => ?_
  unfold nDirect at index
  rw [writeDinode, Nat.add_assoc, Nat.add_assoc, memmove_inside (by unfold dinodeSize; omega), Dinode.bytes]
  repeat rw [if_neg (by omega)]
  congr 2 <;> omega

theorem readDinode_apart (apart : k' + dinodeSize ≤ k ∨ k + dinodeSize ≤ k') :
    readDinode (writeDinode blk k d) k' = readDinode blk k' := by
  have same (off n : Nat) (inside : off + n ≤ dinodeSize) :
      getLe (writeDinode blk k d) (k' + off) n = getLe blk (k' + off) n := getLe_memmove_apart (by omega)
  unfold dinodeSize at *
  simp only [readDinode, Dinode.mk.injEq]
  refine ⟨same 0 2 (by omega), ?_, ?_, ?_, same 8 4 (by omega), ?_⟩
  · rw [same 2 2 (by omega)]
  · rw [same 4 2 (by omega)]
  · rw [same 6 2 (by omega)]
  · funext j
    split
    · rw [Nat.add_assoc, same (12 + 4 * j) 4 (by unfold nDirect at *; omega)]
    · rfl

end Format

end Xv6.Blocks
