import Xv6.Mkfs.Image

set_option autoImplicit false

namespace Xv6.Mkfs

open Halting Bytes Blocks

variable {s s' : State} {din : Dinode} {f root : File} {files : List File} {done more : List HostFile}

section Addresses

def State.address (s : State) (inum bn : Nat) : Nat :=
  if bn < nDirect then (s.dinode inum).addrs bn
  else if (s.dinode inum).addrs nDirect = 0 then 0
  else getLe (s.sectors ((s.dinode inum).addrs nDirect)) (4 * (bn - nDirect)) 4

def State.addresses (s : State) (inum : Nat) : List Nat :=
  let din := s.dinode inum
  let entries := if din.addrs nDirect = 0 then []
    else din.addrs nDirect :: (List.range nIndirect).map fun j => getLe (s.sectors (din.addrs nDirect)) (4 * j) 4
  ((List.range nDirect).map din.addrs ++ entries).filter (· ≠ 0)

theorem map_getD (l : List Nat) (n : Nat) :
    (List.range n).map (fun j => l.getD j 0) = l.take n ++ List.replicate (n - l.length) 0 := by
  refine List.ext_getElem (by simp; omega) fun j first second => ?_
  simp only [List.getElem_map, List.getElem_range]
  by_cases inside : j < (l.take n).length
  · rw [List.getElem_append_left inside, List.getElem_take, List.getD_eq_getElem]
  · have outside : l.length ≤ j := by
      simp at inside first
      omega
    rw [List.getElem_append_right (by omega), List.getElem_replicate, List.getD_eq_default _ _ outside]

theorem filter_getD {l : List Nat} (n : Nat) (held : ∀ b ∈ l, b ≠ 0) :
    ((List.range n).map fun j => l.getD j 0).filter (· ≠ 0) = l.take n := by
  rw [map_getD, List.filter_append, List.filter_replicate]
  have all : (l.take n).filter (· ≠ 0) = l.take n :=
    List.filter_eq_self.mpr fun b member => by simpa using held b (List.mem_of_mem_take member)
  rw [all]
  simp

theorem Held.addresses {inum : Nat} (held : Held s (s.dinode inum) f) : (s.addresses inum).Perm f.blocks := by
  have positive : ∀ b ∈ f.blocks, b ≠ 0 := fun b member => by
    have : 0 < nmeta := by decide
    have := held.owns.range b member
    omega
  have nonzero : ∀ b ∈ f.data, b ≠ 0 := fun b member => positive b (File.data_subset member)
  have first : (List.range nDirect).map (s.dinode inum).addrs = (List.range nDirect).map fun j => f.data.getD j 0 :=
    List.map_congr_left fun j member => held.maps.direct j (List.mem_range.mp member)
  simp only [State.addresses, first, held.maps.indirect, List.filter_append, filter_getD nDirect nonzero]
  unfold File.blocks
  split
  next none =>
    rw [List.take_of_length_le (held.needed.mp none)]
    simp
  next some =>
    have rest : ((List.range nIndirect).map fun j => getLe (s.sectors f.indirect) (4 * j) 4) =
        (List.range nIndirect).map fun j => (f.data.drop nDirect).getD j 0 := by
      refine List.map_congr_left fun j member => ?_
      rw [held.maps.entries some j (List.mem_range.mp member), List.getD_eq_getElem?_getD, List.getD_eq_getElem?_getD,
        List.getElem?_drop]
    have short : (f.data.drop nDirect).length ≤ nIndirect := by
      have := held.short
      unfold maxFile at this
      rw [List.length_drop]
      omega
    rw [List.filter_cons_of_pos (by simpa using some), rest,
      filter_getD nIndirect fun b member => nonzero b (List.mem_of_mem_drop member), List.take_of_length_le short]
    refine List.perm_middle.trans ?_
    rw [List.take_append_drop]

theorem Held.address {inum : Nat} (held : Held s (s.dinode inum) f) (bn : Nat) (small : bn < maxFile) :
    s.address inum bn = f.data.getD bn 0 := by
  unfold State.address
  split
  next direct => exact held.maps.direct bn direct
  next through =>
    rw [held.maps.indirect]
    split
    next none => exact (List.getD_eq_default _ _ (Nat.le_trans (held.needed.mp none) (by omega))).symm
    next some =>
      have index : bn - nDirect < nIndirect := by
        unfold maxFile at small
        omega
      rw [held.maps.entries some _ index]
      congr 1
      omega

end Addresses

section Bitmap

theorem isFree_zeroes (b : Nat) : isFree zeroes b = true := by simp [isFree, zeroes]

theorem isFree_bitmap (used b : Nat) : isFree (bitmap used) b = decide (used ≤ b) := by
  induction used with
  | zero => simpa [bitmap] using isFree_zeroes b
  | succ used ih =>
    have step : bitmap (used + 1) = markBit (bitmap used) used := by
      simp [bitmap, List.range_succ]
    rw [step, isFree_markBit, ih]
    have next : used + 1 ≤ b ↔ used ≤ b ∧ b ≠ used := by omega
    simp [next]

end Bitmap

section Finish

-- The inode numbers that lie in front of the bitmap.
def inodeArea : Nat := (sb.bmapstart - sb.inodestart) * ipb

theorem iblock_lt_bmapstart {inum : Nat} : iblock inum sb < sb.bmapstart ↔ inum < inodeArea := by
  simp only [inodeArea, iblock, sb, ninodeblocks, nlog, logSize, maxOpBlocks, nInodes, ipb, bSize]
  omega

theorem finish_sectors {b : Nat} (data : nmeta ≤ b) : s.finish.sectors b = s.sectors b := by
  have : sb.bmapstart < nmeta := by decide
  have apart : b ≠ sb.bmapstart := by omega
  simp only [State.finish, Function.update_of_ne apart]
  exact putInode_sectors (by decide) data

theorem finish_bitmap : s.finish.sectors sb.bmapstart = bitmap s.freeblock := by
  simp only [State.finish, Function.update_self]

theorem finish_dinode {inum : Nat} (area : inum < inodeArea) : s.finish.dinode inum = s.fixRoot.dinode inum := by
  have apart : iblock inum sb ≠ sb.bmapstart := Nat.ne_of_lt (iblock_lt_bmapstart.mpr area)
  simp only [State.dinode, State.finish, Function.update_of_ne apart]

theorem Built.file (built : Built s root files done) {i : Nat} (area : i + 2 < inodeArea) (entry : files[i]? = some f) :
    Laid s.finish (i + 2) f := by
  have laid := built.image.laid (i + 1) f (by simpa using entry)
  refine laid.congr (fun b member => finish_sectors (laid.held.owns.range b member).1) (Nat.le_refl _) ?_
  rw [finish_dinode area]
  exact putInode_other (by unfold rootIno; omega)

theorem Built.root_laid (built : Built s root files done) : Laid s rootIno root := built.image.laid 0 root rfl

theorem Built.root_held (built : Built s root files done) : Held s.finish (s.finish.dinode rootIno) root := by
  rw [finish_dinode (by decide)]
  have held := built.root_laid.held
  have low : rootIno < inodeLimit := by decide
  have fixed := held.putInode low built.image.fresh.room
    (((s.dinode rootIno).size / bSize + 1) * bSize)
  exact fixed.congr (fun b member => (finish_sectors (held.owns.range b member).1).trans
    (putInode_sectors (by decide) (held.owns.range b member).1).symm) (Nat.le_refl _)

theorem Built.root_size (built : Built s root files done) :
    (s.finish.dinode rootIno).size = (root.content.length / bSize + 1) * bSize := by
  rw [finish_dinode (by decide)]
  refine Eq.trans putInode_size ?_
  show ((s.dinode rootIno).size / bSize + 1) * bSize % 2 ^ 32 = _
  rw [built.root_laid.size]
  refine Nat.mod_eq_of_lt ?_
  have := built.root_laid.held.count
  have := built.root_laid.held.short
  unfold blocksFor maxFile nIndirect nDirect bSize at *
  omega

theorem mkfs_built (returns : mkfs more = some s') (low : more.length + 1 < inodeLimit) :
    ∃ s root files, Built s root files more ∧ s' = s.finish := by
  obtain ⟨root, s₁, s₂, first, added, rfl⟩ := mkfs_parts returns
  obtain ⟨root', files', built⟩ := first.addFiles (by simpa using low) added
  exact ⟨s₂, root', files', built, rfl⟩

theorem mkfs_freeinode (returns : mkfs more = some s') : s'.freeinode = more.length + 2 := by
  obtain ⟨root, s₁, s₂, first, added, rfl⟩ := mkfs_parts returns
  have start : s₁.freeinode = 2 := first.image.inodes
  have counted : s₂.finish.freeinode = s₁.freeinode + more.length := (addFiles_frame added).2
  omega

theorem Built.length (built : Built s root files done) : files.length = done.length := by
  simpa using congrArg List.length built.contents

end Finish

end Xv6.Mkfs
