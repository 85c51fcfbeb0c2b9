import Xv6.Mkfs.EmptyFiles
import Xv6.Mkfs.Finished

set_option autoImplicit false

namespace Xv6.Mkfs

open Halting Bytes Blocks

variable {s : State} {f root : File} {files : List File} {done more : List HostFile}

section WellMade

def State.inums (s : State) : List Nat := List.range' 1 (s.freeinode - 1)

def State.referenced (s : State) : List Nat := s.inums.flatMap s.addresses

def NoHoles (s : State) (inum : Nat) : Prop := ∀ bn < blocksFor (s.dinode inum).size, s.address inum bn ≠ 0

/-- No file has a hole, no block is referenced twice, and the bitmap marks the metadata and the referenced
blocks. -/
structure WellMade (s : State) : Prop where
  noHoles : ∀ inum ∈ s.inums, NoHoles s inum
  distinct : s.referenced.Nodup
  data : ∀ b ∈ s.referenced, nmeta ≤ b ∧ b < fsSize
  bitmap : ∀ b < bpb, isFree (s.sectors sb.bmapstart) b = false ↔ b < nmeta ∨ b ∈ s.referenced

theorem flatMap_range {g : Nat → List Nat} {h : File → List Nat} (k : Nat)
    (same : ∀ i f, files[i]? = some f → (g (k + i)).Perm (h f)) :
    ((List.range' k files.length).flatMap g).Perm (files.flatMap h) := by
  induction files generalizing k with
  | nil => exact List.Perm.refl _
  | cons f rest ih =>
    rw [List.length_cons, List.range'_succ, List.flatMap_cons, List.flatMap_cons]
    refine (same 0 f rfl).append (ih (k + 1) fun i f entry => ?_)
    have := same (i + 1) f (by simpa using entry)
    rwa [Nat.add_right_comm]

theorem Built.held (built : Built s root files done) (area : done.length + 1 < inodeArea) {i : Nat}
    (entry : (root :: files)[i]? = some f) : Held s.finish (s.finish.dinode (1 + i)) f := by
  cases i with
  | zero =>
    obtain rfl := Option.some.inj entry
    exact built.root_held
  | succ i =>
    have inside := (List.getElem?_eq_some_iff.mp entry).1
    have length := built.length
    rw [List.length_cons] at inside
    have laid := built.file (show i + 2 < inodeArea by omega) (by simpa using entry)
    rw [show 1 + (i + 1) = i + 2 by omega]
    exact laid.held

theorem Built.inums (built : Built s root files done) : s.finish.inums = List.range' 1 (root :: files).length :=
  congrArg (fun n => List.range' 1 (n - 1)) built.image.inodes

theorem Built.referenced (built : Built s root files done) (area : done.length + 1 < inodeArea) :
    s.finish.referenced.Perm (List.range' nmeta (s.freeblock - nmeta)) := by
  refine List.Perm.trans ?_ built.image.blocks
  rw [State.referenced, built.inums]
  exact flatMap_range 1 fun i f entry => (built.held area entry).addresses

theorem Held.noHoles {inum : Nat} (held : Held s (s.dinode inum) f)
    (size : blocksFor (s.dinode inum).size = f.data.length) : NoHoles s inum := by
  intro bn small
  rw [size] at small
  rw [held.address bn (Nat.lt_of_lt_of_le small held.short)]
  exact held.owns.lt_of_getD.mpr small

theorem Built.root_noHoles (built : Built s root files done) (area : done.length + 1 < inodeArea) :
    NoHoles s.finish rootIno ↔ (done.length + 2) % (bSize / 16) ≠ 0 := by
  have held := built.root_held
  have count := held.count
  have entries := built.entries
  have size := built.root_size
  have limit : inodeArea = 208 := by decide
  have rounded : blocksFor (s.finish.dinode rootIno).size = root.content.length / bSize + 1 := by
    rw [size]
    unfold blocksFor bSize
    omega
  constructor
  · intro fine full
    -- The directory fills its last block, and the size goes one block further.
    have last : root.data.length = root.content.length / bSize := by
      unfold blocksFor bSize at *
      omega
    have hole := fine (root.content.length / bSize) (by omega)
    rw [held.address _ (by unfold maxFile nIndirect nDirect bSize; omega), ← last] at hole
    exact hole (List.getD_eq_default _ _ (Nat.le_refl _))
  · intro partly
    refine held.noHoles ?_
    rw [rounded, count, entries]
    unfold blocksFor bSize at *
    omega

theorem Built.wellMade (built : Built s root files done) (area : done.length + 1 < inodeArea) :
    WellMade s.finish ↔ (done.length + 2) % (bSize / 16) ≠ 0 := by
  rw [← built.root_noHoles area]
  have referenced := built.referenced area
  have below := built.image.fresh.below
  have room := built.image.fresh.room
  have among (b : Nat) : b ∈ s.finish.referenced ↔ nmeta ≤ b ∧ b < s.freeblock := by
    rw [referenced.mem_iff, List.mem_range'_1]
    omega
  constructor
  · intro made
    refine made.noHoles rootIno ?_
    rw [built.inums, List.mem_range'_1, List.length_cons]
    unfold rootIno
    omega
  · intro fine
    refine ⟨fun inum member => ?_, referenced.nodup_iff.mpr List.nodup_range', fun b member => ?_, fun b small => ?_⟩
    · rw [built.inums, List.mem_range'_1] at member
      obtain ⟨i, rfl⟩ := Nat.exists_eq_add_of_le member.1
      cases i with
      | zero => exact fine
      | succ i =>
        have length := built.length
        have inside : i < files.length := by
          have := member.2
          rw [List.length_cons] at this
          omega
        have laid := built.file (show i + 2 < inodeArea by omega) (List.getElem?_eq_getElem inside)
        rw [show 1 + (i + 1) = i + 2 by omega]
        exact laid.held.noHoles (by rw [laid.size, laid.held.count])
    · have := (among b).mp member
      omega
    · rw [finish_bitmap, isFree_bitmap, among]
      simp only [decide_eq_false_iff_not]
      omega

end WellMade

section Range

/-- All block numbers and inode numbers are in range, and the inodes were written to the inode area. -/
structure InRange (s : State) : Prop where
  blocks : ∀ inum ∈ s.inums, ∀ b ∈ s.addresses inum, b < fsSize
  inodes : ∀ inum ∈ s.inums, inum < nInodes ∧ sb.inodestart ≤ iblock inum sb ∧ iblock inum sb < sb.bmapstart
  writes : ∀ b ∈ s.inodeWrites, b < sb.bmapstart

end Range

end Xv6.Mkfs
