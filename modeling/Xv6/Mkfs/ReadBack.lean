import Xv6.Blocks.Read
import Xv6.Mkfs.EmptyFiles
import Xv6.Mkfs.Finished

set_option autoImplicit false

namespace Xv6.Mkfs

open Halting Bytes Blocks

variable {s s' : State} {din : Dinode} {f root : File} {files : List File} {done more : List HostFile}

section Read

theorem Held.bmap (held : Held s din f) (room : s.freeblock ≤ fsSize) {bn : Nat} (inside : bn < f.data.length) :
    Blocks.bmap s.sectors din bn = some (f.data.getD bn 0) := by
  have positive := held.owns.lt_of_getD.mpr inside
  have short := held.short
  unfold Blocks.bmap
  split
  next direct => rw [held.maps.direct bn direct, present, if_neg positive]
  next through =>
    have index : bn - nDirect < nIndirect := by
      unfold maxFile at short
      omega
    have indirect : f.indirect ≠ 0 := fun none => by
      have := held.needed.mp none
      omega
    have back : nDirect + (bn - nDirect) = bn := by omega
    have low : f.indirect < fsSize := by
      have := held.owns.range f.indirect (by simp [File.blocks, indirect])
      omega
    have entry := held.maps.entries indirect _ index
    rw [back] at entry
    simp only [if_pos index, held.maps.indirect, present, if_neg indirect, Option.bind_eq_bind, Option.bind_some, bread,
      if_pos low, entry, if_neg positive]

theorem slice_eq_map (l : List Byte) (off m : Nat) (inside : off + m ≤ l.length) :
    (List.range m).map (fun k => l.getD (off + k) 0) = (l.drop off).take m := by
  refine List.ext_getElem (by simp; omega) fun k first second => ?_
  simp only [List.length_map, List.length_range] at first
  rw [List.getElem_map, List.getElem_range, List.getD_eq_getElem _ _ (by omega), List.getElem_take, List.getElem_drop]

theorem Held.readLoop (held : Held s din f) (room : s.freeblock ≤ fsSize) (off n : Nat)
    (inside : off + n ≤ f.content.length) : Blocks.readLoop s.sectors din off n = some ((f.content.drop off).take n) := by
  induction off, n using Blocks.readLoop.induct with
  | case1 off =>
    rw [Blocks.readLoop, if_pos rfl, List.take_zero]
  | case2 off n more ih =>
    obtain ⟨m, cut⟩ : ∃ m, m = min n (bSize - off % bSize) := ⟨_, rfl⟩
    have within : off % bSize < bSize := Nat.mod_lt _ (by decide)
    have least : 0 < m := by omega
    have most : m ≤ n := by omega
    have fits : m ≤ bSize - off % bSize := by omega
    have index : off / bSize < f.data.length := by
      have := held.count
      unfold blocksFor bSize at *
      omega
    have low : f.data.getD (off / bSize) 0 < fsSize := by
      have := held.owns.range _ (File.getD_mem index)
      omega
    have here : (List.range m).map (fun k => s.sectors (f.data.getD (off / bSize) 0) (off % bSize + k)) =
        (f.content.drop off).take m := by
      rw [← slice_eq_map f.content off m (by omega)]
      refine List.map_congr_left fun k member => ?_
      have small := List.mem_range.mp member
      have stored := held.stores (off + k) (by omega)
      have block : (off + k) / bSize = off / bSize := by
        unfold bSize at *
        omega
      have offset : (off + k) % bSize = off % bSize + k := by
        unfold bSize at *
        omega
      rwa [block, offset] at stored
    have rest := ih (by omega)
    rw [Blocks.readLoop, if_neg more, held.bmap room index]
    simp only [Option.bind_eq_bind, Option.bind_some, bread, if_pos low]
    rw [rest, Option.bind_some, ← cut, here]
    obtain ⟨k, rfl⟩ := Nat.exists_eq_add_of_le most
    rw [Nat.add_sub_cancel_left, List.take_add, List.drop_drop]

/-- The bytes copied are those from `off` up to `min(off+n, size)`; the value is -1 in the two cases that
readi refuses, and else their number. -/
def ReadsBack (disk : Nat → Block) (inum : Nat) (bytes : List Byte) : Prop :=
  ∃ ip, ilock sb disk inum = some ip ∧ ip.size = bytes.length ∧
    ∀ off n, off < 2 ^ 32 → n < 2 ^ 32 → ∃ value,
      readi disk ip off n = some (value, (bytes.take (min ((off + n) % 2 ^ 32) ip.size)).drop off) ∧
      value = if off > ip.size ∨ (off + n) % 2 ^ 32 < off then -1
        else (((bytes.take (min ((off + n) % 2 ^ 32) ip.size)).drop off).length : Int)

theorem Laid.readi {inum : Nat} (laid : Laid s inum f) (room : s.freeblock ≤ fsSize) (plain : f.type = tFile)
    {off n : Nat} (first : off < 2 ^ 32) (second : n < 2 ^ 32) : ∃ value, readi s.sectors (s.dinode inum) off n =
        some (value, (f.content.take (min ((off + n) % 2 ^ 32) f.content.length)).drop off) ∧
      value = if off > f.content.length ∨ (off + n) % 2 ^ 32 < off then -1
        else (((f.content.take (min ((off + n) % 2 ^ 32) f.content.length)).drop off).length : Int) := by
  have file : (s.dinode inum).type ≠ tDev := by
    rw [laid.type, plain]
    decide
  simp only [Blocks.readi]
  rw [if_neg file, laid.size]
  by_cases refused : off > f.content.length ∨ (off + n) % 2 ^ 32 < off
  · rw [if_pos refused]
    refine ⟨-1, ?_, (if_pos refused).symm⟩
    rw [List.drop_eq_nil_of_le]
    rw [List.length_take]
    omega
  · have sum : (off + n) % 2 ^ 32 = off + n := by omega
    have amount : (if off + n > f.content.length then f.content.length - off else n) =
        min (off + n) f.content.length - off := by
      split <;> omega
    have count : ((f.content.take (min (off + n) f.content.length)).drop off).length =
        min (off + n) f.content.length - off := by
      rw [List.length_drop, List.length_take]
      omega
    rw [if_neg refused, if_neg refused, sum, amount, laid.held.readLoop room off _ (by omega), count, List.drop_take]
    exact ⟨_, rfl, rfl⟩

theorem Laid.readsBack {inum : Nat} (laid : Laid s inum f) (room : s.freeblock ≤ fsSize) (plain : f.type = tFile)
    (area : inum < inodeArea) : ReadsBack s.sectors inum f.content := by
  have low : iblock inum sb < fsSize := Nat.lt_trans (iblock_lt_bmapstart.mpr area) (by decide)
  refine ⟨s.dinode inum, ?_, laid.size, fun off n first second => ?_⟩
  · have typed : (s.dinode inum).type ≠ 0 := by
      rw [laid.type, plain]
      decide
    simp only [ilock, bread, if_pos low, Option.bind_eq_bind, Option.bind_some]
    exact if_neg typed
  · rw [laid.size]
    exact laid.readi room plain first second

end Read

section Bitmap

theorem bitmap_bit (used t j : Nat) (small : j < 8) : (bitmap used t).getLsbD j = decide (8 * t + j < used) := by
  have bit := isFree_bitmap used (8 * t + j)
  rw [isFree_eq, show (8 * t + j) / 8 = t by omega, show (8 * t + j) % 8 = j by omega] at bit
  have set : (bitmap used t).getLsbD j = !decide (used ≤ 8 * t + j) := by simpa using congrArg (!·) bit
  rw [set, ← decide_not, decide_eq_decide]
  omega

theorem bitmap_full {used t : Nat} (inside : 8 * t + 8 ≤ used) : bitmap used t = BitVec.allOnes 8 := by
  refine BitVec.eq_of_getLsbD_eq fun j small => ?_
  rw [bitmap_bit used t j small, BitVec.getLsbD_allOnes]
  simp
  omega

theorem bitmap_clear {used t : Nat} (outside : used ≤ 8 * t) : bitmap used t = 0 := by
  refine BitVec.eq_of_getLsbD_eq fun j small => ?_
  rw [bitmap_bit used t j small]
  simp
  omega

theorem bitmap_dinode {used : Nat} (enough : 64 < used) : (readDinode (bitmap used) 0).size = 2 ^ 32 - 1 ∨
      (readDinode (bitmap used) 0).size ≠ 0 ∧ (readDinode (bitmap used) 0).addrs 0 = 0 := by
  rcases Nat.lt_or_ge used 96 with few | many
  · right
    have byte : bitmap used 8 ≠ 0 := by
      intro zero
      have bit := bitmap_bit used 8 0 (by decide)
      rw [zero] at bit
      simp at bit
      omega
    constructor
    · show getLe (bitmap used) 8 4 ≠ 0
      have : (bitmap used 8).toNat ≠ 0 := fun zero => byte (BitVec.eq_of_toNat_eq zero)
      rw [getLe]
      omega
    · show getLe (bitmap used) (0 + 12 + 4 * 0) 4 = 0
      simp [getLe, bitmap_clear (show used ≤ 8 * 12 by omega), bitmap_clear (show used ≤ 8 * 13 by omega),
        bitmap_clear (show used ≤ 8 * 14 by omega), bitmap_clear (show used ≤ 8 * 15 by omega)]
  · left
    show getLe (bitmap used) (0 + 8) 4 = 2 ^ 32 - 1
    simp [getLe, bitmap_full (show 8 * 8 + 8 ≤ used by omega), bitmap_full (show 8 * 9 + 8 ≤ used by omega),
      bitmap_full (show 8 * 10 + 8 ≤ used by omega), bitmap_full (show 8 * 11 + 8 ≤ used by omega)]

end Bitmap

section ReadBack

theorem bitmap_not_read {disk : Nat → Block} {used : Nat} {bytes : List Byte} (written : disk sb.bmapstart = bitmap used)
    (enough : 64 < used) (small : bytes.length < 2 ^ 32 - 1) : ¬ ReadsBack disk inodeArea bytes := by
  rintro ⟨ip, locked, size, reads⟩
  have place : iblock inodeArea sb = sb.bmapstart := by decide
  have start : inodeArea % ipb * dinodeSize = 0 := by decide
  have low : sb.bmapstart < fsSize := by decide
  simp only [ilock, place, start, bread, if_pos low, written, Option.bind_eq_bind, Option.bind_some] at locked
  split at locked
  next => cases locked
  next =>
    obtain rfl := Option.some.inj locked
    rcases bitmap_dinode enough with large | ⟨nonempty, hole⟩
    · omega
    · obtain ⟨value, read, -⟩ := reads 0 1 (by decide) (by decide)
      have nothing : readLoop disk (readDinode (bitmap used) 0) 0 1 = none := by
        have first : bmap disk (readDinode (bitmap used) 0) (0 / bSize) = none := by
          simp [bmap, present, hole, nDirect]
        rw [readLoop, if_neg (by decide), first]
        rfl
      have one : ¬ ((0 + 1) % 2 ^ 32 > (readDinode (bitmap used) 0).size) := by omega
      simp only [readi] at read
      by_cases device : (readDinode (bitmap used) 0).type = tDev
      · rw [if_pos device] at read
        cases read
      · rw [if_neg device, if_neg (by omega), if_neg one, nothing] at read
        cases read

theorem Built.freeblock (built : Built s root files done) : nmeta + root.data.length ≤ s.freeblock := by
  have total := built.image.blocks.length_eq
  rw [List.flatMap_cons, List.length_append, List.length_range'] at total
  have : root.data.length ≤ root.blocks.length := by
    unfold File.blocks
    split <;> simp
  have := built.image.fresh.below
  omega

theorem mkfs_lost (returns : mkfs more = some s) (many : inodeArea < more.length + 2) :
    ∃ file, more[206]? = some file ∧ ¬ ReadsBack s.sectors 208 file.bytes := by
  have area : inodeArea = 208 := by decide
  have limit : inodeLimit = 216 := by decide
  obtain ⟨root, s₁, s₂, first, added, rfl⟩ := mkfs_parts returns
  obtain ⟨before, after, split, length⟩ : ∃ before after, more = before ++ after ∧ before.length = 207 :=
    ⟨more.take 207, more.drop 207, (List.take_append_drop _ _).symm, by rw [List.length_take]; omega⟩
  rw [split] at added
  obtain ⟨mid, early, late⟩ := addFiles_append added
  obtain ⟨root', files, built⟩ := first.addFiles (by rw [List.length_nil, length]; omega) early
  rw [List.nil_append] at built
  have used : 64 < s₂.freeblock := by
    have := built.freeblock
    have := (addFiles_frame late).1
    have count := built.root_laid.held.count
    have : nmeta = 59 := by decide
    rw [built.entries, length, show blocksFor (16 * (207 + 2)) = 7 by decide] at count
    omega
  have inside : 206 < before.length := by omega
  have entry : more[206]? = some before[206] := by
    rw [split, List.getElem?_append_left inside, List.getElem?_eq_getElem inside]
  have files_length := built.length
  have laid := built.image.laid 207 files[206] (by simp)
  have content : files[206].content = before[206].bytes := by
    have := congrArg (·[206]?) built.contents
    simpa [inside, files_length] using this
  have small : before[206].bytes.length < 2 ^ 32 - 1 := by
    rw [← content]
    have := laid.held.count
    have := laid.held.short
    unfold blocksFor maxFile nIndirect nDirect bSize at *
    omega
  exact ⟨before[206], entry, bitmap_not_read finish_bitmap used small⟩

theorem mkfs_readsBack (returns : mkfs more = some s) :
    (∀ i file, more[i]? = some file → ReadsBack s.sectors (i + 2) file.bytes) ↔ more.length + 2 ≤ inodeArea := by
  constructor
  · intro all
    by_contra many
    obtain ⟨file, entry, lost⟩ := mkfs_lost returns (by omega)
    exact lost (all 206 file entry)
  · intro few i file entry
    have limit : inodeArea ≤ inodeLimit := by decide
    obtain ⟨s₂, root, files, built, rfl⟩ := mkfs_built returns (by omega)
    obtain ⟨inside, rfl⟩ := List.getElem?_eq_some_iff.mp entry
    have length := built.length
    have index : i < files.length := by omega
    have content : files[i].content = more[i].bytes := by
      have := congrArg (·[i]?) built.contents
      simpa [inside, index] using this
    have laid := built.file (show i + 2 < inodeArea by omega) (List.getElem?_eq_getElem index)
    rw [← content]
    exact laid.readsBack built.image.fresh.room (built.types _ (List.getElem_mem index)) (by omega)

theorem mkfs_readsBack_full : ∃ s, mkfs (List.replicate 206 emptyFile) = some s ∧ ReadsBack s.sectors 207 [] := by
  obtain ⟨s, returns⟩ := mkfs_empty 206 (by decide)
  have all := (mkfs_readsBack returns).mpr (by rw [List.length_replicate]; decide)
  exact ⟨s, returns, all 205 emptyFile (List.getElem?_replicate_of_lt (by decide))⟩

theorem bitmap_over_inode : ∃ s, mkfs (List.replicate 207 emptyFile) = some s ∧ ¬ ReadsBack s.sectors 208 [] := by
  obtain ⟨s, returns⟩ := mkfs_empty 207 (by decide)
  obtain ⟨file, entry, lost⟩ := mkfs_lost returns (by rw [List.length_replicate]; decide)
  rw [List.getElem?_replicate_of_lt (by decide)] at entry
  obtain rfl := Option.some.inj entry
  exact ⟨s, returns, lost⟩

end ReadBack

end Xv6.Mkfs
