import Xv6.Mkfs.Image

set_option autoImplicit false

namespace Xv6.Mkfs

open Halting Bytes Blocks

variable {s : State} {din : Dinode} {f root : File} {files : List File} {done more : List HostFile} {p : List Byte}
  {i inum : Nat}

theorem fillSlot_total (din : Dinode) (j : Nat) (s : State) : ∃ din' s', (fillSlot din j).run s = (some din', s') := by
  unfold fillSlot
  split
  next => exact ⟨_, _, rfl⟩
  next => exact ⟨_, _, rfl⟩

theorem iblock_inside (length : s.length = fsSize) (low : inum < inodeLimit) : seek (iblock inum sb) < s.length := by
  rw [seek_iblock low, length]
  exact Nat.lt_trans (iblock_lt low) (by decide)

theorem rinode_total (length : s.length = fsSize) (low : inum < inodeLimit) :
    (rinode inum).run s = (some (s.dinode inum), s) := by
  unfold rinode
  rw [run_bind_some (run_rsect (iblock_inside length low)), run_pure, seek_iblock low]
  rfl

theorem winode_total (length : s.length = fsSize) (low : inum < inodeLimit) (din : Dinode) :
    ∃ s', (winode inum din).run s = (some (), s') := by
  unfold winode
  rw [run_bind_some (run_rsect (iblock_inside length low))]
  exact ⟨_, rfl⟩

theorem appendBlock_total (held : Held s din f) (fresh : Fresh s) (direct : f.content.length / bSize < nDirect)
    (room : s.freeblock < fsSize) :
    ∃ din' s', (appendBlock din f.content.length p).run s = (some din', s') ∧ s'.freeblock ≤ s.freeblock + 1 := by
  obtain ⟨din₁, mid, filled⟩ := fillSlot_total din (f.content.length / bSize) s
  have here : f.content.length / bSize ≤ f.data.length := held.count ▸ (blocksFor_bounds _).1
  obtain ⟨f', grows, -, reaches, -⟩ := held.maps.fillDirect held.owns direct held.needed.mpr here filled
  have up : mid.freeblock ≤ s.freeblock + 1 := by
    rcases fillSlot_returns filled with ⟨-, -, rfl⟩ | ⟨-, -, rfl⟩ <;> simp
  have member : din₁.addrs (f.content.length / bSize) ∈ f'.blocks := by
    rw [reaches.block]
    exact File.getD_mem reaches.length
  have small := ((held.owns.grows grows fresh.below).range _ member).2
  have found : (blockAt din (f.content.length / bSize)).run s = (some (din₁, din₁.addrs (f.content.length / bSize)), mid) := by
    unfold blockAt
    rw [if_pos direct, run_bind_some filled, run_pure]
  have inside : seek (din₁.addrs (f.content.length / bSize)) < mid.length := by
    rw [grows.length, fresh.length, seek_of_lt]
    · omega
    · unfold fsSize at *
      omega
  have index : f.content.length / bSize < maxFile := Nat.lt_of_lt_of_le direct (by decide)
  refine ⟨din₁, ?_⟩
  simp only [appendBlock]
  rw [if_pos index, run_bind_some found, run_bind_some (run_rsect inside)]
  exact ⟨_, rfl, up⟩

theorem iappend_total (image : Image s files) (entry : files[i]? = some f) (more : p ≠ [])
    (direct : f.content.length / bSize < nDirect) (fits : f.content.length % bSize + p.length ≤ bSize)
    (room : s.freeblock < fsSize) :
    ∃ s', (iappend (i + 1) p).run s = (some (), s') ∧ s'.freeblock ≤ s.freeblock + 1 := by
  have laid := image.laid i f entry
  have low : i + 1 < inodeLimit := by
    have := (List.getElem?_eq_some_iff.mp entry).1
    have := image.low
    omega
  have read := rinode_total image.fresh.length low
  have all : n1 f.content.length p = p.length := by
    refine Nat.min_eq_left ?_
    unfold bSize at *
    omega
  obtain ⟨din', mid, appended, up⟩ := appendBlock_total (p := p) laid.held image.fresh direct room
  obtain ⟨f', grows, held, fresh, -⟩ := appendBlock_returns laid.held image.fresh more appended
  have loop : (appendLoop (s.dinode (i + 1)) f.content.length p).run s =
      (some (din', f.content.length + p.length), mid) := by
    rw [appendLoop, if_neg more, run_bind_some appended, all, List.drop_length, appendLoop, if_pos rfl, run_pure]
  obtain ⟨s', written⟩ := winode_total fresh.length low { din' with size := f.content.length + p.length }
  unfold iappend
  rw [run_bind_some read, laid.size, run_bind_some loop]
  exact ⟨s', written, (winode_frame written).1 ▸ up⟩

def emptyFile : HostFile := ⟨[97], some []⟩

theorem ialloc_total (image : Image s files) (low : files.length + 1 < inodeLimit) (type : Nat) :
    ∃ s', (ialloc type).run s = (some s.freeinode, s') ∧ s'.freeblock = s.freeblock := by
  have here : s.freeinode < inodeLimit := by rw [image.inodes]; exact low
  obtain ⟨s', written⟩ := winode_total (s := { s with freeinode := s.freeinode + 1 }) image.fresh.length here
    { type, major := 0, minor := 0, nlink := 1, size := 0, addrs := fun _ => 0 }
  refine ⟨s', ?_, (winode_frame written).1⟩
  unfold ialloc
  rw [run_bind_some (run_get s), run_bind_some (run_modify _ s), run_bind_some written, run_pure]

theorem addFile_total (built : Built s root files done) (low : files.length + 2 < inodeLimit)
    (room : s.freeblock < fsSize) :
    ∃ s', (addFile rootIno emptyFile).run s = (some (), s') ∧ s'.freeblock ≤ s.freeblock + 1 := by
  obtain ⟨s₁, allocated, blocks⟩ := ialloc_total built.image low tFile
  obtain ⟨-, image⟩ := built.image.ialloc (by decide) low allocated
  have count : files.length = done.length := by simpa using congrArg List.length built.contents
  have limit : inodeLimit = 216 := by decide
  have entries := built.entries
  have size := dirent_length s.freeinode (skipUnderscore emptyFile.name)
  obtain ⟨s', linked, up⟩ := iappend_total (i := 0) (p := dirent s.freeinode (skipUnderscore emptyFile.name)) image rfl
    (fun none => by rw [none] at size; cases size) (by unfold bSize nDirect; omega)
    (by rw [size]; unfold bSize; omega) (blocks ▸ room)
  refine ⟨s', ?_, blocks ▸ up⟩
  have linked : (iappend rootIno (dirent s.freeinode (skipUnderscore emptyFile.name))).run s₁ = _ := linked
  unfold addFile
  rw [if_neg (by decide)]
  exact (run_bind_some allocated).trans (run_bind_some linked)

theorem addFiles_total (n : Nat) (built : Built s root files done) (low : files.length + n + 1 < inodeLimit)
    (room : s.freeblock + n < fsSize) :
    ∃ s', (addFiles rootIno (List.replicate n emptyFile)).run s = (some (), s') ∧ s'.freeblock ≤ s.freeblock + n := by
  induction n generalizing s root files done with
  | zero => exact ⟨s, rfl, Nat.le_refl _⟩
  | succ n ih =>
    obtain ⟨s₁, added, up⟩ := addFile_total built (by omega) (by omega)
    obtain ⟨root', new, built'⟩ := built.addFile (by omega) added
    obtain ⟨s', rest, up'⟩ := ih built' (by rw [List.length_append, List.length_singleton]; omega) (by omega)
    refine ⟨s', ?_, by omega⟩
    rw [List.replicate_succ, addFiles, run_bind_some added]
    exact rest

theorem fixRootSize_total (image : Image s files) : ∃ s', (fixRootSize rootIno).run s = (some (), s') := by
  have low : rootIno < inodeLimit := by decide
  have read := rinode_total image.fresh.length low
  obtain ⟨s', written⟩ := winode_total image.fresh.length low
    { s.dinode rootIno with size := ((s.dinode rootIno).size / bSize + 1) * bSize }
  exact ⟨s', (run_bind_some read).trans written⟩

theorem mkfs_of_run (ran : (main more).run start = (some (), s)) : mkfs more = some s := by
  unfold mkfs
  generalize (main more).run start = result at ran
  subst ran
  rfl

theorem mkfs_empty (n : Nat) (low : n + 1 < inodeLimit) : ∃ s, mkfs (List.replicate n emptyFile) = some s := by
  have limit : inodeLimit = 216 := by decide
  obtain ⟨s₁, allocated, blocks₁⟩ := ialloc_total image_formatted (by decide) tDir
  obtain ⟨-, image₁⟩ := image_formatted.ialloc (by decide) (by decide) allocated
  have allocated : (ialloc tDir).run formatted = (some rootIno, s₁) := allocated
  have first : formatted.freeblock = 59 := by decide
  have room : fsSize = 1000 := rfl
  obtain ⟨s₂, self, up₂⟩ := iappend_total (i := 0) (p := dirent rootIno [dot]) image₁ rfl (by decide) (by decide)
    (by decide) (by omega)
  obtain ⟨root₂, content₂, type₂, image₂⟩ := image₁.iappend (i := 0) rfl (by decide) self
  have length₂ : root₂.content.length = 16 := by rw [content₂]; decide
  obtain ⟨s₃, parent, up₃⟩ := iappend_total (i := 0) (p := dirent rootIno [dot, dot]) image₂ rfl (by decide)
    (by rw [length₂]; decide) (by rw [length₂]; decide) (by omega)
  obtain ⟨root₃, content₃, type₃, image₃⟩ := image₂.iappend (i := 0) rfl (by rw [type₂]; decide) parent
  have built : Built s₃ root₃ [] [] := by
    refine ⟨image₃, type₃.trans type₂, ?_, fun f member => (by cases member), rfl⟩
    rw [content₃, List.length_append, length₂, dirent_length]
    rfl
  obtain ⟨s₄, added, up₄⟩ := addFiles_total n built (by simp; omega) (by omega)
  obtain ⟨root₄, files₄, built₄⟩ := built.addFiles (by simp; omega) added
  obtain ⟨s₅, fixed⟩ := fixRootSize_total built₄.image
  obtain rfl := fixRootSize_returns fixed
  have small : s₄.fixRoot.freeblock < bSize * 8 := by
    show s₄.freeblock < 4096
    omega
  have ran : ∃ s, (main (List.replicate n emptyFile)).run start = (some (), s) := by
    have self : (iappend rootIno (dirent rootIno [dot])).run s₁ = _ := self
    have parent : (iappend rootIno (dirent rootIno [dot, dot])).run s₂ = _ := parent
    unfold main
    rw [run_bind_some run_format, run_bind_some allocated, if_pos (by decide), run_bind_some self, run_bind_some parent,
      run_bind_some added, run_bind_some fixed, run_bind_some (run_get _), balloc, if_pos small, wsect, run_modify]
    exact ⟨_, rfl⟩
  obtain ⟨s, ran⟩ := ran
  exact ⟨s, mkfs_of_run ran⟩

end Xv6.Mkfs
