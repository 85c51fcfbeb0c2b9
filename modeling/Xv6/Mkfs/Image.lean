import Xv6.Mkfs.Append

set_option autoImplicit false

namespace Xv6.Mkfs

open Halting Bytes Blocks

variable {s s' : State} {din : Dinode} {i inum : Nat} {p : List Byte} {f f' g : File} {files : List File}

section Inodes

def State.dinode (s : State) (inum : Nat) : Dinode :=
  readDinode (s.sectors (iblock inum sb)) (inum % ipb * dinodeSize)

-- The inode numbers below which an inode write stays below the data blocks.
def inodeLimit : Nat := (nmeta - sb.inodestart) * ipb

theorem iblock_lt (low : inum < inodeLimit) : iblock inum sb < nmeta := by
  simp only [inodeLimit, iblock, nmeta, sb, ninodeblocks, nbitmap, nlog, logSize, maxOpBlocks, nInodes, fsSize, ipb,
    bSize] at *
  omega

theorem ne_iblock {b : Nat} (below : b < sb.inodestart) : b ≠ iblock inum sb :=
  Nat.ne_of_lt (Nat.lt_of_lt_of_le below (Nat.le_add_left _ _))

theorem seek_iblock (low : inum < inodeLimit) : seek (iblock inum sb) = iblock inum sb := by
  refine seek_of_lt (Nat.lt_trans (iblock_lt low) ?_)
  decide

theorem rinode_returns (low : inum < inodeLimit) (returns : (rinode inum).run s = (some din, s')) :
    din = s.dinode inum ∧ s = s' := by
  obtain ⟨buf, mid, read, returns⟩ := bind_returns returns
  obtain ⟨-, rfl, rfl⟩ := rsect_returns read
  obtain ⟨rfl, rfl⟩ := pure_returns returns
  rw [seek_iblock low]
  exact ⟨rfl, rfl⟩

def State.putInode (s : State) (inum : Nat) (din : Dinode) : State := { s with
  sectors := Function.update s.sectors (iblock inum sb)
    (writeDinode (s.sectors (iblock inum sb)) (inum % ipb * dinodeSize) din)
  inodeWrites := iblock inum sb :: s.inodeWrites }

theorem winode_returns (low : inum < inodeLimit) (returns : (winode inum din).run s = (some (), s')) :
    s' = s.putInode inum din := by
  obtain ⟨buf, mid, read, returns⟩ := bind_returns returns
  obtain ⟨inside, rfl, rfl⟩ := rsect_returns read
  obtain ⟨_, mid, written, returns⟩ := bind_returns returns
  obtain rfl := (Prod.mk.inj written).2
  obtain rfl := (Prod.mk.inj returns).2
  rw [seek_iblock low] at *
  simp only [State.putInode, State.mk.injEq, true_and, and_true]
  omega

theorem putInode_other (apart : i ≠ inum) : (s.putInode inum din).dinode i = s.dinode i := by
  unfold State.dinode State.putInode
  by_cases block : iblock i sb = iblock inum sb
  · simp only [block, Function.update_self]
    refine readDinode_apart ?_
    simp only [iblock, ipb, bSize, dinodeSize] at *
    omega
  · simp only [Function.update_of_ne block]

theorem putInode_sectors {b : Nat} (low : inum < inodeLimit) (data : nmeta ≤ b) :
    (s.putInode inum din).sectors b = s.sectors b := by
  have := iblock_lt low
  unfold State.putInode
  simp only [Function.update_of_ne (show b ≠ iblock inum sb by omega)]

theorem putInode_first {b : Nat} (below : b < sb.inodestart) : (s.putInode inum din).sectors b = s.sectors b :=
  Function.update_of_ne (ne_iblock below) _ _

theorem putInode_type : ((s.putInode inum din).dinode inum).type = din.type % 2 ^ 16 := by
  unfold State.dinode State.putInode
  simp only [Function.update_self]
  exact readDinode_type

theorem putInode_size : ((s.putInode inum din).dinode inum).size = din.size % 2 ^ 32 := by
  unfold State.dinode State.putInode
  simp only [Function.update_self]
  exact readDinode_size

theorem putInode_addrs {j : Nat} (index : j ≤ nDirect) :
    ((s.putInode inum din).dinode inum).addrs j = din.addrs j % 2 ^ 32 := by
  unfold State.dinode State.putInode
  simp only [Function.update_self]
  exact readDinode_addrs index

end Inodes

section Invariant

structure Laid (s : State) (inum : Nat) (f : File) : Prop where
  held : Held s (s.dinode inum) f
  size : (s.dinode inum).size = f.content.length
  type : (s.dinode inum).type = f.type

/-- The inodes from 1 on are the given files, which share out the data blocks below `freeblock`. -/
structure Image (s : State) (files : List File) : Prop where
  fresh : Fresh s
  inodes : s.freeinode = files.length + 1
  low : files.length < inodeLimit
  laid : ∀ i f, files[i]? = some f → Laid s (i + 1) f
  blocks : (files.flatMap File.blocks).Perm (List.range' nmeta (s.freeblock - nmeta))
  superblock : s.sectors 1 = memmove zeroes 0 sbSize sbBytes
  writes : ∀ b ∈ s.inodeWrites, ∃ inum, inum < s.freeinode ∧ b = iblock inum sb

theorem Held.congr (held : Held s din f) (same : ∀ b ∈ f.blocks, s'.sectors b = s.sectors b)
    (more : s.freeblock ≤ s'.freeblock) : Held s' din f := by
  refine ⟨held.maps.congr same, fun t small => ?_, ⟨held.owns.nodup, fun b member => ?_⟩, held.needed, held.count,
    held.short⟩
  · have inside : t / bSize < f.data.length := by
      have := held.count
      unfold blocksFor bSize at *
      omega
    rw [same _ (File.getD_mem inside)]
    exact held.stores t small
  · have := held.owns.range b member
    omega

theorem Held.addrs_lt (held : Held s din f) (room : s.freeblock ≤ fsSize) {j : Nat} (index : j ≤ nDirect) :
    din.addrs j < fsSize := by
  have among {b : Nat} (member : b ∈ f.blocks) : b < fsSize := by
    have := held.owns.range b member
    omega
  have zero : 0 < fsSize := by decide
  rcases Nat.lt_or_eq_of_le index with direct | rfl
  · rw [held.maps.direct j direct]
    by_cases inside : j < f.data.length
    · exact among (File.getD_mem inside)
    · rw [List.getD_eq_default _ _ (by omega)]
      exact zero
  · rw [held.maps.indirect]
    by_cases none : f.indirect = 0
    · rw [none]
      exact zero
    · exact among (by simp [File.blocks, none])

theorem Held.putInode (held : Held s din f) (low : inum < inodeLimit) (room : s.freeblock ≤ fsSize) (size : Nat) :
    Held (s.putInode inum { din with size }) ((s.putInode inum { din with size }).dinode inum) f := by
  have kept : Held (s.putInode inum { din with size }) din f :=
    held.congr (fun b member => putInode_sectors low (held.owns.range b member).1) (Nat.le_refl _)
  have same {j : Nat} (index : j ≤ nDirect) :
      ((s.putInode inum { din with size }).dinode inum).addrs j = din.addrs j := by
    rw [putInode_addrs index]
    refine Nat.mod_eq_of_lt (Nat.lt_trans (held.addrs_lt room index) ?_)
    decide
  refine ⟨⟨fun j direct => ?_, ?_, kept.maps.entries⟩, kept.stores, kept.owns, kept.needed, kept.count, kept.short⟩
  · rw [same (Nat.le_of_lt direct)]
    exact kept.maps.direct j direct
  · rw [same (Nat.le_refl _)]
    exact kept.maps.indirect

theorem flatMap_set (entry : files[i]? = some f) {new : List Nat} (taken : f'.blocks.Perm (f.blocks ++ new)) :
    ((files.set i f').flatMap File.blocks).Perm (files.flatMap File.blocks ++ new) := by
  induction files generalizing i with
  | nil => simp at entry
  | cons first rest ih =>
    cases i with
    | zero =>
      obtain rfl := Option.some.inj entry
      simp only [List.set_cons_zero, List.flatMap_cons]
      refine (taken.append_right _).trans ?_
      rw [List.append_assoc, List.append_assoc]
      exact List.perm_append_comm.append_left _
    | succ i =>
      simp only [List.set_cons_succ, List.flatMap_cons, List.append_assoc]
      exact (ih entry).append_left _

theorem Image.disjoint (image : Image s files) {j : Nat} (first : files[i]? = some f) (second : files[j]? = some g)
    (apart : i ≠ j) : List.Disjoint f.blocks g.blocks := by
  have nodup : (files.flatMap File.blocks).Nodup := image.blocks.nodup_iff.mpr List.nodup_range'
  have pairs := List.pairwise_iff_getElem.mp (List.nodup_flatMap.mp nodup).2
  obtain ⟨inside, rfl⟩ := List.getElem?_eq_some_iff.mp first
  obtain ⟨inside', rfl⟩ := List.getElem?_eq_some_iff.mp second
  rcases Nat.lt_or_gt_of_ne apart with before | after
  · exact pairs i j inside inside' before
  · exact fun b left right => pairs j i inside' inside after right left

theorem Laid.congr (laid : Laid s inum f) (same : ∀ b ∈ f.blocks, s'.sectors b = s.sectors b)
    (more : s.freeblock ≤ s'.freeblock) (dinode : s'.dinode inum = s.dinode inum) : Laid s' inum f := by
  obtain ⟨held, size, type⟩ := laid
  refine ⟨?_, ?_, ?_⟩ <;> rw [dinode]
  · exact held.congr same more
  · exact size
  · exact type

theorem Grows.dinode (grows : Grows s s' f f') (owns : Owns s' f') (low : inum < inodeLimit) :
    s'.dinode inum = s.dinode inum := by
  unfold State.dinode
  rw [grows.others]
  intro member
  have := owns.range _ member
  have := iblock_lt low
  omega

theorem Image.replace (image : Image s files) (entry : files[i]? = some f) (grows : Grows s s' f f')
    (held : Held s' din f') (fresh : Fresh s') (type : din.type = f.type) (known : f.type < 2 ^ 16) :
    Image (s'.putInode (i + 1) { din with size := f'.content.length }) (files.set i f') := by
  have inside := (List.getElem?_eq_some_iff.mp entry).1
  have low := image.low
  have room := fresh.room
  have here : i + 1 < inodeLimit := by omega
  have small : f'.content.length < 2 ^ 32 := by
    have := held.count
    have := held.short
    unfold blocksFor maxFile nIndirect nDirect bSize at *
    omega
  refine ⟨⟨fresh.length, fresh.below, fresh.room, fun b above inside => ?_⟩, ?_, ?_, fun j g member => ?_, ?_, ?_, ?_⟩
  · rw [putInode_sectors here (Nat.le_trans fresh.below above)]
    exact fresh.empty b above inside
  · rw [List.length_set]
    exact grows.freeinode.trans image.inodes
  · rw [List.length_set]
    exact low
  · rw [List.getElem?_set] at member
    split at member
    next same =>
      subst same
      obtain rfl : f' = g := by simpa [inside] using member
      refine ⟨held.putInode here room _, ?_, ?_⟩
      · rw [putInode_size]
        exact Nat.mod_eq_of_lt small
      · rw [putInode_type, grows.type]
        exact (congrArg (· % 2 ^ 16) type).trans (Nat.mod_eq_of_lt known)
    next apart =>
      have old := image.laid j g member
      have below := (List.getElem?_eq_some_iff.mp member).1
      have disjoint (b : Nat) (own : b ∈ g.blocks) : b ∉ f'.blocks := by
        intro shared
        rcases List.mem_append.mp (grows.taken.mem_iff.mp shared) with before | new
        · exact image.disjoint entry member apart before own
        · have := old.held.owns.range b own
          have := List.mem_range'_1.mp new
          omega
      refine old.congr (fun b own => ?_) grows.more ?_
      · rw [putInode_sectors here (old.held.owns.range b own).1]
        exact grows.others b (disjoint b own)
      · rw [putInode_other (by omega)]
        exact grows.dinode held.owns (by omega)
  · refine (flatMap_set entry grows.taken).trans ?_
    refine (image.blocks.append_right _).trans ?_
    have below := image.fresh.below
    have more := grows.more
    have start : s.freeblock = nmeta + (s.freeblock - nmeta) := by omega
    have size : s'.freeblock - nmeta = (s.freeblock - nmeta) + (s'.freeblock - s.freeblock) := by omega
    show List.Perm _ (List.range' nmeta (s'.freeblock - nmeta))
    rw [size, ← List.range'_append_1, ← start]
  · have outside : 1 ∉ f'.blocks := fun member => by
      have : 1 < nmeta := by decide
      have := held.owns.range 1 member
      omega
    rw [putInode_first (by decide), grows.others 1 outside]
    exact image.superblock
  · intro b written
    show ∃ inum, inum < s'.freeinode ∧ _
    rw [grows.freeinode]
    rcases List.mem_cons.mp written with rfl | old
    · exact ⟨i + 1, by rw [image.inodes]; omega, rfl⟩
    · rw [grows.inodeWrites] at old
      exact image.writes b old

theorem Image.iappend (image : Image s files) (entry : files[i]? = some f) (known : f.type < 2 ^ 16)
    (returns : (Mkfs.iappend (i + 1) p).run s = (some (), s')) :
    ∃ f', f'.content = f.content ++ p ∧ f'.type = f.type ∧ Image s' (files.set i f') := by
  have inside := (List.getElem?_eq_some_iff.mp entry).1
  have low := image.low
  have here : i + 1 < inodeLimit := by omega
  obtain ⟨din, mid, read, returns⟩ := bind_returns returns
  obtain ⟨rfl, rfl⟩ := rinode_returns here read
  obtain ⟨⟨din, last⟩, mid, appended, written⟩ := bind_returns returns
  have laid := image.laid i f entry
  obtain ⟨f', grows, held, fresh, content, rfl⟩ := appendLoop_returns laid.held image.fresh laid.size appended
  obtain rfl := winode_returns here written
  have type := (appendLoop_frame appended).2.2
  exact ⟨f', content, grows.type, image.replace entry grows held fresh (type.trans laid.type) known⟩

end Invariant

section Files

theorem ialloc_returns {type : Nat} (low : s.freeinode < inodeLimit) (returns : (ialloc type).run s = (some inum, s')) :
    inum = s.freeinode ∧ s' = ({ s with freeinode := s.freeinode + 1 } : State).putInode s.freeinode
      { type, major := 0, minor := 0, nlink := 1, size := 0, addrs := fun _ => 0 } := by
  obtain ⟨_, _, got, returns⟩ := bind_returns returns
  obtain ⟨rfl, rfl⟩ : _ ∧ _ := by simpa using got
  obtain ⟨_, mid, counted, returns⟩ := bind_returns returns
  obtain rfl := (Prod.mk.inj counted).2
  obtain ⟨_, last, written, returns⟩ := bind_returns returns
  obtain ⟨rfl, rfl⟩ := pure_returns returns
  exact ⟨rfl, winode_returns low written⟩

def noFile (type : Nat) : File := ⟨type, [], [], 0⟩

theorem held_noFile (s : State) (type : Nat) :
    Held s { type, major := 0, minor := 0, nlink := 1, size := 0, addrs := fun _ => 0 } (noFile type) := by
  refine ⟨⟨fun j _ => rfl, rfl, fun held => absurd rfl held⟩, fun t small => absurd small (Nat.not_lt_zero t),
    ⟨List.nodup_nil, fun b member => absurd member List.not_mem_nil⟩, by simp [noFile],
    show 0 = blocksFor 0 by decide, ?_⟩
  exact Nat.zero_le _

theorem Image.ialloc (image : Image s files) {type : Nat} (known : type < 2 ^ 16)
    (low : files.length + 1 < inodeLimit) (returns : (Mkfs.ialloc type).run s = (some inum, s')) :
    inum = files.length + 1 ∧ Image s' (files ++ [noFile type]) := by
  have here : s.freeinode < inodeLimit := by rw [image.inodes]; exact low
  obtain ⟨rfl, rfl⟩ := ialloc_returns here returns
  refine ⟨image.inodes, ⟨?_, ?_, ?_, fun j g member => ?_, ?_, ?_, ?_⟩⟩
  · refine ⟨image.fresh.length, image.fresh.below, image.fresh.room, fun b above inside => ?_⟩
    rw [putInode_sectors here (Nat.le_trans image.fresh.below above)]
    exact image.fresh.empty b above inside
  · rw [List.length_append, List.length_singleton, ← image.inodes]
    rfl
  · rw [List.length_append, List.length_singleton]
    exact low
  · rcases Nat.lt_or_ge j files.length with before | after
    · rw [List.getElem?_append_left before] at member
      have old := image.laid j g member
      refine old.congr (fun b own => putInode_sectors here (old.held.owns.range b own).1) (Nat.le_refl _) ?_
      have apart : j + 1 ≠ s.freeinode := by rw [image.inodes]; omega
      rw [putInode_other apart]
      rfl
    · have last : j = files.length := by
        have := (List.getElem?_eq_some_iff.mp member).1
        simp only [List.length_append, List.length_singleton] at this
        omega
      obtain rfl : noFile type = g := by simpa [last] using member
      rw [last, ← image.inodes]
      have held := held_noFile { s with freeinode := s.freeinode + 1 } type
      refine ⟨held.putInode here image.fresh.room 0, putInode_size, ?_⟩
      rw [putInode_type]
      exact Nat.mod_eq_of_lt known
  · show List.Perm _ (List.range' nmeta (s.freeblock - nmeta))
    rw [List.flatMap_append]
    simpa [noFile, File.blocks] using image.blocks
  · rw [putInode_first (by decide)]
    exact image.superblock
  · intro b written
    rcases List.mem_cons.mp written with rfl | old
    · exact ⟨s.freeinode, Nat.lt_succ_self _, rfl⟩
    · obtain ⟨inum, below, rfl⟩ := image.writes b old
      exact ⟨inum, Nat.lt_succ_of_lt below, rfl⟩

structure Built (s : State) (root : File) (files : List File) (done : List HostFile) : Prop where
  image : Image s (root :: files)
  dir : root.type = tDir
  entries : root.content.length = 16 * (done.length + 2)
  types : ∀ f ∈ files, f.type = tFile
  contents : files.map File.content = done.map HostFile.bytes

theorem dirent_length (inum : Nat) (name : List Byte) : (dirent inum name).length = 16 := by
  simp only [dirent, strncpy, List.length_cons, List.length_append, List.length_take, List.length_replicate, dirSiz]
  omega

theorem Image.appendAll (image : Image s files) (entry : files[i]? = some f) (known : f.type < 2 ^ 16)
    {chunks : List Chunk} (returns : (Mkfs.appendAll (i + 1) chunks).run s = (some (), s')) :
    ∃ f', f'.content = f.content ++ chunks.flatMap Subtype.val ∧ f'.type = f.type ∧ Image s' (files.set i f') := by
  induction chunks generalizing s f files with
  | nil =>
    obtain ⟨-, rfl⟩ := pure_returns returns
    obtain ⟨inside, rfl⟩ := List.getElem?_eq_some_iff.mp entry
    refine ⟨files[i], (List.append_nil _).symm, rfl, ?_⟩
    rw [List.set_getElem_self]
    exact image
  | cons chunk rest ih =>
    obtain ⟨_, mid, first, returns⟩ := bind_returns returns
    obtain ⟨f₁, content, type, image₁⟩ := image.iappend entry known first
    have inside := (List.getElem?_eq_some_iff.mp entry).1
    obtain ⟨f', content', type', image'⟩ := ih image₁ (List.getElem?_set_self inside) (type ▸ known) returns
    refine ⟨f', ?_, type'.trans type, ?_⟩
    · rw [content', content, List.flatMap_cons, List.append_assoc]
    · rwa [List.set_set] at image'

theorem Built.addFile {root : File} {done : List HostFile} {file : HostFile} (built : Built s root files done)
    (low : files.length + 2 < inodeLimit) (returns : (Mkfs.addFile rootIno file).run s = (some (), s')) :
    ∃ root' new, Built s' root' (files ++ [new]) (done ++ [file]) := by
  unfold Mkfs.addFile at returns
  split at returns
  next => cases panic_returns returns
  next =>
    split at returns
    next => cases panic_returns returns
    next chunks opened =>
      obtain ⟨inum, mid, allocated, returns⟩ := bind_returns returns
      obtain ⟨rfl, image⟩ := built.image.ialloc (by decide) low allocated
      obtain ⟨_, mid, linked, returns⟩ := bind_returns returns
      obtain ⟨root', content, type, image⟩ := image.iappend (i := 0) rfl (by rw [built.dir]; decide) linked
      simp only [List.cons_append, List.set_cons_zero] at image
      obtain ⟨new, bytes, kind, image⟩ := image.appendAll (i := files.length + 1) (f := noFile tFile) (by simp) (by decide) returns
      refine ⟨root', new, ⟨?_, type.trans built.dir, ?_, fun f member => ?_, ?_⟩⟩
      · simpa using image
      · rw [content, List.length_append, dirent_length, built.entries, List.length_append, List.length_singleton]
        omega
      · rcases List.mem_append.mp member with old | last
        · exact built.types f old
        · rw [List.mem_singleton.mp last]
          exact kind
      · have whole : file.bytes = chunks.flatMap Subtype.val := by rw [HostFile.bytes, opened]; rfl
        rw [List.map_append, List.map_append, built.contents, List.map_singleton, List.map_singleton, bytes, whole]
        rfl

theorem Built.addFiles {root : File} {done more : List HostFile} (built : Built s root files done)
    (low : files.length + more.length + 1 < inodeLimit) (returns : (Mkfs.addFiles rootIno more).run s = (some (), s')) :
    ∃ root' files', Built s' root' files' (done ++ more) := by
  induction more generalizing s root files done with
  | nil =>
    obtain ⟨-, rfl⟩ := pure_returns returns
    rw [List.append_nil]
    exact ⟨root, files, built⟩
  | cons file rest ih =>
    obtain ⟨_, mid, first, returns⟩ := bind_returns returns
    rw [List.length_cons] at low
    obtain ⟨root', new, built'⟩ := built.addFile (by omega) first
    have result := ih built' (by rw [List.length_append, List.length_singleton]; omega) returns
    rwa [List.append_assoc] at result

end Files

section Main

theorem wipe_start (n : Nat) (small : n ≤ fsSize) : (wipe n).run start = (some (), { start with length := n }) := by
  induction n with
  | zero => rfl
  | succ n ih =>
    have seeks : seek n = n := seek_of_lt (by unfold fsSize at small; omega)
    rw [wipe, run_bind_some (ih (by omega)), wsect, run_modify, seeks]
    simp [start]

def formatted : State := { start with
  sectors := Function.update start.sectors 1 (memmove zeroes 0 sbSize sbBytes)
  length := fsSize }

theorem run_format : format.run start = (some (), formatted) := by
  have seeks : seek 1 = 1 := seek_of_lt (by decide)
  have length : max fsSize (1 + 1) = fsSize := by decide
  rw [format, run_bind_some (wipe_start fsSize (Nat.le_refl _)), wsect, run_modify, seeks]
  simp only [formatted, length]

theorem image_formatted : Image formatted [] := by
  refine ⟨⟨rfl, Nat.le_refl _, by decide, fun b above _ => ?_⟩, rfl, by decide, fun i f member => ?_, ?_, ?_, ?_⟩
  · have low : nmeta ≤ b := above
    have : 1 < nmeta := by decide
    have apart : b ≠ 1 := by omega
    simp only [formatted, Function.update_of_ne apart]
    rfl
  · simp at member
  · simp [formatted, start]
  · simp only [formatted, Function.update_self]
  · intro b member
    cases member

def State.fixRoot (s : State) : State :=
  s.putInode rootIno { s.dinode rootIno with size := ((s.dinode rootIno).size / bSize + 1) * bSize }

def State.finish (s : State) : State := { s.fixRoot with
  sectors := Function.update s.fixRoot.sectors sb.bmapstart (bitmap s.freeblock)
  length := max s.length (sb.bmapstart + 1) }

theorem fixRootSize_returns (returns : (fixRootSize rootIno).run s = (some (), s')) : s' = s.fixRoot := by
  obtain ⟨din, mid, read, written⟩ := bind_returns returns
  obtain ⟨rfl, rfl⟩ := rinode_returns (by decide) read
  exact winode_returns (by decide) written

theorem balloc_returns {used : Nat} (returns : (balloc used).run s = (some (), s')) : s' = { s with
      sectors := Function.update s.sectors sb.bmapstart (bitmap used)
      length := max s.length (sb.bmapstart + 1) } := by
  have seeks : seek sb.bmapstart = sb.bmapstart := seek_of_lt (by decide)
  unfold balloc at returns
  split at returns
  next =>
    rw [wsect, run_modify, seeks] at returns
    exact (Prod.mk.inj returns).2.symm
  next => cases panic_returns returns

theorem mkfs_parts {more : List HostFile} (returns : mkfs more = some s') :
    ∃ root s₁ s₂, Built s₁ root [] [] ∧ (addFiles rootIno more).run s₁ = (some (), s₂) ∧ s' = s₂.finish := by
  have returned : (main more).run start = (some (), s') := by
    unfold mkfs at returns
    split at returns
    next result =>
      obtain rfl := Option.some.inj returns
      exact result
    next => cases returns
  unfold main at returned
  obtain ⟨_, s₀, first, returned⟩ := bind_returns returned
  rw [run_format] at first
  obtain rfl := (Prod.mk.inj first).2
  obtain ⟨inum, s₀, allocated, returned⟩ := bind_returns returned
  obtain ⟨rfl, image⟩ := image_formatted.ialloc (by decide) (by decide) allocated
  rw [if_pos (by decide)] at returned
  obtain ⟨_, s₁, self, returned⟩ := bind_returns returned
  obtain ⟨root, content, type, image⟩ := image.iappend (i := 0) rfl (by decide) self
  obtain ⟨_, s₁, parent, returned⟩ := bind_returns returned
  obtain ⟨root', content', type', image⟩ := image.iappend (i := 0) rfl (by rw [type]; decide) parent
  obtain ⟨_, s₂, added, returned⟩ := bind_returns returned
  obtain ⟨_, s₃, fixed, returned⟩ := bind_returns returned
  obtain rfl := fixRootSize_returns fixed
  obtain ⟨_, _, got, returned⟩ := bind_returns returned
  obtain ⟨rfl, rfl⟩ : _ ∧ _ := by simpa using got
  obtain rfl := balloc_returns returned
  refine ⟨root', s₁, s₂, ⟨image, type'.trans type, ?_, fun f member => ?_, rfl⟩, added, rfl⟩
  · rw [content', content, List.length_append, List.length_append, dirent_length, dirent_length]
    rfl
  · cases member

end Main

section Counters

theorem winode_frame (returns : (winode inum din).run s = (some (), s')) :
    s'.freeblock = s.freeblock ∧ s'.freeinode = s.freeinode := by
  obtain ⟨buf, mid, read, returns⟩ := bind_returns returns
  obtain ⟨-, rfl, rfl⟩ := rsect_returns read
  obtain ⟨_, mid, written, returns⟩ := bind_returns returns
  obtain rfl := (Prod.mk.inj written).2
  obtain rfl := (Prod.mk.inj returns).2
  exact ⟨rfl, rfl⟩

theorem iappend_frame (returns : (iappend inum p).run s = (some (), s')) :
    s.freeblock ≤ s'.freeblock ∧ s'.freeinode = s.freeinode := by
  obtain ⟨din, mid, read, returns⟩ := bind_returns returns
  obtain ⟨buf, _, read, found⟩ := bind_returns read
  obtain ⟨-, rfl, rfl⟩ := rsect_returns read
  obtain ⟨-, rfl⟩ := pure_returns found
  obtain ⟨⟨din, last⟩, mid, appended, written⟩ := bind_returns returns
  obtain ⟨blocks, inodes⟩ := winode_frame written
  obtain ⟨up, same, -⟩ := appendLoop_frame appended
  rw [blocks, inodes]
  exact ⟨up, same⟩

theorem appendAll_frame {chunks : List Chunk} (returns : (appendAll inum chunks).run s = (some (), s')) :
    s.freeblock ≤ s'.freeblock ∧ s'.freeinode = s.freeinode := by
  induction chunks generalizing s with
  | nil =>
    obtain ⟨-, rfl⟩ := pure_returns returns
    exact ⟨Nat.le_refl _, rfl⟩
  | cons chunk rest ih =>
    obtain ⟨_, mid, first, returns⟩ := bind_returns returns
    obtain ⟨up, same⟩ := iappend_frame first
    obtain ⟨up', same'⟩ := ih returns
    exact ⟨Nat.le_trans up up', same'.trans same⟩

theorem addFile_frame {file : HostFile} (returns : (addFile rootIno file).run s = (some (), s')) :
    s.freeblock ≤ s'.freeblock ∧ s'.freeinode = s.freeinode + 1 := by
  unfold Mkfs.addFile at returns
  split at returns
  next => cases panic_returns returns
  next =>
    split at returns
    next => cases panic_returns returns
    next chunks opened =>
      obtain ⟨inum, mid, allocated, returns⟩ := bind_returns returns
      obtain ⟨_, _, got, allocated⟩ := bind_returns allocated
      obtain ⟨rfl, rfl⟩ : _ ∧ _ := by simpa using got
      obtain ⟨_, _, counted, allocated⟩ := bind_returns allocated
      obtain rfl := (Prod.mk.inj counted).2
      obtain ⟨_, _, written, allocated⟩ := bind_returns allocated
      obtain ⟨rfl, rfl⟩ := pure_returns allocated
      obtain ⟨_, last, linked, returns⟩ := bind_returns returns
      obtain ⟨blocks, inodes⟩ := winode_frame written
      obtain ⟨up, same⟩ := iappend_frame linked
      obtain ⟨up', same'⟩ := appendAll_frame returns
      rw [same', same, inodes]
      rw [blocks] at up
      exact ⟨Nat.le_trans up up', rfl⟩

theorem addFiles_frame {more : List HostFile} (returns : (addFiles rootIno more).run s = (some (), s')) :
    s.freeblock ≤ s'.freeblock ∧ s'.freeinode = s.freeinode + more.length := by
  induction more generalizing s with
  | nil =>
    obtain ⟨-, rfl⟩ := pure_returns returns
    exact ⟨Nat.le_refl _, rfl⟩
  | cons file rest ih =>
    obtain ⟨_, mid, first, returns⟩ := bind_returns returns
    obtain ⟨up, counted⟩ := addFile_frame first
    obtain ⟨up', counted'⟩ := ih returns
    rw [counted', counted, List.length_cons]
    exact ⟨Nat.le_trans up up', by omega⟩

theorem addFiles_append {first second : List HostFile}
    (returns : (addFiles rootIno (first ++ second)).run s = (some (), s')) :
    ∃ mid, (addFiles rootIno first).run s = (some (), mid) ∧ (addFiles rootIno second).run mid = (some (), s') := by
  induction first generalizing s with
  | nil => exact ⟨s, rfl, returns⟩
  | cons file rest ih =>
    obtain ⟨_, mid, added, returns⟩ := bind_returns returns
    obtain ⟨last, before, after⟩ := ih returns
    exact ⟨last, (run_bind_some added).trans before, after⟩

end Counters

end Xv6.Mkfs
