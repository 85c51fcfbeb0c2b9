import Xv6.Shared.Bytes

set_option autoImplicit false

namespace Xv6.Boot

open Bytes

def sectSize : Nat := 512

def scratch : Nat := 0x10000

def elfMagic : Nat := 0x464C457F

def readsect (disk mem : Block) (dst offset : Nat) : Block :=
  memmove mem dst sectSize fun k => disk (offset * sectSize + k)

-- None when the fuel is used up.
def readsegLoop (disk : Block) (epa : Nat) : Nat → Nat → Nat → Block → Option Block
  | 0, _, _, _ => none
  | fuel + 1, pa, offset, mem =>
    if pa < epa then readsegLoop disk epa fuel ((pa + sectSize) % 2 ^ 32) (offset + 1) (readsect disk mem pa offset)
    else some mem

def readseg (disk mem : Block) (pa count offset : Nat) : Option Block :=
  let epa := (pa + count) % 2 ^ 32
  let pa := (pa + (2 ^ 32 - offset % sectSize)) % 2 ^ 32
  readsegLoop disk epa (2 ^ 23 + 1) pa (offset / sectSize + 1) mem

def stosb (mem : Block) (addr : Nat) (data : Byte) (cnt : Nat) : Block := memmove mem addr cnt fun _ => data

structure Proghdr where
  off : Nat
  paddr : Nat
  filesz : Nat
  memsz : Nat
deriving DecidableEq

def proghdr (mem : Block) (ph : Nat) : Proghdr :=
  ⟨getLe mem (ph + 4) 4, getLe mem (ph + 12) 4, getLe mem (ph + 16) 4, getLe mem (ph + 20) 4⟩

-- The header is read again after readseg.
def loadSegment (disk mem : Block) (ph : Nat) : Option Block := do
  let pa := (proghdr mem ph).paddr
  let mem ← readseg disk mem pa (proghdr mem ph).filesz (proghdr mem ph).off
  let { filesz, memsz, .. } := proghdr mem ph
  return if memsz > filesz then stosb mem ((pa + filesz) % 2 ^ 32) 0 (memsz - filesz) else mem

def loadLoop (disk : Block) (eph : Nat) : Nat → Nat → Block → Option Block
  | 0, _, _ => none
  | fuel + 1, ph, mem =>
    if ph < eph then (loadSegment disk mem ph).bind (loadLoop disk eph fuel ((ph + 32) % 2 ^ 32)) else some mem

/-- The memory with which bootmain enters the kernel, or goes back to bootasm.S. -/
def bootmain (disk mem : Block) : Option Block := do
  let mem ← readseg disk mem scratch 4096 0
  if getLe mem scratch 4 ≠ elfMagic then return mem
  let ph := (scratch + getLe mem (scratch + 28) 4) % 2 ^ 32
  let phnum := getLe mem (scratch + 44) 2
  loadLoop disk ((ph + 32 * phnum) % 2 ^ 32) (phnum + 1) ph mem

-- The kernel starts at sector 1.
def file (disk : Block) : Block := fun f => disk (sectSize + f)

def headers (file : Block) (phoff : Nat) : Nat → List Proghdr
  | 0 => []
  | n + 1 => proghdr file phoff :: headers file (phoff + 32) n

def segments (disk : Block) : List Proghdr := headers (file disk) (getLe (file disk) 28 4) (getLe (file disk) 44 2)

def Proghdr.Has (ph : Proghdr) (a : Nat) : Prop := ph.paddr ≤ a ∧ a < ph.paddr + ph.memsz

/-- The byte of the segment that belongs at address `a`. -/
def Proghdr.byte (ph : Proghdr) (file : Block) (a : Nat) : Byte :=
  if a < ph.paddr + ph.filesz then file (ph.off + (a - ph.paddr)) else 0

/-- A segment that lies a sector away from the scratch page and from both ends of the address space. -/
structure Proghdr.Placed (ph : Proghdr) : Prop where
  sizes : ph.filesz ≤ ph.memsz
  away : ph.paddr + ph.memsz + sectSize ≤ scratch ∨ scratch + 4096 + sectSize ≤ ph.paddr
  low : ph.off % sectSize ≤ ph.paddr
  high : ph.paddr + ph.memsz + sectSize ≤ 2 ^ 32

structure Image (disk : Block) : Prop where
  magic : getLe (file disk) 0 4 = elfMagic
  inside : getLe (file disk) 28 4 + 32 * getLe (file disk) 44 2 ≤ 4096
  placed : ∀ ph ∈ segments disk, ph.Placed
  increasing : (segments disk).Pairwise fun a b => a.paddr + a.memsz ≤ b.paddr

def Loaded (disk mem : Block) : Prop := ∀ ph ∈ segments disk, ∀ a, ph.Has a → mem a = ph.byte (file disk) a

/-- What the sectors in which the segments start leave of the byte `b` at address `a`, in front of them all. -/
def overwritten (file : Block) (a : Nat) : List Proghdr → Byte → Byte
  | [], b => b
  | ph :: rest, b =>
    overwritten file a rest (if ph.paddr ≤ a + ph.off % sectSize then file (a + ph.off - ph.paddr) else b)

def Unharmed (disk : Block) : Prop := ∀ ph rest, ph :: rest <:+ segments disk → ∀ a, ph.Has a →
  overwritten (file disk) a rest (ph.byte (file disk) a) = ph.byte (file disk) a

variable {disk mem : Block} {a pa epa offset n phoff : Nat} {ph : Proghdr}

theorem readsegLoop_eq {r fuel : Nat} (enough : r < fuel) (whole : epa ≤ pa + sectSize * r)
    (part : pa + sectSize * r < epa + sectSize ∨ r = 0) (high : epa + sectSize ≤ 2 ^ 32) :
    readsegLoop disk epa fuel pa offset mem =
      some (memmove mem pa (sectSize * r) fun k => disk (offset * sectSize + k)) := by
  induction r generalizing fuel pa offset mem with
  | zero =>
    obtain ⟨fuel, rfl⟩ : ∃ k, fuel = k + 1 := ⟨fuel - 1, by omega⟩
    rw [readsegLoop, if_neg (by omega)]
    congr 1
    funext o
    exact (memmove_outside (by omega)).symm
  | succ r ih =>
    obtain ⟨fuel, rfl⟩ : ∃ k, fuel = k + 1 := ⟨fuel - 1, by omega⟩
    simp only [sectSize] at *
    have next : (pa + 512) % 2 ^ 32 = pa + 512 := by omega
    have rounds : 512 * (r + 1) = 512 + 512 * r := by omega
    have source : (fun k => disk ((offset + 1) * 512 + k)) = fun k => disk (offset * 512 + (512 + k)) :=
      funext fun k => congrArg disk (by omega)
    rw [rounds, readsegLoop, if_pos (by omega), sectSize, next, ih (by omega) (by omega) (by omega), readsect, sectSize,
      source, memmove_append]

theorem readseg_eq {count : Nat} (low : offset % sectSize ≤ pa) (high : pa + count + sectSize ≤ 2 ^ 32) :
    ∃ n, offset % sectSize + count ≤ n ∧ n < offset % sectSize + count + sectSize ∧ readseg disk mem pa count offset =
        some (memmove mem (pa - offset % sectSize) n fun k => file disk (offset - offset % sectSize + k)) := by
  obtain ⟨r, whole, part⟩ : ∃ r, offset % sectSize + count ≤ sectSize * r ∧
      sectSize * r < offset % sectSize + count + sectSize :=
    ⟨(offset % sectSize + count + 511) / 512, by simp only [sectSize]; omega, by simp only [sectSize]; omega⟩
  refine ⟨sectSize * r, whole, part, ?_⟩
  have source : (fun k => file disk (offset - offset % sectSize + k)) =
      fun k => disk ((offset / sectSize + 1) * sectSize + k) :=
    funext fun k => congrArg disk (by simp only [sectSize]; omega)
  have start : (pa + (2 ^ 32 - offset % sectSize)) % 2 ^ 32 = pa - offset % sectSize := by
    simp only [sectSize] at *
    omega
  have stop : (pa + count) % 2 ^ 32 = pa + count := by
    simp only [sectSize] at *
    omega
  simp only [readseg, start, stop]
  rw [source]
  simp only [sectSize] at *
  exact readsegLoop_eq (by omega) (by simp only [sectSize]; omega) (by simp only [sectSize]; omega)
    (by simp only [sectSize]; omega)

-- The first page of the file is in the scratch page.
def Scratch (disk mem : Block) : Prop := ∀ k < 4096, mem (scratch + k) = file disk k

theorem Scratch.getLe {off w : Nat} (kept : Scratch disk mem) (inside : off + w ≤ 4096) :
    getLe mem (scratch + off) w = getLe (file disk) off w := by
  induction w generalizing off with
  | zero => rfl
  | succ w ih => rw [Bytes.getLe, Bytes.getLe, kept off (by omega), Nat.add_assoc scratch, ih (by omega)]

theorem Scratch.proghdr (kept : Scratch disk mem) (inside : phoff + 32 ≤ 4096) :
    proghdr mem (scratch + phoff) = proghdr (file disk) phoff := by
  simp only [Boot.proghdr, Nat.add_assoc scratch]
  rw [kept.getLe (by omega), kept.getLe (by omega), kept.getLe (by omega), kept.getLe (by omega)]

/-- What one round leaves in the memory: the segment, its first sector in front of it, and all else below it. -/
structure Round (disk mem mem' : Block) (ph : Proghdr) : Prop where
  own : ∀ a, ph.Has a → mem' a = ph.byte (file disk) a
  below : ∀ a, a < ph.paddr → mem' a =
    if ph.paddr ≤ a + ph.off % sectSize then file disk (a + ph.off - ph.paddr) else mem a
  kept : Scratch disk mem'

theorem loadSegment_round (kept : Scratch disk mem) (inside : phoff + 32 ≤ 4096)
    (placed : (proghdr (file disk) phoff).Placed) :
    ∃ mem', loadSegment disk mem (scratch + phoff) = some mem' ∧ Round disk mem mem' (proghdr (file disk) phoff) := by
  have first := kept.proghdr inside
  generalize header : proghdr (file disk) phoff = ph at *
  obtain ⟨sizes, away, low, high⟩ := placed
  have lead : ph.off % sectSize < sectSize := Nat.mod_lt _ (by decide)
  have offset := Nat.mod_le ph.off sectSize
  obtain ⟨n, whole, part, reads⟩ := @readseg_eq disk mem ph.paddr ph.off ph.filesz low (by omega)
  have kept₁ : Scratch disk (memmove mem (ph.paddr - ph.off % sectSize) n fun k =>
      file disk (ph.off - ph.off % sectSize + k)) := fun k small => (memmove_outside (by omega)).trans (kept k small)
  have second := (kept₁.proghdr inside).trans header
  refine ⟨stosb _ (ph.paddr + ph.filesz) 0 (ph.memsz - ph.filesz), ?_, fun a has => ?_, fun a below => ?_,
    fun k small => (memmove_outside (by omega)).trans (kept₁ k small)⟩
  · simp only [loadSegment, first, reads, Option.bind_eq_bind, Option.bind_some, second, Option.pure_def]
    congr 1
    split
    next =>
      have wrap : (ph.paddr + ph.filesz) % 2 ^ 32 = ph.paddr + ph.filesz := by omega
      rw [wrap]
    next none => exact funext fun o => (memmove_outside (by omega)).symm
  · obtain ⟨start, stop⟩ := has
    by_cases stored : a < ph.paddr + ph.filesz
    · rw [Proghdr.byte, if_pos stored, stosb, memmove_outside (.inl stored), memmove, if_pos (by omega)]
      congr 1
      omega
    · rw [Proghdr.byte, if_neg stored, stosb, memmove, if_pos (by omega)]
  · rw [stosb, memmove_outside (by omega), memmove]
    by_cases read : ph.paddr ≤ a + ph.off % sectSize
    · rw [if_pos read, if_pos (by omega)]
      congr 1
      omega
    · rw [if_neg read, if_neg (by omega)]

theorem loadLoop_loads (kept : Scratch disk mem) (inside : phoff + 32 * n ≤ 4096)
    (placed : ∀ ph ∈ headers (file disk) phoff n, ph.Placed)
    (increasing : (headers (file disk) phoff n).Pairwise fun a b => a.paddr + a.memsz ≤ b.paddr) :
    ∃ mem', loadLoop disk (scratch + phoff + 32 * n) (n + 1) (scratch + phoff) mem = some mem' ∧
      (∀ a, (∀ ph ∈ headers (file disk) phoff n, a < ph.paddr) →
        mem' a = overwritten (file disk) a (headers (file disk) phoff n) (mem a)) ∧
      ∀ ph rest, ph :: rest <:+ headers (file disk) phoff n → ∀ a, ph.Has a →
        mem' a = overwritten (file disk) a rest (ph.byte (file disk) a) := by
  induction n generalizing phoff mem with
  | zero => exact ⟨mem, by simp [loadLoop], fun _ _ => rfl, fun ph rest suffix => by simp [headers] at suffix⟩
  | succ n ih =>
    obtain ⟨placed₁, later⟩ := List.forall_mem_cons.mp placed
    obtain ⟨above, sorted⟩ := List.pairwise_cons.mp increasing
    obtain ⟨mem₁, loads, round⟩ := loadSegment_round kept (by omega) placed₁
    obtain ⟨mem', ran, below, own⟩ := ih round.kept (by omega) later sorted
    have next : (scratch + phoff + 32) % 2 ^ 32 = scratch + (phoff + 32) := by
      simp only [scratch]
      omega
    have stop : scratch + phoff + 32 * (n + 1) = scratch + (phoff + 32) + 32 * n := by omega
    refine ⟨mem', ?_, fun a low => ?_, fun ph rest suffix a has => ?_⟩
    · rw [loadLoop, if_pos (by omega), loads, Option.bind_some, next, stop, ran]
    · obtain ⟨here, there⟩ := List.forall_mem_cons.mp low
      rw [below a there, round.below a here]
      rfl
    · rcases List.suffix_cons_iff.mp suffix with same | inner
      · obtain ⟨rfl, rfl⟩ := List.cons_eq_cons.mp same
        rw [below a fun later listed => Nat.lt_of_lt_of_le has.2 (above later listed), round.own a has]
      · exact own ph rest inner a has

theorem bootmain_final (image : Image disk) (mem : Block) : ∃ mem', bootmain disk mem = some mem' ∧
    ∀ ph rest, ph :: rest <:+ segments disk → ∀ a, ph.Has a →
      mem' a = overwritten (file disk) a rest (ph.byte (file disk) a) := by
  obtain ⟨mem₁, reads, kept⟩ : ∃ mem₁, readseg disk mem scratch 4096 0 = some mem₁ ∧ Scratch disk mem₁ := by
    obtain ⟨n, whole, _, reads⟩ := @readseg_eq disk mem scratch 0 4096 (by decide) (by decide)
    rw [Nat.zero_mod, Nat.zero_add] at whole
    refine ⟨_, reads, fun k small => ?_⟩
    exact (memmove_inside (Nat.lt_of_lt_of_le small whole)).trans (congrArg (file disk) (Nat.zero_add k))
  obtain ⟨mem', ran, _, own⟩ := loadLoop_loads kept image.inside image.placed image.increasing
  refine ⟨mem', ?_, own⟩
  have inside := image.inside
  have magic : getLe mem₁ scratch 4 = elfMagic := (kept.getLe (by decide)).trans image.magic
  have table : (scratch + getLe (file disk) 28 4) % 2 ^ 32 = scratch + getLe (file disk) 28 4 := by
    simp only [scratch]
    omega
  have stop : (scratch + getLe (file disk) 28 4 + 32 * getLe (file disk) 44 2) % 2 ^ 32 =
      scratch + getLe (file disk) 28 4 + 32 * getLe (file disk) 44 2 := by
    simp only [scratch]
    omega
  rw [bootmain, reads]
  simp only [Option.bind_eq_bind, Option.bind_some]
  rw [if_neg (not_not.mpr magic), kept.getLe (by decide), kept.getLe (by decide), table, stop]
  exact ran

/-- The loader is right exactly if the sectors in which later segments start do not change the bytes of a segment; those
in which segments end do no harm. -/
theorem bootmain_loads_iff (image : Image disk) (mem : Block) :
    (∃ mem', bootmain disk mem = some mem' ∧ Loaded disk mem') ↔ Unharmed disk := by
  obtain ⟨mem', boots, final⟩ := bootmain_final image mem
  constructor
  · rintro ⟨_, same, loaded⟩ ph rest suffix a has
    cases boots.symm.trans same
    rw [← final ph rest suffix a has]
    exact loaded ph (suffix.mem List.mem_cons_self) a has
  · intro unharmed
    refine ⟨mem', boots, fun ph listed a has => ?_⟩
    obtain ⟨before, rest, split⟩ := List.append_of_mem listed
    have suffix : ph :: rest <:+ segments disk := ⟨before, split.symm⟩
    rw [final ph rest suffix a has, unharmed ph rest suffix a has]

def sampleDisk : Block :=
  let first := [(0, elfMagic), (28, 52), (44, 2), (56, 4096), (64, 0x100000), (68, 4), (72, 4), (4096, 1)]
  let second := [(88, 8196), (96, 0x100004), (100, 4), (104, 4)]
  (first ++ second).foldl (fun disk word => putLe disk (sectSize + word.1) 4 word.2) fun _ => 0

theorem sampleDisk_segments : segments sampleDisk = [⟨4096, 0x100000, 4, 4⟩, ⟨8196, 0x100004, 4, 4⟩] := by decide

theorem sampleDisk_image : Image sampleDisk := by
  refine ⟨by decide, by decide, ?_, ?_⟩ <;> rw [sampleDisk_segments]
  · simp only [List.forall_mem_cons, List.not_mem_nil, false_imp_iff, implies_true, and_true]
    exact ⟨⟨by decide, by decide, by decide, by decide⟩, ⟨by decide, by decide, by decide, by decide⟩⟩
  · decide

theorem bootmain_loads_iff_sample :
    (∃ mem', bootmain sampleDisk (fun _ => 0) = some mem' ∧ Loaded sampleDisk mem') ↔ Unharmed sampleDisk :=
  bootmain_loads_iff sampleDisk_image _

theorem bootmain_damages_segment : Image sampleDisk ∧ ∀ mem, ∃ mem', bootmain sampleDisk mem = some mem' ∧
    mem' 0x100000 = 0 ∧ ¬Loaded sampleDisk mem' := by
  refine ⟨sampleDisk_image, fun mem => ?_⟩
  obtain ⟨mem', boots, final⟩ := bootmain_final sampleDisk_image mem
  rw [sampleDisk_segments] at final
  have zero : mem' 0x100000 = 0 := (final _ _ List.suffix_rfl 0x100000 ⟨by decide, by decide⟩).trans (by decide)
  refine ⟨mem', boots, zero, fun loaded => ?_⟩
  rw [Loaded, sampleDisk_segments] at loaded
  have right := loaded _ List.mem_cons_self 0x100000 ⟨by decide, by decide⟩
  rw [zero] at right
  exact absurd right (by decide)

end Xv6.Boot
