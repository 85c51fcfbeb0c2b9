import Xv6.Mkfs.Program

set_option autoImplicit false

namespace Xv6.Mkfs

open Halting Bytes Blocks

variable {s s' : State} {din din' : Dinode} {sec fbn x j : Nat} {p : List Byte}

section Sectors

theorem seek_of_lt (small : sec < 2 ^ 23) : seek sec = sec := by
  unfold seek bSize
  omega

theorem rsect_returns {buf : Block} (returns : (rsect sec).run s = (some buf, s')) :
    seek sec < s.length ∧ s.sectors (seek sec) = buf ∧ s = s' := by
  obtain ⟨_, _, got, returns⟩ := bind_returns returns
  obtain ⟨rfl, rfl⟩ : _ ∧ _ := by simpa using got
  split at returns
  next inside =>
    obtain ⟨rfl, rfl⟩ := pure_returns returns
    exact ⟨inside, rfl, rfl⟩
  next => cases panic_returns returns

theorem run_rsect (inside : seek sec < s.length) : (rsect sec).run s = (some (s.sectors (seek sec)), s) := by
  unfold rsect
  rw [run_bind_some (run_get s), if_pos inside, run_pure]

theorem nextBlock_returns (returns : nextBlock.run s = (some x, s')) :
    x = s.freeblock ∧ s' = { s with freeblock := s.freeblock + 1 } := by
  obtain ⟨rfl, rfl⟩ : s.freeblock = x ∧ { s with freeblock := s.freeblock + 1 } = s' := by
    simpa [nextBlock, run_bind_some (run_get s), run_bind_some (run_modify _ s)] using returns
  exact ⟨rfl, rfl⟩

end Sectors

/-- A file as it lies on the image: its type and content, its data blocks in order, and its indirect block
(0 without one). -/
structure File where
  type : Nat
  content : List Byte
  data : List Nat
  indirect : Nat

def File.blocks (f : File) : List Nat := if f.indirect = 0 then f.data else f.indirect :: f.data

structure Maps (sectors : Nat → Block) (din : Dinode) (f : File) : Prop where
  direct : ∀ j < nDirect, din.addrs j = f.data.getD j 0
  indirect : din.addrs nDirect = f.indirect
  entries : f.indirect ≠ 0 → ∀ j < nIndirect, getLe (sectors f.indirect) (4 * j) 4 = f.data.getD (nDirect + j) 0

def Stores (sectors : Nat → Block) (f : File) : Prop :=
  ∀ t < f.content.length, sectors (f.data.getD (t / bSize) 0) (t % bSize) = f.content.getD t 0

structure Fresh (s : State) : Prop where
  length : s.length = fsSize
  below : nmeta ≤ s.freeblock
  room : s.freeblock ≤ fsSize
  empty : ∀ b, s.freeblock ≤ b → b < fsSize → s.sectors b = zeroes

structure Owns (s : State) (f : File) : Prop where
  nodup : f.blocks.Nodup
  range : ∀ b ∈ f.blocks, nmeta ≤ b ∧ b < s.freeblock

theorem Maps.congr {sectors sectors' : Nat → Block} {f : File} (maps : Maps sectors din f)
    (same : ∀ b ∈ f.blocks, sectors' b = sectors b) : Maps sectors' din f := by
  refine ⟨maps.direct, maps.indirect, fun held j small => ?_⟩
  have member : f.indirect ∈ f.blocks := by simp [File.blocks, held]
  rw [same f.indirect member]
  exact maps.entries held j small

theorem File.data_subset {f : File} {b : Nat} (member : b ∈ f.data) : b ∈ f.blocks := by
  unfold File.blocks
  split
  · exact member
  · exact List.mem_cons_of_mem _ member

theorem File.getD_mem {f : File} (inside : j < f.data.length) : f.data.getD j 0 ∈ f.blocks := by
  apply File.data_subset
  rw [List.getD_eq_getElem _ _ inside]
  exact List.getElem_mem inside

/-- `s'` follows on `s`, with `f` grown to `f'` by blocks that were free. -/
structure Grows (s s' : State) (f f' : File) : Prop where
  type : f'.type = f.type
  taken : f'.blocks.Perm (f.blocks ++ List.range' s.freeblock (s'.freeblock - s.freeblock))
  more : s.freeblock ≤ s'.freeblock
  others : ∀ b, b ∉ f'.blocks → s'.sectors b = s.sectors b
  length : s'.length = s.length
  freeinode : s'.freeinode = s.freeinode
  inodeWrites : s'.inodeWrites = s.inodeWrites

variable {f f' f'' : File}

theorem Grows.refl (s : State) (f : File) : Grows s s f f := by
  refine ⟨rfl, ?_, Nat.le_refl _, fun _ _ => rfl, rfl, rfl, rfl⟩
  rw [Nat.sub_self]
  simp

theorem Grows.subset (grows : Grows s s' f f') {b : Nat} (member : b ∈ f.blocks) : b ∈ f'.blocks :=
  grows.taken.mem_iff.mpr (List.mem_append_left _ member)

theorem Grows.trans {s'' : State} (first : Grows s s' f f') (second : Grows s' s'' f' f'') : Grows s s'' f f'' := by
  have up := first.more
  have further := second.more
  refine ⟨second.type.trans first.type, ?_, Nat.le_trans up further, fun b absent => ?_,
    second.length.trans first.length, second.freeinode.trans first.freeinode,
    second.inodeWrites.trans first.inodeWrites⟩
  · have joined : List.range' s.freeblock (s'.freeblock - s.freeblock) ++
        List.range' s'.freeblock (s''.freeblock - s'.freeblock) =
        List.range' s.freeblock (s''.freeblock - s.freeblock) := by
      have start : s'.freeblock = s.freeblock + (s'.freeblock - s.freeblock) := by omega
      have size : s''.freeblock - s.freeblock = (s'.freeblock - s.freeblock) + (s''.freeblock - s'.freeblock) := by omega
      rw [size, ← List.range'_append_1, ← start]
    refine second.taken.trans ?_
    rw [← joined, ← List.append_assoc]
    exact first.taken.append_right _
  · rw [second.others b absent, first.others b fun member => absent (second.subset member)]

theorem Owns.grows (owns : Owns s f) (grows : Grows s s' f f') (below : nmeta ≤ s.freeblock) : Owns s' f' := by
  have up := grows.more
  constructor
  · rw [grows.taken.nodup_iff, List.nodup_append]
    refine ⟨owns.nodup, List.nodup_range', fun a old b new => ?_⟩
    have := (owns.range a old).2
    have := List.mem_range'_1.mp new
    omega
  · intro b member
    rcases List.mem_append.mp (grows.taken.mem_iff.mp member) with old | new
    · have := owns.range b old
      omega
    · have := List.mem_range'_1.mp new
      omega

theorem Fresh.grows (fresh : Fresh s) (grows : Grows s s' f f') (owns : Owns s' f') (room : s'.freeblock ≤ fsSize) :
    Fresh s' := by
  have up := grows.more
  refine ⟨grows.length.trans fresh.length, Nat.le_trans fresh.below up, room, fun b above inside => ?_⟩
  have absent : b ∉ f'.blocks := fun member => by
    have := owns.range b member
    omega
  rw [grows.others b absent]
  exact fresh.empty b (by omega) inside

section BlockAt

theorem fillSlot_returns (returns : (fillSlot din j).run s = (some din', s')) :
    din.addrs j ≠ 0 ∧ din' = din ∧ s' = s ∨
    din.addrs j = 0 ∧ din' = { din with addrs := Function.update din.addrs j s.freeblock } ∧
      s' = { s with freeblock := s.freeblock + 1 } := by
  unfold fillSlot at returns
  split at returns
  next zero =>
    obtain ⟨b, next, taken, returns⟩ := bind_returns returns
    obtain ⟨rfl, rfl⟩ := nextBlock_returns taken
    obtain ⟨rfl, rfl⟩ := pure_returns returns
    exact .inr ⟨zero, rfl, rfl⟩
  next some =>
    obtain ⟨rfl, rfl⟩ := pure_returns returns
    exact .inl ⟨some, rfl, rfl⟩

theorem fillEntry_returns {indirect indirect' : Block}
    (returns : (fillEntry sec indirect j).run s = (some indirect', s')) :
    getLe indirect (4 * j) 4 ≠ 0 ∧ indirect' = indirect ∧ s' = s ∨
    getLe indirect (4 * j) 4 = 0 ∧ indirect' = putLe indirect (4 * j) 4 s.freeblock ∧ s' = { s with
        sectors := Function.update s.sectors (seek sec) indirect'
        length := max s.length (seek sec + 1)
        freeblock := s.freeblock + 1 } := by
  unfold fillEntry at returns
  split at returns
  next zero =>
    obtain ⟨b, next, taken, returns⟩ := bind_returns returns
    obtain ⟨rfl, rfl⟩ := nextBlock_returns taken
    obtain ⟨_, _, written, returns⟩ := bind_returns returns
    obtain ⟨rfl, rfl⟩ := pure_returns returns
    obtain rfl := (Prod.mk.inj written).2
    exact .inr ⟨zero, rfl, rfl⟩
  next some =>
    obtain ⟨rfl, rfl⟩ := pure_returns returns
    exact .inl ⟨some, rfl, rfl⟩

theorem blockAt_freeblock (returns : (Mkfs.blockAt din fbn).run s = (some (din', x), s')) :
    s.freeblock ≤ s'.freeblock ∧ s'.freeblock ≤ s.freeblock + 2 ∧ s'.freeinode = s.freeinode ∧
      din'.type = din.type := by
  unfold Mkfs.blockAt at returns
  split at returns
  next =>
    obtain ⟨din, mid, filled, returns⟩ := bind_returns returns
    obtain ⟨made, rfl⟩ := pure_returns returns
    obtain ⟨rfl, -⟩ := Prod.mk.inj made
    rcases fillSlot_returns filled with ⟨-, rfl, rfl⟩ | ⟨-, rfl, rfl⟩ <;> simp
  next =>
    obtain ⟨din, mid, filled, returns⟩ := bind_returns returns
    obtain ⟨indirect, _, read, returns⟩ := bind_returns returns
    obtain ⟨-, -, rfl⟩ := rsect_returns read
    obtain ⟨indirect', last, entry, returns⟩ := bind_returns returns
    obtain ⟨made, rfl⟩ := pure_returns returns
    obtain ⟨rfl, -⟩ := Prod.mk.inj made
    rcases fillSlot_returns filled with ⟨-, rfl, rfl⟩ | ⟨-, rfl, rfl⟩ <;>
      rcases fillEntry_returns entry with ⟨-, -, rfl⟩ | ⟨-, -, rfl⟩ <;> simp only [and_true] <;> omega

/-- `f'` is `f` with the block `x` at `fbn`, which may be new. -/
structure Reaches (f f' : File) (fbn x : Nat) : Prop where
  content : f'.content = f.content
  data : f'.data = f.data ∧ fbn < f.data.length ∨ f'.data = f.data ++ [x] ∧ fbn = f.data.length
  block : x = f'.data.getD fbn 0

def File.push (f : File) (b : Nat) : File := { f with data := f.data ++ [b] }

theorem File.push_blocks (f : File) (b : Nat) : (f.push b).blocks = f.blocks ++ [b] := by
  unfold File.push File.blocks
  split <;> rfl

theorem getD_push (f : File) (b : Nat) (j : Nat) :
    (f.push b).data.getD j 0 = if j = f.data.length then b else f.data.getD j 0 := by
  unfold File.push
  split
  next last => simp [last]
  next other =>
    rcases Nat.lt_or_gt_of_ne other with inside | outside
    · rw [List.getD_append _ _ _ _ inside]
    · rw [List.getD_eq_default _ _ (by simp; omega), List.getD_eq_default _ _ (by omega)]

theorem reaches_push (f : File) (b : Nat) (fbn : Nat) (last : fbn = f.data.length) : Reaches f (f.push b) fbn b :=
  ⟨rfl, .inr ⟨rfl, last⟩, by rw [getD_push, if_pos last]⟩

theorem reaches_old (f : File) (inside : fbn < f.data.length) : Reaches f f fbn (f.data.getD fbn 0) :=
  ⟨rfl, .inl ⟨rfl, inside⟩, rfl⟩

theorem Reaches.length (reaches : Reaches f f' fbn x) : fbn < f'.data.length := by
  rcases reaches.data with ⟨data, inside⟩ | ⟨data, last⟩ <;> rw [data]
  · exact inside
  · rw [List.length_append, List.length_singleton]
    omega

theorem Owns.lt_of_getD (owns : Owns s f) : f.data.getD j 0 ≠ 0 ↔ j < f.data.length := by
  constructor
  · intro some
    by_contra outside
    exact some (List.getD_eq_default _ _ (by omega))
  · intro inside zero
    have := (owns.range _ (File.getD_mem inside)).1
    rw [zero] at this
    revert this
    decide

theorem grows_push (f : File) (s : State) : Grows s { s with freeblock := s.freeblock + 1 } f (f.push s.freeblock) := by
  refine ⟨rfl, ?_, Nat.le_succ _, fun _ _ => rfl, rfl, rfl, rfl⟩
  rw [File.push_blocks]
  simp

theorem Maps.fillDirect (maps : Maps s.sectors din f) (owns : Owns s f) (direct : fbn < nDirect)
    (plain : f.data.length ≤ nDirect → f.indirect = 0) (here : fbn ≤ f.data.length)
    (returns : (fillSlot din fbn).run s = (some din', s')) :
    ∃ f', Grows s s' f f' ∧ Maps s'.sectors din' f' ∧ Reaches f f' fbn (din'.addrs fbn) ∧
      f'.indirect = f.indirect ∧ s'.sectors = s.sectors ∧ (s' = s ∨ s'.freeblock = din'.addrs fbn + 1) := by
  rcases fillSlot_returns returns with ⟨some, rfl, rfl⟩ | ⟨zero, rfl, rfl⟩
  · rw [maps.direct fbn direct] at some ⊢
    exact ⟨f, .refl _ f, maps, reaches_old f (owns.lt_of_getD.mp some), rfl, rfl, .inl rfl⟩
  · rw [maps.direct fbn direct] at zero
    have last : fbn = f.data.length := by
      by_contra other
      exact owns.lt_of_getD.mpr (show fbn < f.data.length by omega) zero
    refine ⟨f.push s.freeblock, grows_push f s, ⟨fun j small => ?_, ?_, fun held j small => ?_⟩, ?_, rfl, rfl, ?_⟩
    · rw [getD_push, ← last]
      by_cases same : j = fbn
      · simp [same]
      · simp [same, maps.direct j small]
    · simp only [Function.update_of_ne (Nat.ne_of_gt direct)]
      exact maps.indirect
    · exact absurd (plain (by omega)) held
    · simp only [Function.update_self]
      exact reaches_push f _ fbn last
    · exact .inr (by simp only [Function.update_self])

theorem Maps.fillEntry (maps : Maps s.sectors din f) (owns : Owns s f) (held : f.indirect ≠ 0)
    (length : s.length = fsSize) (room : s.freeblock ≤ fsSize + 1) (inside : f.indirect < fsSize) (small : j < nIndirect)
    (here : nDirect + j ≤ f.data.length) {indirect' : Block}
    (returns : (fillEntry f.indirect (s.sectors f.indirect) j).run s = (some indirect', s')) :
    ∃ f', Grows s s' f f' ∧ Maps s'.sectors din f' ∧ Reaches f f' (nDirect + j) (getLe indirect' (4 * j) 4) ∧
      f'.indirect = f.indirect ∧ (∀ b, b ≠ f.indirect → s'.sectors b = s.sectors b) ∧
      (s' = s ∧ nDirect + j < f.data.length ∨ s'.freeblock = getLe indirect' (4 * j) 4 + 1) := by
  have entry := maps.entries held j small
  have seeks : seek f.indirect = f.indirect := seek_of_lt (by unfold fsSize at inside; omega)
  rcases fillEntry_returns returns with ⟨old, rfl, rfl⟩ | ⟨zero, rfl, rfl⟩
  · rw [entry] at old ⊢
    have inside := owns.lt_of_getD.mp old
    exact ⟨f, .refl _ f, maps, reaches_old f inside, rfl, fun _ _ => rfl, .inl ⟨rfl, inside⟩⟩
  · rw [entry] at zero
    have last : nDirect + j = f.data.length := by
      by_contra other
      exact owns.lt_of_getD.mpr (show nDirect + j < f.data.length by omega) zero
    have value : getLe (putLe (s.sectors f.indirect) (4 * j) 4 s.freeblock) (4 * j) 4 = s.freeblock := by
      rw [getLe_putLe, Nat.mod_eq_of_lt]
      unfold fsSize at room
      omega
    rw [seeks]
    refine ⟨f.push s.freeblock, ⟨rfl, ?_, Nat.le_succ _, fun b absent => ?_, ?_, rfl, rfl⟩,
      ⟨fun i direct => ?_, maps.indirect, fun _ i index => ?_⟩, ?_, rfl, fun b apart => ?_, ?_⟩
    · rw [File.push_blocks]
      simp
    · have apart : b ≠ f.indirect := by
        rintro rfl
        rw [File.push_blocks] at absent
        exact absent (List.mem_append_left _ (by simp [File.blocks, held]))
      simp only [Function.update_of_ne apart]
    · simp only
      rw [length]
      omega
    · rw [maps.direct i direct, getD_push, if_neg (by omega)]
    · show getLe (Function.update s.sectors f.indirect (putLe (s.sectors f.indirect) (4 * j) 4 s.freeblock)
        f.indirect) (4 * i) 4 = _
      rw [Function.update_self, getD_push, ← last]
      by_cases same : i = j
      · rw [same, value, if_pos rfl]
      · rw [if_neg (by omega), putLe, getLe_memmove_apart (by omega)]
        exact maps.entries held i index
    · rw [value]
      exact reaches_push f _ _ last
    · simp only [Function.update_of_ne apart]
    · rw [value]
      exact .inr rfl

theorem getLe_zeroes (off n : Nat) : getLe zeroes off n = 0 := by
  induction n generalizing off with
  | zero => rfl
  | succ n ih => simp [getLe, zeroes, ih]

theorem Maps.fillIndirect (maps : Maps s.sectors din f) (owns : Owns s f) (fresh : Fresh s)
    (needed : f.indirect = 0 → f.data.length ≤ nDirect) (returns : (fillSlot din nDirect).run s = (some din', s'))
    (inside : seek (din'.addrs nDirect) < s'.length) :
    ∃ f', Grows s s' f f' ∧ Maps s'.sectors din' f' ∧ f'.content = f.content ∧ f'.data = f.data ∧
      f'.indirect ≠ 0 ∧ f'.indirect < fsSize ∧ s'.sectors = s.sectors ∧
      (s' = s ∨ f.data.length ≤ nDirect ∧ s'.freeblock = s.freeblock + 1) := by
  have room := fresh.room
  rcases fillSlot_returns returns with ⟨old, rfl, rfl⟩ | ⟨zero, rfl, rfl⟩
  · rw [maps.indirect] at old
    have member : f.indirect ∈ f.blocks := by simp [File.blocks, old]
    have := owns.range f.indirect member
    exact ⟨f, .refl _ f, maps, rfl, rfl, old, by omega, rfl, .inl rfl⟩
  · rw [maps.indirect] at zero
    have seeks : seek s.freeblock = s.freeblock := seek_of_lt (by unfold fsSize at room; omega)
    simp only [Function.update_self, seeks, fresh.length] at inside
    have positive : s.freeblock ≠ 0 := by
      have : nmeta ≠ 0 := by decide
      have := fresh.below
      omega
    refine ⟨{ f with indirect := s.freeblock }, ⟨rfl, ?_, Nat.le_succ _, fun _ _ => rfl, rfl, rfl, rfl⟩,
      ⟨fun j small => ?_, ?_, fun _ j small => ?_⟩, rfl, rfl, positive, inside, rfl, .inr ⟨needed zero, rfl⟩⟩
    · simp only [File.blocks, if_neg positive, if_pos zero, Nat.add_sub_cancel_left, List.range'_one]
      exact (List.perm_append_singleton _ _).symm
    · simp only [Function.update_of_ne (Nat.ne_of_lt small)]
      exact maps.direct j small
    · simp only [Function.update_self]
    · have short := needed zero
      simp only [fresh.empty s.freeblock (Nat.le_refl _) inside, getLe_zeroes]
      exact (List.getD_eq_default _ _ (by omega)).symm

theorem Maps.blockAt (maps : Maps s.sectors din f) (owns : Owns s f) (fresh : Fresh s)
    (needed : f.indirect = 0 ↔ f.data.length ≤ nDirect) (small : fbn < maxFile) (here : fbn ≤ f.data.length)
    (returns : (Mkfs.blockAt din fbn).run s = (some (din', x), s')) :
    ∃ f', Grows s s' f f' ∧ Maps s'.sectors din' f' ∧ Reaches f f' fbn x ∧
      (f'.indirect = 0 ↔ f'.data.length ≤ nDirect) ∧ (∀ b, b ≠ f'.indirect → s'.sectors b = s.sectors b) ∧
      (s'.freeblock = s.freeblock ∨ s'.freeblock = x + 1) := by
  unfold Mkfs.blockAt at returns
  split at returns
  next direct =>
    obtain ⟨din, mid, filled, returns⟩ := bind_returns returns
    obtain ⟨made, rfl⟩ := pure_returns returns
    obtain ⟨rfl, rfl⟩ := Prod.mk.inj made
    obtain ⟨f', grows, maps', reaches, same, sectors, taken⟩ := maps.fillDirect owns direct needed.mpr here filled
    refine ⟨f', grows, maps', reaches, ?_, fun b _ => by rw [sectors], taken.imp_left (congrArg State.freeblock)⟩
    rw [same, needed]
    rcases reaches.data with ⟨data, inside⟩ | ⟨data, last⟩ <;> rw [data]
    rw [List.length_append, List.length_singleton]
    omega
  next through =>
    obtain ⟨din, mid, filled, returns⟩ := bind_returns returns
    obtain ⟨indirect, _, read, returns⟩ := bind_returns returns
    obtain ⟨inside, rfl, rfl⟩ := rsect_returns read
    obtain ⟨indirect', last, entry, returns⟩ := bind_returns returns
    obtain ⟨made, rfl⟩ := pure_returns returns
    obtain ⟨rfl, rfl⟩ := Prod.mk.inj made
    obtain ⟨f₁, grows, maps₁, content, data, held, low, sectors, before⟩ :=
      maps.fillIndirect owns fresh needed.mp filled inside
    have seeks : seek f₁.indirect = f₁.indirect := seek_of_lt (by unfold fsSize at low; omega)
    have index : fbn - nDirect < nIndirect := by
      unfold maxFile at small
      omega
    have back : nDirect + (fbn - nDirect) = fbn := by omega
    have room : mid.freeblock ≤ fsSize + 1 := by
      have := fresh.room
      rcases before with rfl | ⟨-, up⟩ <;> omega
    rw [maps₁.indirect, seeks] at entry
    obtain ⟨f', grows', maps', reaches, same, others, taken⟩ := maps₁.fillEntry (owns.grows grows fresh.below) held
      (grows.length.trans fresh.length) room low index (by rw [data, back]; exact here) entry
    rw [back] at reaches taken
    refine ⟨f', grows.trans grows', maps', ⟨reaches.content.trans content, ?_, reaches.block⟩, ?_, fun b apart => ?_, ?_⟩
    · rw [← data]
      exact reaches.data
    · have := reaches.length
      rw [same]
      exact iff_of_false held (by omega)
    · rw [others b (same ▸ apart), sectors]
    · rcases taken with ⟨rfl, old⟩ | new
      · rw [data] at old
        rcases before with rfl | ⟨short, -⟩
        · exact .inl rfl
        · omega
      · exact .inr new

end BlockAt

section Append

def blocksFor (size : Nat) : Nat := (size + (bSize - 1)) / bSize

structure Held (s : State) (din : Dinode) (f : File) : Prop where
  maps : Maps s.sectors din f
  stores : Stores s.sectors f
  owns : Owns s f
  needed : f.indirect = 0 ↔ f.data.length ≤ nDirect
  count : f.data.length = blocksFor f.content.length
  short : f.data.length ≤ maxFile

theorem File.data_nodup (nodup : f.blocks.Nodup) : f.data.Nodup := by
  unfold File.blocks at nodup
  split at nodup
  · exact nodup
  · exact (List.nodup_cons.mp nodup).2

theorem File.getD_inj (nodup : f.blocks.Nodup) {i j : Nat} (first : i < f.data.length) (second : j < f.data.length)
    (same : f.data.getD i 0 = f.data.getD j 0) : i = j := by
  rw [List.getD_eq_getElem _ _ first, List.getD_eq_getElem _ _ second] at same
  exact (List.Nodup.getElem_inj_iff (File.data_nodup nodup)).mp same

theorem File.getD_ne_indirect (nodup : f.blocks.Nodup) (held : f.indirect ≠ 0) (inside : j < f.data.length) :
    f.data.getD j 0 ≠ f.indirect := by
  intro same
  unfold File.blocks at nodup
  rw [if_neg held, List.nodup_cons, ← same, List.getD_eq_getElem _ _ inside] at nodup
  exact nodup.1 (List.getElem_mem inside)

theorem Owns.getD_ne (owns : Owns s f) (inside : j < f.data.length) : f.data.getD j 0 ≠ f.indirect := by
  by_cases held : f.indirect = 0
  · rw [held]
    exact owns.lt_of_getD.mpr inside
  · exact File.getD_ne_indirect owns.nodup held inside

theorem Reaches.getD (reaches : Reaches f f' fbn x) {i : Nat} (inside : i < f.data.length) :
    f'.data.getD i 0 = f.data.getD i 0 := by
  rcases reaches.data with ⟨data, -⟩ | ⟨data, -⟩ <;> rw [data]
  exact List.getD_append _ _ _ _ inside

theorem stores_append {sectors : Nat → Block} {p : List Byte} (stores : Stores sectors f)
    (index : x = f.data.getD (f.content.length / bSize) 0) (inside : f.content.length / bSize < f.data.length)
    (nodup : f.blocks.Nodup) : Stores (Function.update sectors x (memmove (sectors x)
        (f.content.length - f.content.length / bSize * bSize) (n1 f.content.length p) fun k => p.getD k 0))
      { f with content := f.content ++ p.take (n1 f.content.length p) } := by
  intro t small
  have fits := n1_le f.content.length p
  have room : n1 f.content.length p ≤ (f.content.length / bSize + 1) * bSize - f.content.length := Nat.min_le_right _ _
  simp only [List.length_append, List.length_take, Nat.min_eq_left fits] at small
  simp only
  generalize n1 f.content.length p = n at *
  rcases Nat.lt_or_ge t f.content.length with old | new
  · have before := stores t old
    rw [List.getD_append _ _ _ _ old, ← before]
    by_cases here : t / bSize = f.content.length / bSize
    · rw [here, ← index, Function.update_self, memmove_outside]
      unfold bSize at *
      omega
    · have earlier : t / bSize < f.data.length := Nat.lt_of_le_of_lt (Nat.div_le_div_right (Nat.le_of_lt old)) inside
      rw [Function.update_of_ne]
      rw [index]
      exact fun same => here (File.getD_inj nodup earlier inside same)
  · have here : t / bSize = f.content.length / bSize := by
      unfold bSize at *
      omega
    have offset : t % bSize = f.content.length - f.content.length / bSize * bSize + (t - f.content.length) := by
      unfold bSize at *
      omega
    rw [here, ← index, Function.update_self, offset, memmove_inside (by omega),
      List.getD_append_right _ _ _ _ new, List.getD_eq_getElem?_getD, List.getD_eq_getElem?_getD, List.getElem?_take,
      if_pos (by omega)]

theorem blocksFor_bounds (size : Nat) : size / bSize ≤ blocksFor size ∧ blocksFor size ≤ size / bSize + 1 := by
  unfold blocksFor bSize
  omega

theorem blocksFor_append (more : p ≠ []) (off : Nat) : blocksFor (off + n1 off p) = off / bSize + 1 := by
  have positive := n1_pos off more
  have room : n1 off p ≤ (off / bSize + 1) * bSize - off := Nat.min_le_right _ _
  unfold blocksFor bSize at *
  omega

theorem appendBlock_parts {off : Nat} (returns : (appendBlock din off p).run s = (some din', s')) :
    off / bSize < maxFile ∧ ∃ x mid, (Mkfs.blockAt din (off / bSize)).run s = (some (din', x), mid) ∧
      seek x < mid.length ∧ s' = { mid with
        sectors := Function.update mid.sectors (seek x) (memmove (mid.sectors (seek x)) (off - off / bSize * bSize)
          (n1 off p) fun k => p.getD k 0)
        length := max mid.length (seek x + 1) } := by
  simp only [appendBlock] at returns
  split at returns
  next small =>
    obtain ⟨⟨din₁, x⟩, mid, found, returns⟩ := bind_returns returns
    obtain ⟨buf, _, read, returns⟩ := bind_returns returns
    obtain ⟨inside, rfl, rfl⟩ := rsect_returns read
    obtain ⟨_, last, written, returns⟩ := bind_returns returns
    obtain ⟨rfl, rfl⟩ := pure_returns returns
    exact ⟨small, x, mid, found, inside, (Prod.mk.inj written).2.symm⟩
  next => cases panic_returns returns

def File.extend (f : File) (p : List Byte) : File := { f with content := f.content ++ p.take (n1 f.content.length p) }

def State.store (s : State) (x off : Nat) (p : List Byte) : State := { s with
  sectors := Function.update s.sectors x (memmove (s.sectors x) (off - off / bSize * bSize) (n1 off p)
    fun k => p.getD k 0)
  length := max s.length (x + 1) }

theorem Held.store (maps : Maps s.sectors din f) (stores : Stores s.sectors f) (owns : Owns s f)
    (needed : f.indirect = 0 ↔ f.data.length ≤ nDirect) (length : f.data.length = f.content.length / bSize + 1)
    (small : f.content.length / bSize < maxFile) (block : x = f.data.getD (f.content.length / bSize) 0) (more : p ≠ []) :
    Held (s.store x f.content.length p) din (f.extend p) := by
  have inside : f.content.length / bSize < f.data.length := by omega
  have apart : f.indirect ≠ x := block ▸ (owns.getD_ne inside).symm
  refine ⟨⟨maps.direct, maps.indirect, fun held j index => ?_⟩, stores_append stores block inside owns.nodup,
    ⟨owns.nodup, owns.range⟩, needed, ?_, ?_⟩
  · simp only [State.store, File.extend, Function.update_of_ne apart]
    exact maps.entries held j index
  · simp only [File.extend, List.length_append, List.length_take, Nat.min_eq_left (n1_le f.content.length p)]
    rw [blocksFor_append more, length]
  · simp only [File.extend, length]
    exact small

theorem Grows.store (grows : Grows s s' f f') (length : s.length = fsSize) (inside : x < fsSize) (member : x ∈ f'.blocks)
    (off : Nat) (p : List Byte) : Grows s (s'.store x off p) f (f'.extend p) := by
  refine ⟨grows.type, grows.taken, grows.more, fun b absent => ?_, ?_, grows.freeinode, grows.inodeWrites⟩
  · have apart : b ≠ x := fun same => absent (same ▸ member)
    simp only [State.store, Function.update_of_ne apart]
    exact grows.others b absent
  · simp only [State.store, grows.length, length]
    omega

theorem appendBlock_returns (held : Held s din f) (fresh : Fresh s) (more : p ≠ [])
    (returns : (appendBlock din f.content.length p).run s = (some din', s')) :
    ∃ f', Grows s s' f f' ∧ Held s' din' f' ∧ Fresh s' ∧ f'.content = f.content ++ p.take (n1 f.content.length p) := by
  obtain ⟨small, x, mid, found, inside, rfl⟩ := appendBlock_parts returns
  obtain ⟨low, high⟩ := blocksFor_bounds f.content.length
  rw [← held.count] at low high
  obtain ⟨f₁, grows, maps, reaches, needed, others, taken⟩ := held.maps.blockAt held.owns fresh held.needed small low found
  have owns := held.owns.grows grows fresh.below
  have length : f₁.data.length = f.content.length / bSize + 1 := by
    rcases reaches.data with ⟨data, old⟩ | ⟨data, last⟩ <;> rw [data]
    · omega
    · rw [List.length_append, List.length_singleton, ← last]
  have member : x ∈ f₁.blocks := reaches.block ▸ File.getD_mem reaches.length
  have seeks : seek x = x := by
    have := owns.range x member
    have := (blockAt_freeblock found).2.1
    have := fresh.room
    refine seek_of_lt ?_
    unfold fsSize at *
    omega
  rw [seeks, grows.length, fresh.length] at inside
  have room : mid.freeblock ≤ fsSize := by
    have := fresh.room
    rcases taken with same | last <;> omega
  have stores : Stores mid.sectors f₁ := by
    intro t old
    rw [reaches.content] at old ⊢
    have earlier : t / bSize < f.data.length := by
      have := held.count
      unfold blocksFor bSize at *
      omega
    rw [← held.stores t old, others _ (owns.getD_ne (by omega)), reaches.getD earlier]
  have content := reaches.content
  have block := reaches.block
  rw [seeks]
  rw [← content] at length small block ⊢
  have kept := Held.store maps stores owns needed length small block more
  have stored := grows.store fresh.length inside member f₁.content.length p
  exact ⟨f₁.extend p, stored, kept, fresh.grows stored kept.owns room, rfl⟩

theorem appendLoop_frame {off last : Nat} (returns : (appendLoop din off p).run s = (some (din', last), s')) :
    s.freeblock ≤ s'.freeblock ∧ s'.freeinode = s.freeinode ∧ din'.type = din.type := by
  induction din, off, p using appendLoop.induct generalizing s with
  | case1 din off =>
    rw [appendLoop, if_pos rfl] at returns
    obtain ⟨made, rfl⟩ := pure_returns returns
    obtain ⟨rfl, rfl⟩ := Prod.mk.inj made
    exact ⟨Nat.le_refl _, rfl, rfl⟩
  | case2 din off p more ih =>
    rw [appendLoop, if_neg more] at returns
    obtain ⟨din₁, mid, first, returns⟩ := bind_returns returns
    obtain ⟨up, inodes, type⟩ := ih din₁ returns
    obtain ⟨-, x, found, at₁, -, rfl⟩ := appendBlock_parts first
    obtain ⟨first, -, inodes₁, type₁⟩ := blockAt_freeblock at₁
    exact ⟨Nat.le_trans first up, inodes.trans inodes₁, type.trans type₁⟩

theorem appendLoop_returns {off : Nat} (held : Held s din f) (fresh : Fresh s) (size : off = f.content.length) {last : Nat}
    (returns : (appendLoop din off p).run s = (some (din', last), s')) :
    ∃ f', Grows s s' f f' ∧ Held s' din' f' ∧ Fresh s' ∧ f'.content = f.content ++ p ∧ last = f'.content.length := by
  induction din, off, p using appendLoop.induct generalizing s f with
  | case1 din off =>
    rw [appendLoop, if_pos rfl] at returns
    obtain ⟨made, rfl⟩ := pure_returns returns
    obtain ⟨rfl, rfl⟩ := Prod.mk.inj made
    exact ⟨f, .refl s f, held, fresh, (List.append_nil _).symm, size⟩
  | case2 din off p more ih =>
    rw [appendLoop, if_neg more] at returns
    obtain ⟨din₁, mid, first, returns⟩ := bind_returns returns
    subst size
    obtain ⟨f₁, grows, held₁, fresh₁, content⟩ := appendBlock_returns held fresh more first
    have size : f.content.length + n1 f.content.length p = f₁.content.length := by
      rw [content, List.length_append, List.length_take, Nat.min_eq_left (n1_le _ _)]
    obtain ⟨f', grows', held', fresh', content', size'⟩ := ih din₁ held₁ fresh₁ size returns
    refine ⟨f', grows.trans grows', held', fresh', ?_, size'⟩
    rw [content', content, List.append_assoc, List.take_append_drop]

end Append

end Xv6.Mkfs
