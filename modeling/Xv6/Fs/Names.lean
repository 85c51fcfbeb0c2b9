import Xv6.Fs.NetEffects

set_option autoImplicit false

namespace Xv6.Fs

section Slots

variable {slots : List Dirent} {off x : Nat} {entry first second : Dirent}

def naming (x : Nat) (slots : List Dirent) : Nat := slots.countP fun entry => decide (entry.inum = x)

@[simp] theorem naming_nil : naming x [] = 0 := rfl

@[simp] theorem naming_cons : naming x (entry :: slots) = naming x slots + if entry.inum = x then 1 else 0 := by
  simp [naming, List.countP_cons]

theorem naming_pos (present : entry ∈ slots) : 0 < naming entry.inum slots :=
  List.countP_pos_iff.mpr ⟨entry, present, by simp⟩

theorem exists_of_naming_pos (positive : 0 < naming x slots) : ∃ entry ∈ slots, entry.inum = x := by
  obtain ⟨entry, present, same⟩ := List.countP_pos_iff.mp positive
  exact ⟨entry, present, by simpa using same⟩

theorem naming_eq_zero (absent : ∀ entry ∈ slots, entry.inum ≠ x) : naming x slots = 0 := by
  by_contra some
  obtain ⟨entry, present, same⟩ := exists_of_naming_pos (Nat.pos_of_ne_zero some)
  exact absent entry present same

@[simp] theorem putSlot_nil : putSlot [] off entry = [entry] := rfl

@[simp] theorem putSlot_cons_zero : putSlot (first :: slots) 0 entry = entry :: slots := rfl

@[simp] theorem putSlot_cons_succ : putSlot (first :: slots) (off + 1) entry = first :: putSlot slots off entry := by
  simp only [putSlot, List.length_cons, Nat.add_lt_add_iff_right, List.set_cons_succ]
  split <;> rfl

theorem emptySlot_cons : emptySlot (first :: slots) = if first.inum = 0 then 0 else emptySlot slots + 1 := by
  simp [emptySlot, List.findIdx_cons, Bool.cond_decide]

theorem naming_putSlot_empty (named : x ≠ 0) :
    naming x (putSlot slots (emptySlot slots) entry) = naming x slots + if entry.inum = x then 1 else 0 := by
  induction slots with
  | nil => simp
  | cons head rest ih =>
    rw [emptySlot_cons]
    split
    next unused => simp [unused, named.symm]
    next =>
      simp only [putSlot_cons_succ, naming_cons, ih]
      omega

theorem naming_putSlot_clear (named : x ≠ 0) (present : slots[off]? = some entry) (cleared : first.inum = 0) :
    naming x (putSlot slots off first) + (if entry.inum = x then 1 else 0) = naming x slots := by
  induction slots generalizing off with
  | nil => simp at present
  | cons head rest ih =>
    cases off with
    | zero =>
      have same : head = entry := by simpa using present
      simp [same, cleared, named.symm]
    | succ off =>
      have := ih (by simpa using present)
      simp only [putSlot_cons_succ, naming_cons]
      omega

theorem mem_putSlot {kept : Dirent} (present : kept ∈ putSlot slots off entry) : kept = entry ∨ kept ∈ slots := by
  unfold putSlot at present
  split at present
  · exact (List.mem_or_eq_of_mem_set present).symm
  · simpa [or_comm] using present

theorem findSlot_some {name : Name} {base i : Nat} (found : findSlot name slots base = some (i, off)) :
    ∃ n, off = base + n ∧ i ≠ 0 ∧ slots[n]? = some { inum := i, name } := by
  induction slots generalizing base with
  | nil => simp [findSlot] at found
  | cons head rest ih =>
    unfold findSlot at found
    split at found
    next here =>
      cases found
      obtain ⟨used, rfl⟩ := here
      exact ⟨0, rfl, used, rfl⟩
    next =>
      obtain ⟨n, place, used, present⟩ := ih found
      exact ⟨n + 1, by omega, used, by simpa using present⟩

theorem findSlot_none {name : Name} {base : Nat} (absent : findSlot name slots base = none) :
    ∀ entry ∈ slots, entry.inum ≠ 0 → entry.name ≠ name := by
  induction slots generalizing base with
  | nil => simp
  | cons head rest ih =>
    unfold findSlot at absent
    split at absent
    next => cases absent
    next differs =>
      intro entry present used
      rcases List.mem_cons.mp present with rfl | present
      · exact fun same => differs ⟨used, same⟩
      · exact ih absent entry present used

def Shaped (d : Nat) (slots : List Dirent) : Prop :=
  ∃ up rest, slots = { inum := d, name := dot } :: { inum := up, name := dotdot } :: rest ∧ up ≠ 0 ∧
    ∀ entry ∈ rest, entry.inum ≠ 0 → entry.name ≠ dot ∧ entry.name ≠ dotdot

def upOf (slots : List Dirent) : Nat := ((slots[1]?).map Dirent.inum).getD 0

variable {d i : Nat} {name : Name}

theorem Shaped.add (shaped : Shaped d slots) (used : d ≠ 0) (absent : findSlot name slots 0 = none) :
    Shaped d (putSlot slots (emptySlot slots) { inum := i, name }) ∧
      upOf (putSlot slots (emptySlot slots) { inum := i, name }) = upOf slots ∧
      (putSlot slots (emptySlot slots) { inum := i, name }).drop 2 =
        putSlot (slots.drop 2) (emptySlot (slots.drop 2)) { inum := i, name } := by
  obtain ⟨up, rest, rfl, upUsed, proper⟩ := shaped
  have notDot := findSlot_none absent _ List.mem_cons_self used
  have notDotdot := findSlot_none absent _ (List.mem_cons_of_mem _ List.mem_cons_self) upUsed
  simp only [emptySlot_cons, used, upUsed, if_false, putSlot_cons_succ]
  refine ⟨⟨up, _, rfl, upUsed, ?_⟩, rfl, rfl⟩
  intro entry present
  rcases mem_putSlot present with rfl | old
  · exact fun _ => ⟨Ne.symm notDot, Ne.symm notDotdot⟩
  · exact proper entry old

theorem Shaped.clear (shaped : Shaped d slots) (notDot : name ≠ dot) (notDotdot : name ≠ dotdot)
    (found : findSlot name slots 0 = some (i, off)) (cleared : entry.inum = 0) :
    Shaped d (putSlot slots off entry) ∧ upOf (putSlot slots off entry) = upOf slots ∧
      ∃ n, (slots.drop 2)[n]? = some { inum := i, name } ∧
        (putSlot slots off entry).drop 2 = putSlot (slots.drop 2) n entry := by
  obtain ⟨up, rest, rfl, upUsed, proper⟩ := shaped
  obtain ⟨n, place, used, present⟩ := findSlot_some found
  match n with
  | 0 => simp [Ne.symm notDot] at present
  | 1 => simp [Ne.symm notDotdot] at present
  | n + 2 =>
    have place : off = n + 2 := by omega
    subst place
    simp only [putSlot_cons_succ]
    refine ⟨⟨up, _, rfl, upUsed, ?_⟩, rfl, n, by simpa using present, rfl⟩
    intro kept present
    rcases mem_putSlot present with rfl | old
    · exact fun nonzero => absurd cleared nonzero
    · exact proper kept old

end Slots

section Counting

def Inode.names (ip : Inode) (x : Nat) : Nat := if ip.type = .dir then naming x (ip.slots.drop 2) else 0

def Inode.up (ip : Inode) : Nat := upOf ip.slots

def Inode.blocks (ip : Inode) : Nat := blocksFor ip.size

def links (c : Core) (x : Nat) : Nat := ∑ d ∈ Finset.range c.ninodes, (c.inodes d).names x

def Attached (c : Core) (d : Nat) : Prop := (c.inodes d).type = .dir ∧ (d = rootIno ∨ 0 < links c d)

instance (c : Core) (d : Nat) : Decidable (Attached c d) := inferInstanceAs (Decidable (_ ∧ _))

def uplink (c : Core) (d x : Nat) : Nat := if Attached c d ∧ (c.inodes d).up = x then 1 else 0

def uplinks (c : Core) (x : Nat) : Nat := ∑ d ∈ Finset.range c.ninodes, uplink c d x

def blocksUsed (c : Core) : Nat := ∑ d ∈ Finset.range c.ninodes, (c.inodes d).blocks

theorem sum_change {f g : Nat → Nat} {n a : Nat} (bound : a < n) (same : ∀ d, d ≠ a → g d = f d) :
    ∑ d ∈ Finset.range n, g d + f a = ∑ d ∈ Finset.range n, f d + g a := by
  have member : a ∈ Finset.range n := Finset.mem_range.mpr bound
  rw [← Finset.sum_erase_add _ _ member, ← Finset.sum_erase_add _ f member]
  have rest : ∑ d ∈ (Finset.range n).erase a, g d = ∑ d ∈ (Finset.range n).erase a, f d :=
    Finset.sum_congr rfl fun d present => same d (Finset.ne_of_mem_erase present)
  omega

theorem sum_change_two {f g : Nat → Nat} {n a b : Nat} (apart : a ≠ b) (boundA : a < n) (boundB : b < n)
    (same : ∀ d, d ≠ a → d ≠ b → g d = f d) :
    ∑ d ∈ Finset.range n, g d + f a + f b = ∑ d ∈ Finset.range n, f d + g a + g b := by
  let between := Function.update f a (g a)
  have first := sum_change (g := between) (f := f) boundA (by intro d away; simp [between, away])
  have second := sum_change (g := g) (f := between) boundB (by
    intro d away
    by_cases here : d = a
    · simp [between, here]
    · simp [between, here, same d here away])
  have atA : between a = g a := by simp [between]
  have atB : between b = f b := by simp [between, apart.symm]
  omega

theorem le_sum {f : Nat → Nat} {n a : Nat} (bound : a < n) : f a ≤ ∑ d ∈ Finset.range n, f d :=
  Finset.single_le_sum (f := f) (fun _ _ => Nat.zero_le _) (Finset.mem_range.mpr bound)

theorem add_le_sum {f : Nat → Nat} {n a b : Nat} (apart : a ≠ b) (boundA : a < n) (boundB : b < n) :
    f a + f b ≤ ∑ d ∈ Finset.range n, f d := by
  have := sum_change_two (f := f) (g := fun d => if d = a ∨ d = b then 0 else f d) apart boundA boundB
    (by intro d awayA awayB; simp [awayA, awayB])
  simp at this
  omega

end Counting

section Tables

variable {c e : Core} {dp i off : Nat} {name : Name} {type : FileType} {major minor : Int}

theorem blocksFor_mono {n m : Nat} (le : n ≤ m) : blocksFor n ≤ blocksFor m := by
  have sectors : (n + bSize - 1) / bSize ≤ (m + bSize - 1) / bSize := by simp only [bSize]; omega
  simp only [blocksFor]
  by_cases indirect : (n + bSize - 1) / bSize > nDirect
  · rw [if_pos indirect, if_pos (by omega)]
    omega
  · rw [if_neg indirect]
    split <;> omega

theorem length_putSlot (slots : List Dirent) (off : Nat) (entry : Dirent) :
    slots.length ≤ (putSlot slots off entry).length := by
  unfold putSlot
  split <;> simp

theorem putEntry_inodes (entry : Dirent) : (c.putEntry dp off entry).inodes =
      Function.update c.inodes dp { c.inodes dp with slots := putSlot (c.inodes dp).slots off entry } := rfl

theorem writeSlot_some {entry : Dirent} (value : writeSlot c dp off entry = some e)
    (isDir : (c.inodes dp).type = .dir) :
    e.inodes dp = { c.inodes dp with slots := putSlot (c.inodes dp).slots off entry } ∧
      (∀ j, j ≠ dp → e.inodes j = c.inodes j) ∧
      e.freeBlocks + (e.inodes dp).blocks = c.freeBlocks + (c.inodes dp).blocks := by
  unfold writeSlot at value
  split at value
  next => cases value
  next accepted =>
    cases value
    have grows := blocksFor_mono (Nat.mul_le_mul_left direntSize
      (length_putSlot (c.inodes dp).slots off entry))
    have enough : slotNeed (c.inodes dp).slots off entry ≤ c.freeBlocks := by omega
    refine ⟨by simp [putEntry_inodes], fun j away => by simp [putEntry_inodes, away], ?_⟩
    simp only [putEntry_inodes, Function.update_self, Inode.blocks, Inode.size, isDir, if_true]
    simp only [Core.putEntry, slotNeed] at enough ⊢
    omega

structure Made (c : Core) (dp : Nat) (name : Name) (type : FileType) (major minor : Int) (i : Nat)
    (e : Core) : Prop where
  made : e.inodes i = { newInode type major minor with
    slots := if type = .dir then [{ inum := i, name := dot }, { inum := dp, name := dotdot }] else [] }
  parent : e.inodes dp = { c.inodes dp with
    nlink := if type = .dir then short ((c.inodes dp).nlink + 1) else (c.inodes dp).nlink
    slots := putSlot (c.inodes dp).slots (emptySlot (c.inodes dp).slots) { inum := i, name } }
  others : ∀ j, j ≠ i → j ≠ dp → e.inodes j = c.inodes j
  blocks : e.freeBlocks + (e.inodes i).blocks + (e.inodes dp).blocks = c.freeBlocks + (c.inodes dp).blocks

theorem findFree_bound (fresh : findFree c = some i) : i ≠ 0 ∧ i < c.ninodes := by
  have := List.mem_of_find?_eq_some fresh
  rw [List.mem_range'_1] at this
  omega

theorem blocks_newInode : (newInode type major minor).blocks = 0 := by
  have empty : (newInode type major minor).size = 0 := by
    unfold Inode.size
    split <;> rfl
  rw [Inode.blocks, empty]
  decide

theorem Creates.made (creates : Creates c dp name type major minor i e) (small : c.ninodes ≤ 2 ^ 16)
    (bound : dp ≠ 0 ∧ dp < c.ninodes) : Made c dp name type major minor i e := by
  have apart := creates.apart
  obtain ⟨used, below⟩ := findFree_bound creates.fresh
  have inum : i % 2 ^ 16 = i := Nat.mod_eq_of_lt (by omega)
  have upNum : dp % 2 ^ 16 = dp := Nat.mod_eq_of_lt (by omega)
  obtain ⟨c₃, dots, value⟩ := Option.bind_eq_some_iff.mp creates.value
  have isDir := creates.isDir
  unfold withDots at dots
  split at dots
  next dir =>
    subst dir
    obtain ⟨c₂, first, second⟩ := Option.bind_eq_some_iff.mp dots
    let c₁ := (c.setInode i (newInode .dir major minor)).addLink dp 1
    have new : c₁.inodes i = newInode .dir major minor := by
      simp [c₁, Core.addLink, Core.setInode, apart.symm]
    have counted : c₁.inodes dp = { c.inodes dp with nlink := short ((c.inodes dp).nlink + 1) } := by
      simp [c₁, Core.addLink, Core.setInode, apart]
    have rest (j : Nat) (awayI : j ≠ i) (awayDp : j ≠ dp) : c₁.inodes j = c.inodes j := by
      simp [c₁, Core.addLink, Core.setInode, awayI, awayDp]
    obtain ⟨here₁, away₁, blocks₁⟩ := writeSlot_some first (by rw [new]; rfl)
    rw [new, inum] at here₁
    obtain ⟨here₂, away₂, blocks₂⟩ := writeSlot_some second (by rw [here₁]; rfl)
    rw [here₁, upNum] at here₂
    have parent : c₃.inodes dp = c₁.inodes dp := (away₂ dp apart).trans (away₁ dp apart)
    obtain ⟨here₃, away₃, blocks₃⟩ := writeSlot_some value (by rw [parent, counted]; exact isDir)
    rw [parent, counted, inum] at here₃
    have self : e.inodes i = c₃.inodes i := away₃ i apart.symm
    have unallocated : (c₁.inodes i).blocks = 0 := by rw [new, blocks_newInode]
    refine ⟨?_, ?_, fun j awayI awayDp => ?_, ?_⟩
    · rw [self, here₂]
      simp [newInode, freshInode, used, emptySlot]
    · rw [here₃]
      simp
    · rw [away₃ j awayDp, away₂ j awayI, away₁ j awayI, rest j awayI awayDp]
    · have same : (c₁.inodes dp).blocks = (c.inodes dp).blocks := by
        rw [counted]
        rfl
      have start : c₁.freeBlocks = c.freeBlocks := rfl
      rw [parent, same] at blocks₃
      rw [unallocated, start] at blocks₁
      rw [self]
      omega
  next notDir =>
    cases dots
    obtain ⟨here, away, blocks⟩ := writeSlot_some value (by simp [Core.setInode, apart, isDir])
    have parent : (c.setInode i (newInode type major minor)).inodes dp = c.inodes dp := by
      simp [Core.setInode, apart]
    rw [parent, inum] at here
    have self : e.inodes i = newInode type major minor := by
      rw [away i apart.symm]
      exact setInode_self _
    have unallocated : (e.inodes i).blocks = 0 := by rw [self, blocks_newInode]
    refine ⟨?_, ?_, fun j awayI awayDp => ?_, ?_⟩
    · rw [self]
      simp [notDir, newInode, freshInode]
    · rw [here]
      simp [notDir]
    · rw [away j awayDp]
      simp [Core.setInode, awayI]
    · rw [parent] at blocks
      rw [unallocated]
      exact blocks

structure Linked (c : Core) (i dp : Nat) (name : Name) (e : Core) : Prop where
  target : e.inodes i = { c.inodes i with nlink := short ((c.inodes i).nlink + 1) }
  parent : e.inodes dp = { c.inodes dp with
    slots := putSlot (c.inodes dp).slots (emptySlot (c.inodes dp).slots) { inum := i, name } }
  others : ∀ j, j ≠ i → j ≠ dp → e.inodes j = c.inodes j
  blocks : e.freeBlocks + (e.inodes dp).blocks = c.freeBlocks + (c.inodes dp).blocks

theorem Links.apart (links : Links c i dp name e) : dp ≠ i := by
  rintro rfl
  exact links.notDir links.isDir

theorem Links.linked (links : Links c i dp name e) (small : i < 2 ^ 16) : Linked c i dp name e := by
  have apart := links.apart
  have parent : (c.addLink i 1).inodes dp = c.inodes dp := addLink_other apart
  obtain ⟨here, away, blocks⟩ := writeSlot_some links.value (by rw [parent]; exact links.isDir)
  rw [parent, Nat.mod_eq_of_lt small] at here
  refine ⟨?_, here, fun j awayI awayDp => ?_, ?_⟩
  · rw [away i apart.symm]
    simp [Core.addLink, Core.setInode]
  · rw [away j awayDp, addLink_other awayI]
  · rw [parent] at blocks
    exact blocks

def unlinked (e : Core) (dp i : Nat) (type : FileType) : Core := (unlinkDir e dp type).addLink i (-1)

structure Unlinked (c : Core) (dp i off : Nat) (e : Core) : Prop where
  target : e.inodes i = { c.inodes i with nlink := short ((c.inodes i).nlink - 1) }
  parent : e.inodes dp = { c.inodes dp with
    nlink := if (c.inodes i).type = .dir then short ((c.inodes dp).nlink - 1) else (c.inodes dp).nlink
    slots := putSlot (c.inodes dp).slots off { inum := 0, name := [] } }
  others : ∀ j, j ≠ i → j ≠ dp → e.inodes j = c.inodes j
  blocks : e.freeBlocks + (e.inodes dp).blocks = c.freeBlocks + (c.inodes dp).blocks

theorem unlinkDir_other {j : Nat} (away : j ≠ dp) : (unlinkDir c dp type).inodes j = c.inodes j := by
  unfold unlinkDir
  split
  · exact addLink_other away
  · rfl

theorem Unlinks.unlinked (unlinks : Unlinks c dp name i off e) :
    Unlinked c dp i off (unlinked e dp i (c.inodes i).type) := by
  have apart := unlinks.apart
  obtain ⟨here, away, blocks⟩ := writeSlot_some unlinks.value unlinks.isDir
  have parent : (Fs.unlinked e dp i (c.inodes i).type).inodes dp =
      (unlinkDir e dp (c.inodes i).type).inodes dp := addLink_other apart
  refine ⟨?_, ?_, fun j awayI awayDp => ?_, ?_⟩
  · simp [Fs.unlinked, Core.addLink, Core.setInode, unlinkDir_other apart.symm, away i apart.symm, Int.sub_eq_add_neg]
  · rw [parent, unlinkDir]
    split
    next => simp [Core.addLink, Core.setInode, here, Int.sub_eq_add_neg]
    next => exact here
  · rw [Fs.unlinked, addLink_other awayI, unlinkDir_other awayDp, away j awayDp]
  · rw [parent, ← blocks]
    unfold Fs.unlinked unlinkDir
    split
    next => simp [Core.addLink, Core.setInode, Inode.blocks, Inode.size]
    next => rfl

end Tables

section Changes

variable {c e : Core} {dp i : Nat}

theorem links_change {x : Nat} (ninodes : e.ninodes = c.ninodes) (apart : dp ≠ i) (boundI : i < c.ninodes)
    (boundDp : dp < c.ninodes) (others : ∀ j, j ≠ i → j ≠ dp → e.inodes j = c.inodes j) :
    links e x + (c.inodes i).names x + (c.inodes dp).names x =
      links c x + (e.inodes i).names x + (e.inodes dp).names x := by
  unfold links
  rw [ninodes]
  exact sum_change_two (f := fun d => (c.inodes d).names x) (g := fun d => (e.inodes d).names x) apart.symm
    boundI boundDp fun d awayI awayDp => by rw [others d awayI awayDp]

theorem attached_congr {d : Nat} (type : (e.inodes d).type = (c.inodes d).type)
    (named : (c.inodes d).type = .dir → links e d = links c d) : Attached e d ↔ Attached c d := by
  unfold Attached
  rw [type]
  exact and_congr_right fun isDir => by rw [named isDir]

theorem uplinks_change {x : Nat} (ninodes : e.ninodes = c.ninodes) (bound : i < c.ninodes)
    (type : ∀ d, d ≠ i → (e.inodes d).type = (c.inodes d).type) (up : ∀ d, d ≠ i → (e.inodes d).up = (c.inodes d).up)
    (named : ∀ d, d ≠ i → (c.inodes d).type = .dir → links e d = links c d) :
    uplinks e x + uplink c i x = uplinks c x + uplink e i x := by
  unfold uplinks
  rw [ninodes]
  refine sum_change (f := fun d => uplink c d x) (g := fun d => uplink e d x) bound fun d away => ?_
  simp only [uplink, attached_congr (type d away) (named d away), up d away]

end Changes

end Xv6.Fs
