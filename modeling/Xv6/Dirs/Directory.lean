import Xv6.Dirs.Names
import Xv6.Kernel.Content
import Xv6.Shared.Runs
import Xv6.Shared.SlotTable

set_option autoImplicit false

namespace Xv6.Dirs

open CString

section Code

def direntSize : Nat := 16

-- The two fields of struct dirent.
def inumOf (de : List UInt8) : Nat := (de.headD 0).toNat + 256 * (de.tail.headD 0).toNat
def nameOf (de : List UInt8) : List UInt8 := de.drop 2

def dirent (name : List UInt8) (inum : Nat) : List UInt8 :=
  UInt8.ofNat inum :: UInt8.ofNat (inum / 256) :: strncpy name dirSiz

-- Reading an entry; `none` is a panic, here that readi does not return sizeof(de).
def readDirent (dir : List UInt8) (off : Nat) : Option (List UInt8) := do
  let de ← Content.readi dir off direntSize
  if de.length ≠ direntSize then none else some de

def lookupLoop (dir name : List UInt8) : Nat → Nat → Option (Option (Nat × Nat))
  | 0, _ => none
  | fuel + 1, off =>
    if off < dir.length then do
      let de ← readDirent dir off
      if inumOf de = 0 then lookupLoop dir name fuel (off + direntSize)
      else if namecmp name (nameOf de) = 0 then some (some (inumOf de, off))
      else lookupLoop dir name fuel (off + direntSize)
    else some none

-- The number of the inode found and the value of *poff.
def dirlookup (dir name : List UInt8) : Option (Option (Nat × Nat)) := lookupLoop dir name (dir.length + 1) 0

def emptyLoop (dir : List UInt8) : Nat → Nat → Option Nat
  | 0, _ => none
  | fuel + 1, off =>
    if off < dir.length then do
      let de ← readDirent dir off
      if inumOf de = 0 then some off else emptyLoop dir fuel (off + direntSize)
    else some off

-- The result is false for the return value -1.
def dirlink (dir name : List UInt8) (inum : Nat) : Option (Bool × List UInt8) := do
  match ← dirlookup dir name with
  | some _ => some (false, dir)
  | none => do
      let off ← emptyLoop dir (dir.length + 1) 0
      let dir ← Content.writei dir (dirent name inum) off
      some (true, dir)

-- The part of sys_unlink that works on the directory: dirlookup, and the write of zeroes at the offset found.
def unlinkEntry (dir name : List UInt8) : Option (Bool × List UInt8) := do
  match ← dirlookup dir name with
  | none => some (false, dir)
  | some (_, off) => do
      let dir ← Content.writei dir (List.replicate direntSize 0) off
      some (true, dir)

end Code

section Slots

def decode (de : List UInt8) : Option (List UInt8 × Nat) :=
  if inumOf de = 0 then none else some (cut (nameOf de), inumOf de)

structure Holds (dir : List UInt8) (des : List (List UInt8)) : Prop where
  content : dir = des.flatten
  sizes : ∀ de ∈ des, de.length = direntSize
  short : dir.length ≤ maxFile * bSize

variable {dir name : List UInt8} {des : List (List UInt8)} {j fuel : Nat}

theorem length_flatten (sizes : ∀ de ∈ des, de.length = direntSize) : des.flatten.length = direntSize * des.length := by
  induction des with
  | nil => rfl
  | cons de des ih =>
    rw [List.flatten_cons, List.length_append, sizes de List.mem_cons_self,
      ih fun d later => sizes d (List.mem_cons_of_mem _ later), List.length_cons, Nat.mul_succ, Nat.add_comm]

theorem Holds.length (holds : Holds dir des) : dir.length = direntSize * des.length := by
  rw [holds.content, length_flatten holds.sizes]

theorem Holds.split (holds : Holds dir des) (inside : j ≤ des.length) :
    dir.take (direntSize * j) = (des.take j).flatten ∧ dir.drop (direntSize * j) = (des.drop j).flatten := by
  have first : (des.take j).flatten.length = direntSize * j := by
    rw [length_flatten fun de taken => holds.sizes de (List.mem_of_mem_take taken), List.length_take,
      Nat.min_eq_left inside]
  have whole : dir = (des.take j).flatten ++ (des.drop j).flatten := by
    rw [← List.flatten_append, List.take_append_drop, holds.content]
  rw [whole]
  exact ⟨List.take_left' first, List.drop_left' first⟩

theorem Holds.readDirent (holds : Holds dir des) {de : List UInt8} (here : des[j]? = some de) :
    readDirent dir (direntSize * j) = some de := by
  obtain ⟨inside, rfl⟩ := List.getElem?_eq_some_iff.mp here
  have size := holds.length
  have short := holds.short
  have length : (des[j]).length = direntSize := holds.sizes _ (List.getElem_mem inside)
  have bytes : (dir.drop (direntSize * j)).take direntSize = des[j] := by
    rw [(holds.split (Nat.le_of_lt inside)).2, List.drop_eq_getElem_cons inside, List.flatten_cons,
      List.take_left' length]
  have allowed : ¬(direntSize * j > dir.length ∨ (direntSize * j + direntSize) % 2 ^ 32 < direntSize * j) := by
    simp only [direntSize, maxFile, nDirect, nIndirect, bSize] at *
    omega
  rw [Dirs.readDirent, Content.readi, if_neg allowed, bytes]
  simp [length]

-- By induction on the fuel, as the loop walks: what is left is the entries from the j-th on.
theorem Holds.lookupLoop (holds : Holds dir des) (enough : des.length < j + fuel) (start : j ≤ des.length) :
    lookupLoop dir name fuel (direntSize * j) =
      some ((SlotTable.find (cut name) ((des.drop j).map decode) j).map fun found => (found.1, direntSize * found.2)) := by
  have size := holds.length
  induction fuel generalizing j with
  | zero => omega
  | succ fuel ih =>
    rw [Dirs.lookupLoop]
    by_cases inside : j < des.length
    · have more : direntSize * j < dir.length := by
        rw [size]
        exact Nat.mul_lt_mul_of_pos_left inside (by decide)
      have rest := ih (j := j + 1) (by omega) (by omega)
      rw [Nat.mul_succ] at rest
      rw [if_pos more, holds.readDirent (List.getElem?_eq_getElem inside), Option.bind_eq_bind, Option.bind_some,
        List.drop_eq_getElem_cons inside, List.map_cons, decode]
      by_cases unused : inumOf des[j] = 0
      · rw [if_pos unused, if_pos unused]
        exact rest
      · rw [if_neg unused, if_neg unused, SlotTable.find]
        by_cases same : namecmp name (nameOf des[j]) = 0
        · rw [if_pos same, if_pos (namecmp_eq_zero.mp same).symm]
          rfl
        · rw [if_neg same, if_neg fun equal => same (namecmp_eq_zero.mpr equal.symm)]
          exact rest
    · have done : ¬direntSize * j < dir.length := by
        rw [size, Nat.not_lt]
        exact Nat.mul_le_mul_left _ (Nat.le_of_not_lt inside)
      rw [if_neg done, List.drop_eq_nil_of_le (Nat.le_of_not_lt inside)]
      rfl

theorem Holds.emptyLoop (holds : Holds dir des) (enough : des.length < j + fuel) (start : j ≤ des.length) :
    emptyLoop dir fuel (direntSize * j) = some (direntSize * (j + SlotTable.freeSlot ((des.drop j).map decode))) := by
  have size := holds.length
  induction fuel generalizing j with
  | zero => omega
  | succ fuel ih =>
    rw [Dirs.emptyLoop]
    by_cases inside : j < des.length
    · have more : direntSize * j < dir.length := by
        rw [size]
        exact Nat.mul_lt_mul_of_pos_left inside (by decide)
      rw [if_pos more, holds.readDirent (List.getElem?_eq_getElem inside), Option.bind_eq_bind, Option.bind_some,
        List.drop_eq_getElem_cons inside, List.map_cons, decode]
      by_cases unused : inumOf des[j] = 0
      · rw [if_pos unused, if_pos unused]
        rfl
      · rw [if_neg unused, if_neg unused, SlotTable.freeSlot, ← Nat.mul_add_one, ih (by omega) (by omega)]
        congr 2
        omega
    · have done : ¬direntSize * j < dir.length := by
        rw [size, Nat.not_lt]
        exact Nat.mul_le_mul_left _ (Nat.le_of_not_lt inside)
      rw [if_neg done, List.drop_eq_nil_of_le (Nat.le_of_not_lt inside)]
      rfl

theorem Holds.dirlookup (holds : Holds dir des) (name : List UInt8) : dirlookup dir name =
      some ((SlotTable.find (cut name) (des.map decode) 0).map fun found => (found.1, direntSize * found.2)) := by
  have size := holds.length
  have enough : des.length < 0 + (dir.length + 1) := by
    rw [size, direntSize]
    omega
  exact holds.lookupLoop enough (Nat.zero_le _)

theorem Holds.overlay (holds : Holds dir des) {de : List UInt8} (length : de.length = direntSize)
    (inside : j ≤ des.length) (room : direntSize * j < maxFile * bSize) :
    Content.writei dir de (direntSize * j) = some (Content.overlay dir (direntSize * j) de) ∧
      Holds (Content.overlay dir (direntSize * j) de) (des.take j ++ de :: des.drop (j + 1)) := by
  have size := holds.length
  have short := holds.short
  have fits : direntSize * j + direntSize ≤ maxFile * bSize := by
    simp only [direntSize, maxFile, nDirect, nIndirect, bSize] at *
    omega
  have within : direntSize * j ≤ dir.length := by
    rw [size]
    exact Nat.mul_le_mul_left _ inside
  have known : maxFile * bSize < 2 ^ 32 := by decide
  constructor
  · rw [Content.writei, length, if_neg (by omega), if_neg (by omega)]
  · refine ⟨?_, fun d member => ?_, ?_⟩
    · have rest : dir.drop (direntSize * j + direntSize) = (des.drop (j + 1)).flatten := by
        rw [← Nat.mul_succ]
        rcases Nat.lt_or_eq_of_le inside with more | last
        · exact (holds.split more).2
        · rw [List.drop_eq_nil_of_le (by rw [size, last]; exact Nat.mul_le_mul_left _ (Nat.le_succ _)),
            List.drop_eq_nil_of_le (by omega)]
          rfl
      rw [Content.overlay, length, rest, (holds.split inside).1, List.flatten_append, List.flatten_cons,
        List.append_assoc]
    · rcases List.mem_append.mp member with before | later
      · exact holds.sizes d (List.mem_of_mem_take before)
      · rcases List.mem_cons.mp later with rfl | after
        · exact length
        · exact holds.sizes d (List.mem_of_mem_drop after)
    · rw [Content.length_overlay within, length]
      omega

theorem map_decode_put (des : List (List UInt8)) (j : Nat) (de : List UInt8) :
    (des.take j ++ de :: des.drop (j + 1)).map decode = SlotTable.put (des.map decode) j (decode de) := by
  rw [SlotTable.put, List.map_append, List.map_cons, List.map_take, List.map_drop]

theorem dirent_length (name : List UInt8) (inum : Nat) : (dirent name inum).length = direntSize := by
  rw [dirent, List.length_cons, List.length_cons, strncpy_length]
  rfl

theorem decode_dirent (name : List UInt8) {inum : Nat} (positive : 0 < inum) (small : inum < 2 ^ 16) :
    decode (dirent name inum) = some (cut name, inum) := by
  have number : inumOf (dirent name inum) = inum := by
    simp only [inumOf, dirent, List.headD_cons, List.tail_cons, UInt8.toNat_ofNat']
    omega
  have nonzero : inumOf (dirent name inum) ≠ 0 := by omega
  rw [decode, if_neg nonzero, number]
  exact congrArg (fun key => some (key, inum)) cut_strncpy

theorem decode_zeroes : decode (List.replicate direntSize 0) = none := by decide

def direntAt (dir : List UInt8) (j : Nat) : List UInt8 := (dir.drop (direntSize * j)).take direntSize

def dirents (dir : List UInt8) : List (List UInt8) := (List.range (dir.length / direntSize)).map (direntAt dir)

theorem flatten_direntAt (dir : List UInt8) (n : Nat) :
    ((List.range n).map (direntAt dir)).flatten = dir.take (direntSize * n) := by
  induction n with
  | zero => rfl
  | succ n ih =>
    rw [List.range_succ, List.map_append, List.flatten_append, ih, Nat.mul_succ, List.take_add]
    simp [direntAt]

theorem holds_dirents (whole : direntSize ∣ dir.length) (short : dir.length ≤ maxFile * bSize) :
    Holds dir (dirents dir) := by
  obtain ⟨n, length⟩ := whole
  have count : dir.length / direntSize = n := by rw [length, Nat.mul_div_cancel_left _ (by decide)]
  refine ⟨?_, fun de member => ?_, short⟩
  · rw [dirents, flatten_direntAt, count, ← length, List.take_length]
  · obtain ⟨j, inside, rfl⟩ := List.mem_map.mp member
    rw [List.mem_range, count] at inside
    have last : direntSize * j + direntSize ≤ dir.length := by
      rw [length, ← Nat.mul_succ]
      exact Nat.mul_le_mul_left _ inside
    rw [direntAt, List.length_take, List.length_drop]
    omega

theorem Holds.entry (holds : Holds dir des) (inside : j < des.length) : direntAt dir j = des[j] := by
  have length : (des[j]).length = direntSize := holds.sizes _ (List.getElem_mem inside)
  rw [direntAt, (holds.split (Nat.le_of_lt inside)).2, List.drop_eq_getElem_cons inside, List.flatten_cons,
    List.take_left' length]

theorem Holds.entries (holds : Holds dir des) : dirents dir = des := by
  have count : dir.length / direntSize = des.length := by
    rw [holds.length, Nat.mul_div_cancel_left _ (by decide)]
  refine List.ext_getElem? fun j => ?_
  rw [dirents, count, List.getElem?_map]
  by_cases inside : j < des.length
  · rw [List.getElem?_range inside, List.getElem?_eq_getElem inside, Option.map_some, holds.entry inside]
  · have past := Nat.le_of_not_lt inside
    rw [List.getElem?_eq_none (by rw [List.length_range]; exact past), List.getElem?_eq_none past]
    rfl

def Live (dir : List UInt8) (j : Nat) : Prop := direntSize * j < dir.length ∧ inumOf (direntAt dir j) ≠ 0

theorem Holds.slot_iff (holds : Holds dir des) {key : List UInt8} {inum : Nat} :
    (des.map decode)[j]? = some (some (key, inum)) ↔
      Live dir j ∧ cut (nameOf (direntAt dir j)) = key ∧ inumOf (direntAt dir j) = inum := by
  have size := holds.length
  have bound : direntSize * j < dir.length ↔ j < des.length := by
    rw [size]
    exact Nat.mul_lt_mul_left (by decide)
  rw [Live, bound, List.getElem?_map]
  by_cases inside : j < des.length
  · have here := holds.entry inside
    rw [List.getElem?_eq_getElem inside, here, Option.map_some, Option.some.injEq, decode]
    by_cases unused : inumOf des[j] = 0
    · simp [unused]
    · simp [unused, inside]
  · rw [List.getElem?_eq_none (Nat.le_of_not_lt inside)]
    simp [inside]

end Slots

section Calls

inductive Call
  | dirlink (name : List UInt8) (inum : Nat)
  | unlink (name : List UInt8)

-- The result and the directory after the call.
def call (dir : List UInt8) : Call → Option (Bool × List UInt8)
  | .dirlink name inum => dirlink dir name inum
  | .unlink name => unlinkEntry dir name

def callAll : List Call → List UInt8 → Option (List Bool × List UInt8)
  | [], dir => some ([], dir)
  | first :: rest, dir => do
      let (result, dir) ← call dir first
      let (results, dir) ← callAll rest dir
      some (result :: results, dir)

abbrev Table := List UInt8 → Option Nat

def Table.call (table : Table) : Call → Bool × Table
  | .dirlink name inum =>
    if (table (cut name)).isSome then (false, table)
    else (true, Function.update table (cut name) (some inum))
  | .unlink name =>
    if (table (cut name)).isSome then (true, Function.update table (cut name) none) else (false, table)

def Table.callAll : List Call → Table → List Bool × Table
  | [], table => ([], table)
  | first :: rest, table =>
    let (result, table) := table.call first
    let (results, table) := callAll rest table
    (result :: results, table)

def Call.allowed (dir : List UInt8) : Call → Prop
  | .dirlink _ inum => 0 < inum ∧ inum < 2 ^ 16 ∧ dir.length < maxFile * bSize
  | .unlink _ => True

def tableOf (dir : List UInt8) : Table := SlotTable.lookup ((dirents dir).map decode)

/-- A directory of whole entries in which no two in use have the same name. -/
structure Formed (dir : List UInt8) : Prop where
  whole : direntSize ∣ dir.length
  short : dir.length ≤ maxFile * bSize
  distinct : ∀ j k, Live dir j → Live dir k → namecmp (nameOf (direntAt dir j)) (nameOf (direntAt dir k)) = 0 → j = k

variable {dir name : List UInt8} {des : List (List UInt8)} {inum : Nat}

theorem Formed.holds (formed : Formed dir) : Holds dir (dirents dir) := holds_dirents formed.whole formed.short

theorem Formed.slots (formed : Formed dir) : SlotTable.Distinct ((dirents dir).map decode) := by
  refine SlotTable.distinct_of_unique fun i j key v w first second => ?_
  obtain ⟨live, name, -⟩ := formed.holds.slot_iff.mp first
  obtain ⟨live', name', -⟩ := formed.holds.slot_iff.mp second
  exact formed.distinct i j live live' (namecmp_eq_zero.mpr (name.trans name'.symm))

theorem Holds.formed (holds : Holds dir des) (distinct : SlotTable.Distinct (des.map decode)) : Formed dir := by
  refine ⟨⟨des.length, holds.length⟩, holds.short, fun j k live live' same => ?_⟩
  have first := holds.slot_iff.mpr ⟨live, rfl, rfl⟩
  have second := holds.slot_iff.mpr ⟨live', (namecmp_eq_zero.mp same).symm, rfl⟩
  exact distinct.unique first second

theorem Formed.absent (formed : Formed dir) :
    cut name ∉ SlotTable.keys ((dirents dir).map decode) ↔ ∀ j, Live dir j → namecmp name (nameOf (direntAt dir j)) ≠ 0 := by
  rw [SlotTable.mem_keys, not_exists]
  constructor
  · intro none j live same
    have slot := formed.holds.slot_iff.mpr ⟨live, (namecmp_eq_zero.mp same).symm, rfl⟩
    exact none _ (List.mem_of_getElem? slot)
  · intro none value member
    obtain ⟨j, slot⟩ := List.getElem?_of_mem member
    obtain ⟨live, same, -⟩ := formed.holds.slot_iff.mp slot
    exact none j live (namecmp_eq_zero.mpr same.symm)

theorem Formed.looksUp (formed : Formed dir) (name : List UInt8) :
    (∃ j, Live dir j ∧ namecmp name (nameOf (direntAt dir j)) = 0 ∧
      dirlookup dir name = some (some (inumOf (direntAt dir j), direntSize * j))) ∨
    (∀ j, Live dir j → namecmp name (nameOf (direntAt dir j)) ≠ 0) ∧ dirlookup dir name = some none := by
  rw [formed.holds.dirlookup]
  cases found : SlotTable.find (cut name) ((dirents dir).map decode) 0 with
  | none => exact Or.inr ⟨formed.absent.mp (SlotTable.find_eq_none.mp found), rfl⟩
  | some result =>
    obtain ⟨j, place, slot⟩ := SlotTable.find_some found
    obtain ⟨live, same, number⟩ := formed.holds.slot_iff.mp slot
    refine Or.inl ⟨j, live, namecmp_eq_zero.mpr same.symm, ?_⟩
    rw [number, Option.map_some, place, Nat.zero_add]

theorem Formed.lookup_table (formed : Formed dir) (name : List UInt8) :
    (dirlookup dir name).map (Option.map Prod.fst) = some (tableOf dir (cut name)) := by
  have places : tableOf dir (cut name) = (SlotTable.find (cut name) ((dirents dir).map decode) 0).map Prod.fst :=
    SlotTable.lookup_eq_find
  rw [formed.holds.dirlookup, places, Option.map_some, Option.map_map]
  rfl

def FirstFree (dir : List UInt8) (j : Nat) : Prop :=
  (∀ i < j, Live dir i) ∧ ¬Live dir j ∧ direntSize * j ≤ dir.length

theorem Formed.firstFree (formed : Formed dir) : FirstFree dir (SlotTable.freeSlot ((dirents dir).map decode)) := by
  have holds := formed.holds
  refine ⟨fun i before => ?_, fun live => ?_, ?_⟩
  · obtain ⟨entry, slot⟩ := SlotTable.taken_before_freeSlot before
    exact (holds.slot_iff.mp slot).1
  · exact SlotTable.freeSlot_free (holds.slot_iff.mpr ⟨live, rfl, rfl⟩)
  · rw [holds.length]
    refine Nat.mul_le_mul_left _ (SlotTable.freeSlot_le.trans ?_)
    rw [List.length_map]

theorem Formed.dirlink_taken (formed : Formed dir) {j : Nat} (live : Live dir j)
    (same : namecmp name (nameOf (direntAt dir j)) = 0) : dirlink dir name inum = some (false, dir) := by
  rcases formed.looksUp name with ⟨k, -, -, found⟩ | ⟨none, -⟩
  · rw [dirlink, found]
    rfl
  · exact absurd same (none j live)

theorem Formed.dirlink_free (formed : Formed dir) (positive : 0 < inum) (small : inum < 2 ^ 16)
    (room : dir.length < maxFile * bSize) (free : ∀ j, Live dir j → namecmp name (nameOf (direntAt dir j)) ≠ 0) :
    ∃ j, FirstFree dir j ∧
      dirlink dir name inum = some (true, Content.overlay dir (direntSize * j) (dirent name inum)) ∧
      Formed (Content.overlay dir (direntSize * j) (dirent name inum)) ∧
      tableOf (Content.overlay dir (direntSize * j) (dirent name inum)) =
        Function.update (tableOf dir) (cut name) (some inum) := by
  have holds := formed.holds
  have first := formed.firstFree
  have absent := formed.absent.mpr free
  have missing : dirlookup dir name = some none := by
    rw [holds.dirlookup, SlotTable.find_eq_none.mpr absent]
    rfl
  have inside : SlotTable.freeSlot ((dirents dir).map decode) ≤ (dirents dir).length := by
    rw [← List.length_map decode]
    exact SlotTable.freeSlot_le
  have enough : (dirents dir).length < 0 + (dir.length + 1) := by
    rw [holds.length, direntSize]
    omega
  have slot := holds.emptyLoop enough (Nat.zero_le _)
  rw [Nat.mul_zero, List.drop_zero, Nat.zero_add] at slot
  obtain ⟨write, holds'⟩ := holds.overlay (dirent_length name inum) inside (Nat.lt_of_le_of_lt first.2.2 room)
  have slots := map_decode_put (dirents dir) (SlotTable.freeSlot ((dirents dir).map decode)) (dirent name inum)
  rw [decode_dirent name positive small] at slots
  refine ⟨_, first, ?_, holds'.formed ?_, ?_⟩
  · rw [dirlink, missing]
    simp only [Option.bind_eq_bind, Option.bind_some]
    rw [slot, Option.bind_some, write, Option.bind_some]
  · rw [slots]
    exact formed.slots.add absent
  · rw [tableOf, holds'.entries, slots]
    exact SlotTable.lookup_add absent

theorem Formed.unlink_free (formed : Formed dir) (free : ∀ j, Live dir j → namecmp name (nameOf (direntAt dir j)) ≠ 0) :
    unlinkEntry dir name = some (false, dir) := by
  rcases formed.looksUp name with ⟨j, live, same, -⟩ | ⟨-, missing⟩
  · exact absurd same (free j live)
  · rw [unlinkEntry, missing]
    rfl

theorem Formed.unlink_taken (formed : Formed dir) {j : Nat} (live : Live dir j)
    (same : namecmp name (nameOf (direntAt dir j)) = 0) :
    unlinkEntry dir name = some (true, Content.overlay dir (direntSize * j) (List.replicate direntSize 0)) ∧
      Formed (Content.overlay dir (direntSize * j) (List.replicate direntSize 0)) ∧
      tableOf (Content.overlay dir (direntSize * j) (List.replicate direntSize 0)) =
        Function.update (tableOf dir) (cut name) none := by
  have holds := formed.holds
  rcases formed.looksUp name with ⟨k, live', same', found⟩ | ⟨none, -⟩
  · obtain rfl : j = k := by
      refine formed.distinct j k live live' (namecmp_eq_zero.mpr ?_)
      rw [← namecmp_eq_zero.mp same, namecmp_eq_zero.mp same']
    have slot := holds.slot_iff.mpr ⟨live, (namecmp_eq_zero.mp same).symm, rfl⟩
    have inside : j < ((dirents dir).map decode).length := (List.getElem?_eq_some_iff.mp slot).1
    have within : j ≤ (dirents dir).length := by
      rw [List.length_map] at inside
      exact Nat.le_of_lt inside
    obtain ⟨write, holds'⟩ := holds.overlay List.length_replicate within (Nat.lt_of_lt_of_le live.1 formed.short)
    have slots := map_decode_put (dirents dir) j (List.replicate direntSize 0)
    rw [decode_zeroes] at slots
    refine ⟨?_, holds'.formed ?_, ?_⟩
    · rw [unlinkEntry, found]
      simp only [Option.bind_eq_bind, Option.bind_some]
      rw [write, Option.bind_some]
    · rw [slots]
      exact formed.slots.clear inside
    · rw [tableOf, holds'.entries, slots]
      exact SlotTable.lookup_clear formed.slots slot
  · exact absurd same (none j live)

theorem Formed.table_isSome (formed : Formed dir) :
    (tableOf dir (cut name)).isSome ↔ ∃ j, Live dir j ∧ namecmp name (nameOf (direntAt dir j)) = 0 := by
  rw [Option.isSome_iff_ne_none, ne_eq, tableOf, SlotTable.lookup_eq_none, formed.absent]
  simp

-- One call: the directory does what the map does.
theorem Formed.call (formed : Formed dir) {c : Call} (allowed : c.allowed dir) :
    ∃ result dir', call dir c = some (result, dir') ∧ (tableOf dir).call c = (result, tableOf dir') ∧ Formed dir' := by
  cases c with
  | dirlink name inum =>
    obtain ⟨positive, small, room⟩ := allowed
    rw [Table.call]
    by_cases taken : ∃ j, Live dir j ∧ namecmp name (nameOf (direntAt dir j)) = 0
    · rw [if_pos (formed.table_isSome.mpr taken)]
      obtain ⟨j, live, same⟩ := taken
      exact ⟨false, dir, formed.dirlink_taken live same, rfl, formed⟩
    · rw [if_neg fun some => taken (formed.table_isSome.mp some)]
      have free (j : Nat) (live : Live dir j) : namecmp name (nameOf (direntAt dir j)) ≠ 0 := fun same =>
        taken ⟨j, live, same⟩
      obtain ⟨j, -, result, formed', table⟩ := formed.dirlink_free positive small room free
      exact ⟨true, _, result, by rw [table], formed'⟩
  | unlink name =>
    rw [Table.call]
    by_cases taken : ∃ j, Live dir j ∧ namecmp name (nameOf (direntAt dir j)) = 0
    · rw [if_pos (formed.table_isSome.mpr taken)]
      obtain ⟨j, live, same⟩ := taken
      obtain ⟨result, formed', table⟩ := formed.unlink_taken live same
      exact ⟨true, _, result, by rw [table], formed'⟩
    · rw [if_neg fun some => taken (formed.table_isSome.mp some)]
      have free (j : Nat) (live : Live dir j) : namecmp name (nameOf (direntAt dir j)) ≠ 0 := fun same =>
        taken ⟨j, live, same⟩
      exact ⟨false, dir, formed.unlink_free free, rfl, formed⟩

def step (c : Call) (dir : List UInt8) : Option (List UInt8) := (call dir c).map Prod.snd

theorem Formed.callAll (formed : Formed dir) (calls : List Call)
    (allowed : Runs.Along step (fun dir c => c.allowed dir) calls dir) :
    ∃ results dir', callAll calls dir = some (results, dir') ∧
      Table.callAll calls (tableOf dir) = (results, tableOf dir') ∧ Formed dir' := by
  induction calls generalizing dir with
  | nil => exact ⟨[], dir, rfl, rfl, formed⟩
  | cons c rest ih =>
    obtain ⟨result, dir₁, first, table, formed₁⟩ := formed.call allowed.1
    have next : step c dir = some dir₁ := by rw [step, first]; rfl
    obtain ⟨results, dir', later, tables, formed'⟩ := ih formed₁ (allowed.2 dir₁ next)
    refine ⟨result :: results, dir', ?_, ?_, formed'⟩
    · simp only [Dirs.callAll, first, Option.bind_eq_bind, Option.bind_some, later]
    · rw [Table.callAll, table]
      simp only [tables]

structure IsMap (dir : List UInt8) : Prop where
  found : ∀ name j, Live dir j → namecmp name (nameOf (direntAt dir j)) = 0 →
    dirlookup dir name = some (some (inumOf (direntAt dir j), direntSize * j))
  missing : ∀ name, (∀ j, Live dir j → namecmp name (nameOf (direntAt dir j)) ≠ 0) → dirlookup dir name = some none
  mapped : ∀ name, (dirlookup dir name).map (Option.map Prod.fst) = some (tableOf dir (cut name))
  refused : ∀ name inum j, Live dir j → namecmp name (nameOf (direntAt dir j)) = 0 →
    dirlink dir name inum = some (false, dir)
  added : ∀ name inum, 0 < inum → inum < 2 ^ 16 → dir.length < maxFile * bSize →
    (∀ j, Live dir j → namecmp name (nameOf (direntAt dir j)) ≠ 0) →
    ∃ j, FirstFree dir j ∧
      dirlink dir name inum = some (true, Content.overlay dir (direntSize * j) (dirent name inum)) ∧
      cut (nameOf (dirent name inum)) = cut name ∧ inumOf (dirent name inum) = inum
  same : ∀ name name', cut name = cut name' → dirlookup dir name = dirlookup dir name'

theorem Formed.isMap (formed : Formed dir) : IsMap dir := by
  refine ⟨fun name j live same => ?_, fun name free => ?_, formed.lookup_table,
    fun name inum j live same => formed.dirlink_taken live same, fun name inum positive small room free => ?_,
    fun name name' agree => ?_⟩
  · rcases formed.looksUp name with ⟨k, live', same', found⟩ | ⟨none, -⟩
    · obtain rfl : j = k := by
        refine formed.distinct j k live live' (namecmp_eq_zero.mpr ?_)
        rw [← namecmp_eq_zero.mp same, namecmp_eq_zero.mp same']
      exact found
    · exact absurd same (none j live)
  · rcases formed.looksUp name with ⟨k, live', same', -⟩ | ⟨-, missing⟩
    · exact absurd same' (free k live')
    · exact missing
  · obtain ⟨j, first, result, -, -⟩ := formed.dirlink_free positive small room free
    have entry := decode_dirent name positive small
    rw [decode] at entry
    split at entry
    next => exact absurd entry.symm (Option.some_ne_none _)
    next => exact ⟨j, first, result, (Prod.mk.inj (Option.some.inj entry)).1, (Prod.mk.inj (Option.some.inj entry)).2⟩
  · rw [formed.holds.dirlookup, formed.holds.dirlookup, agree]

theorem directory_is_map (dir : List UInt8) (formed : Formed dir) (calls : List Call)
    (allowed : Runs.Along step (fun dir c => c.allowed dir) calls dir) :
    ∃ results dir', callAll calls dir = some (results, dir') ∧
      Table.callAll calls (tableOf dir) = (results, tableOf dir') ∧ Formed dir' ∧ IsMap dir' := by
  obtain ⟨results, dir', run, table, formed'⟩ := formed.callAll calls allowed
  exact ⟨results, dir', run, table, formed', formed'.isMap⟩

theorem directory_is_map_root :
    ∃ results dir', callAll [.dirlink [97, 98] 5, .unlink [46], .dirlink [99] 6] (dirent [46] 1 ++ dirent [46, 46] 1) =
        some (results, dir') ∧
      Table.callAll [.dirlink [97, 98] 5, .unlink [46], .dirlink [99] 6] (tableOf (dirent [46] 1 ++ dirent [46, 46] 1)) =
        (results, tableOf dir') ∧ Formed dir' ∧ IsMap dir' := by
  have holds : Holds (dirent [46] 1 ++ dirent [46, 46] 1) [dirent [46] 1, dirent [46, 46] 1] :=
    ⟨by decide, by decide, by decide⟩
  have formed : Formed (dirent [46] 1 ++ dirent [46, 46] 1) :=
    holds.formed (show List.Nodup _ by decide)
  refine directory_is_map _ formed _ ?_
  refine Runs.along_of_checks (fun dir c => decide (dir.length < maxFile * bSize) && match c with
    | .dirlink _ inum => decide (0 < inum ∧ inum < 2 ^ 16)
    | .unlink _ => true) (fun dir c passes => ?_) _ _ (by decide +kernel)
  rw [Bool.and_eq_true, decide_eq_true_iff] at passes
  cases c with
  | dirlink name inum => exact ⟨(of_decide_eq_true passes.2).1, (of_decide_eq_true passes.2).2, passes.1⟩
  | unlink name => trivial

end Calls

end Xv6.Dirs
