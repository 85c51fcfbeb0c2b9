import Mathlib

set_option autoImplicit false

/-- A ring of `c` slots addressed by counters of `w` bits that run on and wrap. -/
structure RingBuffer (w c : Nat) (A : Type) where
  head : BitVec w
  tail : BitVec w
  slots : Nat → A

namespace RingBuffer

variable {w c : Nat} {A : Type}

def slot (c : Nat) (counter : BitVec w) : Nat := counter.toNat % c

def count (ring : RingBuffer w c A) : Nat := (ring.tail - ring.head).toNat

def front (ring : RingBuffer w c A) : A := ring.slots (slot c ring.head)

def push (ring : RingBuffer w c A) (item : A) : RingBuffer w c A :=
  { ring with slots := Function.update ring.slots (slot c ring.tail) item, tail := ring.tail + 1 }

def pop (ring : RingBuffer w c A) : RingBuffer w c A :=
  { ring with head := ring.head + 1 }

def content (ring : RingBuffer w c A) : List A :=
  (List.range ring.count).map fun k => ring.slots (slot c (ring.head + BitVec.ofNat w k))

@[simp] theorem length_content (ring : RingBuffer w c A) : ring.content.length = ring.count := by
  simp [content]

theorem tail_eq (ring : RingBuffer w c A) : ring.tail = ring.head + BitVec.ofNat w ring.count := by
  rw [count, BitVec.ofNat_toNat, BitVec.setWidth_eq, BitVec.add_comm, BitVec.sub_add_cancel]

theorem count_eq_iff (ring : RingBuffer w c A) {n : Nat} (small : n < 2 ^ w) :
    ring.count = n ↔ ring.tail = ring.head + BitVec.ofNat w n := by
  constructor
  · rintro rfl
    exact ring.tail_eq
  · intro same
    rw [count, same, BitVec.add_comm, BitVec.add_sub_cancel, BitVec.toNat_ofNat, Nat.mod_eq_of_lt small]

theorem count_eq_zero_iff (ring : RingBuffer w c A) : ring.count = 0 ↔ ring.head = ring.tail := by
  rw [ring.count_eq_iff (Nat.two_pow_pos w)]
  simp [eq_comm]

theorem slot_add (divides : c ∣ 2 ^ w) (counter : BitVec w) (k : Nat) :
    slot c (counter + BitVec.ofNat w k) = (counter.toNat + k) % c := by
  rw [slot, BitVec.toNat_add, BitVec.toNat_ofNat, Nat.add_mod_mod, Nat.mod_mod_of_dvd _ divides]

theorem count_push (ring : RingBuffer w c A) (item : A) (room : ring.count + 1 < 2 ^ w) :
    (ring.push item).count = ring.count + 1 := by
  rw [count_eq_iff _ room]
  conv_lhs => rw [push, ring.tail_eq]
  simp [push, BitVec.add_assoc, BitVec.ofNat_add]

theorem content_push (divides : c ∣ 2 ^ w) (ring : RingBuffer w c A) (item : A) (room : ring.count < c)
    (small : c < 2 ^ w) : (ring.push item).content = ring.content ++ [item] := by
  rw [content, count_push ring item (by omega), List.range_succ, List.map_append, List.map_singleton]
  congr 1
  · apply List.map_congr_left
    intro k listed
    have before := List.mem_range.mp listed
    have apart : slot c (ring.head + BitVec.ofNat w k) ≠ slot c ring.tail := by
      rw [ring.tail_eq, slot_add divides, slot_add divides]
      intro same
      have close : ring.head.toNat + ring.count - (ring.head.toNat + k) < c := by omega
      have multiple := (Nat.modEq_iff_dvd' (by omega)).mp same
      exact absurd (Nat.eq_zero_of_dvd_of_lt multiple close) (by omega)
    simp [push, apart]
  · simp [push, ← ring.tail_eq]

theorem count_pop (ring : RingBuffer w c A) (some : 0 < ring.count) : ring.pop.count + 1 = ring.count := by
  have bound : ring.count < 2 ^ w := (ring.tail - ring.head).isLt
  have less : ring.pop.count = ring.count - 1 := by
    rw [count_eq_iff _ (by omega)]
    conv_lhs => rw [pop, ring.tail_eq]
    have shifted : BitVec.ofNat w ring.count = 1 + BitVec.ofNat w (ring.count - 1) := by
      rw [show (1 : BitVec w) = BitVec.ofNat w 1 from rfl, ← BitVec.ofNat_add]
      congr 1
      omega
    rw [shifted, ← BitVec.add_assoc]
    rfl
  omega

theorem content_pop (ring : RingBuffer w c A) (some : 0 < ring.count) :
    ring.content = ring.front :: ring.pop.content := by
  rw [content, ← ring.count_pop some, List.range_succ_eq_map, List.map_cons, List.map_map]
  congr 1
  · simp [front]
  · apply List.map_congr_left
    intro k _
    simp only [Function.comp_apply, pop]
    congr 2
    rw [BitVec.add_assoc, show (1 : BitVec w) = BitVec.ofNat w 1 from rfl, ← BitVec.ofNat_add, Nat.add_comm]

def unpush (ring : RingBuffer w c A) : RingBuffer w c A :=
  { ring with tail := ring.tail - 1 }

def last (ring : RingBuffer w c A) : A := ring.slots (slot c (ring.tail - 1))

theorem unpush_tail_eq (ring : RingBuffer w c A) (some : 0 < ring.count) :
    ring.tail - 1 = ring.head + BitVec.ofNat w (ring.count - 1) := by
  have shifted : BitVec.ofNat w ring.count = BitVec.ofNat w (ring.count - 1) + 1 := by
    rw [show (1 : BitVec w) = BitVec.ofNat w 1 from rfl, ← BitVec.ofNat_add]
    congr 1
    omega
  conv_lhs => rw [ring.tail_eq, shifted, ← BitVec.add_assoc]
  exact BitVec.add_sub_cancel _ _

theorem count_unpush (ring : RingBuffer w c A) (some : 0 < ring.count) : ring.unpush.count = ring.count - 1 := by
  have bound : ring.count < 2 ^ w := (ring.tail - ring.head).isLt
  rw [count_eq_iff _ (by omega)]
  exact ring.unpush_tail_eq some

theorem content_unpush (ring : RingBuffer w c A) (some : 0 < ring.count) :
    ring.content = ring.unpush.content ++ [ring.last] := by
  rw [content, content, count_unpush ring some, show ring.count = ring.count - 1 + 1 by omega, List.range_succ,
    List.map_append, List.map_singleton, last, ring.unpush_tail_eq some]
  rfl

end RingBuffer
