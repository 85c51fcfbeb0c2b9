import Xv6.Shared.Bytes
import Xv6.Shared.Halting
import Xv6.Shared.Ledger

set_option autoImplicit false

namespace Xv6.Vm

open Halting Bytes Ledger

def pgSize : Nat := 4096
def nEntries : Nat := 1024
def extMem : Nat := 0x100000
def physTop : Nat := 0xE000000
def devSpace : Nat := 0xFE000000
def kernBase : Nat := 0x80000000
def kernLink : Nat := kernBase + extMem

structure Image where
  data : Nat
  endAddr : Nat
  aligned : data % pgSize = 0
  text : kernLink < data
  order : data ≤ endAddr
  fits : data < kernBase + physTop

def v2p (v : Nat) : Nat := (v + (2 ^ 32 - kernBase)) % 2 ^ 32
def p2v (pa : Nat) : Nat := (pa + kernBase) % 2 ^ 32

def pgRoundUp (sz : Nat) : Nat := (sz + pgSize - 1) / pgSize * pgSize
def pgRoundDown (a : Nat) : Nat := a / pgSize * pgSize

attribute [grind =] pgSize nEntries pgRoundDown

/-! kalloc.c -/

/-- kmem.freelist as the list of its runs, the bytes of each page by its kernel address, and which calls
of kalloc get no memory although there is some. -/
structure Memory where
  freelist : List Nat
  page : Nat → Block
  refuses : Nat → Bool
  calls : Nat

abbrev Kernel := Halt Memory

def Memory.write (m : Memory) (v : Nat) (blk : Block) : Memory := { m with page := Function.update m.page v blk }

def Memory.freed (m : Memory) (v : Nat) : Memory := { m.write v fun _ => 1 with freelist := v :: m.freelist }

def setPage (v : Nat) (blk : Block) : Kernel Unit := modify fun m => m.write v blk

-- The pages are arrays of 32-bit entries for the page tables.
def word (m : Memory) (v i : Nat) : Nat := getLe (m.page v) (4 * i) 4

def loadWord (v i : Nat) : Kernel Nat := ⟨fun m => (some (word m v i), m)⟩

def Memory.put (m : Memory) (v i w : Nat) : Memory := m.write v (putLe (m.page v) (4 * i) 4 w)

def storeWord (v i w : Nat) : Kernel Unit := modify fun m => m.put v i w

section Allocator

variable (image : Image)

-- What kfree accepts.
def Frame (v : Nat) : Prop := v % pgSize = 0 ∧ image.endAddr ≤ v ∧ v < kernBase + physTop

instance (v : Nat) : Decidable (Frame image v) := inferInstanceAs (Decidable (_ ∧ _ ∧ _))

def kfree (v : Nat) : Kernel Unit :=
  if v % pgSize ≠ 0 ∨ v < image.endAddr ∨ v2p v ≥ physTop then panic
  else modify fun m => m.freed v

def kalloc : Kernel (Option Nat) := ⟨fun m =>
  match m.freelist with
  | [] => (some none, { m with calls := m.calls + 1 })
  | r :: next =>
    if m.refuses m.calls then (some none, { m with calls := m.calls + 1 })
    else (some (some r), { m with calls := m.calls + 1, freelist := next })⟩

end Allocator

section Frames

variable {image : Image} {m : Memory} {v : Nat}

theorem Frame.bounds (frame : Frame image v) : kernLink < v ∧ v < kernBase + physTop ∧ v % pgSize = 0 :=
  ⟨Nat.lt_of_lt_of_le image.text (image.order.trans frame.2.1), frame.2.2, frame.1⟩

theorem Frame.v2p_eq (frame : Frame image v) : v2p v + kernBase = v := by
  obtain ⟨low, high, -⟩ := frame.bounds
  simp only [v2p, kernLink, kernBase, physTop, extMem] at *
  omega

theorem Frame.v2p_lt (frame : Frame image v) : v2p v < physTop := by
  have := frame.v2p_eq
  have := frame.2.2
  omega

theorem Frame.v2p_aligned (frame : Frame image v) : v2p v % pgSize = 0 := by
  have := frame.v2p_eq
  have := frame.1
  simp only [pgSize, kernBase] at *
  omega

theorem Frame.p2v_v2p (frame : Frame image v) : p2v (v2p v) = v := by
  have := frame.v2p_eq
  have := frame.2.2
  simp only [p2v, kernBase, physTop] at *
  omega

theorem kfree_run (frame : Frame image v) : (kfree image v).run m = (some (), m.freed v) := by
  have low : ¬v < image.endAddr := Nat.not_lt.mpr frame.2.1
  have high : ¬v2p v ≥ physTop := Nat.not_le.mpr frame.v2p_lt
  simp [kfree, frame.1, low, high]

theorem kalloc_returns : Returns kalloc m fun r m' => m'.page = m.page ∧ m'.calls = m.calls + 1 ∧ match r with
      | none => m'.freelist = m.freelist
      | some v => m.freelist = v :: m'.freelist := by
  cases list : m.freelist with
  | nil => exact ⟨none, { m with calls := m.calls + 1 }, by simp [kalloc, list], rfl, rfl, list⟩
  | cons r next =>
    by_cases refused : m.refuses m.calls = true
    · exact ⟨none, { m with calls := m.calls + 1 }, by simp [kalloc, list, refused], rfl, rfl, list⟩
    · exact ⟨some r, { m with calls := m.calls + 1, freelist := next }, by simp [kalloc, list, refused], rfl, rfl, rfl⟩

end Frames

section Words

variable {m : Memory} {v v' i j w : Nat}

theorem word_lt : word m v i < 2 ^ 32 := getLe_lt

theorem word_congr {m' : Memory} (same : m'.page v = m.page v) : word m' v i = word m v i := by
  rw [word, word, same]

theorem getLe_zero (off n : Nat) : getLe (fun _ => 0) off n = 0 := by
  induction n generalizing off with
  | zero => rfl
  | succ n ih =>
    rw [getLe, ih]
    rfl

theorem getLe_putLe_self (blk : Block) (small : w < 2 ^ 32) : getLe (putLe blk (4 * i) 4 w) (4 * i) 4 = w := by
  rw [getLe_putLe]
  exact Nat.mod_eq_of_lt small

theorem getLe_putLe_ne (blk : Block) (apart : j ≠ i) :
    getLe (putLe blk (4 * i) 4 w) (4 * j) 4 = getLe blk (4 * j) 4 := getLe_memmove_apart (by omega)

end Words

end Xv6.Vm
