import Mathlib

set_option autoImplicit false

namespace Xv6

-- Bytes by their address; no address wraps.
abbrev ByteMemory := Nat → UInt8

-- while(n-- > 0) *d++ = *s++;
def copyUp (mem : ByteMemory) (d s : Nat) : Nat → ByteMemory
  | 0 => mem
  | n + 1 => copyUp (Function.update mem d (mem s)) (d + 1) (s + 1) n

-- while(n-- > 0) *--d = *--s;
def copyDown (mem : ByteMemory) (d s : Nat) : Nat → ByteMemory
  | 0 => mem
  | n + 1 => copyDown (Function.update mem (d - 1) (mem (s - 1))) (d - 1) (s - 1) n

def Kernel.memmove (mem : ByteMemory) (dst src n : Nat) : ByteMemory :=
  if src < dst ∧ src + n > dst then copyDown mem (dst + n) (src + n) n else copyUp mem dst src n

def Ulib.memmove (mem : ByteMemory) (vdst vsrc n : Nat) : ByteMemory := copyUp mem vdst vsrc n

def moved (mem : ByteMemory) (dst src n : Nat) : ByteMemory := fun a =>
  if dst ≤ a ∧ a < dst + n then mem (src + (a - dst)) else mem a

variable {mem : ByteMemory} {d s n : Nat}

theorem copyUp_outside {a : Nat} (outside : a < d ∨ d + n ≤ a) : copyUp mem d s n a = mem a := by
  induction n generalizing mem d s with
  | zero => rfl
  | succ n ih =>
    rw [copyUp, ih (by omega)]
    exact Function.update_of_ne (by omega) ..

-- The loop reads a byte of the overlap after it has written it.
theorem copyUp_overlap {k : Nat} (behind : s < d) (inside : k < n) :
    copyUp mem d s n (d + k) = copyUp mem d s n (s + k) := by
  induction n generalizing mem d s k with
  | zero => omega
  | succ n ih =>
    rw [copyUp]
    cases k with
    | zero =>
      rw [copyUp_outside (by omega), copyUp_outside (by omega), Nat.add_zero, Nat.add_zero, Function.update_self]
      exact (Function.update_of_ne (by omega) ..).symm
    | succ k =>
      rw [← Nat.add_assoc, ← Nat.add_assoc, Nat.add_right_comm d, Nat.add_right_comm s]
      exact ih (by omega) (by omega)

theorem moved_succ {mem' : ByteMemory} (first : mem' d = mem s) (others : ∀ a, a ≠ d → mem' a = mem a)
    (apart : s < d → s + n < d ∨ mem d = mem s) : moved mem' (d + 1) (s + 1) n = moved mem d s (n + 1) := by
  funext a
  by_cases start : a = d
  · subst start
    rw [moved, moved, if_neg (by omega), if_pos (by omega), first, Nat.sub_self, Nat.add_zero]
  by_cases inside : d + 1 ≤ a ∧ a < d + 1 + n
  · have place : s + 1 + (a - (d + 1)) = s + (a - d) := by omega
    rw [moved, moved, if_pos inside, if_pos (by omega), place]
    by_cases read : s + (a - d) = d
    · rw [read, first]
      exact ((apart (by omega)).resolve_left (by omega)).symm
    · exact others _ read
  · rw [moved, moved, if_neg inside, if_neg (by omega)]
    exact others a start

theorem copyUp_eq (periodic : s < d → ∀ a, d ≤ a → a < s + n → mem a = mem (a - (d - s))) :
    copyUp mem d s n = moved mem d s n := by
  induction n generalizing mem d s with
  | zero =>
    funext a
    rw [moved, if_neg (by omega)]
    rfl
  | succ n ih =>
    have here (behind : s < d) : s + n < d ∨ mem d = mem s := by
      by_cases overlap : d < s + (n + 1)
      · right
        rw [periodic behind d (Nat.le_refl d) overlap, Nat.sub_sub_self (Nat.le_of_lt behind)]
      · left
        omega
    rw [copyUp, ih fun behind a low high => ?_]
    · exact moved_succ (Function.update_self ..) (fun a other => Function.update_of_ne other ..) here
    · have shift : d + 1 - (s + 1) = d - s := by omega
      have before : mem a = mem (a - (d - s)) := periodic (by omega) a (by omega) (by omega)
      rw [shift, Function.update_of_ne (by omega), before]
      by_cases read : a - (d - s) = d
      · rw [read, Function.update_self]
        exact (here (by omega)).resolve_left (by omega)
      · rw [Function.update_of_ne read]

theorem copyDown_eq (behind : s < d) : copyDown mem (d + n) (s + n) n = moved mem d s n := by
  induction n generalizing mem with
  | zero =>
    funext a
    rw [moved, if_neg (by omega)]
    rfl
  | succ n ih =>
    rw [copyDown, Nat.add_succ_sub_one, Nat.add_succ_sub_one, ih]
    funext a
    by_cases last : a = d + n
    · subst last
      simp [moved]
    by_cases inside : d ≤ a ∧ a < d + n
    · rw [moved, moved, if_pos inside, if_pos (by omega), Function.update_of_ne (by omega)]
    · rw [moved, moved, if_neg inside, if_neg (by omega), Function.update_of_ne last]

theorem kernel_memmove_eq (mem : ByteMemory) (dst src n : Nat) :
    Kernel.memmove mem dst src n = moved mem dst src n := by
  by_cases overlap : src < dst ∧ src + n > dst
  · rw [Kernel.memmove, if_pos overlap]
    exact copyDown_eq overlap.1
  · rw [Kernel.memmove, if_neg overlap]
    refine copyUp_eq fun behind a low high => ?_
    omega

/-- Both move the bytes exactly if, where the destination starts inside of the source, the bytes of the overlap repeat
those in front of it. -/
theorem memmoves_agree_iff (mem : ByteMemory) (dst src n : Nat) :
    (Kernel.memmove mem dst src n = Ulib.memmove mem dst src n ∧ Ulib.memmove mem dst src n = moved mem dst src n) ↔
      (src < dst → ∀ a, dst ≤ a → a < src + n → mem a = mem (a - (dst - src))) := by
  constructor
  · rintro ⟨-, right⟩ behind a low high
    have target : src + (a - src) = a := by omega
    have same : copyUp mem dst src n (dst + (a - src)) = copyUp mem dst src n a := by
      rw [copyUp_overlap behind (by omega), target]
    rw [Ulib.memmove] at right
    rw [right, moved, moved, if_pos (by omega), if_pos (by omega)] at same
    have source : src + (dst + (a - src) - dst) = a := by omega
    have earlier : src + (a - dst) = a - (dst - src) := by omega
    rwa [source, earlier] at same
  · intro periodic
    have user : Ulib.memmove mem dst src n = moved mem dst src n := copyUp_eq periodic
    exact ⟨(kernel_memmove_eq mem dst src n).trans user.symm, user⟩

theorem memmove_up_differs :
    Kernel.memmove (fun a => a.toUInt8) 1 0 3 3 = 2 ∧ Ulib.memmove (fun a => a.toUInt8) 1 0 3 3 = 0 := by
  decide

end Xv6
