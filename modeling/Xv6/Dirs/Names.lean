import Xv6.Kernel.CString
import Xv6.Kernel.Param

set_option autoImplicit false

namespace Xv6.Dirs

open CString

section Code

-- The loop of strncmp, and the difference at which it stops.
def strncmp : List UInt8 → List UInt8 → Nat → Int
  | _, _, 0 => 0
  | p, q, n + 1 =>
    if p.headD 0 ≠ 0 ∧ p.headD 0 = q.headD 0 then strncmp p.tail q.tail n
    else ((p.headD 0).toNat : Int) - (q.headD 0).toNat

def namecmp (s t : List UInt8) : Int := strncmp s t dirSiz

-- The n bytes written to s: those of t up to its NUL, and NULs.
def strncpy : List UInt8 → Nat → List UInt8
  | _, 0 => []
  | t, n + 1 => if t.headD 0 ≠ 0 then t.headD 0 :: strncpy t.tail n else 0 :: List.replicate n 0

end Code

def cut (name : List UInt8) : List UInt8 := (text name).take dirSiz

variable {p q t : List UInt8} {n : Nat}

theorem sub_eq_zero {a b : UInt8} : (a.toNat : Int) - b.toNat = 0 ↔ a = b := by
  rw [Int.sub_eq_zero, Int.natCast_inj, UInt8.toNat_inj]

theorem strncmp_eq_zero : strncmp p q n = 0 ↔ (text p).take n = (text q).take n := by
  induction n generalizing p q with
  | zero => simp [strncmp]
  | succ n ih =>
    rw [strncmp]
    by_cases last : p.headD 0 = 0
    · rw [if_neg fun both => both.1 last, sub_eq_zero, last, text_of_nul last, List.take_nil, eq_comm,
        ← text_eq_nil_iff, eq_comm (a := []), List.take_eq_nil_iff]
      simp
    · rw [text_of_byte last, List.take_succ_cons]
      by_cases last' : q.headD 0 = 0
      · have differ : ¬p.headD 0 = q.headD 0 := fun same => last (same.trans last')
        rw [if_neg fun both => differ both.2, sub_eq_zero, text_of_nul last', List.take_nil]
        exact iff_of_false differ (List.cons_ne_nil _ _)
      · rw [text_of_byte last', List.take_succ_cons, List.cons.injEq]
        by_cases same : p.headD 0 = q.headD 0
        · rw [if_pos ⟨last, same⟩, ih]
          exact (and_iff_right same).symm
        · rw [if_neg fun both => same both.2, sub_eq_zero]
          exact iff_of_false same fun both => same both.1

theorem namecmp_eq_zero : namecmp p q = 0 ↔ cut p = cut q := strncmp_eq_zero

theorem strncpy_length : (strncpy t n).length = n := by
  induction n generalizing t with
  | zero => rfl
  | succ n ih =>
    rw [strncpy]
    split
    · rw [List.length_cons, ih]
    · rw [List.length_cons, List.length_replicate]

theorem text_strncpy : text (strncpy t n) = (text t).take n := by
  induction n generalizing t with
  | zero => rfl
  | succ n ih =>
    rw [strncpy]
    split
    next more =>
      have first : (t.headD 0 :: strncpy t.tail n).headD 0 ≠ 0 := more
      rw [text_of_byte first, text_of_byte more, List.take_succ_cons]
      exact congrArg _ ih
    next last =>
      rw [text_of_nul (not_not.mp last), List.take_nil]
      exact text_of_nul rfl

theorem cut_strncpy : cut (strncpy t dirSiz) = cut t := by
  rw [cut, text_strncpy, List.take_take, Nat.min_self, cut]

end Xv6.Dirs
