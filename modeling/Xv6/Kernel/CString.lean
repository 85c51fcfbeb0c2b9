import Mathlib

set_option autoImplicit false

namespace Xv6.CString

-- A char array is the list of its bytes; a C string in it ends at the first NUL.
def text (bytes : List UInt8) : List UInt8 :=
  bytes.takeWhile (fun byte => byte != 0)

def terminate : List UInt8 → List UInt8
  | [] => []
  | _ :: rest => 0 :: rest

-- `n` is the value of n before the test `--n > 0`; a copied NUL is followed by a second one.
def safestrcpyLoop : Nat → List UInt8 → List UInt8 → List UInt8
  | n + 2, _ :: s, byte :: t =>
    if byte = 0 then 0 :: terminate s else byte :: safestrcpyLoop (n + 1) s t
  | _, s, _ => terminate s

def safestrcpy (s t : List UInt8) (n : Nat) : List UInt8 :=
  if n = 0 then s else safestrcpyLoop n s t

@[simp] theorem terminate_length (s : List UInt8) : (terminate s).length = s.length := by
  cases s <;> rfl

theorem safestrcpyLoop_length (n : Nat) (s t : List UInt8) : (safestrcpyLoop n s t).length = s.length := by
  fun_induction safestrcpyLoop n s t <;> simp_all

@[simp] theorem safestrcpy_length (s t : List UInt8) (n : Nat) : (safestrcpy s t n).length = s.length := by
  unfold safestrcpy
  split
  · rfl
  · exact safestrcpyLoop_length n s t

theorem text_safestrcpyLoop (n : Nat) (s t : List UInt8) (room : n + 1 ≤ s.length) (source : n ≤ t.length) :
    text (safestrcpyLoop (n + 1) s t) = (text t).take n := by
  induction n generalizing s t with
  | zero =>
    obtain ⟨c, s, rfl⟩ := List.exists_cons_of_length_pos room
    simp [safestrcpyLoop, terminate, text]
  | succ n ih =>
    obtain ⟨c, s, rfl⟩ := List.exists_cons_of_length_pos (show 0 < s.length by omega)
    obtain ⟨byte, t, rfl⟩ := List.exists_cons_of_length_pos (show 0 < t.length by omega)
    by_cases nul : byte = 0
    · simp [safestrcpyLoop, text, nul]
    · have rest := ih s t (by simpa using room) (by simpa using source)
      simp only [text] at rest
      simp [safestrcpyLoop, text, nul, rest]

theorem text_safestrcpy (s t : List UInt8) (n : Nat) (positive : 0 < n)
    (room : n ≤ s.length) (source : n ≤ t.length + 1) : text (safestrcpy s t n) = (text t).take (n - 1) := by
  obtain ⟨n, rfl⟩ := Nat.exists_eq_succ_of_ne_zero (Nat.ne_of_gt positive)
  simpa [safestrcpy] using text_safestrcpyLoop n s t room (by omega)

section Strings

variable {s rest : List UInt8}

theorem text_of_nul (nul : s.headD 0 = 0) : text s = [] := by
  cases s with
  | nil => rfl
  | cons b rest =>
    obtain rfl : b = 0 := nul
    rfl

theorem text_of_byte (byte : s.headD 0 ≠ 0) : text s = s.headD 0 :: text s.tail := by
  cases s with
  | nil => exact absurd rfl byte
  | cons b rest =>
    replace byte : b ≠ 0 := byte
    simp [text, byte]

theorem tail_shorter (byte : s.headD 0 ≠ 0) : s.tail.length < s.length := by
  cases s with
  | nil => exact absurd rfl byte
  | cons b rest => exact Nat.lt_succ_self _

theorem text_headD (s : List UInt8) : (text s).headD 0 = s.headD 0 := by
  by_cases nul : s.headD 0 = 0
  · rw [text_of_nul nul, nul]
    rfl
  · rw [text_of_byte nul]
    rfl

theorem text_eq_nil_iff : text s = [] ↔ s.headD 0 = 0 := by
  refine ⟨fun done => ?_, text_of_nul⟩
  rw [← text_headD, done]
  rfl

theorem text_eq_cons_iff {b : UInt8} {rest : List UInt8} :
    text s = b :: rest ↔ s.headD 0 ≠ 0 ∧ s.headD 0 = b ∧ text s.tail = rest := by
  by_cases nul : s.headD 0 = 0
  · rw [text_of_nul nul]
    exact ⟨fun impossible => absurd impossible (List.cons_ne_nil _ _).symm, fun both => absurd nul both.1⟩
  · rw [text_of_byte nul, List.cons.injEq]
    exact (and_iff_right nul).symm

theorem text_append_nul (noNul : (0 : UInt8) ∉ s) : text (s ++ 0 :: rest) = s := by
  induction s with
  | nil => rfl
  | cons byte s ih =>
    obtain ⟨here, noNul⟩ := List.ne_and_not_mem_of_not_mem_cons noNul
    have first : (byte :: s ++ 0 :: rest).headD 0 ≠ 0 := here.symm
    rw [text_of_byte first]
    exact congrArg (byte :: ·) (ih noNul)

theorem text_eq_self (noNul : (0 : UInt8) ∉ s) : text s = s := by
  rw [text, List.takeWhile_eq_self_iff]
  exact fun byte inside => bne_iff_ne.mpr fun nul => noNul (nul ▸ inside)

end Strings

end Xv6.CString
