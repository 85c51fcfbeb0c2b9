import Mathlib

set_option autoImplicit false

namespace Xv6

-- do{ buf[i++] = digits[x % base]; }while((x /= base) != 0), the characters of buf in the order of i. The test of
-- the base stands for the calls, which have base 10 or 16.
def digitLoop (digits : List Char) (base x : Nat) : List Char :=
  digits.getD (x % base) ' ' :: if 1 < base ∧ x / base ≠ 0 then digitLoop digits base (x / base) else []
termination_by x
decreasing_by
  rename_i more
  exact Nat.div_lt_self (Nat.pos_of_ne_zero fun zero => more.2 (by rw [zero, Nat.zero_div])) more.1

namespace Console

/-- buf of printint in console.c when it is printed. -/
def printintBuf (xx : BitVec 32) (base : Nat) (sign : Bool) : List Char :=
  let sign := sign && decide (xx.toInt < 0)
  let x := if sign then -xx else xx
  digitLoop "0123456789abcdef".toList base x.toNat ++ if sign then ['-'] else []

-- while(--i >= 0) consputc(buf[i]);
def printint (xx : BitVec 32) (base : Nat) (sign : Bool) : List Char := (printintBuf xx base sign).reverse

end Console

namespace Printf

/-- buf of printint in printf.c when it is printed. -/
def printintBuf (xx : BitVec 32) (base : Nat) (sgn : Bool) : List Char :=
  let (neg, x) := if sgn && decide (xx.toInt < 0) then (true, -xx) else (false, xx)
  digitLoop "0123456789ABCDEF".toList base x.toNat ++ if neg then ['-'] else []

-- while(--i >= 0) putc(fd, buf[i]);
def printint (xx : BitVec 32) (base : Nat) (sgn : Bool) : List Char := (printintBuf xx base sgn).reverse

end Printf

namespace Ulib

-- The end of the list stands for the NUL.
def atoiLoop (n : BitVec 32) : List Char → BitVec 32
  | [] => n
  | c :: s => if '0' ≤ c ∧ c ≤ '9' then atoiLoop (n * 10 + BitVec.ofNat 32 c.toNat - BitVec.ofNat 32 '0'.toNat) s else n

def atoi (s : List Char) : BitVec 32 := atoiLoop 0 s

end Ulib

def decimal (z : Int) : List Char :=
  if z < 0 then '-' :: Nat.toDigits 10 z.natAbs else Nat.toDigits 10 z.natAbs

structure PrintsExactly (x : BitVec 32) : Prop where
  short : ∀ call ∈ [(10, true), (16, false)],
    (Console.printintBuf x call.1 call.2).length < 16 ∧ (Printf.printintBuf x call.1 call.2).length < 16
  signed : Console.printint x 10 true = decimal x.toInt ∧ Printf.printint x 10 true = decimal x.toInt
  unsigned : Console.printint x 16 false = Nat.toDigits 16 x.toNat ∧
    Printf.printint x 16 false = (Nat.toDigits 16 x.toNat).map Char.toUpper
  plain : ∀ base ∈ [10, 16], ∀ n, (Nat.toDigits base n).head? = some '0' → n = 0
  agree : ∀ call ∈ [(10, true), (16, false)],
    (Printf.printint x call.1 call.2).map Char.toLower = Console.printint x call.1 call.2
  inverse : 0 ≤ x.toInt → Ulib.atoi (Console.printint x 10 true) = x

theorem digitLoop_reverse (digits : List Char) {base : Nat} (change : Char → Char) (more : 1 < base)
    (table : ∀ d < base, digits.getD d ' ' = change (Nat.digitChar d)) (x : Nat) :
    (digitLoop digits base x).reverse = (Nat.toDigits base x).map change := by
  induction x using Nat.strongRecOn with
  | ind x ih =>
    rw [digitLoop, Nat.toDigits_eq_if more, List.reverse_cons, table _ (Nat.mod_lt _ (by omega))]
    by_cases last : x < base
    · rw [if_pos last, if_neg (by simp [Nat.div_eq_of_lt last]), Nat.mod_eq_of_lt last]
      rfl
    · have left : x / base ≠ 0 := by
        rw [Nat.div_ne_zero_iff]
        omega
      rw [if_neg last, if_pos ⟨more, left⟩, ih _ (Nat.div_lt_self (by omega) more), List.map_append]
      rfl

theorem toDigits_map {base : Nat} {change : Char → Char} (more : 1 < base) (small : base ≤ 16)
    (fixed : ∀ d < 16, change (Nat.digitChar d) = Nat.digitChar d) (x : Nat) :
    (Nat.toDigits base x).map change = Nat.toDigits base x := by
  have table : ∀ d < 16, "0123456789abcdef".toList.getD d ' ' = Nat.digitChar d := by decide
  have changed := digitLoop_reverse _ change more (fun d below => (table d (by omega)).trans (fixed d (by omega)).symm) x
  have plain := digitLoop_reverse _ id more (fun d below => table d (by omega)) x
  rw [List.map_id] at plain
  exact changed.symm.trans plain

theorem neg_toNat {x : BitVec 32} (negative : x.toInt < 0) : (-x).toNat = x.toInt.natAbs := by
  have below := x.isLt
  rw [BitVec.toInt_eq_toNat_cond] at *
  rw [BitVec.toNat_neg]
  split at negative <;> omega

theorem toNat_eq {x : BitVec 32} (positive : ¬x.toInt < 0) : x.toNat = x.toInt.natAbs := by
  have below := x.isLt
  rw [BitVec.toInt_eq_toNat_cond] at *
  split at positive <;> omega

theorem toDigits_plain {base n : Nat} (more : 1 < base) (small : base ≤ 16)
    (zero : (Nat.toDigits base n).head? = some '0') : n = 0 := by
  induction n using Nat.strongRecOn with
  | ind n ih =>
    rw [Nat.toDigits_eq_if more] at zero
    split at zero
    next last =>
      have digit : ∀ d < 16, Nat.digitChar d = '0' → d = 0 := by decide
      exact digit n (by omega) (Option.some.inj zero)
    next large =>
      have left : n / base ≠ 0 := by
        rw [Nat.div_ne_zero_iff]
        omega
      refine absurd (ih _ (Nat.div_lt_self (by omega) more) ?_) left
      rw [List.head?_append, Option.or_eq_some_iff] at zero
      refine zero.resolve_right fun empty => ?_
      rw [List.head?_eq_none_iff, Nat.toDigits_eq_if more] at empty
      split at empty <;> simp at empty

theorem atoiLoop_digit {d : Nat} (small : d < 10) (n : Nat) (s : List Char) :
    Ulib.atoiLoop (BitVec.ofNat 32 n) (Nat.digitChar d :: s) = Ulib.atoiLoop (BitVec.ofNat 32 (n * 10 + d)) s := by
  have digit : ∀ d < 10, '0' ≤ Nat.digitChar d ∧ Nat.digitChar d ≤ '9' ∧ (Nat.digitChar d).toNat = '0'.toNat + d := by
    decide
  obtain ⟨low, high, code⟩ := digit d small
  have sum : BitVec.ofNat 32 n * 10 + BitVec.ofNat 32 ('0'.toNat + d) - BitVec.ofNat 32 '0'.toNat =
      BitVec.ofNat 32 (n * 10 + d) := by
    rw [BitVec.ofNat_add, BitVec.ofNat_add, BitVec.ofNat_mul, BitVec.add_comm (BitVec.ofNat 32 _) (BitVec.ofNat 32 d),
      ← BitVec.add_assoc, BitVec.add_sub_cancel]
    rfl
  rw [Ulib.atoiLoop, if_pos ⟨low, high⟩, code, sum]

theorem atoiLoop_toDigits (n : Nat) (s : List Char) :
    Ulib.atoiLoop 0 (Nat.toDigits 10 n ++ s) = Ulib.atoiLoop (BitVec.ofNat 32 n) s := by
  induction n using Nat.strongRecOn generalizing s with
  | ind n ih =>
    rw [Nat.toDigits_eq_if (by decide)]
    split
    next last => simpa using atoiLoop_digit last 0 s
    next large =>
      rw [List.append_assoc, List.singleton_append, ih _ (by omega), atoiLoop_digit (Nat.mod_lt _ (by decide)),
        Nat.div_add_mod']

section

variable (x : BitVec 32)

theorem decimal_map {change : Char → Char} (minus : change '-' = '-')
    (fixed : ∀ d < 16, change (Nat.digitChar d) = Nat.digitChar d) (z : Int) : (decimal z).map change = decimal z := by
  unfold decimal
  split
  · rw [List.map_cons, minus, toDigits_map (by decide) (by decide) fixed]
  · exact toDigits_map (by decide) (by decide) fixed _

theorem decimal_length : (decimal x.toInt).length < 16 := by
  have bound : x.toInt.natAbs < 10 ^ 10 := by
    have below := x.isLt
    rw [BitVec.toInt_eq_toNat_cond]
    split <;> omega
  have digits := (Nat.length_toDigits_le_iff (by decide) (by decide)).mpr bound
  unfold decimal
  split
  · rw [List.length_cons]
    omega
  · omega

theorem hex_length : (Nat.toDigits 16 x.toNat).length < 16 := by
  have digits := (Nat.length_toDigits_le_iff (b := 16) (k := 8) (by decide) (by decide)).mpr x.isLt
  omega

-- What either version prints, with its table of digits.
theorem reverse_decimal (digits : List Char) (table : ∀ d < 10, digits.getD d ' ' = Nat.digitChar d) :
    (digitLoop digits 10 (if x.toInt < 0 then -x else x).toNat ++ if x.toInt < 0 then ['-'] else []).reverse =
      decimal x.toInt := by
  have numeral (n : Nat) : (digitLoop digits 10 n).reverse = Nat.toDigits 10 n := by
    rw [digitLoop_reverse _ id (by decide) table, List.map_id]
  by_cases negative : x.toInt < 0
  · rw [if_pos negative, if_pos negative, neg_toNat negative, List.reverse_append, numeral, decimal, if_pos negative]
    rfl
  · rw [if_neg negative, if_neg negative, toNat_eq negative, List.append_nil, numeral, decimal, if_neg negative]

theorem kernel_decimal : Console.printint x 10 true = decimal x.toInt := by
  rw [← reverse_decimal x "0123456789abcdef".toList (by decide)]
  simp [Console.printint, Console.printintBuf]

theorem user_decimal : Printf.printint x 10 true = decimal x.toInt := by
  rw [← reverse_decimal x "0123456789ABCDEF".toList (by decide), Printf.printint, Printf.printintBuf]
  by_cases negative : x.toInt < 0 <;> simp [negative]

theorem kernel_hex : Console.printint x 16 false = Nat.toDigits 16 x.toNat := by
  have digits : (digitLoop "0123456789abcdef".toList 16 x.toNat).reverse = (Nat.toDigits 16 x.toNat).map id :=
    digitLoop_reverse _ id (by decide) (by decide) x.toNat
  rw [List.map_id] at digits
  simpa [Console.printint, Console.printintBuf] using digits

theorem user_hex : Printf.printint x 16 false = (Nat.toDigits 16 x.toNat).map Char.toUpper := by
  have digits : (digitLoop "0123456789ABCDEF".toList 16 x.toNat).reverse =
      (Nat.toDigits 16 x.toNat).map Char.toUpper := digitLoop_reverse _ Char.toUpper (by decide) (by decide) x.toNat
  simpa [Printf.printint, Printf.printintBuf] using digits

end

theorem printint_exact (x : BitVec 32) : PrintsExactly x := by
  have kernelLength (base : Nat) (sign : Bool) : (Console.printintBuf x base sign).length =
      (Console.printint x base sign).length := List.length_reverse.symm
  have userLength (base : Nat) (sgn : Bool) : (Printf.printintBuf x base sgn).length =
      (Printf.printint x base sgn).length := List.length_reverse.symm
  refine ⟨?_, ⟨kernel_decimal x, user_decimal x⟩, ⟨kernel_hex x, user_hex x⟩, ?_, ?_, fun positive => ?_⟩
  · simp only [List.forall_mem_cons, List.not_mem_nil, false_imp_iff, implies_true, and_true, kernelLength, userLength,
      kernel_decimal, user_decimal, kernel_hex, user_hex, List.length_map]
    exact ⟨⟨decimal_length x, decimal_length x⟩, hex_length x, hex_length x⟩
  · simp only [List.forall_mem_cons, List.not_mem_nil, false_imp_iff, implies_true, and_true]
    exact ⟨fun n => toDigits_plain (by decide) (by decide), fun n => toDigits_plain (by decide) (by decide)⟩
  · simp only [List.forall_mem_cons, List.not_mem_nil, false_imp_iff, implies_true, and_true, kernel_decimal,
      user_decimal, kernel_hex, user_hex, List.map_map]
    exact ⟨decimal_map rfl (by decide) _, toDigits_map (by decide) (by decide) (by decide) _⟩
  · rw [kernel_decimal, decimal, if_neg (by omega), Ulib.atoi, ← List.append_nil (Nat.toDigits _ _),
      atoiLoop_toDigits, Ulib.atoiLoop, ← toNat_eq (by omega), BitVec.ofNat_toNat, BitVec.setWidth_eq]

end Xv6
