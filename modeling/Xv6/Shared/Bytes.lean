import Mathlib

set_option autoImplicit false

namespace Bytes

abbrev Byte := BitVec 8

-- A stretch of memory or of a disk, by offset.
abbrev Block := Nat → Byte

section Bytes

def getLe (blk : Block) : Nat → Nat → Nat
  | _, 0 => 0
  | off, n + 1 => (blk off).toNat + 256 * getLe blk (off + 1) n

def leByte (v t : Nat) : Byte := BitVec.ofNat 8 (v / 256 ^ t)

def memmove (blk : Block) (off n : Nat) (src : Nat → Byte) : Block := fun o =>
  if off ≤ o ∧ o < off + n then src (o - off) else blk o

def putLe (blk : Block) (off n v : Nat) : Block := memmove blk off n (leByte v)

variable {blk blk' : Block} {off n v o : Nat} {src : Nat → Byte}

theorem getLe_congr (same : ∀ t < n, blk' (off + t) = blk (off + t)) : getLe blk' off n = getLe blk off n := by
  induction n generalizing off with
  | zero => rfl
  | succ n ih =>
    have rest : getLe blk' (off + 1) n = getLe blk (off + 1) n := ih fun t small => by
      have := same (t + 1) (by omega)
      rwa [show off + (t + 1) = off + 1 + t by omega] at this
    have here : blk' off = blk off := same 0 (Nat.succ_pos n)
    rw [getLe, getLe, rest, here]

theorem getLe_lt : getLe blk off n < 256 ^ n := by
  induction n generalizing off with
  | zero => simp [getLe]
  | succ n ih =>
    have rest : getLe blk (off + 1) n < 256 ^ n := ih
    have byte := (blk off).isLt
    rw [getLe, pow_succ]
    omega

theorem getLe_of_bytes (bytes : ∀ t < n, blk (off + t) = leByte v t) : getLe blk off n = v % 256 ^ n := by
  induction n generalizing off v with
  | zero => simp [getLe, Nat.mod_one]
  | succ n ih =>
    have here : (blk off).toNat = v % 256 := by
      have := bytes 0 (Nat.succ_pos n)
      simp only [Nat.add_zero] at this
      simp [this, leByte]
    have rest : getLe blk (off + 1) n = v / 256 % 256 ^ n := ih fun t small => by
      have := bytes (t + 1) (by omega)
      rw [show off + (t + 1) = off + 1 + t by omega] at this
      rw [this, leByte, leByte, Nat.div_div_eq_div_mul, pow_succ, Nat.mul_comm]
    rw [getLe, here, rest, pow_succ, Nat.mul_comm (256 ^ n) 256, Nat.mod_mul]

theorem memmove_outside (outside : o < off ∨ off + n ≤ o) : memmove blk off n src o = blk o := by
  rw [memmove, if_neg (by omega)]

theorem memmove_inside (inside : o < n) : memmove blk off n src (off + o) = src o := by
  rw [memmove, if_pos (by omega)]
  congr 1
  omega

theorem memmove_append {k : Nat} : memmove (memmove blk off n src) (off + n) k (fun t => src (n + t)) =
    memmove blk off (n + k) src := by
  funext o
  by_cases first : o < off + n
  · rw [memmove_outside (.inl first), memmove, memmove]
    congr 1
    exact propext (by omega)
  · rw [memmove, memmove_outside (.inr (Nat.not_lt.mp first)), memmove, show n + (o - (off + n)) = o - off by omega]
    congr 1
    exact propext (by omega)

theorem getLe_putLe : getLe (putLe blk off n v) off n = v % 256 ^ n := getLe_of_bytes fun _ => memmove_inside

theorem getLe_memmove_apart {k w : Nat} (apart : o + w ≤ off ∨ off + k ≤ o) :
    getLe (memmove blk off k src) o w = getLe blk o w := getLe_congr fun t small => memmove_outside (by omega)

end Bytes

section Bitmap

def isFree (blk : Block) (bi : Nat) : Bool := decide (blk (bi / 8) &&& BitVec.twoPow 8 (bi % 8) = 0)

def markBit (blk : Block) (bi : Nat) : Block :=
  Function.update blk (bi / 8) (blk (bi / 8) ||| BitVec.twoPow 8 (bi % 8))

def clearBit (blk : Block) (bi : Nat) : Block :=
  Function.update blk (bi / 8) (blk (bi / 8) &&& ~~~BitVec.twoPow 8 (bi % 8))

variable {blk : Block} {b bi : Nat}

theorem isFree_eq : isFree blk bi = !(blk (bi / 8)).getLsbD (bi % 8) := by
  have small : bi % 8 < 8 := Nat.mod_lt _ (by decide)
  have one : BitVec.twoPow 8 (bi % 8) ≠ 0#8 := by
    intro zero
    have := congrArg (fun x => BitVec.getLsbD x (bi % 8)) zero
    simp [small] at this
  unfold isFree
  rw [BitVec.and_twoPow]
  split
  next set => simp [set, one]
  next clear => simp [clear]

theorem getLsbD_twoPow (k j : Nat) (small : j < 8) : (BitVec.twoPow 8 k).getLsbD j = decide (k = j) := by
  rw [BitVec.getLsbD_twoPow]
  simp [eq_comm]
  omega

theorem isFree_markBit (b bi : Nat) : isFree (markBit blk bi) b = (isFree blk b && decide (b ≠ bi)) := by
  have small : b % 8 < 8 := Nat.mod_lt _ (by decide)
  rw [isFree_eq, isFree_eq, markBit]
  by_cases byte : b / 8 = bi / 8
  · rw [byte, Function.update_self, BitVec.getLsbD_or, getLsbD_twoPow _ _ small]
    have same : bi % 8 = b % 8 ↔ b = bi := by omega
    simp [same]
  · have apart : b ≠ bi := fun same => byte (by rw [same])
    rw [Function.update_of_ne byte]
    simp [apart]

end Bitmap

end Bytes
