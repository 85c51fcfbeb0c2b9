import Mathlib

set_option autoImplicit false

namespace Xv6.Mp

-- The memory from the configuration table on; offsets stand for pointers into it.
abbrev Memory := Nat → UInt8

def nCpu : Nat := 8

def confSize : Nat := 44

def mpProc : UInt8 := 0
def mpBus : UInt8 := 1
def mpIoapic : UInt8 := 2
def mpIointr : UInt8 := 3
def mpLintr : UInt8 := 4

def confLength (mem : Memory) : Nat := (mem 4).toNat + 2 ^ 8 * (mem 5).toNat

def sum (mem : Memory) (len : Nat) : UInt8 := (List.range len).foldl (fun total i => total + mem i) 0

-- The tests of mpconfig on the table that mpsearch has led to.
def mpconfig (mem : Memory) : Bool :=
  decide ((List.range 4).map mem = [80, 67, 77, 80] ∧ (mem 6 = 1 ∨ mem 6 = 4) ∧ sum mem (confLength mem) = 0)

structure Scan where
  p : Nat
  ismp : Bool
  ncpu : Nat
  apicid : Nat → UInt8
  ioapicid : UInt8
  -- where the switch was entered, the latest first
  visited : List Nat

def start : Scan where
  p := confSize
  ismp := true
  ncpu := 0
  apicid _ := 0
  ioapicid := 0
  visited := []

def iteration (mem : Memory) (s : Scan) : Scan :=
  let s := { s with visited := s.p :: s.visited }
  if mem s.p = mpProc then
    { s with
      apicid := if s.ncpu < nCpu then Function.update s.apicid s.ncpu (mem (s.p + 1)) else s.apicid
      ncpu := if s.ncpu < nCpu then s.ncpu + 1 else s.ncpu
      p := s.p + 20 }
  else if mem s.p = mpIoapic then { s with ioapicid := mem (s.p + 1), p := s.p + 8 }
  else if mem s.p = mpBus ∨ mem s.p = mpIointr ∨ mem s.p = mpLintr then { s with p := s.p + 8 }
  -- This break leaves the switch, not the loop.
  else { s with ismp := false }

-- At most `n` iterations of the loop.
def scan (mem : Memory) : Nat → Scan → Scan
  | 0, s => s
  | n + 1, s => if s.p < confLength mem then scan mem n (iteration mem s) else s

def entrySize (type : UInt8) : Option Nat :=
  if type = mpProc then some 20
  else if type = mpBus ∨ type = mpIoapic ∨ type = mpIointr ∨ type = mpLintr then some 8
  else none

-- The entries from `p` on, up to the first of unknown type.
def entriesFrom (mem : Memory) : Nat → Nat → List Nat
  | 0, _ => []
  | fuel + 1, p =>
    if p < confLength mem then
      match entrySize (mem p) with
      | some size => p :: entriesFrom mem fuel (p + size)
      | none => [p]
    else []

def entries (mem : Memory) : List Nat := entriesFrom mem (confLength mem) confSize

def Known (mem : Memory) : Prop := ∀ p ∈ entries mem, (entrySize (mem p)).isSome

structure Scans (mem : Memory) (s : Scan) : Prop where
  ends : ¬ s.p < confLength mem
  ismp : s.ismp = false ↔ ¬ Known mem
  ncpu : s.ncpu ≤ nCpu
  visits : Known mem → s.visited.reverse = entries mem

variable {mem : Memory} {s : Scan}

theorem iteration_visited : (iteration mem s).visited = s.p :: s.visited := by
  unfold iteration
  dsimp only
  split_ifs <;> rfl

theorem iteration_ncpu (few : s.ncpu ≤ nCpu) : (iteration mem s).ncpu ≤ nCpu := by
  unfold iteration
  dsimp only
  split_ifs <;> simp_all

theorem iteration_known {size : Nat} (known : entrySize (mem s.p) = some size) :
    (iteration mem s).p = s.p + size ∧ 8 ≤ size ∧ (iteration mem s).ismp = s.ismp := by
  unfold entrySize at known
  unfold iteration
  grind

theorem iteration_unknown (unknown : entrySize (mem s.p) = none) : (iteration mem s).p = s.p := by
  unfold entrySize at unknown
  unfold iteration
  grind

-- The fuel of `entriesFrom` is what is left of the table, and every known entry uses some of it up.
theorem scan_known {fuel : Nat} (enough : confLength mem ≤ s.p + fuel)
    (known : ∀ p ∈ entriesFrom mem fuel s.p, (entrySize (mem p)).isSome) :
    ¬ (scan mem fuel s).p < confLength mem ∧ (scan mem fuel s).ismp = s.ismp ∧
      (scan mem fuel s).visited.reverse = s.visited.reverse ++ entriesFrom mem fuel s.p := by
  induction fuel generalizing s with
  | zero => exact ⟨by simp only [scan]; omega, rfl, by simp [scan, entriesFrom]⟩
  | succ fuel ih =>
    by_cases inside : s.p < confLength mem
    · cases size : entrySize (mem s.p) with
      | none =>
        have := known s.p (by simp [entriesFrom, inside, size])
        simp [size] at this
      | some n =>
        obtain ⟨moved, some, kept⟩ := iteration_known size
        have later : entriesFrom mem (fuel + 1) s.p = s.p :: entriesFrom mem fuel (s.p + n) := by
          simp [entriesFrom, inside, size]
        rw [later] at known ⊢
        rw [← moved] at known ⊢
        obtain ⟨ends, ismp, visits⟩ := ih (s := iteration mem s) (by omega) fun p member => known p (by simp [member])
        rw [scan, if_pos inside]
        refine ⟨ends, ismp.trans kept, ?_⟩
        rw [visits, iteration_visited]
        simp
    · simp [scan, entriesFrom, inside]

theorem scan_unknown {p : Nat} (unknown : entrySize (mem p) = none) (fuel n : Nat)
    (ahead : p ∈ entriesFrom mem fuel s.p) : (scan mem n s).p < confLength mem := by
  induction n generalizing s fuel with
  | zero =>
    cases fuel with
    | zero => cases ahead
    | succ fuel =>
      by_contra outside
      simp only [entriesFrom, if_neg (show ¬ s.p < confLength mem from outside)] at ahead
      cases ahead
  | succ n ih =>
    cases fuel with
    | zero => cases ahead
    | succ fuel =>
      by_cases inside : s.p < confLength mem
      · rw [scan, if_pos inside]
        cases size : entrySize (mem s.p) with
        | none => exact ih (fuel + 1) (by rwa [iteration_unknown size])
        | some m =>
          simp only [entriesFrom, if_pos inside, size, List.mem_cons] at ahead
          rcases ahead with rfl | later
          · rw [size] at unknown
            cases unknown
          · exact ih fuel (by rwa [(iteration_known size).1])
      · simp only [entriesFrom, if_neg inside] at ahead
        cases ahead

theorem scan_ncpu (n : Nat) (few : s.ncpu ≤ nCpu) : (scan mem n s).ncpu ≤ nCpu := by
  induction n generalizing s with
  | zero => exact few
  | succ n ih =>
    rw [scan]
    split_ifs
    · exact ih (iteration_ncpu few)
    · exact few

/-- The loop of mpinit ends, and as expected, exactly on the tables without an entry of unknown type. -/
theorem mpinit_scans_iff (mem : Memory) : (∃ n, Scans mem (scan mem n start)) ↔ Known mem := by
  constructor
  · rintro ⟨n, scans⟩ p member
    by_contra unknown
    rw [Bool.not_eq_true, Option.isSome_eq_false_iff, Option.isNone_iff_eq_none] at unknown
    exact scans.ends (scan_unknown unknown _ n member)
  · intro known
    obtain ⟨ends, ismp, visits⟩ := scan_known (s := start) (show confLength mem ≤ confSize + confLength mem by omega) known
    refine ⟨confLength mem, ends, ?_, scan_ncpu _ (Nat.zero_le _), fun _ => visits⟩
    rw [ismp]
    simpa [start] using known

def unknownTable : Memory := fun i => [80, 67, 77, 80, 45, 0, 1, 157].getD i (if i = 44 then 5 else 0)

/-- A table with a single entry, of type 5, is accepted, and the scan never leaves that entry. -/
theorem mpinit_unknown_entry :
    mpconfig unknownTable = true ∧ ∀ n, (scan unknownTable n start).p < confLength unknownTable := by
  refine ⟨by decide, fun n => ?_⟩
  exact scan_unknown (p := 44) (by decide) 45 n (by decide)

end Xv6.Mp
