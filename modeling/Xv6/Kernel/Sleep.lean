import Xv6.Shared.Runs

set_option autoImplicit false

namespace Xv6.Sleep

/-- Where a call of sys_sleep is. From the read of ticks0 up to the sleep it holds tickslock. -/
inductive Point where
  | entry
  | test
  | check
  | asleep
  | woken
  | returned (value : Int)
  deriving DecidableEq

structure State where
  point : Point
  ticks : BitVec 32
  ticks0 : BitVec 32
  killed : Bool
  /-- How many ticks have passed since ticks0 was read, and how many had at each call of sleep. -/
  passed : Nat
  slept : List Nat

inductive Action where
  | proceed
  | tick
  | wakeup
  | kill

def State.go (s : State) (point : Point) : State := { s with point }

-- wakeup1, for this process.
def State.wake (s : State) : State := if s.point = .asleep then s.go .woken else s

-- `n` is what argint stored, if it succeeded. The comparison with it is unsigned.
def sysSleep (n : Option (BitVec 32)) (s : State) : Option State :=
  match n, s.point with
  | none, .entry => some (s.go (.returned (-1)))
  | some _, .entry => some { s with point := .test, ticks0 := s.ticks, passed := 0 }
  | some n, .test => some (s.go (if s.ticks - s.ticks0 < n then .check else .returned 0))
  | some _, .check =>
    if s.killed then some (s.go (.returned (-1)))
    else some { s with point := .asleep, slept := s.passed :: s.slept }
  | some _, .woken => some (s.go .test)
  | _, _ => none

-- The timer interrupt needs tickslock.
def tickslockFree : Point → Bool
  | .test | .check => false
  | _ => true

def step (n : Option (BitVec 32)) : Action → State → Option State
  | .proceed, s => sysSleep n s
  | .tick, s =>
    if tickslockFree s.point then some { s with ticks := s.ticks + 1, passed := s.passed + 1 }.wake else none
  | .wakeup, s => some s.wake
  | .kill, s => some { s with killed := true }.wake

def begin (ticks : BitVec 32) : State :=
  { point := .entry, ticks, ticks0 := 0, killed := false, passed := 0, slept := [] }

def unfinished (s : State) (_ : Action) : Prop := ∀ value, s.point ≠ .returned value

abbrev Reachable (n ticks : BitVec 32) (s : State) : Prop :=
  Runs.Reachable (step (some n)) unfinished (fun s => s = begin ticks) s

structure Waits (n : BitVec 32) (s : State) : Prop where
  done : s.point = .returned 0 → max n.toInt 0 ≤ s.passed
  awake : ∀ k ∈ s.slept, ¬(max n.toInt 0 ≤ k ∧ k < 2 ^ 32)
  killed : s.point = .returned (-1) → s.killed = true

structure Invariant (n : BitVec 32) (s : State) : Prop where
  clock : s.point ≠ .entry → s.ticks = s.ticks0 + BitVec.ofNat 32 s.passed
  early : s.point = .check → BitVec.ofNat 32 s.passed < n
  late : s.point = .returned 0 → n ≤ BitVec.ofNat 32 s.passed
  slept : ∀ k ∈ s.slept, BitVec.ofNat 32 k < n
  killed : s.point = .returned (-1) → s.killed = true

variable {n : BitVec 32} {s s' : State}

theorem Invariant.wake (inv : Invariant n s) : Invariant n s.wake := by
  unfold State.wake
  split_ifs with asleep
  · exact ⟨fun _ => inv.clock (by simp [asleep]), by simp [State.go], by simp [State.go], inv.slept, by simp [State.go]⟩
  · exact inv

theorem sysSleep_invariant (inv : Invariant n s) (next : sysSleep (some n) s = some s') : Invariant n s' := by
  rcases here : s.point with _ | _ | _ | _ | _ | value <;> simp only [sysSleep, here, Option.some.injEq, reduceCtorEq] at next
  · subst next
    exact ⟨by simp, by simp, by simp, inv.slept, by simp⟩
  · subst next
    have elapsed : s.ticks - s.ticks0 = BitVec.ofNat 32 s.passed := by
      rw [inv.clock (by simp [here]), BitVec.add_comm, BitVec.add_sub_cancel]
    rw [elapsed]
    split_ifs with before
    · exact ⟨fun _ => inv.clock (by simp [here]), fun _ => before, by simp [State.go], inv.slept, by simp [State.go]⟩
    · exact ⟨fun _ => inv.clock (by simp [here]), by simp [State.go], fun _ => BitVec.not_lt.mp before, inv.slept,
        by simp [State.go]⟩
  · split_ifs at next with dead
    · cases next
      exact ⟨fun _ => inv.clock (by simp [here]), by simp [State.go], by simp [State.go], inv.slept, fun _ => dead⟩
    · cases next
      refine ⟨fun _ => inv.clock (by simp [here]), by simp, by simp, fun k member => ?_, by simp⟩
      rcases List.mem_cons.mp member with rfl | older
      · exact inv.early here
      · exact inv.slept k older
  · subst next
    exact ⟨fun _ => inv.clock (by simp [here]), by simp [State.go], by simp [State.go], inv.slept, by simp [State.go]⟩

theorem step_invariant {a : Action} (inv : Invariant n s) (may : unfinished s a) (next : step (some n) a s = some s') :
    Invariant n s' := by
  cases a with
  | proceed => exact sysSleep_invariant inv next
  | tick =>
    simp only [step] at next
    split_ifs at next with free
    cases next
    refine Invariant.wake ⟨fun inside => ?_, fun here => ?_, fun here => absurd here (may 0), inv.slept, inv.killed⟩
    · rw [inv.clock inside, BitVec.add_assoc, BitVec.ofNat_add]
      rfl
    · rw [show s.point = .check from here] at free
      cases free
  | wakeup =>
    cases next
    exact inv.wake
  | kill =>
    cases next
    exact Invariant.wake ⟨inv.clock, inv.early, inv.late, inv.slept, fun _ => rfl⟩

theorem reachable_invariant {ticks : BitVec 32} (reached : Reachable n ticks s) : Invariant n s := by
  refine reached.invariant (Invariant n) ?_ fun s a s' inv may next => step_invariant inv may next
  rintro s rfl
  exact ⟨by simp [begin], by simp [begin], by simp [begin], by simp [begin], by simp [begin]⟩

theorem waits_of_nonneg (inv : Invariant n s) (nonneg : 0 ≤ n.toInt) : Waits n s := by
  have value : n.toInt = n.toNat := BitVec.toInt_eq_toNat_of_lt (by
    rw [BitVec.toInt_eq_toNat_cond] at nonneg
    split_ifs at nonneg with small
    · exact small
    · have := n.isLt
      omega)
  constructor
  · intro done
    have late := inv.late done
    rw [BitVec.le_def, BitVec.toNat_ofNat] at late
    have := Nat.mod_le s.passed (2 ^ 32)
    omega
  · rintro k member ⟨enough, small⟩
    have early := inv.slept k member
    rw [BitVec.lt_def, BitVec.toNat_ofNat, Nat.mod_eq_of_lt small] at early
    omega
  · exact inv.killed

theorem sleeps_at_once (n ticks : BitVec 32) (positive : 0#32 < n) : ∃ s, Reachable n ticks s ∧ 0 ∈ s.slept := by
  have start : Reachable n ticks (begin ticks) := .start rfl
  have read := Runs.Reachable.step start (a := .proceed) (by simp [unfinished, begin]) rfl
  have test := Runs.Reachable.step read (a := .proceed) (by simp [unfinished]) rfl
  simp only [begin, State.go, BitVec.sub_self, if_pos positive] at test
  have check := Runs.Reachable.step test (a := .proceed) (by simp [unfinished]) rfl
  exact ⟨_, check, List.mem_cons_self⟩

/-- sleep(n) keeps its promises in all runs exactly if n is not negative. -/
theorem sleep_waits_iff (n ticks : BitVec 32) : (∀ s, Reachable n ticks s → Waits n s) ↔ 0 ≤ n.toInt := by
  constructor
  · intro waits
    by_contra negative
    have positive : 0#32 < n := by
      rw [BitVec.pos_iff_ne_zero]
      rintro rfl
      exact negative (by decide)
    obtain ⟨s, reached, zero⟩ := sleeps_at_once n ticks positive
    exact (waits s reached).awake 0 zero ⟨by omega, by omega⟩
  · exact fun nonneg s reached => waits_of_nonneg (reachable_invariant reached) nonneg

theorem sleep_minus_one : ∃ s, Reachable (-1) 0 s ∧ ¬Waits (-1) s := by
  obtain ⟨s, reached, zero⟩ := sleeps_at_once (-1) 0 (by decide)
  exact ⟨s, reached, fun waits => waits.awake 0 zero ⟨by decide, by decide⟩⟩

end Xv6.Sleep
