import Xv6.Shared.ArrayScan
import Xv6.Shared.FixedPriority

set_option autoImplicit false

namespace Xv6.Rms

open Uniprocessor

structure Process where
  id : Int
  executionTime : Int
  period : Int
  arrivalTime : Int
  remainingTime : Int
  nextArrivalTime : Int
  deriving DecidableEq

def sortByPeriod (processes : List Process) : List Process :=
  ArrayScan.sort Process.period processes

inductive Event where
  | priority (position id period : Int)
  | executed (id time remaining : Int)
  | completed (id time : Int)
  deriving DecidableEq

structure Sim where
  processes : List Process
  time : Int
  waitingTime : Int
  turnaroundTime : Int
  cpuBusyTime : Int
  output : List Event

def displayPriorityOrder (processes : List Process) : List Event :=
  processes.mapIdx fun i process => .priority (i + 1) process.id process.period

-- The float arithmetic of the test is read as exact real arithmetic.
noncomputable def totalUtilization (processes : List Process) : ℝ :=
  processes.foldl (fun total process => total + (process.executionTime : ℝ) / process.period) 0

noncomputable def checkRmsSchedulability (processes : List Process) : Int :=
  let n := processes.length
  if totalUtilization processes > n * ((2 : ℝ) ^ (1 / (n : ℝ)) - 1) then 0 else 1

def Process.isReady (time : Int) (process : Process) : Bool :=
  decide (process.nextArrivalTime ≤ time ∧ process.remainingTime > 0)

def executeUnit (process : Process) : Process :=
  if process.remainingTime - 1 = 0 then
    { process with
      nextArrivalTime := process.nextArrivalTime + process.period
      remainingTime := process.executionTime }
  else
    { process with remainingTime := process.remainingTime - 1 }

def dispatch (time : Int) (processes : List Process) : Option (Process × List Process) :=
  ArrayScan.scan (Process.isReady time) executeUnit processes

def tick (sim : Sim) : Sim :=
  match dispatch sim.time sim.processes with
  | none => { sim with time := sim.time + 1 }
  | some (process, processes) =>
    let time := sim.time + 1
    let remaining := process.remainingTime - 1
    { processes, time
      waitingTime := sim.waitingTime +
        if remaining = 0 then time - process.nextArrivalTime - process.executionTime else 0
      turnaroundTime := sim.turnaroundTime +
        if remaining = 0 then time - process.nextArrivalTime else 0
      cpuBusyTime := sim.cpuBusyTime + 1
      output := sim.output ++ .executed process.id time remaining ::
        if remaining = 0 then [.completed process.id time] else [] }

def start (processes : List Process) : Sim :=
  let sorted := sortByPeriod (processes.map fun process =>
    { process with
      nextArrivalTime := process.arrivalTime
      remainingTime := process.executionTime })
  { processes := sorted
    time := 0
    waitingTime := 0
    turnaroundTime := 0
    cpuBusyTime := 0
    output := displayPriorityOrder sorted }

/-- The states in which the test of the while loop is made; the last one is where it fails. Every
iteration adds one to time, so `totalTime` iterations are enough. -/
def loopHeads (totalTime : Int) : Nat → Sim → List Sim
  | 0, sim => [sim]
  | fuel + 1, sim => sim :: if sim.time < totalTime then loopHeads totalTime fuel (tick sim) else []

def rmsScheduling (processes : List Process) (totalTime : Int) : List Sim :=
  loopHeads totalTime totalTime.toNat (start processes)

structure Task where
  executionTime : Int
  period : Int
  arrivalTime : Int

structure Task.Valid (task : Task) : Prop where
  executionTime : 1 ≤ task.executionTime
  period : 1 ≤ task.period
  arrivalTime : 0 ≤ task.arrivalTime

def readProcess (i : Nat) (task : Task) : Process where
  id := i + 1
  executionTime := task.executionTime
  period := task.period
  arrivalTime := task.arrivalTime
  remainingTime := task.executionTime
  nextArrivalTime := task.arrivalTime

def readProcesses (tasks : List Task) : List Process :=
  tasks.mapIdx readProcess

def simAt (processes : List Process) (t : Nat) : Sim :=
  tick^[t] (start processes)

theorem simAt_succ (processes : List Process) (t : Nat) : simAt processes (t + 1) = tick (simAt processes t) :=
  Function.iterate_succ_apply' tick t _

theorem tick_time (sim : Sim) : (tick sim).time = sim.time + 1 := by
  unfold tick
  split <;> rfl

theorem simAt_time (processes : List Process) (t : Nat) : (simAt processes t).time = t := by
  induction t with
  | zero => rfl
  | succ t ih => rw [simAt_succ, tick_time, ih]; rfl

theorem mem_loopHeads (totalTime : Int) (fuel t : Nat) (processes : List Process) (sim : Sim)
    (reached : sim ∈ loopHeads totalTime fuel (simAt processes t)) : ∃ u : Nat, sim = simAt processes u := by
  induction fuel generalizing t with
  | zero => exact ⟨t, by simpa [loopHeads] using reached⟩
  | succ fuel ih =>
    rcases List.mem_cons.mp reached with rfl | later
    · exact ⟨t, rfl⟩
    · split at later
      · rw [← simAt_succ] at later
        exact ih (t + 1) later
      · cases later

def completion (sim : Sim) : Option (Process × Int) :=
  match dispatch sim.time sim.processes with
  | none => none
  | some (process, _) =>
    if process.remainingTime - 1 = 0 then some (process, sim.time + 1) else none

theorem completion_eq_some {sim : Sim} {process : Process} {time : Int}
    (done : completion sim = some (process, time)) : process ∈ sim.processes ∧ time = sim.time + 1 := by
  unfold completion at done
  split at done
  · cases done
  next chosen after found =>
    split at done
    · cases done
      obtain ⟨skipped, rest, shape, _⟩ := ArrayScan.scan_some found
      exact ⟨by rw [shape]; simp, rfl⟩
    · cases done

section Tracking

variable (tasks : List Task)

def cost (i : Fin tasks.length) : Nat := (tasks.get i).executionTime.toNat

def period (i : Fin tasks.length) : Nat := (tasks.get i).period.toNat

def release (job : Job (Fin tasks.length)) : Int :=
  (tasks.get job.1).arrivalTime + job.2 * (tasks.get job.1).period

def dueTime (job : Job (Fin tasks.length)) : Int :=
  release tasks job + (tasks.get job.1).period

def currentProcess (progress : Progress (Fin tasks.length)) (i : Fin tasks.length) : Process where
  id := i + 1
  executionTime := (tasks.get i).executionTime
  period := (tasks.get i).period
  arrivalTime := (tasks.get i).arrivalTime
  remainingTime := progress.remaining i
  nextArrivalTime := release tasks (i, progress.completed i)

-- The positions of the array after the one sort; they do not change any more.
def order : List (Fin tasks.length) :=
  ArrayScan.sort (fun i => (tasks.get i).period) (List.finRange tasks.length)

def rank (i : Fin tasks.length) : Nat := (order tasks).idxOf i

def taskOf (process : Process) : Option (Fin tasks.length) :=
  if bound : (process.id - 1).toNat < tasks.length then some ⟨(process.id - 1).toNat, bound⟩ else none

def pick (t : Nat) : Option (Fin tasks.length) :=
  let sim := simAt (readProcesses tasks) t
  (dispatch sim.time sim.processes).bind fun found => taskOf tasks found.1

abbrev progressOf (t : Nat) : Progress (Fin tasks.length) :=
  progressAt (cost tasks) (pick tasks) t

variable {tasks}

theorem order_perm : (order tasks).Perm (List.finRange tasks.length) := ArrayScan.sort_perm _ _

theorem mem_order (i : Fin tasks.length) : i ∈ order tasks := order_perm.mem_iff.mpr (List.mem_finRange i)

theorem order_nodup : (order tasks).Nodup := order_perm.nodup_iff.mpr (List.nodup_finRange _)

theorem rank_injective : Function.Injective (rank tasks) := fun i _ same =>
  (List.idxOf_inj (mem_order i)).mp same

theorem rank_monotonic (i j : Fin tasks.length) (before : rank tasks j < rank tasks i) :
    (tasks.get j).period ≤ (tasks.get i).period := by
  have sorted := List.pairwise_iff_getElem.mp
    (ArrayScan.sort_sorted (fun i => (tasks.get i).period) (List.finRange tasks.length))
  have place (i : Fin tasks.length) : rank tasks i < (order tasks).length :=
    List.idxOf_lt_length_iff.mpr (mem_order i)
  have ordered := sorted (rank tasks j) (rank tasks i) (place j) (place i) before
  simpa only [rank, order, List.getElem_idxOf] using ordered

theorem taskOf_currentProcess (progress : Progress (Fin tasks.length)) (i : Fin tasks.length) :
    taskOf tasks (currentProcess tasks progress i) = some i := by
  simp [taskOf, currentProcess]

theorem executionTimes (valid : ∀ task ∈ tasks, task.Valid) : ∀ task ∈ tasks, 1 ≤ task.executionTime :=
  fun task member => (valid task member).executionTime

theorem period_pos (valid : ∀ task ∈ tasks, task.Valid) (i : Fin tasks.length) : 0 < period tasks i := by
  have := (valid _ (List.get_mem tasks i)).period
  unfold period
  omega

theorem currentProcess_advance_ne (progress : Progress (Fin tasks.length)) {i j : Fin tasks.length}
    (different : j ≠ i) : currentProcess tasks (advance (cost tasks) progress (some i)) j =
      currentProcess tasks progress j := by
  by_cases last : progress.remaining i = 1 <;>
    simp [currentProcess, advance, last, different]

theorem isReady_current (progress : Progress (Fin tasks.length)) (i : Fin tasks.length)
    (positive : 0 < progress.remaining i) (t : Nat) :
    (currentProcess tasks progress i).isReady t = true ↔ release tasks (i, progress.completed i) ≤ t := by
  simp [Process.isReady, currentProcess, positive]

section Costs

variable (costs : ∀ task ∈ tasks, 1 ≤ task.executionTime)

include costs

theorem cost_pos (i : Fin tasks.length) : 0 < cost tasks i := by
  have := costs _ (List.get_mem tasks i)
  unfold cost
  omega

theorem executeUnit_current
    (progress : Progress (Fin tasks.length)) (i : Fin tasks.length) (pending : 0 < progress.remaining i) :
    executeUnit (currentProcess tasks progress i) =
      currentProcess tasks (advance (cost tasks) progress (some i)) i := by
  have positive := costs _ (List.get_mem tasks i)
  by_cases last : progress.remaining i = 1
  · have whole : ((cost tasks i : Nat) : Int) = (tasks.get i).executionTime := by unfold cost; omega
    simp [executeUnit, currentProcess, advance, last, release, whole]
    ring
  · have more : ¬ ((progress.remaining i : Int) - 1 = 0) := by omega
    simp [executeUnit, currentProcess, advance, last, more, Nat.cast_sub (Nat.succ_le_of_lt pending)]

theorem start_tracks :
    (start (readProcesses tasks)).processes = (order tasks).map (currentProcess tasks (progressOf tasks 0)) := by
  have same : (readProcesses tasks).map (fun process =>
      { process with
        nextArrivalTime := process.arrivalTime
        remainingTime := process.executionTime }) =
      (List.finRange tasks.length).map (currentProcess tasks (progressOf tasks 0)) := by
    apply List.ext_getElem
    · simp [readProcesses]
    · intro i left right
      have bound : i < tasks.length := by simpa [readProcesses] using left
      have positive := costs _ (List.get_mem tasks ⟨i, bound⟩)
      simp only [List.get_eq_getElem] at positive
      simp [readProcesses, readProcess, currentProcess, progressOf, progressAt, release, cost,
        Int.toNat_of_nonneg (show 0 ≤ tasks[i].executionTime by omega)]
  simp only [start, same, sortByPeriod, ArrayScan.sort_map]
  rfl

theorem dispatch_cases {sim : Sim} {t : Nat} {progress : Progress (Fin tasks.length)}
    (tracks : sim.processes = (order tasks).map (currentProcess tasks progress)) (clock : sim.time = t)
    (pending : ∀ i, 0 < progress.remaining i) :
    (dispatch sim.time sim.processes = none ∧ ∀ i, ¬ release tasks (i, progress.completed i) ≤ t) ∨
    ∃ i, dispatch sim.time sim.processes = some (currentProcess tasks progress i,
        (order tasks).map (currentProcess tasks (advance (cost tasks) progress (some i)))) ∧
      release tasks (i, progress.completed i) ≤ t ∧
      ∀ j, release tasks (j, progress.completed j) ≤ t → rank tasks i ≤ rank tasks j := by
  rw [clock, tracks]
  cases found : dispatch t ((order tasks).map (currentProcess tasks progress)) with
  | none =>
    refine .inl ⟨rfl, fun i ready => ?_⟩
    have idle := ArrayScan.scan_none.mp found _ (List.mem_map_of_mem (mem_order i))
    simp [(isReady_current progress i (pending i) t).mpr ready] at idle
  | some result =>
    obtain ⟨process, after⟩ := result
    obtain ⟨skipped, rest, shape, rfl, ready, before⟩ := ArrayScan.scan_some found
    obtain ⟨early, late, split, rfl, tail⟩ := List.map_eq_append_iff.mp shape
    obtain ⟨i, later, rfl, rfl, rfl⟩ := List.map_eq_cons_iff.mp tail
    have nodup : (order tasks).Nodup := order_nodup
    rw [split] at nodup
    have others (j : Fin tasks.length) (listed : j ∈ early ∨ j ∈ later) : j ≠ i := by
      rintro rfl
      have apart := (List.nodup_middle.mp nodup)
      simp only [List.nodup_cons, List.mem_append] at apart
      exact apart.1 listed
    refine .inr ⟨i, ?_, (isReady_current progress i (pending i) t).mp ready, ?_⟩
    · rw [executeUnit_current costs progress i (pending i), split, List.map_append, List.map_cons]
      congr 3
      · apply List.map_congr_left
        intro j listed
        exact (currentProcess_advance_ne progress (others j (.inl listed))).symm
      · congr 1
        apply List.map_congr_left
        intro j listed
        exact (currentProcess_advance_ne progress (others j (.inr listed))).symm
    · intro j otherReady
      have skippedNot : j ∉ early := by
        intro listed
        have idle := before _ (List.mem_map_of_mem listed)
        simp [(isReady_current progress j (pending j) t).mpr otherReady] at idle
      have first : i ∉ early := fun listed => others i (.inl listed) rfl
      rw [rank, rank, split, List.idxOf_append_of_notMem first, List.idxOf_append_of_notMem skippedNot,
        List.idxOf_cons_self]
      omega

theorem tracks_simAt (t : Nat) : (simAt (readProcesses tasks) t).processes =
      (order tasks).map (currentProcess tasks (progressOf tasks t)) := by
  induction t with
  | zero => exact start_tracks costs
  | succ t ih =>
    have pending := fun i => (remaining_bounds (pick tasks) (cost_pos costs) t i).1
    rw [simAt_succ]
    simp only [progressOf, progressAt]
    rcases dispatch_cases costs ih (simAt_time _ t) pending with ⟨idle, _⟩ | ⟨i, found, _⟩
    · simpa only [tick, idle, pick, Option.bind_none, advance] using ih
    · simp only [tick, found, pick, Option.bind_some, taskOf_currentProcess]

theorem pick_fixedPriority : FixedPriority (release tasks) (rank tasks) (cost tasks) (pick tasks) := by
  have inspect (t : Nat) := dispatch_cases costs (tracks_simAt costs t) (simAt_time _ t)
    fun i => (remaining_bounds (pick tasks) (cost_pos costs) t i).1
  constructor
  · intro t i ready
    rcases inspect t with ⟨_, unready⟩ | ⟨j, found, _⟩
    · exact absurd ready (unready i)
    · simp [pick, found, taskOf_currentProcess]
  · intro t i picked
    rcases inspect t with ⟨idle, _⟩ | ⟨j, found, ready, _⟩
    · simp [pick, idle] at picked
    · simp only [pick, found, Option.bind_some, taskOf_currentProcess, Option.some.injEq] at picked
      exact picked ▸ ready
  · intro t i picked j otherReady
    rcases inspect t with ⟨idle, _⟩ | ⟨first, found, _, highest⟩
    · simp [pick, idle] at picked
    · simp only [pick, found, Option.bind_some, taskOf_currentProcess, Option.some.injEq] at picked
      exact picked ▸ highest j otherReady

end Costs

theorem totalUtilization_eq (valid : ∀ task ∈ tasks, task.Valid) :
    totalUtilization (readProcesses tasks) = ∑ i, (cost tasks i : ℝ) / period tasks i := by
  have term (i : Fin tasks.length) : (cost tasks i : ℝ) / period tasks i =
      ((tasks.get i).executionTime : ℝ) / (tasks.get i).period := by
    have task := valid _ (List.get_mem tasks i)
    have execution := task.executionTime
    have positive := task.period
    have whole : ((cost tasks i : ℕ) : ℝ) = (tasks.get i).executionTime := by
      exact_mod_cast Int.toNat_of_nonneg (show 0 ≤ (tasks.get i).executionTime by omega)
    have span : ((period tasks i : ℕ) : ℝ) = (tasks.get i).period := by
      exact_mod_cast Int.toNat_of_nonneg (show 0 ≤ (tasks.get i).period by omega)
    rw [whole, span]
  have listed : (readProcesses tasks).map (fun process => (process.executionTime : ℝ) / process.period) =
      tasks.map fun task => (task.executionTime : ℝ) / task.period := by
    apply List.ext_getElem <;> simp [readProcesses, readProcess]
  have folded : totalUtilization (readProcesses tasks) =
      ((readProcesses tasks).map fun process => (process.executionTime : ℝ) / process.period).sum := by
    rw [List.sum_eq_foldl, List.foldl_map]
    rfl
  rw [folded, listed]
  simp only [term]
  rw [← List.sum_ofFn]
  congr 1
  conv_lhs => rw [← List.ofFn_get tasks, List.map_ofFn]
  rfl

theorem current_not_due (valid : ∀ task ∈ tasks, task.Valid)
    (accepted : checkRmsSchedulability (readProcesses tasks) = 1) (t : Nat) (i : Fin tasks.length) :
    (t : Int) < dueTime tasks (i, (progressOf tasks t).completed i) := by
  have arrival (i : Fin tasks.length) : (((tasks.get i).arrivalTime.toNat : Nat) : Int) = (tasks.get i).arrivalTime :=
    Int.toNat_of_nonneg (valid _ (List.get_mem tasks i)).arrivalTime
  have span (i : Fin tasks.length) : ((period tasks i : Nat) : Int) = (tasks.get i).period :=
    Int.toNat_of_nonneg (by have := (valid _ (List.get_mem tasks i)).period; omega)
  have periodic : Implicit (release tasks) (dueTime tasks)
      (fun i => (tasks.get i).arrivalTime.toNat) (period tasks) := by
    constructor
    · intro i k
      rw [arrival, span]
      rfl
    · intro i k
      rw [arrival, span, dueTime, release]
      ring
  have utilised : ∑ i, (cost tasks i : ℝ) / period tasks i ≤ Fintype.card (Fin tasks.length) *
      ((2 : ℝ) ^ (1 / (Fintype.card (Fin tasks.length) : ℝ)) - 1) := by
    rw [← totalUtilization_eq valid, Fintype.card_fin]
    by_contra exceeds
    have size : (readProcesses tasks).length = tasks.length := by simp [readProcesses]
    simp only [checkRmsSchedulability, size, if_pos (not_le.mp exceeds)] at accepted
    cases accepted
  have monotonic (i j : Fin tasks.length) (before : rank tasks j < rank tasks i) :
      period tasks j ≤ period tasks i := by
    have := rank_monotonic i j before
    unfold period
    omega
  obtain ⟨s, nonempty, short, fits⟩ :=
    exists_window rank_injective (cost_pos (executionTimes valid)) (period_pos valid) monotonic utilised i
  have finished := completes_of_timeDemand (cost_pos (executionTimes valid)) (period_pos valid) rank_injective periodic
    (pick_fixedPriority (executionTimes valid)) nonempty short fits ((progressOf tasks t).completed i)
  by_contra late
  rw [periodic.deadline_eq] at late
  have passed : (tasks.get i).arrivalTime.toNat + ((progressOf tasks t).completed i + 1) * period tasks i ≤ t := by
    exact_mod_cast not_lt.mp late
  exact absurd (completed_mono (cost tasks) (pick tasks) i passed) (not_le.mpr finished)

end Tracking

end Xv6.Rms
