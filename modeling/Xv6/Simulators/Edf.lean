import Xv6.Shared.ArrayScan
import Xv6.Shared.Uniprocessor

set_option autoImplicit false

namespace Xv6.Edf

open Uniprocessor

-- C `int` is `Int`: an execution that overflows has no defined meaning in C.
structure Process where
  id : Int
  executionTime : Int
  deadline : Int
  arrivalTime : Int
  remainingTime : Int
  period : Int
  nextDeadline : Int
  deriving DecidableEq

def exchange (first : Process) : List Process → Process × List Process
  | [] => (first, [])
  | next :: rest =>
    if first.nextDeadline > next.nextDeadline then
      ((exchange next rest).1, first :: (exchange next rest).2)
    else
      ((exchange first rest).1, next :: (exchange first rest).2)

def sortFrom : Nat → List Process → List Process
  | 0, processes => processes
  | _ + 1, [] => []
  | n + 1, first :: rest => (exchange first rest).1 :: sortFrom n (exchange first rest).2

def sortByDeadline (processes : List Process) : List Process :=
  sortFrom (processes.length - 1) processes

inductive Event where
  | executed (id time remaining : Int)
  | completed (id time : Int)
  deriving DecidableEq

structure Sim where
  processes : List Process
  time : Int
  waitingTime : Int
  turnaroundTime : Int
  cpuBusyTime : Int
  output : List Event

def Process.isReady (time : Int) (process : Process) : Bool :=
  decide (process.arrivalTime ≤ time ∧ process.remainingTime > 0)

def executeUnit (process : Process) : Process :=
  if process.remainingTime - 1 = 0 then
    { process with
      arrivalTime := process.arrivalTime + process.period
      nextDeadline := process.nextDeadline + process.period
      remainingTime := process.executionTime }
  else
    { process with remainingTime := process.remainingTime - 1 }

-- The process found by the inner for loop, as it was, and the array after its unit of execution.
def dispatch (time : Int) : List Process → Option (Process × List Process)
  | [] => none
  | process :: rest =>
    if process.isReady time then some (process, executeUnit process :: rest)
    else (dispatch time rest).map fun found => (found.1, process :: found.2)

def tick (sim : Sim) : Sim :=
  match dispatch sim.time (sortByDeadline sim.processes) with
  | none => { sim with processes := sortByDeadline sim.processes, time := sim.time + 1 }
  | some (process, processes) =>
    let time := sim.time + 1
    let remaining := process.remainingTime - 1
    { processes, time
      waitingTime := sim.waitingTime +
        if remaining = 0 then time - process.arrivalTime - process.executionTime else 0
      turnaroundTime := sim.turnaroundTime +
        if remaining = 0 then time - process.arrivalTime else 0
      cpuBusyTime := sim.cpuBusyTime + 1
      output := sim.output ++ .executed process.id time remaining ::
        if remaining = 0 then [.completed process.id time] else [] }

def start (processes : List Process) : Sim where
  processes := processes.map fun process => { process with nextDeadline := process.deadline }
  time := 0
  waitingTime := 0
  turnaroundTime := 0
  cpuBusyTime := 0
  output := []

-- Every iteration adds one to time, so `totalTime` iterations are enough.
def edfLoop (totalTime : Int) : Nat → Sim → Sim
  | 0, sim => sim
  | fuel + 1, sim => if sim.time < totalTime then edfLoop totalTime fuel (tick sim) else sim

def edfScheduling (processes : List Process) (totalTime : Int) : Sim :=
  edfLoop totalTime totalTime.toNat (start processes)

structure Task where
  executionTime : Int
  deadline : Int
  arrivalTime : Int
  period : Int

structure Task.Valid (task : Task) : Prop where
  executionTime : 1 ≤ task.executionTime
  period : 1 ≤ task.period
  arrivalTime : 0 ≤ task.arrivalTime

def readProcess (i : Nat) (task : Task) : Process where
  id := i + 1
  executionTime := task.executionTime
  deadline := task.deadline
  arrivalTime := task.arrivalTime
  remainingTime := task.executionTime
  period := task.period
  nextDeadline := task.deadline

def readProcesses (tasks : List Task) : List Process :=
  tasks.mapIdx readProcess

theorem exchange_eq (first : Process) (rest : List Process) :
    exchange first rest = ArrayScan.exchange Process.nextDeadline first rest := by
  induction rest generalizing first with
  | nil => rfl
  | cons next rest ih => simp only [exchange, ArrayScan.exchange, ih]

theorem sortFrom_eq (n : Nat) (processes : List Process) :
    sortFrom n processes = ArrayScan.sortFrom Process.nextDeadline n processes := by
  induction n generalizing processes with
  | zero => rfl
  | succ n ih =>
    cases processes with
    | nil => rfl
    | cons first rest => simp only [sortFrom, ArrayScan.sortFrom, exchange_eq, ih]

theorem sortByDeadline_eq (processes : List Process) :
    sortByDeadline processes = ArrayScan.sort Process.nextDeadline processes := sortFrom_eq _ processes

theorem sortByDeadline_perm (processes : List Process) : (sortByDeadline processes).Perm processes := by
  rw [sortByDeadline_eq]
  exact ArrayScan.sort_perm Process.nextDeadline processes

theorem sortByDeadline_sorted (processes : List Process) :
    (sortByDeadline processes).Pairwise fun a b => a.nextDeadline ≤ b.nextDeadline := by
  rw [sortByDeadline_eq]
  exact ArrayScan.sort_sorted Process.nextDeadline processes

theorem dispatch_eq (time : Int) (processes : List Process) :
    dispatch time processes = ArrayScan.scan (Process.isReady time) executeUnit processes := by
  induction processes with
  | nil => rfl
  | cons process rest ih => simp only [dispatch, ArrayScan.scan, ih]

theorem dispatch_none {time : Int} {processes : List Process} :
    dispatch time processes = none ↔ ∀ process ∈ processes, process.isReady time = false := by
  rw [dispatch_eq]
  exact ArrayScan.scan_none

theorem dispatch_some {time : Int} {processes after : List Process} {chosen : Process}
    (found : dispatch time processes = some (chosen, after)) : ∃ skipped rest, processes = skipped ++ chosen :: rest ∧
      after = skipped ++ executeUnit chosen :: rest ∧ chosen.isReady time = true ∧
      ∀ process ∈ skipped, process.isReady time = false := by
  rw [dispatch_eq] at found
  exact ArrayScan.scan_some found

theorem dispatch_least {time : Int} {processes after : List Process} {chosen : Process}
    (found : dispatch time (sortByDeadline processes) = some (chosen, after)) : ∀ other ∈ sortByDeadline processes,
      other.isReady time = true → chosen.nextDeadline ≤ other.nextDeadline := by
  rw [dispatch_eq] at found
  exact ArrayScan.scan_least (sortByDeadline_sorted processes) found

def simAt (processes : List Process) (t : Nat) : Sim :=
  tick^[t] (start processes)

@[simp] theorem simAt_zero (processes : List Process) : simAt processes 0 = start processes := rfl

theorem simAt_succ (processes : List Process) (t : Nat) : simAt processes (t + 1) = tick (simAt processes t) :=
  Function.iterate_succ_apply' tick t _

@[simp] theorem tick_time (sim : Sim) : (tick sim).time = sim.time + 1 := by
  unfold tick
  split <;> rfl

theorem simAt_time (processes : List Process) (t : Nat) : (simAt processes t).time = t := by
  induction t with
  | zero => rfl
  | succ t ih => rw [simAt_succ, tick_time, ih]; rfl

theorem edfLoop_eq (totalTime : Int) (fuel t : Nat) (processes : List Process) (enough : t + fuel = totalTime.toNat) :
    edfLoop totalTime fuel (simAt processes t) = simAt processes totalTime.toNat := by
  induction fuel generalizing t with
  | zero => rw [← enough]; rfl
  | succ fuel ih =>
    have running : (simAt processes t).time < totalTime := by rw [simAt_time]; omega
    rw [edfLoop, if_pos running, ← simAt_succ, ih (t + 1) (by omega)]

theorem edfScheduling_eq (processes : List Process) (totalTime : Int) :
    edfScheduling processes totalTime = simAt processes totalTime.toNat :=
  edfLoop_eq totalTime totalTime.toNat 0 processes (by omega)

def completion (sim : Sim) : Option (Process × Int) :=
  match dispatch sim.time (sortByDeadline sim.processes) with
  | none => none
  | some (process, _) =>
    if process.remainingTime - 1 = 0 then some (process, sim.time + 1) else none

theorem completion_eq_some {sim : Sim} {process : Process} {time : Int}
    (done : completion sim = some (process, time)) :
    ∃ after, dispatch sim.time (sortByDeadline sim.processes) = some (process, after) ∧ time = sim.time + 1 := by
  unfold completion at done
  split at done
  · cases done
  next chosen after found =>
    split at done
    · cases done
      exact ⟨after, found, rfl⟩
    · cases done

/-- The states in which the test of the while loop succeeds. -/
def loopStates (totalTime : Int) : Nat → Sim → List Sim
  | 0, _ => []
  | fuel + 1, sim =>
    if sim.time < totalTime then sim :: loopStates totalTime fuel (tick sim) else []

theorem mem_loopStates (totalTime : Int) (fuel t : Nat) (processes : List Process) (sim : Sim)
    (reached : sim ∈ loopStates totalTime fuel (simAt processes t)) : ∃ u : Nat, sim = simAt processes u := by
  induction fuel generalizing t with
  | zero => simp [loopStates] at reached
  | succ fuel ih =>
    by_cases running : (simAt processes t).time < totalTime
    · rw [loopStates, if_pos running, ← simAt_succ] at reached
      rcases List.mem_cons.mp reached with rfl | later
      · exact ⟨t, rfl⟩
      · exact ih (t + 1) later
    · simp [loopStates, running] at reached

section Tracking

variable (tasks : List Task)

def cost (i : Fin tasks.length) : Nat := (tasks.get i).executionTime.toNat

def release (job : Job (Fin tasks.length)) : Int :=
  (tasks.get job.1).arrivalTime + job.2 * (tasks.get job.1).period

def dueTime (job : Job (Fin tasks.length)) : Int :=
  (tasks.get job.1).deadline + job.2 * (tasks.get job.1).period

def currentProcess (progress : Progress (Fin tasks.length)) (i : Fin tasks.length) : Process where
  id := i + 1
  executionTime := (tasks.get i).executionTime
  deadline := (tasks.get i).deadline
  arrivalTime := release tasks (i, progress.completed i)
  remainingTime := progress.remaining i
  period := (tasks.get i).period
  nextDeadline := dueTime tasks (i, progress.completed i)

def taskOf (process : Process) : Option (Fin tasks.length) :=
  if bound : (process.id - 1).toNat < tasks.length then some ⟨(process.id - 1).toNat, bound⟩ else none

def chosen (sim : Sim) : Option (Fin tasks.length) :=
  (dispatch sim.time (sortByDeadline sim.processes)).bind fun found => taskOf tasks found.1

def pick (t : Nat) : Option (Fin tasks.length) :=
  chosen tasks (simAt (readProcesses tasks) t)

abbrev progressOf (t : Nat) : Progress (Fin tasks.length) :=
  progressAt (cost tasks) (pick tasks) t

def Tracks (sim : Sim) (progress : Progress (Fin tasks.length)) : Prop :=
  sim.processes.Perm ((List.finRange tasks.length).map (currentProcess tasks progress))

variable {tasks}

theorem taskOf_currentProcess (progress : Progress (Fin tasks.length)) (i : Fin tasks.length) :
    taskOf tasks (currentProcess tasks progress i) = some i := by
  simp [taskOf, currentProcess]

theorem executionTimes (valid : ∀ task ∈ tasks, task.Valid) : ∀ task ∈ tasks, 1 ≤ task.executionTime :=
  fun task member => (valid task member).executionTime

theorem currentProcess_advance_ne (progress : Progress (Fin tasks.length)) {i j : Fin tasks.length}
    (different : j ≠ i) : currentProcess tasks (advance (cost tasks) progress (some i)) j =
      currentProcess tasks progress j := by
  by_cases last : progress.remaining i = 1 <;>
    simp [currentProcess, advance, last, different]

theorem isReady_current (progress : Progress (Fin tasks.length)) (i : Fin tasks.length)
    (positive : 0 < progress.remaining i) (t : Nat) :
    (currentProcess tasks progress i).isReady t = true ↔ release tasks (i, progress.completed i) ≤ t := by
  simp [Process.isReady, currentProcess, positive]

theorem map_update_perm {A B : Type} [DecidableEq A] (domain : List A) (nodup : domain.Nodup) (f g : A → B)
    (i : A) (member : i ∈ domain) (same : ∀ j, j ≠ i → g j = f j) {front back : List B}
    (shape : (front ++ f i :: back).Perm (domain.map f)) : (front ++ g i :: back).Perm (domain.map g) := by
  have around : ∀ h : A → B, (domain.map h).Perm (h i :: (domain.erase i).map h) :=
    fun h => (List.perm_cons_erase member).map h
  have others : (domain.erase i).map g = (domain.erase i).map f := by
    apply List.map_congr_left
    intro j present
    exact same j fun equal => nodup.not_mem_erase (equal ▸ present)
  have rest : (front ++ back).Perm ((domain.erase i).map f) :=
    (List.perm_middle.symm.trans (shape.trans (around f))).cons_inv
  exact List.perm_middle.trans ((rest.cons _).trans (others ▸ (around g).symm))

section Costs

variable (costs : ∀ task ∈ tasks, 1 ≤ task.executionTime)

include costs

theorem cost_pos (i : Fin tasks.length) : 0 < cost tasks i := by
  have := costs _ (List.get_mem tasks i)
  unfold cost
  omega

theorem executeUnit_current
    (progress : Progress (Fin tasks.length)) (i : Fin tasks.length) (pending : 0 < progress.remaining i) :
    executeUnit (currentProcess tasks progress i) =
      currentProcess tasks (advance (cost tasks) progress (some i)) i := by
  have positive := costs _ (List.get_mem tasks i)
  by_cases last : progress.remaining i = 1
  · have whole : ((cost tasks i : Nat) : Int) = (tasks.get i).executionTime := by unfold cost; omega
    simp [executeUnit, currentProcess, advance, last, release, dueTime, whole]
    constructor <;> ring
  · have more : ¬ ((progress.remaining i : Int) - 1 = 0) := by omega
    simp [executeUnit, currentProcess, advance, last, more, Nat.cast_sub (Nat.succ_le_of_lt pending)]

theorem start_tracks : Tracks tasks (start (readProcesses tasks)) (progressOf tasks 0) := by
  have same : (start (readProcesses tasks)).processes =
      (List.finRange tasks.length).map (currentProcess tasks (progressOf tasks 0)) := by
    apply List.ext_getElem
    · simp [start, readProcesses]
    · intro i left right
      have bound : i < tasks.length := by simpa [start, readProcesses] using left
      have positive := costs _ (List.get_mem tasks ⟨i, bound⟩)
      simp only [List.get_eq_getElem] at positive
      simp [start, readProcesses, readProcess, currentProcess, progressOf, progressAt, release, dueTime, cost,
        Int.toNat_of_nonneg (show 0 ≤ tasks[i].executionTime by omega)]
  rw [Tracks, same]

theorem dispatch_cases {sim : Sim} {t : Nat}
    {progress : Progress (Fin tasks.length)} (tracks : Tracks tasks sim progress) (clock : sim.time = t)
    (pending : ∀ i, 0 < progress.remaining i) : (dispatch sim.time (sortByDeadline sim.processes) = none ∧
      ∀ i, ¬ release tasks (i, progress.completed i) ≤ t) ∨
    ∃ i after, dispatch sim.time (sortByDeadline sim.processes) = some (currentProcess tasks progress i, after) ∧
      after.Perm ((List.finRange tasks.length).map (currentProcess tasks (advance (cost tasks) progress (some i)))) ∧
      release tasks (i, progress.completed i) ≤ t ∧ ∀ j, release tasks (j, progress.completed j) ≤ t →
        dueTime tasks (i, progress.completed i) ≤ dueTime tasks (j, progress.completed j) := by
  have sorted := (sortByDeadline_perm sim.processes).trans tracks
  have listed (i : Fin tasks.length) :
      currentProcess tasks progress i ∈ sortByDeadline sim.processes :=
    sorted.mem_iff.mpr (List.mem_map_of_mem (List.mem_finRange i))
  rw [clock]
  cases found : dispatch t (sortByDeadline sim.processes) with
  | none =>
    refine .inl ⟨rfl, fun i ready => ?_⟩
    have idle := dispatch_none.mp found _ (listed i)
    simp [(isReady_current progress i (pending i) t).mpr ready] at idle
  | some result =>
    obtain ⟨process, after⟩ := result
    obtain ⟨skipped, rest, shape, rfl, ready, _⟩ := dispatch_some found
    have member : process ∈ sortByDeadline sim.processes := by rw [shape]; simp
    obtain ⟨i, _, rfl⟩ := List.mem_map.mp (sorted.mem_iff.mp member)
    refine .inr ⟨i, _, rfl, ?_, (isReady_current progress i (pending i) t).mp ready, ?_⟩
    · rw [executeUnit_current costs progress i (pending i)]
      apply map_update_perm _ (List.nodup_finRange _) (currentProcess tasks progress) _ i
        (List.mem_finRange i) (fun j different => currentProcess_advance_ne progress different)
      rw [← shape]
      exact sorted
    · intro j otherReady
      exact dispatch_least found _ (listed j) ((isReady_current progress j (pending j) t).mpr otherReady)

theorem tracks_simAt (t : Nat) : Tracks tasks (simAt (readProcesses tasks) t) (progressOf tasks t) := by
  induction t with
  | zero => exact start_tracks costs
  | succ t ih =>
    have pending := fun i => (remaining_bounds (pick tasks) (cost_pos costs) t i).1
    rw [simAt_succ]
    simp only [progressOf, progressAt]
    rcases dispatch_cases costs ih (simAt_time _ t) pending with ⟨idle, _⟩ | ⟨i, after, found, perm, _⟩
    · simp only [Tracks, tick, idle, pick, chosen, Option.bind_none, advance]
      exact (sortByDeadline_perm _).trans ih
    · simpa only [Tracks, tick, found, pick, chosen, Option.bind_some, taskOf_currentProcess] using perm

theorem pick_edf : EarliestDeadlineFirst (release tasks) (dueTime tasks) (cost tasks) (pick tasks) := by
  have inspect (t : Nat) := dispatch_cases costs (tracks_simAt costs t) (simAt_time _ t)
    fun i => (remaining_bounds (pick tasks) (cost_pos costs) t i).1
  constructor
  · intro t i ready
    rcases inspect t with ⟨_, unready⟩ | ⟨j, after, found, _⟩
    · exact absurd ready (unready i)
    · simp [pick, chosen, found, taskOf_currentProcess]
  · intro t i picked
    rcases inspect t with ⟨idle, _⟩ | ⟨j, after, found, _, ready, _⟩
    · simp [pick, chosen, idle] at picked
    · simp only [pick, chosen, found, Option.bind_some, taskOf_currentProcess, Option.some.injEq] at picked
      exact picked ▸ ready
  · intro t i picked j otherReady
    rcases inspect t with ⟨idle, _⟩ | ⟨first, after, found, _, _, earliest⟩
    · simp [pick, chosen, idle] at picked
    · simp only [pick, chosen, found, Option.bind_some, taskOf_currentProcess, Option.some.injEq] at picked
      exact picked ▸ earliest j otherReady

end Costs

theorem release_mono (valid : ∀ task ∈ tasks, task.Valid) (i : Fin tasks.length) :
    Monotone fun k => release tasks (i, k) := by
  intro a b order
  have positive := (valid _ (List.get_mem tasks i)).period
  have scaled : (a : Int) * (tasks.get i).period ≤ b * (tasks.get i).period := by gcongr
  simpa [release] using scaled

theorem dueTime_mono (valid : ∀ task ∈ tasks, task.Valid) (i : Fin tasks.length) :
    Monotone fun k => dueTime tasks (i, k) := by
  intro a b order
  have positive := (valid _ (List.get_mem tasks i)).period
  have scaled : (a : Int) * (tasks.get i).period ≤ b * (tasks.get i).period := by gcongr
  simpa [dueTime] using scaled

theorem release_nonneg (valid : ∀ task ∈ tasks, task.Valid) (job : Job (Fin tasks.length)) :
    0 ≤ release tasks job := by
  have task := valid _ (List.get_mem tasks job.1)
  have period := task.period
  have arrival := task.arrivalTime
  unfold release
  positivity

theorem completed_of_demandFits (valid : ∀ task ∈ tasks, task.Valid) (stop : Nat)
    (fits : ∀ first ≤ stop, DemandFits (release tasks) (dueTime tasks) (cost tasks) first stop)
    (job : Job (Fin tasks.length)) (due : dueTime tasks job ≤ stop) :
    job.2 < (progressOf tasks stop).completed job.1 :=
  completes_of_demandFits (cost_pos (executionTimes valid)) (release_mono valid) (dueTime_mono valid)
    (release_nonneg valid) (pick_edf (executionTimes valid)) fits job due

def completionTimes (sim : Sim) (id : Int) : List Int :=
  sim.output.filterMap fun event => match event with
    | .completed finished time => if finished = id then some time else none
    | .executed .. => none

theorem completionTimes_dispatch {sim : Sim} {process : Process} {after : List Process}
    (found : dispatch sim.time (sortByDeadline sim.processes) = some (process, after)) (id : Int) :
    completionTimes (tick sim) id = completionTimes sim id ++
      if process.remainingTime - 1 = 0 ∧ process.id = id then [sim.time + 1] else [] := by
  by_cases last : process.remainingTime - 1 = 0 <;> by_cases same : process.id = id <;>
    simp [completionTimes, tick, found, last, same]

section Completions

variable (costs : ∀ task ∈ tasks, 1 ≤ task.executionTime)

include costs

theorem completionTimes_tick (t : Nat) (i : Fin tasks.length) :
    completionTimes (simAt (readProcesses tasks) (t + 1)) (i + 1) =
      completionTimes (simAt (readProcesses tasks) t) (i + 1) ++
        List.replicate ((progressOf tasks (t + 1)).completed i - (progressOf tasks t).completed i)
          ((t : Int) + 1) := by
  have pending := fun i => (remaining_bounds (pick tasks) (cost_pos costs) t i).1
  rw [simAt_succ]
  simp only [progressOf, progressAt]
  rcases dispatch_cases costs (tracks_simAt costs t) (simAt_time _ t) pending with
    ⟨idle, _⟩ | ⟨j, after, found, _⟩
  · simp [completionTimes, tick, idle, pick, chosen, advance]
  · have picked : pick tasks t = some j := by simp [pick, chosen, found, taskOf_currentProcess]
    rw [completionTimes_dispatch found, simAt_time, picked]
    by_cases last : (progressAt (cost tasks) (pick tasks) t).remaining j = 1
    · by_cases same : j = i
      · subst same
        simp [currentProcess, advance, last]
      · have other : ¬ ((j : Nat) = i) := fun equal => same (Fin.ext equal)
        simp [currentProcess, advance, last, other, Function.update_of_ne (Ne.symm same)]
    · have more : ¬ (((progressAt (cost tasks) (pick tasks) t).remaining j : Int) - 1 = 0) := by omega
      simp [currentProcess, advance, last, more]

theorem completionTimes_facts (i : Fin tasks.length) (t : Nat) :
    (completionTimes (simAt (readProcesses tasks) t) (i + 1)).length = (progressOf tasks t).completed i ∧
      ∀ time ∈ completionTimes (simAt (readProcesses tasks) t) (i + 1), time ≤ t := by
  induction t with
  | zero => simp [completionTimes, start, progressAt]
  | succ t ih =>
    have mono := completed_mono (cost tasks) (pick tasks) i (Nat.le_succ t)
    rw [completionTimes_tick costs]
    constructor
    · rw [List.length_append, List.length_replicate, ih.1]
      exact Nat.add_sub_of_le mono
    · intro time member
      rcases List.mem_append.mp member with old | new
      · have := ih.2 time old
        push_cast
        omega
      · rw [List.eq_of_mem_replicate new]
        push_cast
        omega

theorem completionTimes_prefix (i : Fin tasks.length) {t u : Nat} (order : t ≤ u) :
    completionTimes (simAt (readProcesses tasks) t) (i + 1) <+:
      completionTimes (simAt (readProcesses tasks) u) (i + 1) := by
  induction u, order using Nat.le_induction with
  | base => exact List.prefix_refl _
  | succ u _ ih =>
    rw [completionTimes_tick costs]
    exact ih.trans (List.prefix_append _ _)

theorem completionTime_of_completed (job : Job (Fin tasks.length)) (stop horizon : Nat) (order : stop ≤ horizon)
    (finished : job.2 < (progressOf tasks stop).completed job.1) :
    ∃ time, (completionTimes (simAt (readProcesses tasks) horizon) (job.1 + 1))[job.2]? = some time ∧
      time ≤ stop := by
  obtain ⟨count, bounded⟩ := completionTimes_facts costs job.1 stop
  have inside : job.2 < (completionTimes (simAt (readProcesses tasks) stop) (job.1 + 1)).length := by
    omega
  refine ⟨_, ?_, bounded _ (List.getElem_mem inside)⟩
  obtain ⟨later, longer⟩ := completionTimes_prefix costs job.1 order
  rw [← longer, List.getElem?_append_left inside, List.getElem?_eq_getElem inside]

end Completions

/-- Some assignment of the unit slots before `totalTime` to jobs gives every job that is due by then its
execution time between its release and its deadline. -/
def Schedulable (tasks : List Task) (totalTime : Int) : Prop :=
  ∃ assigned : Nat → Option (Job (Fin tasks.length)), ∀ job, dueTime tasks job ≤ totalTime →
    cost tasks job.1 ≤ ((Finset.range totalTime.toNat).filter fun u =>
      assigned u = some job ∧ release tasks job ≤ u ∧ (u : Int) < dueTime tasks job).card

theorem dueTime_pos_of_schedulable (valid : ∀ task ∈ tasks, task.Valid) {totalTime : Int}
    (schedulable : Schedulable tasks totalTime) (job : Job (Fin tasks.length))
    (due : dueTime tasks job ≤ totalTime) : 0 < dueTime tasks job := by
  obtain ⟨assigned, serves⟩ := schedulable
  have served := lt_of_lt_of_le (cost_pos (executionTimes valid) job.1) (serves job due)
  obtain ⟨u, member⟩ := Finset.card_pos.mp served
  have window := (Finset.mem_filter.mp member).2.2
  omega

def utilisation (tasks : List Task) : ℚ :=
  (tasks.map fun task => (task.executionTime : ℚ) / task.period).sum

theorem utilisation_eq (valid : ∀ task ∈ tasks, task.Valid) :
    utilisation tasks = ∑ i, (cost tasks i : ℚ) / ((tasks.get i).period.toNat : ℕ) := by
  have term (i : Fin tasks.length) : (cost tasks i : ℚ) / ((tasks.get i).period.toNat : ℕ) =
      ((tasks.get i).executionTime : ℚ) / (tasks.get i).period := by
    have task := valid _ (List.get_mem tasks i)
    have execution := task.executionTime
    have period := task.period
    have whole : ((cost tasks i : ℕ) : ℚ) = (tasks.get i).executionTime := by
      exact_mod_cast Int.toNat_of_nonneg (show 0 ≤ (tasks.get i).executionTime by omega)
    have span : (((tasks.get i).period.toNat : ℕ) : ℚ) = (tasks.get i).period := by
      exact_mod_cast Int.toNat_of_nonneg (show 0 ≤ (tasks.get i).period by omega)
    rw [whole, span]
  simp only [term, utilisation]
  rw [← List.sum_ofFn]
  congr 1
  conv_lhs => rw [← List.ofFn_get tasks, List.map_ofFn]
  rfl

theorem current_not_due (valid : ∀ task ∈ tasks, task.Valid)
    (implicit : ∀ task ∈ tasks, task.deadline = task.arrivalTime + task.period)
    (utilised : utilisation tasks ≤ 1) (t : Nat) (i : Fin tasks.length) :
    (t : Int) < dueTime tasks (i, (progressOf tasks t).completed i) := by
  have periodic : Implicit (release tasks) (dueTime tasks)
      (fun i => (tasks.get i).arrivalTime.toNat) (fun i => (tasks.get i).period.toNat) := by
    constructor
    all_goals
      intro i k
      have task := valid _ (List.get_mem tasks i)
      have arrival := Int.toNat_of_nonneg task.arrivalTime
      have period := Int.toNat_of_nonneg (show 0 ≤ (tasks.get i).period by have := task.period; omega)
      rw [arrival, period]
    · rfl
    · simp only [dueTime]
      rw [implicit _ (List.get_mem tasks i)]
      ring
  have positive (i : Fin tasks.length) : 0 < (tasks.get i).period.toNat := by
    have := (valid _ (List.get_mem tasks i)).period
    omega
  by_contra late
  have finished := completed_of_demandFits valid t
    (fun _ order => demandFits_of_utilisation periodic positive (utilisation_eq valid ▸ utilised) order)
    (i, (progressOf tasks t).completed i) (not_lt.mp late)
  exact absurd finished (lt_irrefl _)

end Tracking

end Xv6.Edf
