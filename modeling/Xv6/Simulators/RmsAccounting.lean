import Xv6.Simulators.Rms

set_option autoImplicit false

namespace Xv6.Rms

open Uniprocessor

def Event.runs (id : Int) : Event → Bool
  | .executed ran _ _ => decide (ran = id)
  | _ => false

def Event.completes (id : Int) : Event → Bool
  | .completed finished _ => decide (finished = id)
  | _ => false

def ticksGiven (sim : Sim) (id : Int) : Nat := sim.output.countP (Event.runs id)

def jobsDone (sim : Sim) (id : Int) : Nat := sim.output.countP (Event.completes id)

structure Dispatches (sim : Sim) : Prop where
  chooses : (∃ process ∈ sim.processes, process.isReady sim.time = true ∧
      (∀ other ∈ sim.processes, other.isReady sim.time = true → process.period ≤ other.period) ∧
      ∃ lines, (tick sim).output =
        sim.output ++ .executed process.id (sim.time + 1) (process.remainingTime - 1) :: lines) ∨
    (tick sim).output = sim.output ∧ ∀ process ∈ sim.processes, process.isReady sim.time = false
  waits : sim.waitingTime ≤ (tick sim).waitingTime

structure Accounts (tasks : List Task) (sim : Sim) : Prop where
  listed : (sim.processes.map Process.id).Perm
    ((List.finRange tasks.length).map fun i : Fin tasks.length => (i : Int) + 1)
  process : ∀ i : Fin tasks.length, ∀ process ∈ sim.processes, process.id = i + 1 →
    process.nextArrivalTime = (tasks.get i).arrivalTime + jobsDone sim (i + 1) * (tasks.get i).period ∧
    (ticksGiven sim (i + 1) : Int) = jobsDone sim (i + 1) * (tasks.get i).executionTime +
      ((tasks.get i).executionTime - process.remainingTime)
  busy : sim.cpuBusyTime = ∑ i : Fin tasks.length, (ticksGiven sim (i + 1) : Int)
  waiting : sim.waitingTime = sim.turnaroundTime -
    ∑ i : Fin tasks.length, jobsDone sim (i + 1) * (tasks.get i).executionTime

theorem loopHeads_last {totalTime : Int} {fuel t : Nat} (processes : List Process) (enough : t + fuel = totalTime) :
    ∃ sim, (loopHeads totalTime fuel (simAt processes t)).getLast? = some sim ∧ sim.time = totalTime := by
  induction fuel generalizing t with
  | zero => exact ⟨simAt processes t, rfl, by rw [simAt_time]; omega⟩
  | succ fuel ih =>
    have running : (simAt processes t).time < totalTime := by
      rw [simAt_time]
      omega
    obtain ⟨sim, last, done⟩ := ih (t := t + 1) (by push_cast at enough ⊢; omega)
    rw [simAt_succ] at last
    exact ⟨sim, by simp [loopHeads, running, last, List.getLast?_cons], done⟩

section Accounting

variable {tasks : List Task} (costs : ∀ task ∈ tasks, 1 ≤ task.executionTime)

theorem displayPriorityOrder_silent (processes : List Process) {printed : Event → Bool}
    (silent : ∀ position id period, printed (.priority position id period) = false) :
    (displayPriorityOrder processes).countP printed = 0 := by
  rw [List.countP_eq_zero]
  intro event member
  obtain ⟨i, _, rfl⟩ := List.mem_mapIdx.mp member
  simp [silent]

include costs

theorem cost_eq (i : Fin tasks.length) : (cost tasks i : Int) = (tasks.get i).executionTime := by
  have := costs _ (List.get_mem tasks i)
  exact Int.toNat_of_nonneg (by omega)

theorem simAt_totals (t : Nat) :
    (simAt (readProcesses tasks) t).cpuBusyTime = (totalsAt (release tasks) (cost tasks) (pick tasks) t).busy ∧
      (simAt (readProcesses tasks) t).waitingTime = (totalsAt (release tasks) (cost tasks) (pick tasks) t).waiting ∧
      (simAt (readProcesses tasks) t).turnaroundTime =
        (totalsAt (release tasks) (cost tasks) (pick tasks) t).turnaround ∧
      ∀ i : Fin tasks.length, ticksGiven (simAt (readProcesses tasks) t) (i + 1) = given (pick tasks) i t ∧
        jobsDone (simAt (readProcesses tasks) t) (i + 1) = (progressOf tasks t).completed i := by
  induction t with
  | zero =>
    refine ⟨rfl, rfl, rfl, fun i => ⟨?_, ?_⟩⟩
    · exact displayPriorityOrder_silent _ fun _ _ _ => rfl
    · exact displayPriorityOrder_silent _ fun _ _ _ => rfl
  | succ t ih =>
    obtain ⟨busy, waiting, turnaround, counts⟩ := ih
    have clock := simAt_time (readProcesses tasks) t
    have pending := fun i => (remaining_bounds (pick tasks) (cost_pos costs) t i).1
    rw [simAt_succ]
    rcases dispatch_cases costs (tracks_simAt costs t) clock pending with ⟨idle, _⟩ | ⟨i, found, _⟩
    · have none : pick tasks t = none := by simp [pick, idle]
      simpa [tick, idle, totalsAt, given, none, ticksGiven, jobsDone, progressOf, completed_succ] using
        ⟨busy, waiting, turnaround, counts⟩
    · have picked : pick tasks t = some i := by simp [pick, found, taskOf_currentProcess]
      have same (j : Fin tasks.length) : (i : Int) + 1 = j + 1 ↔ i = j := by
        rw [Fin.ext_iff]
        omega
      have ticks (j : Fin tasks.length) :
          (simAt (readProcesses tasks) t).output.countP (Event.runs (j + 1)) = given (pick tasks) j t := (counts j).1
      have jobs (j : Fin tasks.length) :
          (simAt (readProcesses tasks) t).output.countP (Event.completes (j + 1)) = (progressOf tasks t).completed j :=
        (counts j).2
      have step (j : Fin tasks.length) : (progressOf tasks (t + 1)).completed j = (progressOf tasks t).completed j +
          if i = j ∧ (progressOf tasks t).remaining i = 1 then 1 else 0 := by
        rw [completed_succ, picked]
        by_cases here : i = j <;> simp [here]
      rw [clock] at found
      by_cases last : (progressOf tasks t).remaining i = 1
      · simp [tick, found, totalsAt, given, picked, last, currentProcess, ticksGiven, jobsDone, Event.runs,
          Event.completes, ticks, jobs, step, clock, busy, waiting, turnaround, cost_eq costs, same, List.countP_cons]
      · have more : ¬ ((progressOf tasks t).remaining i : Int) - 1 = 0 := by omega
        simp [tick, found, totalsAt, given, picked, last, more, currentProcess, ticksGiven, jobsDone, Event.runs,
          Event.completes, ticks, jobs, step, clock, busy, waiting, turnaround, same, List.countP_cons]

theorem simAt_dispatches (t : Nat) : Dispatches (simAt (readProcesses tasks) t) := by
  constructor
  · have order : (simAt (readProcesses tasks) t).processes.Pairwise fun a b => a.period ≤ b.period := by
      rw [tracks_simAt costs, List.pairwise_map]
      exact ArrayScan.sort_sorted _ _
    cases found : dispatch (simAt (readProcesses tasks) t).time (simAt (readProcesses tasks) t).processes with
    | none => exact .inr ⟨by simp [tick, found], ArrayScan.scan_none.mp found⟩
    | some result =>
      obtain ⟨process, after⟩ := result
      obtain ⟨skipped, rest, shape, _, ready, _⟩ := ArrayScan.scan_some found
      refine .inl ⟨process, by simp [shape], ready, ArrayScan.scan_least order found, ?_⟩
      simp only [tick, found]
      exact ⟨_, rfl⟩
  · rw [← simAt_succ, (simAt_totals costs t).2.1, (simAt_totals costs (t + 1)).2.1]
    exact waiting_mono (cost_pos costs) (pick_fixedPriority costs).ready t

theorem simAt_accounts (t : Nat) : Accounts tasks (simAt (readProcesses tasks) t) := by
  obtain ⟨busy, waiting, turnaround, counts⟩ := simAt_totals costs t
  have tracks := tracks_simAt costs t
  refine ⟨?_, fun i process member named => ?_, ?_, ?_⟩
  · rw [tracks, List.map_map]
    exact order_perm.map _
  · rw [tracks] at member
    obtain ⟨j, _, rfl⟩ := List.mem_map.mp member
    obtain rfl : j = i := by
      simp only [currentProcess] at named
      exact Fin.ext (by omega)
    have whole := cost_eq costs j
    have bounds := remaining_bounds (pick tasks) (cost_pos costs) t j
    rw [(counts j).1, (counts j).2, given_eq (cost_pos costs)]
    refine ⟨rfl, ?_⟩
    simp only [currentProcess]
    push_cast [bounds.2]
    rw [whole]
  · rw [busy, busy_eq]
    simp only [counts]
  · rw [waiting, turnaround, waiting_eq]
    simp only [counts, cost_eq costs]

end Accounting

end Xv6.Rms
