import Xv6.Simulators.Edf

set_option autoImplicit false

namespace Xv6.Edf

open Uniprocessor

def Event.runs (id : Int) : Event → Bool
  | .executed ran _ _ => decide (ran = id)
  | .completed .. => false

def ticksGiven (sim : Sim) (id : Int) : Nat := sim.output.countP (Event.runs id)

def jobsDone (sim : Sim) (id : Int) : Nat := (completionTimes sim id).length

structure Dispatches (sim : Sim) : Prop where
  chooses : (∃ process ∈ sim.processes, process.isReady sim.time = true ∧
      (∀ other ∈ sim.processes, other.isReady sim.time = true → process.nextDeadline ≤ other.nextDeadline) ∧
      ∃ lines, (tick sim).output =
        sim.output ++ .executed process.id (sim.time + 1) (process.remainingTime - 1) :: lines) ∨
    (tick sim).output = sim.output ∧ ∀ process ∈ sim.processes, process.isReady sim.time = false
  waits : sim.waitingTime ≤ (tick sim).waitingTime

structure Accounts (tasks : List Task) (sim : Sim) : Prop where
  listed : (sim.processes.map Process.id).Perm ((List.finRange tasks.length).map fun i : Fin tasks.length => (i : Int) + 1)
  process : ∀ i : Fin tasks.length, ∀ process ∈ sim.processes, process.id = i + 1 →
    process.arrivalTime = (tasks.get i).arrivalTime + jobsDone sim (i + 1) * (tasks.get i).period ∧
    process.nextDeadline = (tasks.get i).deadline + jobsDone sim (i + 1) * (tasks.get i).period ∧
    (ticksGiven sim (i + 1) : Int) = jobsDone sim (i + 1) * (tasks.get i).executionTime +
      ((tasks.get i).executionTime - process.remainingTime)
  busy : sim.cpuBusyTime = ∑ i : Fin tasks.length, (ticksGiven sim (i + 1) : Int)
  waiting : sim.waitingTime = sim.turnaroundTime -
    ∑ i : Fin tasks.length, jobsDone sim (i + 1) * (tasks.get i).executionTime

section Accounting

variable {tasks : List Task} (costs : ∀ task ∈ tasks, 1 ≤ task.executionTime)

include costs

theorem cost_eq (i : Fin tasks.length) : (cost tasks i : Int) = (tasks.get i).executionTime := by
  have := costs _ (List.get_mem tasks i)
  exact Int.toNat_of_nonneg (by omega)

theorem simAt_totals (t : Nat) :
    (simAt (readProcesses tasks) t).cpuBusyTime = (totalsAt (release tasks) (cost tasks) (pick tasks) t).busy ∧
      (simAt (readProcesses tasks) t).waitingTime = (totalsAt (release tasks) (cost tasks) (pick tasks) t).waiting ∧
      (simAt (readProcesses tasks) t).turnaroundTime =
        (totalsAt (release tasks) (cost tasks) (pick tasks) t).turnaround ∧
      ∀ i : Fin tasks.length, ticksGiven (simAt (readProcesses tasks) t) (i + 1) = given (pick tasks) i t := by
  induction t with
  | zero => simp [start, totalsAt, ticksGiven, given]
  | succ t ih =>
    obtain ⟨busy, waiting, turnaround, ticks⟩ := ih
    have clock := simAt_time (readProcesses tasks) t
    have pending := fun i => (remaining_bounds (pick tasks) (cost_pos costs) t i).1
    rw [simAt_succ]
    rcases dispatch_cases costs (tracks_simAt costs t) clock pending with ⟨idle, _⟩ | ⟨i, after, found, _⟩
    · have none : pick tasks t = none := by simp [pick, chosen, idle]
      simpa [tick, idle, totalsAt, given, none, ticksGiven] using ⟨busy, waiting, turnaround, ticks⟩
    · have picked : pick tasks t = some i := by simp [pick, chosen, found, taskOf_currentProcess]
      have same (j : Fin tasks.length) : (i : Int) + 1 = j + 1 ↔ i = j := by
        rw [Fin.ext_iff]
        omega
      have counted (j : Fin tasks.length) :
          (simAt (readProcesses tasks) t).output.countP (Event.runs (j + 1)) = given (pick tasks) j t := ticks j
      rw [clock] at found
      by_cases last : (progressOf tasks t).remaining i = 1
      · simp [tick, found, totalsAt, given, picked, last, currentProcess, ticksGiven, Event.runs, counted, clock, busy,
          waiting, turnaround, cost_eq costs, same, List.countP_cons]
      · have more : ¬ ((progressOf tasks t).remaining i : Int) - 1 = 0 := by omega
        simp [tick, found, totalsAt, given, picked, last, more, currentProcess, ticksGiven, Event.runs, counted, clock,
          busy, waiting, turnaround, same, List.countP_cons]

theorem simAt_dispatches (t : Nat) : Dispatches (simAt (readProcesses tasks) t) := by
  have clock := simAt_time (readProcesses tasks) t
  have sorted := sortByDeadline_perm (simAt (readProcesses tasks) t).processes
  constructor
  · cases found : dispatch (simAt (readProcesses tasks) t).time (sortByDeadline (simAt (readProcesses tasks) t).processes)
      with
    | none =>
      refine .inr ⟨by simp [tick, found], fun process member => ?_⟩
      exact dispatch_none.mp found process (sorted.mem_iff.mpr member)
    | some result =>
      obtain ⟨process, after⟩ := result
      obtain ⟨skipped, rest, shape, _, ready, _⟩ := dispatch_some found
      refine .inl ⟨process, sorted.mem_iff.mp (by simp [shape]), ready, fun other member => ?_, ?_⟩
      · exact dispatch_least found other (sorted.mem_iff.mpr member)
      · simp only [tick, found]
        exact ⟨_, rfl⟩
  · rw [← simAt_succ, (simAt_totals costs t).2.1, (simAt_totals costs (t + 1)).2.1]
    exact waiting_mono (cost_pos costs) (pick_edf costs).ready t

theorem simAt_accounts (t : Nat) : Accounts tasks (simAt (readProcesses tasks) t) := by
  obtain ⟨busy, waiting, turnaround, ticks⟩ := simAt_totals costs t
  have tracks := tracks_simAt costs t
  have done (i : Fin tasks.length) : jobsDone (simAt (readProcesses tasks) t) (i + 1) = (progressOf tasks t).completed i :=
    (completionTimes_facts costs i t).1
  refine ⟨?_, fun i process member named => ?_, ?_, ?_⟩
  · simpa [currentProcess, Function.comp_def] using tracks.map Process.id
  · obtain ⟨j, _, rfl⟩ := List.mem_map.mp (tracks.mem_iff.mp member)
    obtain rfl : j = i := by
      simp only [currentProcess] at named
      exact Fin.ext (by omega)
    have whole := cost_eq costs j
    have bounds := remaining_bounds (pick tasks) (cost_pos costs) t j
    rw [done, ticks, given_eq (cost_pos costs)]
    refine ⟨rfl, rfl, ?_⟩
    simp only [currentProcess]
    push_cast [bounds.2]
    rw [whole]
  · rw [busy, busy_eq]
    simp only [ticks]
  · rw [waiting, turnaround, waiting_eq]
    simp only [done, cost_eq costs]

end Accounting

end Xv6.Edf
