import Xv6.Simulators.Edf
import Xv6.Simulators.Rms

set_option autoImplicit false

namespace Xv6.Rms

open Uniprocessor

-- The tasks for edf_premption.c: a job is due when the next one arrives.
abbrev forEdf (tasks : List Task) : List Edf.Task :=
  tasks.map fun task => ⟨task.executionTime, task.arrivalTime + task.period, task.arrivalTime, task.period⟩

section InTime

variable {tasks : List Task}

theorem length_forEdf : (forEdf tasks).length = tasks.length := List.length_map _

theorem dueTime_forEdf (i : Fin (forEdf tasks).length) (k : Nat) :
    Edf.dueTime (forEdf tasks) (i, k) = dueTime tasks (i.cast length_forEdf, k) := by
  simp [Edf.dueTime, dueTime, release]
  ring

variable (valid : ∀ task ∈ tasks, task.Valid) {horizon : Nat}
  (meets : ∀ t ≤ horizon, ∀ process ∈ (simAt (readProcesses tasks) t).processes,
    (t : Int) < process.nextArrivalTime + process.period)

include valid

theorem valid_forEdf : ∀ task ∈ forEdf tasks, task.Valid := by
  simpa using fun task member =>
    ⟨(valid task member).executionTime, (valid task member).period, (valid task member).arrivalTime⟩

include meets

theorem completed_of_meets {i : Fin (forEdf tasks).length} {k t : Nat} (late : Edf.dueTime (forEdf tasks) (i, k) ≤ t)
    (inside : t ≤ horizon) : k < (progressOf tasks t).completed (i.cast length_forEdf) := by
  by_contra early
  have listed : currentProcess tasks (progressOf tasks t) (i.cast length_forEdf) ∈
      (simAt (readProcesses tasks) t).processes := by
    rw [tracks_simAt (executionTimes valid)]
    exact List.mem_map_of_mem (mem_order _)
  have order := Edf.dueTime_mono (valid_forEdf valid) i (Nat.le_of_not_lt early)
  simp only [dueTime_forEdf] at order late
  exact absurd (meets t inside _ listed) (not_lt.mpr (order.trans late))

theorem feasible_forEdf :
    Feasible (Edf.release (forEdf tasks)) (Edf.dueTime (forEdf tasks)) (Edf.cost (forEdf tasks)) horizon := by
  have costs := executionTimes valid
  -- The slots go to the jobs that rms_scheduling runs in them.
  refine ⟨fun u => (jobAt (cost tasks) (pick tasks) u).map fun job => (job.1.cast length_forEdf.symm, job.2),
    fun job bound => ?_⟩
  have finished := completed_of_meets valid meets (Int.self_le_toNat (Edf.dueTime _ job)) (by omega)
  have served := not_lt.mp (mt (service_lt_iff (cost_pos costs) (_, job.2) _).mp (not_le.mpr finished))
  have whole : Edf.cost (forEdf tasks) job.1 = cost tasks (job.1.cast length_forEdf) := by simp [Edf.cost, cost]
  refine whole.trans_le (served.trans (Finset.card_le_card fun u member => ?_))
  obtain ⟨before, runs⟩ := Finset.mem_filter.mp member
  rw [Finset.mem_range] at before
  obtain ⟨i, picked, same⟩ := Option.map_eq_some_iff.mp runs
  have ready := (pick_fixedPriority costs).ready u i picked
  rw [Ready, same] at ready
  refine Finset.mem_filter.mpr ⟨Finset.mem_range.mpr (by omega), by simp [runs], ?_, by omega⟩
  simpa [Edf.release, release] using ready

end InTime

end Xv6.Rms
