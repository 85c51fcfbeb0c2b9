import Xv6.Simulators.Lottery

set_option autoImplicit false

namespace Xv6.Lottery

-- The numbers that main reads: burst time and tickets.
def readTasks (numbers : List (Int × Int)) : List Task :=
  numbers.mapIdx fun i number => task (i + 1) number.1 number.2

def Line.runs (id : Int) : Line → Bool
  | .executing _ ran _ _ _ => decide (ran = id)
  | _ => false

def slicesOf (sim : Sim) (id : Int) : Nat := sim.output.countP (Line.runs id)

def AllCompleted (numbers : List (Int × Int)) (sim : Sim) : Prop :=
  ∀ (i : Nat) number, numbers[i]? = some number → ∃ task, sim.tasks[i]? = some task ∧ task.remainingTime ≤ 0 ∧
    (slicesOf sim (i + 1) : Int) = max number.1 0

-- What the count of slices reads of a task.
def Task.place (task : Task) : Int × Int := (task.id, task.remainingTime)

structure Served (numbers : List (Int × Int)) (sim : Sim) : Prop where
  tasks : ∀ i : Nat, (sim.tasks[i]?).map Task.place =
    (numbers[i]?).map fun number => ((i : Int) + 1, number.1 - (slicesOf sim (i + 1) : Int))
  short : ∀ (i : Nat) number, numbers[i]? = some number →
    slicesOf sim (i + 1) = 0 ∨ (slicesOf sim (i + 1) : Int) ≤ number.1
  total : sim.totalTickets = wrap (ticketsLeft sim.tasks)

variable {numbers : List (Int × Int)} {rand : Int} {sim next : Sim}

theorem allocateFrom_place (counter : Int) (tasks : List Task) (i : Nat) :
    ((allocateFrom counter tasks)[i]?).map Task.place = (tasks[i]?).map Task.place := by
  induction tasks generalizing counter i with
  | nil => rfl
  | cons task rest ih =>
    cases i <;> by_cases unfinished : task.remainingTime > 0 <;> simp [allocateFrom, unfinished, ih, Task.place]

theorem start_served : Served numbers (start (readTasks numbers)) := by
  refine ⟨fun i => ?_, fun i number _ => .inl rfl, calculateTotalTickets_eq _⟩
  simp [start, readTasks, task, Task.place, slicesOf, Function.comp_def]

theorem Served.quiet (served : Served numbers sim)
    (places : ∀ i : Nat, (next.tasks[i]?).map Task.place = (sim.tasks[i]?).map Task.place)
    (lines : ∀ id, slicesOf next id = slicesOf sim id) (total : next.totalTickets = wrap (ticketsLeft next.tasks)) :
    Served numbers next := by
  refine ⟨fun i => ?_, fun i number present => ?_, total⟩
  · rw [places, lines]
    exact served.tasks i
  · rw [lines]
    exact served.short i number present

theorem Served.slice (served : Served numbers sim) {p : Nat} {winner : Task} (unfinished : winner.remainingTime > 0)
    (present : (sim.tasks[p]?).map Task.place = some winner.place)
    (tasks : next.tasks[p]? = some (executeSlice winner))
    (others : ∀ i, i ≠ p → (next.tasks[i]?).map Task.place = (sim.tasks[i]?).map Task.place)
    (lines : ∀ id, slicesOf next id = slicesOf sim id + if winner.id = id then 1 else 0)
    (total : next.totalTickets = wrap (ticketsLeft next.tasks)) : Served numbers next := by
  obtain ⟨number, listed, same⟩ := Option.map_eq_some_iff.mp ((served.tasks p).symm.trans present)
  simp only [Task.place, Prod.mk.injEq] at same
  have own (i : Nat) : winner.id = i + 1 ↔ i = p := by omega
  refine ⟨fun i => ?_, fun i other there => ?_, total⟩
  · rw [lines]
    by_cases mine : i = p
    · subst mine
      rw [tasks, listed, if_pos ((own i).mpr rfl)]
      simp only [Option.map_some, executeSlice, Task.place, timeSlice, Option.some.injEq, Prod.mk.injEq]
      push_cast
      omega
    · rw [others i mine, if_neg ((own i).not.mpr mine)]
      exact served.tasks i
  · have bound := served.short i other there
    rw [lines]
    by_cases mine : i = p
    · subst mine
      rw [listed] at there
      cases there
      rw [if_pos ((own i).mpr rfl)]
      push_cast
      omega
    · rwa [if_neg ((own i).not.mpr mine)]

theorem Served.iteration (served : Served numbers sim) : Served numbers (iteration rand sim) := by
  by_cases empty : sim.totalTickets ≤ 0
  · rw [Lottery.iteration, if_pos empty]
    exact served.quiet (fun _ => rfl) (fun id => by simp [slicesOf, Line.runs]) served.total
  · rw [Lottery.iteration, if_neg empty]
    dsimp only
    cases found : ArrayScan.scan (Task.wins (pickWinningTicket rand sim.totalTickets)) executeSlice
        (allocateTicketRanges sim.tasks) with
    | none =>
      refine served.quiet (allocateFrom_place 1 sim.tasks) (fun id => ?_) (calculateTotalTickets_eq _)
      dsimp only [slicesOf]
      split <;> simp [Line.runs]
    | some result =>
      obtain ⟨winner, after⟩ := result
      obtain ⟨skipped, rest, shape, rfl, wins, _⟩ := ArrayScan.scan_some found
      simp only [Task.wins, Bool.and_eq_true, decide_eq_true_eq] at wins
      have places := allocateFrom_place 1 sim.tasks
      rw [show allocateFrom 1 sim.tasks = skipped ++ winner :: rest from shape] at places
      refine served.slice wins.1 ?_ ?_ (fun i other => ?_) (fun id => ?_) (calculateTotalTickets_eq _)
        (p := skipped.length)
      · rw [← places]
        simp
      · simp
      · rw [← places]
        rcases Nat.lt_or_gt_of_ne other with low | high
        · rw [List.getElem?_append_left low, List.getElem?_append_left low]
        · obtain ⟨j, rfl⟩ := Nat.exists_eq_add_of_lt high
          simp [Nat.add_assoc, List.getElem?_append_right]
      · dsimp only [slicesOf]
        split <;> simp [List.countP_cons, Line.runs]

theorem served_run (numbers : List (Int × Int)) (rand : Nat → Int) (k : Nat) :
    Served numbers (lotteryScheduling rand (readTasks numbers) k) := by
  induction k with
  | zero => exact start_served
  | succ k ih =>
    rw [lotteryScheduling]
    split
    · exact ih
    · exact ih.iteration

theorem Served.allCompleted_iff (served : Served numbers sim) :
    AllCompleted numbers sim ↔ ∀ task ∈ sim.tasks, task.remainingTime ≤ 0 := by
  constructor
  · intro completed task member
    obtain ⟨i, present⟩ := List.mem_iff_getElem?.mp member
    have same := served.tasks i
    rw [present] at same
    obtain ⟨number, listed, _⟩ := Option.map_eq_some_iff.mp same.symm
    obtain ⟨other, there, done, _⟩ := completed i number listed
    rw [present] at there
    cases there
    exact done
  · intro finished i number listed
    have same := served.tasks i
    rw [listed] at same
    obtain ⟨task, present, equal⟩ := Option.map_eq_some_iff.mp same
    have done := finished task (List.mem_of_getElem? present)
    have short := served.short i number listed
    simp only [Task.place, Prod.mk.injEq] at equal
    exact ⟨task, present, done, by omega⟩

-- The second way out of the loop is never taken: a positive total has an unfinished task.
theorem iteration_stops (stops : (iteration rand sim).stopped = true)
    (total : sim.totalTickets = wrap (ticketsLeft sim.tasks)) :
    wrap (ticketsLeft sim.tasks) ≤ 0 ∧ (iteration rand sim).tasks = sim.tasks := by
  unfold Lottery.iteration at stops ⊢
  split at stops
  next empty => simp [empty, total ▸ empty]
  next positive =>
    cases found : ArrayScan.scan (Task.wins (pickWinningTicket rand sim.totalTickets)) executeSlice
        (allocateTicketRanges sim.tasks) with
    | some result => simp [found] at stops
    | none =>
      simp only [found] at stops
      have done : workLeft sim.tasks = 0 := by
        rw [← allocateFrom_work 1]
        refine workLeft_eq_zero_iff.mpr fun task member => ?_
        exact of_decide_eq_true (List.all_eq_true.mp stops task member)
      have none : ticketsLeft sim.tasks = 0 := by
        refine List.sum_eq_zero fun share member => ?_
        obtain ⟨task, listed, rfl⟩ := List.mem_map.mp member
        exact if_neg (not_lt.mpr (workLeft_eq_zero_iff.mp done task listed))
      rw [total, none] at positive
      exact absurd (by decide) positive

end Xv6.Lottery
