import Xv6.Shared.ArrayScan

set_option autoImplicit false

namespace Xv6.Lottery

structure Task where
  id : Int
  burstTime : Int
  remainingTime : Int
  tickets : Int
  ticketStart : Int
  ticketEnd : Int
  deriving DecidableEq

-- A sum of type int, on a machine where it wraps at 32 bits.
def wrap (x : Int) : Int := (x + 2 ^ 31) % 2 ^ 32 - 2 ^ 31

def timeSlice : Int := 1

-- The loop of allocate_ticket_ranges from some task on.
def allocateFrom (ticketCounter : Int) : List Task → List Task
  | [] => []
  | task :: rest =>
    if task.remainingTime > 0 then
      { task with
        ticketStart := ticketCounter
        ticketEnd := wrap (ticketCounter + task.tickets - 1) } ::
          allocateFrom (wrap (ticketCounter + task.tickets)) rest
    else { task with ticketStart := 0, ticketEnd := 0 } :: allocateFrom ticketCounter rest

def allocateTicketRanges (tasks : List Task) : List Task := allocateFrom 1 tasks

def calculateTotalTickets (tasks : List Task) : Int :=
  tasks.foldl (fun total task => if task.remainingTime > 0 then wrap (total + task.tickets) else total) 0

def pickWinningTicket (rand totalTickets : Int) : Int := wrap (rand.tmod totalTickets + 1)

inductive Line where
  | winning (ticket totalTickets : Int)
  | executing (time id tickets ticketStart ticketEnd : Int)
  | completed (time id : Int)
  | allCompleted (time : Int)
  deriving DecidableEq

structure Sim where
  tasks : List Task
  totalTickets : Int
  time : Int
  output : List Line
  stopped : Bool

def Task.inRange (winningTicket : Int) (task : Task) : Bool :=
  decide (winningTicket ≥ task.ticketStart ∧ winningTicket ≤ task.ticketEnd)

def Task.wins (winningTicket : Int) (task : Task) : Bool :=
  decide (task.remainingTime > 0) && task.inRange winningTicket

def executeSlice (task : Task) : Task :=
  { task with
    remainingTime := task.remainingTime - timeSlice
    tickets := if task.remainingTime - timeSlice ≤ 0 then 0 else task.tickets }

-- The winner takes its tickets out of total_tickets, which is then computed again for all tasks.
def iteration (rand : Int) (sim : Sim) : Sim :=
  if sim.totalTickets ≤ 0 then
    { sim with output := sim.output ++ [.allCompleted sim.time], stopped := true }
  else
    let tasks := allocateTicketRanges sim.tasks
    let winningTicket := pickWinningTicket rand sim.totalTickets
    let output := sim.output ++ [.winning winningTicket sim.totalTickets]
    match ArrayScan.scan (Task.wins winningTicket) executeSlice tasks with
    | some (task, after) =>
      let time := wrap (sim.time + timeSlice)
      { tasks := after
        totalTickets := calculateTotalTickets after
        time
        output := output ++
          .executing sim.time task.id task.tickets task.ticketStart task.ticketEnd ::
            if task.remainingTime - timeSlice ≤ 0 then [.completed time task.id] else []
        stopped := false }
    | none =>
      let allTasksCompleted := tasks.all fun task => decide (task.remainingTime ≤ 0)
      { tasks
        totalTickets := calculateTotalTickets tasks
        time := sim.time
        output := output ++ if allTasksCompleted then [.allCompleted sim.time] else []
        stopped := allTasksCompleted }

def start (tasks : List Task) : Sim where
  tasks
  totalTickets := calculateTotalTickets tasks
  time := 0
  output := []
  stopped := false

/-- The state of lottery_scheduling after `k` iterations, or where it has stopped before. -/
def lotteryScheduling (rand : Nat → Int) (tasks : List Task) : Nat → Sim
  | 0 => start tasks
  | k + 1 =>
    let sim := lotteryScheduling rand tasks k
    if sim.stopped then sim else iteration (rand k) sim

def Line.isSlice : Line → Bool
  | .executing .. => true
  | _ => false

def slices (sim : Sim) : Nat := sim.output.countP Line.isSlice

def Task.share (task : Task) : Int := if task.remainingTime > 0 then task.tickets else 0

def ticketsLeft (tasks : List Task) : Int := (tasks.map Task.share).sum

def workLeft (tasks : List Task) : Nat := (tasks.map fun task => task.remainingTime.toNat).sum

/-- The ranges of the unfinished tasks follow each other from `next` to `last`. -/
def Consecutive (next last : Int) : List Task → Prop
  | [] => next = last + 1
  | task :: rest =>
    if task.remainingTime > 0 then
      task.ticketStart = next ∧ task.ticketEnd = next + task.tickets - 1 ∧
        Consecutive (next + task.tickets) last rest
    else Consecutive next last rest

theorem wrap_of_fits {x : Int} (low : 0 ≤ x) (high : x < 2 ^ 31) : wrap x = x := by
  unfold wrap
  omega

theorem wrap_lt (x : Int) : wrap x < 2 ^ 31 := by
  unfold wrap
  omega

theorem wrap_wrap_add (x y : Int) : wrap (wrap x + y) = wrap (x + y) := by
  unfold wrap
  omega

theorem foldl_total (tasks : List Task) (x : Int) :
    tasks.foldl (fun total task => if task.remainingTime > 0 then wrap (total + task.tickets) else total) (wrap x) =
      wrap (x + ticketsLeft tasks) := by
  induction tasks generalizing x with
  | nil => simp [ticketsLeft]
  | cons task rest ih =>
    by_cases unfinished : task.remainingTime > 0
    · simp only [List.foldl_cons, unfinished, if_true, wrap_wrap_add, ih]
      simp [ticketsLeft, Task.share, unfinished, Int.add_assoc]
    · simp only [List.foldl_cons, unfinished, if_false, ih]
      simp [ticketsLeft, Task.share, unfinished]

theorem calculateTotalTickets_eq (tasks : List Task) : calculateTotalTickets tasks = wrap (ticketsLeft tasks) := by
  have sum := foldl_total tasks 0
  rw [Int.zero_add] at sum
  exact sum

variable {next winningTicket : Int} {tasks : List Task} {i : Nat}

theorem Consecutive.last_eq {last : Int} (consecutive : Consecutive next last tasks) :
    last + 1 = next + ticketsLeft tasks := by
  induction tasks generalizing next with
  | nil => simp only [Consecutive] at consecutive; simp [ticketsLeft, consecutive]
  | cons task rest ih =>
    by_cases unfinished : task.remainingTime > 0
    · simp only [Consecutive, unfinished, if_true] at consecutive
      rw [ih consecutive.2.2]
      simp [ticketsLeft, Task.share, unfinished, Int.add_assoc]
    · simp only [Consecutive, unfinished, if_false] at consecutive
      rw [ih consecutive]
      simp [ticketsLeft, Task.share, unfinished]

def Ticketed (tasks : List Task) : Prop := ∀ task ∈ tasks, task.remainingTime > 0 → 1 ≤ task.tickets

theorem share_nonneg (ticketed : Ticketed tasks) : 0 ≤ ticketsLeft tasks := by
  refine List.sum_nonneg fun share member => ?_
  obtain ⟨task, inside, rfl⟩ := List.mem_map.mp member
  unfold Task.share
  split
  next unfinished => exact Int.le_trans (by decide) (ticketed task inside unfinished)
  next => exact Int.le_refl 0

theorem Ticketed.tail {task : Task} {rest : List Task} (ticketed : Ticketed (task :: rest)) : Ticketed rest :=
  fun other member => ticketed other (List.mem_cons_of_mem _ member)

theorem allocateFrom_left (counter : Int) (tasks : List Task) :
    ticketsLeft (allocateFrom counter tasks) = ticketsLeft tasks := by
  induction tasks generalizing counter with
  | nil => rfl
  | cons task rest ih =>
    have later (c : Int) : ((allocateFrom c rest).map Task.share).sum = (rest.map Task.share).sum := ih c
    by_cases unfinished : task.remainingTime > 0 <;>
      simp [allocateFrom, unfinished, ticketsLeft, Task.share, later]

-- The counter leaves the range of int only behind the last unfinished task, where nothing reads it.
theorem allocateFrom_consecutive (ticketed : Ticketed tasks) (low : 1 ≤ next)
    (fits : next + ticketsLeft tasks ≤ 2 ^ 31) :
    Consecutive next (next + ticketsLeft tasks - 1) (allocateFrom (wrap next) tasks) := by
  induction tasks generalizing next with
  | nil => simp [allocateFrom, Consecutive, ticketsLeft]
  | cons task rest ih =>
    have restNonneg := share_nonneg ticketed.tail
    by_cases unfinished : task.remainingTime > 0
    · have one := ticketed task (List.mem_cons_self ..) unfinished
      have parts : ticketsLeft (task :: rest) = task.tickets + ticketsLeft rest := by
        simp [ticketsLeft, Task.share, unfinished]
      rw [parts] at fits ⊢
      have here : wrap next = next := wrap_of_fits (by omega) (by omega)
      simp only [allocateFrom, unfinished, if_true, Consecutive, here]
      refine ⟨trivial, wrap_of_fits (by omega) (by omega), ?_⟩
      have later := ih ticketed.tail (show 1 ≤ next + task.tickets by omega) (by omega)
      rwa [Int.add_assoc] at later
    · have parts : ticketsLeft (task :: rest) = ticketsLeft rest := by
        simp [ticketsLeft, Task.share, unfinished]
      rw [parts] at fits ⊢
      simp only [allocateFrom, unfinished, if_false, Consecutive]
      exact ih ticketed.tail low fits

theorem allocateFrom_ticketed (ticketed : Ticketed tasks) (counter : Int) :
    Ticketed (allocateFrom counter tasks) := by
  induction tasks generalizing counter with
  | nil => exact ticketed
  | cons task rest ih =>
    intro other member unfinished
    have first := ticketed task (List.mem_cons_self ..)
    by_cases runs : task.remainingTime > 0
    · simp only [allocateFrom, runs, if_true, List.mem_cons] at member
      rcases member with rfl | later
      · exact first runs
      · exact ih ticketed.tail _ other later unfinished
    · simp only [allocateFrom, runs, if_false, List.mem_cons] at member
      rcases member with rfl | later
      · exact first unfinished
      · exact ih ticketed.tail _ other later unfinished

theorem allocateFrom_work (counter : Int) (tasks : List Task) :
    workLeft (allocateFrom counter tasks) = workLeft tasks := by
  induction tasks generalizing counter with
  | nil => rfl
  | cons task rest ih =>
    simp only [workLeft] at ih ⊢
    by_cases unfinished : task.remainingTime > 0 <;> simp [allocateFrom, unfinished, ih]

/-- What allocate_ticket_ranges leaves to a task that is not scheduled any more. -/
def Ranged (tasks : List Task) : Prop :=
  ∀ task ∈ tasks, ¬ task.remainingTime > 0 → task.ticketStart = 0 ∧ task.ticketEnd = 0

theorem allocateFrom_ranged (counter : Int) (tasks : List Task) : Ranged (allocateFrom counter tasks) := by
  induction tasks generalizing counter with
  | nil => intro task member; cases member
  | cons task rest ih =>
    intro other member finished
    by_cases unfinished : task.remainingTime > 0
    · simp only [allocateFrom, unfinished, if_true, List.mem_cons] at member
      rcases member with rfl | later
      · exact absurd unfinished finished
      · exact ih _ other later finished
    · simp only [allocateFrom, unfinished, if_false, List.mem_cons] at member
      rcases member with rfl | later
      · exact ⟨rfl, rfl⟩
      · exact ih _ other later finished

def OnlyWinner (tasks : List Task) (winningTicket : Int) (i : Nat) (task : Task) : Prop :=
  tasks[i]? = some task ∧ ∀ j other, tasks[j]? = some other → (other.inRange winningTicket = true ↔ j = i)

theorem ticket_inRange_iff {task : Task} :
    task.inRange winningTicket = true ↔ task.ticketStart ≤ winningTicket ∧ winningTicket ≤ task.ticketEnd := by
  simp [Task.inRange]

theorem Consecutive.outside {last : Int} (consecutive : Consecutive next last tasks) (ticketed : Ticketed tasks)
    (ranged : Ranged tasks) (positive : 1 ≤ winningTicket) (before : winningTicket < next) (task : Task)
    (member : task ∈ tasks) : task.inRange winningTicket = false := by
  induction tasks generalizing next with
  | nil => cases member
  | cons first rest ih =>
    have restRanged : Ranged rest := fun other inside => ranged other (List.mem_cons_of_mem _ inside)
    by_cases unfinished : first.remainingTime > 0
    · have one := ticketed first (List.mem_cons_self ..) unfinished
      simp only [Consecutive, unfinished, if_true] at consecutive
      rcases List.mem_cons.mp member with rfl | later
      · simp [Task.inRange, consecutive.1]
        omega
      · exact ih consecutive.2.2 ticketed.tail restRanged (by omega) later
    · simp only [Consecutive, unfinished, if_false] at consecutive
      rcases List.mem_cons.mp member with rfl | later
      · have none := ranged task (List.mem_cons_self ..) unfinished
        simp [Task.inRange, none]
        omega
      · exact ih consecutive ticketed.tail restRanged before later

theorem Consecutive.winner {last : Int} (consecutive : Consecutive next last tasks) (ticketed : Ticketed tasks)
    (ranged : Ranged tasks) (positive : 1 ≤ next) (low : next ≤ winningTicket) (high : winningTicket ≤ last) :
    ∃ i task, OnlyWinner tasks winningTicket i task ∧ task.remainingTime > 0 := by
  induction tasks generalizing next with
  | nil => simp only [Consecutive] at consecutive; omega
  | cons first rest ih =>
    have restRanged : Ranged rest := fun other inside => ranged other (List.mem_cons_of_mem _ inside)
    have skip (unchosen : first.inRange winningTicket = false)
        (found : ∃ i task, OnlyWinner rest winningTicket i task ∧ task.remainingTime > 0) :
        ∃ i task, OnlyWinner (first :: rest) winningTicket i task ∧ task.remainingTime > 0 := by
      obtain ⟨i, task, ⟨here, only⟩, unfinished⟩ := found
      refine ⟨i + 1, task, ⟨by simpa using here, ?_⟩, unfinished⟩
      intro j other position
      cases j with
      | zero =>
        obtain rfl : first = other := by simpa using position
        simp [unchosen]
      | succ j => simpa using only j other (by simpa using position)
    by_cases unfinished : first.remainingTime > 0
    · have one := ticketed first (List.mem_cons_self ..) unfinished
      simp only [Consecutive, unfinished, if_true] at consecutive
      obtain ⟨begins, ends, later⟩ := consecutive
      by_cases chosen : winningTicket < next + first.tickets
      · refine ⟨0, first, ⟨rfl, ?_⟩, unfinished⟩
        intro j other position
        cases j with
        | zero =>
          obtain rfl : first = other := by simpa using position
          simp only [ticket_inRange_iff, begins, ends, iff_true]
          omega
        | succ j =>
          have member : other ∈ rest := List.mem_of_getElem? (by simpa using position)
          simp [later.outside ticketed.tail restRanged (by omega) chosen other member]
      · refine skip ?_ (ih later ticketed.tail restRanged (by omega) (by omega))
        simp [Task.inRange, ends]
        omega
    · have none := ranged first (List.mem_cons_self ..) unfinished
      simp only [Consecutive, unfinished, if_false] at consecutive
      refine skip ?_ (ih consecutive ticketed.tail restRanged positive low)
      simp [Task.inRange, none]
      omega

theorem scan_winner {task : Task} (winner : OnlyWinner tasks winningTicket i task)
    (unfinished : task.remainingTime > 0) :
    ArrayScan.scan (Task.wins winningTicket) executeSlice tasks = some (task, tasks.set i (executeSlice task)) := by
  induction tasks generalizing i with
  | nil => simp [OnlyWinner] at winner
  | cons first rest ih =>
    obtain ⟨here, only⟩ := winner
    cases i with
    | zero =>
      obtain rfl : first = task := by simpa using here
      have chosen : first.wins winningTicket = true := by
        simp [Task.wins, unfinished, (only 0 first rfl).mpr rfl]
      simp [ArrayScan.scan, chosen]
    | succ i =>
      have passed : first.wins winningTicket = false := by
        have notIn : ¬ first.inRange winningTicket = true := fun inside =>
          absurd ((only 0 first rfl).mp inside) (by simp)
        simp [Task.wins, notIn]
      have later : OnlyWinner rest winningTicket i task := ⟨by simpa using here, fun j other position => by
          simpa using only (j + 1) other (by simpa using position)⟩
      simp [ArrayScan.scan, passed, ih later]

theorem executeSlice_share {task : Task} (unfinished : task.remainingTime > 0) (one : 1 ≤ task.tickets) :
    (executeSlice task).share ≤ task.share := by
  unfold Task.share executeSlice timeSlice
  simp only [unfinished, if_true]
  split
  next more => rw [if_neg (by omega)]
  next => omega

theorem set_ticketed (ticketed : Ticketed tasks) {task : Task} (here : tasks[i]? = some task) :
    Ticketed (tasks.set i (executeSlice task)) := by
  intro other member unfinished
  rcases List.mem_or_eq_of_mem_set member with old | rfl
  · exact ticketed other old unfinished
  · have still : ¬ task.remainingTime - timeSlice ≤ 0 := by simpa [executeSlice] using unfinished
    have one := ticketed task (List.mem_of_getElem? here) (by unfold timeSlice at still; omega)
    simpa [executeSlice, still] using one

theorem set_ticketsLeft (ticketed : Ticketed tasks) {task : Task} (here : tasks[i]? = some task)
    (unfinished : task.remainingTime > 0) : ticketsLeft (tasks.set i (executeSlice task)) ≤ ticketsLeft tasks := by
  induction tasks generalizing i with
  | nil => simp at here
  | cons first rest ih =>
    cases i with
    | zero =>
      obtain rfl : first = task := by simpa using here
      have fewer := executeSlice_share unfinished (ticketed first (List.mem_cons_self ..) unfinished)
      simpa [ticketsLeft] using fewer
    | succ i =>
      have later := ih ticketed.tail (by simpa using here)
      simpa [ticketsLeft] using later

theorem set_work {task : Task} (here : tasks[i]? = some task) (unfinished : task.remainingTime > 0) :
    workLeft (tasks.set i (executeSlice task)) + 1 = workLeft tasks := by
  induction tasks generalizing i with
  | nil => simp at here
  | cons first rest ih =>
    cases i with
    | zero =>
      obtain rfl : first = task := by simpa using here
      have shorter : (first.remainingTime - 1).toNat + 1 = first.remainingTime.toNat := by omega
      simp only [workLeft, List.set_cons_zero, List.map_cons, List.sum_cons, executeSlice, timeSlice]
      omega
    | succ i =>
      have later := ih (by simpa using here)
      simp only [workLeft, List.set_cons_succ, List.map_cons, List.sum_cons] at later ⊢
      omega

theorem pick_bounds {rand total : Int} (nonneg : 0 ≤ rand) (positive : 0 < total) (fits : total < 2 ^ 31) :
    1 ≤ pickWinningTicket rand total ∧ pickWinningTicket rand total ≤ total := by
  have low := Int.tmod_nonneg total nonneg
  have high := Int.tmod_lt_of_pos rand positive
  rw [pickWinningTicket, wrap_of_fits (by omega) (by omega)]
  omega

structure FairDraw (rand : Int) (sim next : Sim) : Prop where
  ranges : Consecutive 1 sim.totalTickets (allocateTicketRanges sim.tasks)
  runs : ∃ i task, OnlyWinner (allocateTicketRanges sim.tasks) (pickWinningTicket rand sim.totalTickets) i task ∧
    task.remainingTime > 0 ∧ next.tasks = (allocateTicketRanges sim.tasks).set i (executeSlice task) ∧
    slices next = slices sim + 1

structure Ready (sim : Sim) : Prop where
  running : sim.stopped = false
  ticketed : Ticketed sim.tasks
  total : sim.totalTickets = ticketsLeft sim.tasks
  fits : ticketsLeft sim.tasks < 2 ^ 31

theorem Ready.draw {sim : Sim} {rand : Int} (ready : Ready sim) (nonneg : 0 ≤ rand) (positive : 0 < sim.totalTickets) :
    Ready (iteration rand sim) ∧ FairDraw rand sim (iteration rand sim) ∧
      workLeft (iteration rand sim).tasks + 1 = workLeft sim.tasks := by
  have fits := ready.fits
  have ticketed := allocateFrom_ticketed ready.ticketed 1
  have ranges : Consecutive 1 sim.totalTickets (allocateTicketRanges sim.tasks) := by
    have all := allocateFrom_consecutive ready.ticketed (Int.le_refl 1) (by omega)
    rw [ready.total]
    rwa [wrap_of_fits (by decide) (by decide), Int.add_comm, Int.add_sub_cancel] at all
  obtain ⟨low, high⟩ := pick_bounds nonneg positive (by rw [ready.total]; exact fits)
  obtain ⟨i, task, winner, unfinished⟩ :=
    ranges.winner ticketed (allocateFrom_ranged 1 sim.tasks) (Int.le_refl 1) low high
  have here : (allocateFrom 1 sim.tasks)[i]? = some task := winner.1
  have scanned := scan_winner winner unfinished
  have drawn : (iteration rand sim).tasks = (allocateTicketRanges sim.tasks).set i (executeSlice task) ∧
      (iteration rand sim).stopped = false ∧ (iteration rand sim).totalTickets =
        calculateTotalTickets ((allocateTicketRanges sim.tasks).set i (executeSlice task)) ∧
      slices (iteration rand sim) = slices sim + 1 := by
    simp only [iteration, if_neg (show ¬ sim.totalTickets ≤ 0 by omega), scanned, slices, true_and]
    split <;> simp [Line.isSlice, List.countP_cons]
  obtain ⟨tasks, running, total, counted⟩ := drawn
  have left := set_ticketsLeft ticketed here unfinished
  have nextTicketed := set_ticketed ticketed here
  rw [allocateFrom_left] at left
  have nonnegLeft := share_nonneg nextTicketed
  refine ⟨⟨running, ?_, ?_, ?_⟩, ⟨ranges, i, task, winner, unfinished, tasks, counted⟩, ?_⟩
  · rw [tasks]
    exact nextTicketed
  · rw [total, tasks, calculateTotalTickets_eq]
    exact wrap_of_fits nonnegLeft (Int.lt_of_le_of_lt left fits)
  · rw [tasks]
    exact Int.lt_of_le_of_lt left fits
  · rw [tasks, ← allocateFrom_work 1 sim.tasks]
    exact set_work here unfinished

theorem workLeft_eq_zero_iff : workLeft tasks = 0 ↔ ∀ task ∈ tasks, task.remainingTime ≤ 0 := by
  simp [workLeft, List.sum_eq_zero_iff]

theorem ticketsLeft_eq_zero_iff (ticketed : Ticketed tasks) : ticketsLeft tasks = 0 ↔ workLeft tasks = 0 := by
  induction tasks with
  | nil => simp [ticketsLeft, workLeft]
  | cons task rest ih =>
    have later := ih ticketed.tail
    have nonneg := share_nonneg ticketed.tail
    have one := ticketed task (List.mem_cons_self ..)
    simp only [ticketsLeft, workLeft, List.map_cons, List.sum_cons] at later nonneg ⊢
    by_cases unfinished : task.remainingTime > 0
    · simp only [Task.share, unfinished, if_true]
      have := one unfinished
      omega
    · simp only [Task.share, unfinished, if_false]
      omega

section Run

variable {rand : Nat → Int} {tasks : List Task}

theorem lotteryScheduling_succ {k : Nat} (running : (lotteryScheduling rand tasks k).stopped = false) :
    lotteryScheduling rand tasks (k + 1) = iteration (rand k) (lotteryScheduling rand tasks k) := by
  simp [lotteryScheduling, running]

theorem lotteryScheduling_stays {k m : Nat} (later : k ≤ m)
    (stopped : (lotteryScheduling rand tasks k).stopped = true) :
    lotteryScheduling rand tasks m = lotteryScheduling rand tasks k := by
  induction later with
  | refl => rfl
  | step _ ih => simp [lotteryScheduling, ih, stopped]

theorem start_ready (ticketed : Ticketed tasks) (fits : ticketsLeft tasks < 2 ^ 31) : Ready (start tasks) := by
  refine ⟨rfl, ticketed, ?_, fits⟩
  show calculateTotalTickets tasks = ticketsLeft tasks
  rw [calculateTotalTickets_eq]
  exact wrap_of_fits (share_nonneg ticketed) fits

theorem Ready.positive {sim : Sim} (ready : Ready sim) (work : 0 < workLeft sim.tasks) : 0 < sim.totalTickets := by
  have nonneg := share_nonneg ready.ticketed
  have none := ticketsLeft_eq_zero_iff ready.ticketed
  rw [ready.total]
  omega

theorem ready_run (nonneg : ∀ k, 0 ≤ rand k) (ticketed : Ticketed tasks) (fits : ticketsLeft tasks < 2 ^ 31) {k : Nat}
    (within : k ≤ workLeft tasks) :
    Ready (lotteryScheduling rand tasks k) ∧ slices (lotteryScheduling rand tasks k) = k ∧
      workLeft (lotteryScheduling rand tasks k).tasks + k = workLeft tasks := by
  induction k with
  | zero => exact ⟨start_ready ticketed fits, rfl, rfl⟩
  | succ k ih =>
    obtain ⟨ready, counted, work⟩ := ih (by omega)
    obtain ⟨next, fair, less⟩ := ready.draw (nonneg k) (ready.positive (by omega))
    obtain ⟨_, _, _, _, _, slice⟩ := fair.runs
    rw [lotteryScheduling_succ ready.running]
    exact ⟨next, by omega, by omega⟩

/-- lottery_scheduling runs every task to completion: each draw is fair, and the loop stops after `burst`
slices with nothing left to do. -/
structure Completes (rand : Nat → Int) (tasks : List Task) : Prop where
  fair : ∀ k, (lotteryScheduling rand tasks k).stopped = false →
    0 < (lotteryScheduling rand tasks k).totalTickets →
    FairDraw (rand k) (lotteryScheduling rand tasks k) (lotteryScheduling rand tasks (k + 1))
  stops : ∃ k, (lotteryScheduling rand tasks k).stopped = true ∧
    slices (lotteryScheduling rand tasks k) = (tasks.map fun task => task.burstTime.toNat).sum ∧
    ∀ task ∈ (lotteryScheduling rand tasks k).tasks, task.remainingTime ≤ 0

theorem last_iteration (nonneg : ∀ k, 0 ≤ rand k) (ticketed : Ticketed tasks) (fits : ticketsLeft tasks < 2 ^ 31) :
    lotteryScheduling rand tasks (workLeft tasks + 1) = { lotteryScheduling rand tasks (workLeft tasks) with
        output := (lotteryScheduling rand tasks (workLeft tasks)).output ++
          [.allCompleted (lotteryScheduling rand tasks (workLeft tasks)).time]
        stopped := true } := by
  obtain ⟨ready, _, work⟩ := ready_run nonneg ticketed fits (Nat.le_refl (workLeft tasks))
  have none := (ticketsLeft_eq_zero_iff ready.ticketed).mpr (by omega)
  rw [lotteryScheduling_succ ready.running, iteration, if_pos (by rw [ready.total, none])]

theorem completes_of_fits (fresh : ∀ task ∈ tasks, task.remainingTime = task.burstTime) (nonneg : ∀ k, 0 ≤ rand k)
    (ticketed : Ticketed tasks) (fits : ticketsLeft tasks < 2 ^ 31) : Completes rand tasks := by
  have last := last_iteration nonneg ticketed fits
  have stopped : (lotteryScheduling rand tasks (workLeft tasks + 1)).stopped = true := by rw [last]
  constructor
  · intro k running positive
    have within : k ≤ workLeft tasks := by
      by_contra late
      rw [lotteryScheduling_stays (by omega) stopped, stopped] at running
      exact Bool.noConfusion running
    obtain ⟨ready, _, work⟩ := ready_run nonneg ticketed fits within
    rw [lotteryScheduling_succ running]
    exact (ready.draw (nonneg k) positive).2.1
  · obtain ⟨ready, counted, work⟩ := ready_run nonneg ticketed fits (Nat.le_refl (workLeft tasks))
    have bursts : (tasks.map fun task => task.burstTime.toNat).sum = workLeft tasks := by
      refine congrArg List.sum (List.map_congr_left fun task member => ?_)
      rw [fresh task member]
    refine ⟨workLeft tasks + 1, stopped, ?_, ?_⟩
    · rw [last, bursts]
      simpa [slices, Line.isSlice] using counted
    · rw [last]
      exact workLeft_eq_zero_iff.mp (show workLeft (lotteryScheduling rand tasks (workLeft tasks)).tasks = 0 by omega)

theorem fits_of_completes (ticketed : Ticketed tasks) (completes : Completes rand tasks) :
    ticketsLeft tasks < 2 ^ 31 := by
  by_contra tooMany
  have total : (lotteryScheduling rand tasks 0).totalTickets = wrap (ticketsLeft tasks) := calculateTotalTickets_eq tasks
  have bounded := wrap_lt (ticketsLeft tasks)
  by_cases positive : 0 < wrap (ticketsLeft tasks)
  · have ranges := (completes.fair 0 rfl (total ▸ positive)).ranges.last_eq
    rw [total] at ranges
    have same : ticketsLeft (allocateTicketRanges (lotteryScheduling rand tasks 0).tasks) = ticketsLeft tasks :=
      allocateFrom_left 1 tasks
    omega
  · -- The wrapped total is not positive: the loop stops at once, with every task as it was.
    have first : lotteryScheduling rand tasks 1 =
        { start tasks with output := [.allCompleted 0], stopped := true } := by
      rw [lotteryScheduling_succ rfl, iteration, if_pos (by omega)]
      rfl
    obtain ⟨k, stopped, _, done⟩ := completes.stops
    have later : 1 ≤ k := by
      cases k with
      | zero => cases stopped
      | succ k => omega
    rw [lotteryScheduling_stays later (by rw [first]), first] at done
    have none := (ticketsLeft_eq_zero_iff ticketed).mpr (workLeft_eq_zero_iff.mpr done)
    omega

theorem lottery_completes_iff (fresh : ∀ task ∈ tasks, task.remainingTime = task.burstTime)
    (tickets : ∀ task ∈ tasks, 1 ≤ task.tickets) (nonneg : ∀ k, 0 ≤ rand k) :
    Completes rand tasks ↔ ticketsLeft tasks < 2 ^ 31 := by
  have ticketed : Ticketed tasks := fun task member _ => tickets task member
  exact ⟨fits_of_completes ticketed, completes_of_fits fresh nonneg ticketed⟩

end Run

def task (id burstTime tickets : Int) : Task := ⟨id, burstTime, burstTime, tickets, 0, 0⟩

theorem lottery_completes_two : Completes (fun k => 7 * k) [task 1 2 3, task 2 1 5] :=
  (lottery_completes_iff (by decide) (by decide) (fun k => by omega)).mpr (by decide)

/-- Two tasks with 1500000000 tickets each: the total wraps to a negative number, and the scheduler reports
at time 0 that all tasks are completed. -/
theorem lottery_total_overflows : ¬ Completes (fun _ => 0) [task 1 1 1500000000, task 2 1 1500000000] ∧
      (lotteryScheduling (fun _ => 0) [task 1 1 1500000000, task 2 1 1500000000] 1).output = [.allCompleted 0] ∧
      (lotteryScheduling (fun _ => 0) [task 1 1 1500000000, task 2 1 1500000000] 1).tasks =
        [task 1 1 1500000000, task 2 1 1500000000] := by
  refine ⟨fun completes => ?_, by decide, by decide⟩
  exact absurd (fits_of_completes (by unfold Ticketed; decide) completes) (by decide)

end Xv6.Lottery
