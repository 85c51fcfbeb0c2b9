import Mathlib

set_option autoImplicit false

namespace Uniprocessor

variable {I : Type} [DecidableEq I]

/-- Job `k` of a task is the one after `k` completed ones; jobs of one task run in this order. -/
abbrev Job (I : Type) := I × Nat

structure Progress (I : Type) where
  completed : I → Nat
  remaining : I → Nat

def advance (cost : I → Nat) (progress : Progress I) : Option I → Progress I
  | none => progress
  | some i =>
    if progress.remaining i = 1 then
      { completed := Function.update progress.completed i (progress.completed i + 1)
        remaining := Function.update progress.remaining i (cost i) }
    else
      { progress with remaining := Function.update progress.remaining i (progress.remaining i - 1) }

-- `pick t` is the task that gets the unit slot from t to t + 1.
def progressAt (cost : I → Nat) (pick : Nat → Option I) : Nat → Progress I
  | 0 => ⟨fun _ => 0, cost⟩
  | t + 1 => advance cost (progressAt cost pick t) (pick t)

def jobAt (cost : I → Nat) (pick : Nat → Option I) (t : Nat) : Option (Job I) :=
  (pick t).map fun i => (i, (progressAt cost pick t).completed i)

def service (cost : I → Nat) (pick : Nat → Option I) (job : Job I) (t : Nat) : Nat :=
  ((Finset.range t).filter fun u => jobAt cost pick u = some job).card

variable {cost : I → Nat} {pick : Nat → Option I}

theorem completed_succ (i : I) (t : Nat) :
    (progressAt cost pick (t + 1)).completed i = (progressAt cost pick t).completed i +
      if pick t = some i ∧ (progressAt cost pick t).remaining i = 1 then 1 else 0 := by
  cases chosen : pick t with
  | none => simp [progressAt, advance, chosen]
  | some j =>
    by_cases same : j = i <;> by_cases last : (progressAt cost pick t).remaining j = 1 <;>
      simp_all [progressAt, advance, eq_comm]

theorem remaining_succ (i : I) (t : Nat) : (progressAt cost pick (t + 1)).remaining i = if pick t = some i then
        if (progressAt cost pick t).remaining i = 1 then cost i else (progressAt cost pick t).remaining i - 1
      else (progressAt cost pick t).remaining i := by
  cases chosen : pick t with
  | none => simp [progressAt, advance, chosen]
  | some j =>
    by_cases same : j = i <;> by_cases last : (progressAt cost pick t).remaining j = 1 <;>
      simp_all [progressAt, advance, eq_comm]

theorem remaining_bounds (pick : Nat → Option I) (positive : ∀ i, 0 < cost i) (t : Nat) (i : I) :
    0 < (progressAt cost pick t).remaining i ∧ (progressAt cost pick t).remaining i ≤ cost i := by
  have enough := positive i
  induction t with
  | zero => exact ⟨enough, le_refl _⟩
  | succ t ih =>
    rw [remaining_succ]
    split_ifs <;> omega

theorem service_succ (job : Job I) (t : Nat) : service cost pick job (t + 1) =
      service cost pick job t + if jobAt cost pick t = some job then 1 else 0 := by
  unfold service
  rw [Finset.range_add_one, Finset.filter_insert]
  split
  · rw [Finset.card_insert_of_notMem (by simp)]
  · simp

theorem service_eq (positive : ∀ i, 0 < cost i) (i : I) (k t : Nat) : service cost pick (i, k) t =
      if k < (progressAt cost pick t).completed i then cost i else if k = (progressAt cost pick t).completed i then
        cost i - (progressAt cost pick t).remaining i else 0 := by
  induction t with
  | zero => by_cases first : k = 0 <;> simp [service, progressAt, first]
  | succ t ih =>
    have bounds := remaining_bounds pick positive t i
    rw [service_succ, ih, jobAt, completed_succ, remaining_succ]
    cases chosen : pick t with
    | none => simp
    | some j =>
      by_cases same : j = i
      · subst same
        simp only [Option.map_some, Option.some.injEq, Prod.mk.injEq, true_and, if_true]
        split_ifs <;> omega
      · simp [same]

theorem service_le (positive : ∀ i, 0 < cost i) (job : Job I) (t : Nat) : service cost pick job t ≤ cost job.1 := by
  obtain ⟨i, k⟩ := job
  rw [service_eq positive]
  split_ifs <;> simp only <;> omega

theorem service_lt_iff (positive : ∀ i, 0 < cost i) (job : Job I) (t : Nat) :
    service cost pick job t < cost job.1 ↔ (progressAt cost pick t).completed job.1 ≤ job.2 := by
  obtain ⟨i, k⟩ := job
  have bounds := remaining_bounds pick positive t i
  have cost_pos := positive i
  rw [service_eq positive]
  split_ifs <;> simp only <;> omega

theorem completed_mono (cost : I → Nat) (pick : Nat → Option I) (i : I) {t u : Nat} (order : t ≤ u) :
    (progressAt cost pick t).completed i ≤ (progressAt cost pick u).completed i := by
  induction u, order using Nat.le_induction with
  | base => exact le_refl _
  | succ u _ ih =>
    rw [completed_succ]
    omega

theorem interval_le_service (jobs : Finset (Job I)) {start stop : Nat}
    (running : ∀ u, start ≤ u → u < stop → ∃ job ∈ jobs, jobAt cost pick u = some job) :
    stop - start ≤ ∑ job ∈ jobs, service cost pick job stop := by
  let slots := fun job => (Finset.Ico start stop).filter fun u => jobAt cost pick u = some job
  have covered : Finset.Ico start stop ⊆ jobs.biUnion slots := by
    intro u interval
    obtain ⟨low, high⟩ := Finset.mem_Ico.mp interval
    obtain ⟨job, listed, runs⟩ := running u low high
    exact Finset.mem_biUnion.mpr ⟨job, listed, Finset.mem_filter.mpr ⟨interval, runs⟩⟩
  calc stop - start = (Finset.Ico start stop).card := (Nat.card_Ico start stop).symm
    _ ≤ (jobs.biUnion slots).card := Finset.card_le_card covered
    _ ≤ ∑ job ∈ jobs, (slots job).card := Finset.card_biUnion_le
    _ ≤ ∑ job ∈ jobs, service cost pick job stop := by
        apply Finset.sum_le_sum
        intro job _
        apply Finset.card_le_card
        intro u present
        obtain ⟨interval, runs⟩ := Finset.mem_filter.mp present
        exact Finset.mem_filter.mpr ⟨Finset.mem_range.mpr (Finset.mem_Ico.mp interval).2, runs⟩

theorem service_sum_lt (positive : ∀ i, 0 < cost i) (jobs : Finset (Job I)) {job : Job I} {t : Nat}
    (listed : job ∈ jobs) (pending : (progressAt cost pick t).completed job.1 ≤ job.2) :
    ∑ other ∈ jobs, service cost pick other t < ∑ other ∈ jobs, cost other.1 :=
  Finset.sum_lt_sum (fun other _ => service_le positive other t)
    ⟨job, listed, (service_lt_iff positive job t).mpr pending⟩

section EarliestDeadline

variable (release deadline : Job I → Int)

def Ready (cost : I → Nat) (pick : Nat → Option I) (t : Nat) (i : I) : Prop :=
  release (i, (progressAt cost pick t).completed i) ≤ t

/-- Every slot goes to a ready task whose current job has the earliest deadline, if one is ready. -/
structure EarliestDeadlineFirst (cost : I → Nat) (pick : Nat → Option I) : Prop where
  busy : ∀ t i, Ready release cost pick t i → (pick t).isSome
  ready : ∀ t i, pick t = some i → Ready release cost pick t i
  earliest : ∀ t i, pick t = some i → ∀ j, Ready release cost pick t j →
    deadline (i, (progressAt cost pick t).completed i) ≤
      deadline (j, (progressAt cost pick t).completed j)

/-- The jobs released from `start` on and due by `stop` fit into the slots between the two. -/
def DemandFits (cost : I → Nat) (start stop : Nat) : Prop :=
  ∀ jobs : Finset (Job I), (∀ job ∈ jobs, (start : Int) ≤ release job ∧ deadline job ≤ stop) →
    ∑ job ∈ jobs, cost job.1 ≤ stop - start

variable {release deadline : Job I → Int}

def Lost (deadline : Job I → Int) (cost : I → Nat) (pick : Nat → Option I) (stop u : Nat) : Prop :=
  ∀ job, jobAt cost pick u = some job → (stop : Int) < deadline job

omit [DecidableEq I] in
theorem exists_interval_start (lost : Nat → Prop) (stop : Nat) :
    ∃ start ≤ stop, (∀ u, start ≤ u → u < stop → ¬ lost u) ∧ ∀ v, start = v + 1 → lost v := by
  classical
  induction stop with
  | zero => exact ⟨0, le_refl _, fun u _ bound => absurd bound (Nat.not_lt_zero u), by simp⟩
  | succ stop ih =>
    by_cases last : lost stop
    · refine ⟨stop + 1, le_refl _, fun u low high => absurd high (by omega), ?_⟩
      intro v same
      rwa [← Nat.succ.inj same]
    · obtain ⟨start, bound, used, edge⟩ := ih
      refine ⟨start, by omega, fun u low high => ?_, edge⟩
      by_cases end_ : u = stop
      · exact end_ ▸ last
      · exact used u low (by omega)

theorem release_after_lost (releaseMono : ∀ i, Monotone fun k => release (i, k))
    (deadlineMono : ∀ i, Monotone fun k => deadline (i, k)) {stop v : Nat}
    (edf : EarliestDeadlineFirst release deadline cost pick) (lost : Lost deadline cost pick stop v) (job : Job I)
    (due : deadline job ≤ stop) (pending : (progressAt cost pick v).completed job.1 ≤ job.2) :
    (v : Int) < release job := by
  by_contra early
  have ready : Ready release cost pick v job.1 := le_trans (releaseMono job.1 pending) (not_lt.mp early)
  obtain ⟨i, chosen⟩ := Option.isSome_iff_exists.mp (edf.busy v job.1 ready)
  have first := edf.earliest v i chosen job.1 ready
  have later := lost (i, (progressAt cost pick v).completed i) (by simp [jobAt, chosen])
  have current : deadline (job.1, (progressAt cost pick v).completed job.1) ≤ deadline job :=
    deadlineMono job.1 pending
  omega

theorem completes_of_demandFits (positive : ∀ i, 0 < cost i) (releaseMono : ∀ i, Monotone fun k => release (i, k))
    (deadlineMono : ∀ i, Monotone fun k => deadline (i, k)) (nonneg : ∀ job : Job I, 0 ≤ release job) {stop : Nat}
    (edf : EarliestDeadlineFirst release deadline cost pick)
    (fits : ∀ start ≤ stop, DemandFits release deadline cost start stop) (job : Job I) (due : deadline job ≤ stop) :
    job.2 < (progressAt cost pick stop).completed job.1 := by
  by_contra late
  obtain ⟨start, bound, used, edge⟩ := exists_interval_start (Lost deadline cost pick stop) stop
  -- Every job due by `stop` and pending somewhere in the interval is released inside it.
  have released (u : Nat) (low : start ≤ u) (other : Job I) (otherDue : deadline other ≤ stop)
      (pending : (progressAt cost pick u).completed other.1 ≤ other.2) :
      (start : Int) ≤ release other := by
    cases start with
    | zero => exact nonneg other
    | succ v =>
      have := release_after_lost releaseMono deadlineMono edf (edge v rfl) other otherDue
        (le_trans (completed_mono cost pick other.1 (by omega)) pending)
      push_cast
      omega
  have running (u : Nat) (low : start ≤ u) (high : u < stop) :
      ∃ other, jobAt cost pick u = some other ∧ (start : Int) ≤ release other ∧ deadline other ≤ stop := by
    have notLost := used u low high
    simp only [Lost, not_forall, not_lt] at notLost
    obtain ⟨other, runs, otherDue⟩ := notLost
    obtain ⟨i, chosen, rfl⟩ := Option.map_eq_some_iff.mp runs
    exact ⟨_, runs, released u low _ otherDue (le_refl _), otherDue⟩
  let runner := fun u => (jobAt cost pick u).getD job
  let jobs := insert job ((Finset.Ico start stop).image runner)
  have demand := fits start bound jobs (by
    intro other present
    rcases Finset.mem_insert.mp present with rfl | present
    · exact ⟨released stop bound _ due (not_lt.mp late), due⟩
    · obtain ⟨u, interval, rfl⟩ := Finset.mem_image.mp present
      obtain ⟨low, high⟩ := Finset.mem_Ico.mp interval
      obtain ⟨other, runs, facts⟩ := running u low high
      simpa [runner, runs] using facts)
  have served := interval_le_service jobs fun u low high => by
    obtain ⟨other, runs, _⟩ := running u low high
    refine ⟨other, Finset.mem_insert_of_mem (Finset.mem_image.mpr ⟨u, ?_, ?_⟩), runs⟩
    · exact Finset.mem_Ico.mpr ⟨low, high⟩
    · simp [runner, runs]
  have unfinished := service_sum_lt positive jobs (Finset.mem_insert_self _ _) (not_lt.mp late)
  omega

/-- Some assignment of the slots below `horizon` serves every job due by then in its window. -/
def Feasible (release deadline : Job I → Int) (cost : I → Nat) (horizon : Nat) : Prop :=
  ∃ assigned : Nat → Option (Job I), ∀ job, deadline job ≤ horizon →
    cost job.1 ≤ ((Finset.range horizon).filter fun u =>
      assigned u = some job ∧ release job ≤ u ∧ (u : Int) < deadline job).card

theorem demandFits_of_feasible {horizon : Nat} (feasible : Feasible release deadline cost horizon)
    {start stop : Nat} (bound : stop ≤ horizon) : DemandFits release deadline cost start stop := by
  obtain ⟨assigned, serves⟩ := feasible
  intro jobs inside
  let slots := fun job => (Finset.Ico start stop).filter fun u => assigned u = some job
  have enough (job : Job I) (member : job ∈ jobs) : cost job.1 ≤ (slots job).card := by
    obtain ⟨released, due⟩ := inside job member
    refine le_trans (serves job (by omega)) (Finset.card_le_card ?_)
    intro u present
    simp only [Finset.mem_filter, Finset.mem_range] at present
    simp only [slots, Finset.mem_filter, Finset.mem_Ico]
    exact ⟨by omega, present.2.1⟩
  have disjoint : (jobs : Set (Job I)).PairwiseDisjoint slots := by
    intro a _ b _ different
    simp only [Function.onFun, Finset.disjoint_left, slots, Finset.mem_filter, not_and]
    intro u ⟨_, forA⟩ _ forB
    exact different (Option.some.inj (forA.symm.trans forB))
  calc ∑ job ∈ jobs, cost job.1
      ≤ ∑ job ∈ jobs, (slots job).card := Finset.sum_le_sum enough
    _ = (jobs.biUnion slots).card := (Finset.card_biUnion disjoint).symm
    _ ≤ (Finset.Ico start stop).card :=
        Finset.card_le_card (Finset.biUnion_subset.mpr fun _ _ => Finset.filter_subset _ _)
    _ = stop - start := Nat.card_Ico start stop

structure Implicit (release deadline : Job I → Int) (offset period : I → Nat) : Prop where
  release_eq : ∀ i k, release (i, k) = offset i + k * period i
  deadline_eq : ∀ i k, deadline (i, k) = offset i + (k + 1) * period i

omit [DecidableEq I] in
theorem jobs_in_interval {offset period : I → Nat} (periodic : Implicit release deadline offset period)
    (i : I) {start stop : Nat} (indices : Finset Nat)
    (inside : ∀ k ∈ indices, (start : Int) ≤ release (i, k) ∧ deadline (i, k) ≤ stop)
    (order : start ≤ stop) : indices.card * period i ≤ stop - start := by
  rcases indices.eq_empty_or_nonempty with rfl | nonempty
  · simp
  · have first := inside _ (indices.min'_mem nonempty)
    have last := inside _ (indices.max'_mem nonempty)
    set low := indices.min' nonempty
    set high := indices.max' nonempty
    have within : indices ⊆ Finset.Icc low high := fun k member =>
      Finset.mem_Icc.mpr ⟨indices.min'_le k member, indices.le_max' k member⟩
    have count : indices.card ≤ high + 1 - low := by
      simpa using Finset.card_le_card within
    have ordered : low ≤ high := indices.min'_le_max' nonempty
    rw [periodic.release_eq] at first
    rw [periodic.deadline_eq] at last
    have span : (high + 1 - low) * period i ≤ stop - start := by
      zify [show low ≤ high + 1 by omega, order]
      nlinarith [first.1, last.2]
    exact le_trans (Nat.mul_le_mul_right _ count) span

theorem demandFits_of_utilisation [Fintype I] {offset period : I → Nat}
    (periodic : Implicit release deadline offset period) (positive : ∀ i, 0 < period i)
    (utilisation : ∑ i, (cost i : ℚ) / period i ≤ 1) {start stop : Nat} (order : start ≤ stop) :
    DemandFits release deadline cost start stop := by
  intro jobs inside
  let indices := fun i => (jobs.filter fun job => job.1 = i).image Prod.snd
  have count (i : I) : ((jobs.filter fun job => job.1 = i).card : ℚ) * cost i ≤
      (stop - start : ℕ) * ((cost i : ℚ) / period i) := by
    have injective : Set.InjOn Prod.snd (jobs.filter fun job => job.1 = i : Set (Job I)) := by
      intro a memberA b memberB same
      simp only [Finset.coe_filter, Set.mem_ofPred_eq] at memberA memberB
      exact Prod.ext (memberA.2.trans memberB.2.symm) same
    have fits := jobs_in_interval periodic i (indices i) (by
      intro k member
      obtain ⟨job, present, rfl⟩ := Finset.mem_image.mp member
      obtain ⟨listed, rfl⟩ := Finset.mem_filter.mp present
      exact inside job listed) order
    rw [Finset.card_image_of_injOn injective] at fits
    have periodPos : (0 : ℚ) < period i := by exact_mod_cast positive i
    have scaled : ((jobs.filter fun job => job.1 = i).card : ℚ) * period i ≤ (stop - start : ℕ) := by
      exact_mod_cast fits
    rw [← mul_div_assoc, le_div_iff₀ periodPos]
    nlinarith [(Nat.cast_nonneg (cost i) : (0 : ℚ) ≤ cost i)]
  have grouped : ((∑ job ∈ jobs, cost job.1 : ℕ) : ℚ) =
      ∑ i, ((jobs.filter fun job => job.1 = i).card : ℚ) * cost i := by
    rw [← Finset.sum_fiberwise jobs Prod.fst]
    push_cast
    apply Finset.sum_congr rfl
    intro i _
    have constant : ∀ job ∈ jobs.filter fun job => job.1 = i, (cost job.1 : ℚ) = cost i :=
      fun job member => by rw [(Finset.mem_filter.mp member).2]
    rw [Finset.sum_congr rfl constant]
    simp
  have total : ((∑ job ∈ jobs, cost job.1 : ℕ) : ℚ) ≤ (stop - start : ℕ) := by
    calc ((∑ job ∈ jobs, cost job.1 : ℕ) : ℚ)
        ≤ ∑ i, ((stop - start : ℕ) : ℚ) * ((cost i : ℚ) / period i) := by
          rw [grouped]
          exact Finset.sum_le_sum fun i _ => count i
      _ = (stop - start : ℕ) * ∑ i, (cost i : ℚ) / period i := by rw [Finset.mul_sum]
      _ ≤ (stop - start : ℕ) * 1 := by gcongr
      _ = (stop - start : ℕ) := mul_one _
  exact_mod_cast total

end EarliestDeadline

section Accounting

-- The slots that a task gets before a time.
def given (pick : Nat → Option I) (i : I) : Nat → Nat
  | 0 => 0
  | t + 1 => given pick i t + if pick t = some i then 1 else 0

theorem given_eq (positive : ∀ i, 0 < cost i) (i : I) (t : Nat) :
    given pick i t = (progressAt cost pick t).completed i * cost i +
      (cost i - (progressAt cost pick t).remaining i) := by
  induction t with
  | zero => simp [given, progressAt]
  | succ t ih =>
    have bounds := remaining_bounds pick positive t i
    rw [given, ih, completed_succ, remaining_succ]
    by_cases chosen : pick t = some i
    · by_cases last : (progressAt cost pick t).remaining i = 1
      · simp only [chosen, last, and_self, if_true, Nat.add_mul]
        omega
      · simp only [chosen, last, and_false, if_true, if_false, Nat.add_zero]
        omega
    · simp [chosen]

structure Totals where
  busy : Int
  waiting : Int
  turnaround : Int

-- A completed job stays from its release to the end of its last slot.
def totalsAt (release : Job I → Int) (cost : I → Nat) (pick : Nat → Option I) : Nat → Totals
  | 0 => ⟨0, 0, 0⟩
  | t + 1 =>
    let before := totalsAt release cost pick t
    match pick t with
    | none => before
    | some i =>
      let stay := (t : Int) + 1 - release (i, (progressAt cost pick t).completed i)
      if (progressAt cost pick t).remaining i = 1 then
        ⟨before.busy + 1, before.waiting + (stay - cost i), before.turnaround + stay⟩
      else { before with busy := before.busy + 1 }

variable {release : Job I → Int}

theorem busy_eq [Fintype I] (t : Nat) : (totalsAt release cost pick t).busy = ∑ i, (given pick i t : Int) := by
  induction t with
  | zero => simp [totalsAt, given]
  | succ t ih =>
    cases chosen : pick t with
    | none => simp [totalsAt, given, chosen, ih]
    | some j =>
      have counted : (totalsAt release cost pick (t + 1)).busy = (totalsAt release cost pick t).busy + 1 := by
        simp only [totalsAt, chosen]
        split <;> rfl
      simp [counted, given, chosen, ih, Finset.sum_add_distrib]

theorem waiting_eq [Fintype I] (t : Nat) :
    (totalsAt release cost pick t).waiting = (totalsAt release cost pick t).turnaround -
      ∑ i, ((progressAt cost pick t).completed i * cost i : Int) := by
  induction t with
  | zero => simp [totalsAt, progressAt]
  | succ t ih =>
    simp only [completed_succ, Nat.cast_add, add_mul, Finset.sum_add_distrib]
    cases chosen : pick t with
    | none => simp [totalsAt, chosen, ih]
    | some j =>
      by_cases last : (progressAt cost pick t).remaining j = 1
      · have one : ∑ i, ((if some j = some i ∧ (progressAt cost pick t).remaining i = 1 then 1 else 0 : ℕ) : Int) *
            cost i = cost j := by
          rw [Finset.sum_eq_single j]
          · simp [last]
          · intro i _ other
            simp [other.symm]
          · simp
        simp only [totalsAt, chosen, last, if_true, ih, one]
        omega
      · have zero : ∑ i, ((if some j = some i ∧ (progressAt cost pick t).remaining i = 1 then 1 else 0 : ℕ) : Int) *
            cost i = 0 := by
          refine Finset.sum_eq_zero fun i _ => ?_
          by_cases same : j = i <;> simp_all
        simp only [totalsAt, chosen, last, if_false, ih, zero]
        omega

-- A job that is under way has got all its slots since its release.
theorem started (positive : ∀ i, 0 < cost i)
    (ready : ∀ t i, pick t = some i → release (i, (progressAt cost pick t).completed i) ≤ t) (i : I) (t : Nat)
    (under : (progressAt cost pick t).remaining i < cost i) :
    release (i, (progressAt cost pick t).completed i) + (cost i - (progressAt cost pick t).remaining i) ≤ t := by
  induction t with
  | zero => exact absurd under (lt_irrefl _)
  | succ t ih =>
    have bounds := remaining_bounds pick positive t i
    rw [completed_succ, remaining_succ] at *
    by_cases chosen : pick t = some i
    · have arrived := ready t i chosen
      by_cases last : (progressAt cost pick t).remaining i = 1
      · simp [chosen, last] at under
      · simp only [chosen, last, and_false, if_true, if_false, Nat.add_zero]
        push_cast
        by_cases fresh : (progressAt cost pick t).remaining i < cost i
        · have := ih fresh
          omega
        · omega
    · simp only [chosen, false_and, if_false, Nat.add_zero] at under ⊢
      have := ih under
      push_cast
      omega

theorem waits_nonneg (positive : ∀ i, 0 < cost i)
    (ready : ∀ t i, pick t = some i → release (i, (progressAt cost pick t).completed i) ≤ t) {i : I} {t : Nat}
    (chosen : pick t = some i) (last : (progressAt cost pick t).remaining i = 1) :
    0 ≤ (t : Int) + 1 - release (i, (progressAt cost pick t).completed i) - cost i := by
  have arrived := ready t i chosen
  have enough := positive i
  by_cases single : cost i = 1
  · omega
  · have := started positive ready i t (by omega)
    omega

theorem waiting_mono (positive : ∀ i, 0 < cost i)
    (ready : ∀ t i, pick t = some i → release (i, (progressAt cost pick t).completed i) ≤ t) (t : Nat) :
    (totalsAt release cost pick t).waiting ≤ (totalsAt release cost pick (t + 1)).waiting := by
  rw [totalsAt]
  cases chosen : pick t with
  | none => exact le_rfl
  | some i =>
    by_cases last : (progressAt cost pick t).remaining i = 1
    · have waits := waits_nonneg positive ready chosen last
      simp only [last, if_true]
      omega
    · simp [last]

end Accounting

end Uniprocessor
