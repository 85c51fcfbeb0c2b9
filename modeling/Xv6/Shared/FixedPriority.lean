import Xv6.Shared.Uniprocessor

set_option autoImplicit false

namespace Uniprocessor

/-- Every slot goes to the ready task of the least rank, if one is ready. -/
structure FixedPriority {I : Type} [DecidableEq I] (release : Job I → Int) (rank : I → Nat) (cost : I → Nat)
    (pick : Nat → Option I) : Prop where
  busy : ∀ t i, Ready release cost pick t i → (pick t).isSome
  ready : ∀ t i, pick t = some i → Ready release cost pick t i
  highest : ∀ t i, pick t = some i → ∀ j, Ready release cost pick t j → rank i ≤ rank j

section TimeDemand

variable {I : Type} [DecidableEq I] {release deadline : Job I → Int} {rank cost : I → Nat} {pick : Nat → Option I}

/-- A job of a task ranked before `i`, released before `u`, is unfinished at `u`. -/
def Backlog (release : Job I → Int) (rank cost : I → Nat) (pick : Nat → Option I) (i : I) (u : Nat) : Prop :=
  ∃ j, rank j < rank i ∧ release (j, (progressAt cost pick u).completed j) < u

theorem FixedPriority.picks_ranked (policy : FixedPriority release rank cost pick) {t : Nat} {i : I}
    (ready : Ready release cost pick t i) : ∃ j, pick t = some j ∧ rank j ≤ rank i ∧ Ready release cost pick t j := by
  obtain ⟨j, picked⟩ := Option.isSome_iff_exists.mp (policy.busy t i ready)
  exact ⟨j, picked, policy.highest t j picked i ready, policy.ready t j picked⟩

theorem exists_backlog_start (policy : FixedPriority release rank cost pick)
    (releaseMono : ∀ i, Monotone fun k => release (i, k)) (nonneg : ∀ job : Job I, 0 ≤ release job)
    (i : I) (stop : Nat) : ∃ start ≤ stop, ¬ Backlog release rank cost pick i start ∧
      ∀ u, start ≤ u → u < stop → ∃ j, pick u = some j ∧ rank j < rank i := by
  obtain ⟨start, bound, used, edge⟩ :=
    exists_interval_start (fun u => ¬ Backlog release rank cost pick i (u + 1)) stop
  refine ⟨start, bound, ?_, fun u low high => ?_⟩
  · cases start with
    | zero =>
      rintro ⟨j, _, early⟩
      have := nonneg (j, (progressAt cost pick 0).completed j)
      push_cast at early
      omega
    | succ v => exact edge v rfl
  · obtain ⟨j, before, early⟩ := not_not.mp (used u low high)
    have earlier : release (j, (progressAt cost pick u).completed j) ≤
        release (j, (progressAt cost pick (u + 1)).completed j) :=
      releaseMono j (completed_mono cost pick j (Nat.le_succ u))
    have ready : Ready release cost pick u j := by
      unfold Ready
      push_cast at early
      omega
    obtain ⟨first, picked, ranked, _⟩ := policy.picks_ranked ready
    exact ⟨first, picked, lt_of_le_of_lt ranked before⟩

/-- The jobs whose work can fill the window of length `s` from `start` while job `k` of `i` is pending. -/
def Charged (release : Job I → Int) (rank : I → Nat) (i : I) (k start s : Nat) (job : Job I) : Prop :=
  job = (i, k) ∨ rank job.1 < rank i ∧ (start : Int) ≤ release job ∧ release job < start + s

theorem picked_charged (policy : FixedPriority release rank cost pick)
    (releaseMono : ∀ i, Monotone fun k => release (i, k)) {i j : I} {start s u : Nat} (k : Nat)
    (fresh : ¬ Backlog release rank cost pick i start) (low : start ≤ u) (high : u < start + s)
    (picked : pick u = some j) (ranked : rank j < rank i) :
    ∃ job, jobAt cost pick u = some job ∧ Charged release rank i k start s job := by
  refine ⟨(j, (progressAt cost pick u).completed j), by simp [jobAt, picked], .inr ⟨ranked, ?_, ?_⟩⟩
  · have afresh : (start : Int) ≤ release (j, (progressAt cost pick start).completed j) := by
      by_contra early
      exact fresh ⟨j, ranked, not_le.mp early⟩
    exact le_trans afresh (releaseMono j (completed_mono cost pick j low))
  · have ready : release (j, (progressAt cost pick u).completed j) ≤ u := policy.ready u j picked
    omega

omit [DecidableEq I] in
theorem jobs_released_in {offset period : I → Nat} (periodic : Implicit release deadline offset period)
    (positive : ∀ i, 0 < period i) (j : I) {start s : Nat} (jobs : Finset (Job I))
    (own : ∀ job ∈ jobs, job.1 = j ∧ (start : Int) ≤ release job ∧ release job < start + s) :
    jobs.card ≤ (s + period j - 1) / period j := by
  have injective : Set.InjOn Prod.snd (jobs : Set (Job I)) := fun a memberA b memberB same =>
    Prod.ext ((own a memberA).1.trans (own b memberB).1.symm) same
  have period_pos := positive j
  have order : start ≤ start + s + period j - 1 := by omega
  have count := jobs_in_interval periodic j (jobs.image Prod.snd) (by
    intro index member
    obtain ⟨⟨task, index⟩, present, rfl⟩ := Finset.mem_image.mp member
    obtain ⟨rfl, low, high⟩ := own _ present
    have due : deadline (task, index) = release (task, index) + period task := by
      rw [periodic.release_eq, periodic.deadline_eq]
      ring
    refine ⟨low, ?_⟩
    dsimp only at *
    omega) order
  rw [Finset.card_image_of_injOn injective] at count
  rw [Nat.le_div_iff_mul_le period_pos]
  omega

variable [Fintype I]

/-- The work that task `i` and the tasks ranked before it can ask for in a window of length `s`, once. -/
def timeDemand (rank cost period : I → Nat) (i : I) (s : Nat) : Nat :=
  cost i + ∑ j with rank j < rank i, cost j * ((s + period j - 1) / period j)

variable {offset period : I → Nat}

theorem jobs_cost_le (periodic : Implicit release deadline offset period) (positive : ∀ i, 0 < period i)
    {i : I} {k start s : Nat} (jobs : Finset (Job I)) (inside : ∀ job ∈ jobs, Charged release rank i k start s job) :
    ∑ job ∈ jobs, cost job.1 ≤ timeDemand rank cost period i s := by
  let before := Finset.univ.filter fun j => rank j < rank i
  let released := fun j => jobs.filter fun job =>
    job.1 = j ∧ (start : Int) ≤ release job ∧ release job < start + s
  have covered : jobs ⊆ insert (i, k) (before.biUnion released) := by
    intro job listed
    rcases inside job listed with rfl | ⟨ranked, window⟩
    · exact Finset.mem_insert_self _ _
    · refine Finset.mem_insert_of_mem (Finset.mem_biUnion.mpr ⟨job.1, ?_, ?_⟩)
      · simpa [before] using ranked
      · simpa [released, listed] using window
  have ofTask (j : I) : ∑ job ∈ released j, cost job.1 ≤ cost j * ((s + period j - 1) / period j) := by
    have few := jobs_released_in periodic positive j (released j) fun job member =>
      (Finset.mem_filter.mp member).2
    calc ∑ job ∈ released j, cost job.1 = ∑ _job ∈ released j, cost j :=
          Finset.sum_congr rfl fun job member => by rw [(Finset.mem_filter.mp member).2.1]
      _ = cost j * (released j).card := by rw [Finset.sum_const, smul_eq_mul, mul_comm]
      _ ≤ cost j * ((s + period j - 1) / period j) := Nat.mul_le_mul_left _ few
  have absent : (i, k) ∉ before.biUnion released := by
    intro present
    obtain ⟨j, ranked, member⟩ := Finset.mem_biUnion.mp present
    obtain rfl : i = j := (Finset.mem_filter.mp member).2.1
    exact absurd (Finset.mem_filter.mp ranked).2 (lt_irrefl _)
  have disjoint : (before : Set I).PairwiseDisjoint released := by
    intro a _ b _ different
    refine Finset.disjoint_left.mpr fun job forA forB => different ?_
    exact (Finset.mem_filter.mp forA).2.1.symm.trans (Finset.mem_filter.mp forB).2.1
  calc ∑ job ∈ jobs, cost job.1
      ≤ ∑ job ∈ insert (i, k) (before.biUnion released), cost job.1 := Finset.sum_le_sum_of_subset covered
    _ = cost i + ∑ j ∈ before, ∑ job ∈ released j, cost job.1 := by
        rw [Finset.sum_insert absent, Finset.sum_biUnion disjoint]
    _ ≤ timeDemand rank cost period i s := by
        unfold timeDemand
        gcongr with j _
        exact ofTask j

theorem job_completes (positive : ∀ i, 0 < cost i) (periodPos : ∀ i, 0 < period i)
    (injective : Function.Injective rank) (periodic : Implicit release deadline offset period)
    (policy : FixedPriority release rank cost pick) {i : I} {s : Nat} (nonempty : 0 < s)
    (short : s ≤ period i) (fits : timeDemand rank cost period i s ≤ s) {k : Nat}
    (earlier : k ≤ (progressAt cost pick (offset i + k * period i)).completed i) :
    k < (progressAt cost pick (offset i + (k + 1) * period i)).completed i := by
  have releaseMono (j : I) : Monotone fun k => release (j, k) := by
    intro a b order
    simp only [periodic.release_eq]
    gcongr
  have nonneg (job : Job I) : 0 ≤ release job := by
    obtain ⟨j, index⟩ := job
    rw [periodic.release_eq]
    positivity
  by_contra late
  have next : offset i + (k + 1) * period i = offset i + k * period i + period i := by ring
  have atRelease : release (i, k) = (offset i + k * period i : ℕ) := by
    rw [periodic.release_eq]
    push_cast
    rfl
  rw [next] at late
  generalize offset i + k * period i = arrival at *
  have current (u : Nat) (low : arrival ≤ u) (high : u ≤ arrival + period i) :
      (progressAt cost pick u).completed i = k :=
    le_antisymm (le_trans (completed_mono cost pick i high) (not_lt.mp late))
      (le_trans earlier (completed_mono cost pick i low))
  obtain ⟨start, bound, fresh, used⟩ := exists_backlog_start policy releaseMono nonneg i arrival
  have runs (u : Nat) (low : start ≤ u) (high : u < start + s) :
      ∃ job, jobAt cost pick u = some job ∧ Charged release rank i k start s job := by
    by_cases first : u < arrival
    · obtain ⟨j, picked, ranked⟩ := used u low first
      exact picked_charged policy releaseMono k fresh low high picked ranked
    · have unfinished := current u (by omega) (by omega)
      have ready : Ready release cost pick u i := by
        unfold Ready
        rw [unfinished]
        omega
      obtain ⟨j, picked, ranked, _⟩ := policy.picks_ranked ready
      rcases Nat.lt_or_eq_of_le ranked with before | same
      · exact picked_charged policy releaseMono k fresh low high picked before
      · obtain rfl := injective same
        exact ⟨(j, k), by simp [jobAt, picked, unfinished], .inl rfl⟩
  let runner := fun u => (jobAt cost pick u).getD (i, k)
  let jobs := insert (i, k) ((Finset.Ico start (start + s)).image runner)
  have served := interval_le_service jobs fun u low high => by
    obtain ⟨job, running, _⟩ := runs u low high
    refine ⟨job, Finset.mem_insert_of_mem (Finset.mem_image.mpr ⟨u, ?_, ?_⟩), running⟩
    · exact Finset.mem_Ico.mpr ⟨low, high⟩
    · simp [runner, running]
  have pending : (progressAt cost pick (start + s)).completed i ≤ k :=
    le_trans (completed_mono cost pick i (by omega)) (not_lt.mp late)
  have unfinished := service_sum_lt positive jobs (Finset.mem_insert_self (i, k) _) pending
  have charged (job : Job I) (listed : job ∈ jobs) : Charged release rank i k start s job := by
    rcases Finset.mem_insert.mp listed with rfl | present
    · exact .inl rfl
    · obtain ⟨u, interval, rfl⟩ := Finset.mem_image.mp present
      obtain ⟨low, high⟩ := Finset.mem_Ico.mp interval
      obtain ⟨job, running, facts⟩ := runs u low high
      simpa [runner, running] using facts
  have demand : ∑ job ∈ jobs, cost job.1 ≤ timeDemand rank cost period i s :=
    jobs_cost_le periodic periodPos jobs charged
  omega

theorem completes_of_timeDemand (positive : ∀ i, 0 < cost i) (periodPos : ∀ i, 0 < period i)
    (injective : Function.Injective rank) (periodic : Implicit release deadline offset period)
    (policy : FixedPriority release rank cost pick) {i : I} {s : Nat} (nonempty : 0 < s)
    (short : s ≤ period i) (fits : timeDemand rank cost period i s ≤ s) (k : Nat) :
    k < (progressAt cost pick (offset i + (k + 1) * period i)).completed i := by
  induction k with
  | zero => exact job_completes positive periodPos injective periodic policy nonempty short fits (Nat.zero_le _)
  | succ k ih => exact job_completes positive periodPos injective periodic policy nonempty short fits ih

end TimeDemand

section UtilisationBound

variable {I : Type} [DecidableEq I]

theorem sum_lt_prod {base : ℝ} {weight t : I → ℝ} (items : Finset I) (nonempty : items.Nonempty)
    (weightPos : ∀ j ∈ items, 0 < weight j) (pointNonneg : ∀ j ∈ items, 0 ≤ t j)
    (below : ∀ j ∈ items, t j < base + ∑ l ∈ items with t l < t j, weight l * t l) :
    base + ∑ j ∈ items, weight j * t j < base * ∏ j ∈ items, (1 + weight j) := by
  -- The points are added in increasing order, so the points before each one are already there.
  induction items using Finset.induction_on_max_value t with
  | empty => exact absurd nonempty Finset.not_nonempty_empty
  | insert last items fresh greatest ih =>
    have lastPos := weightPos last (Finset.mem_insert_self _ _)
    have earlier : base + ∑ j ∈ items, weight j * t j ≤ base * ∏ j ∈ items, (1 + weight j) := by
      rcases items.eq_empty_or_nonempty with rfl | some
      · simp
      · refine (ih some (fun j member => weightPos j (Finset.mem_insert_of_mem member))
          (fun j member => pointNonneg j (Finset.mem_insert_of_mem member)) fun j member => ?_).le
        have point := below j (Finset.mem_insert_of_mem member)
        rwa [Finset.filter_insert, if_neg (not_lt.mpr (greatest j member))] at point
    have lastBelow : t last < base + ∑ j ∈ items, weight j * t j := by
      refine lt_of_lt_of_le (below last (Finset.mem_insert_self _ _)) ?_
      rw [Finset.filter_insert, if_neg (lt_irrefl _)]
      refine add_le_add le_rfl (Finset.sum_le_sum_of_subset_of_nonneg (Finset.filter_subset _ _) ?_)
      intro j member _
      exact mul_nonneg (weightPos j (Finset.mem_insert_of_mem member)).le
        (pointNonneg j (Finset.mem_insert_of_mem member))
    rw [Finset.sum_insert fresh, Finset.prod_insert fresh]
    calc base + (weight last * t last + ∑ j ∈ items, weight j * t j)
        < (base + ∑ j ∈ items, weight j * t j) * (1 + weight last) := by nlinarith
      _ ≤ base * (∏ j ∈ items, (1 + weight j)) * (1 + weight last) := by gcongr
      _ = base * ((1 + weight last) * ∏ j ∈ items, (1 + weight j)) := by ring

omit [DecidableEq I] in
theorem prod_le_two [Fintype I] [Nonempty I] {weight : I → ℝ} (nonneg : ∀ i, 0 ≤ weight i)
    (bound : ∑ i, weight i ≤ Fintype.card I * ((2 : ℝ) ^ (1 / (Fintype.card I : ℝ)) - 1)) :
    ∏ i, (1 + weight i) ≤ 2 := by
  have some : (0 : ℝ) < Fintype.card I := by exact_mod_cast Fintype.card_pos
  have mean := Real.geom_mean_le_arith_mean_weighted Finset.univ (fun _ : I => 1 / (Fintype.card I : ℝ))
    (fun i => 1 + weight i) (fun _ _ => by positivity) (by simp [Finset.sum_const, some.ne'])
    (fun i _ => by have := nonneg i; positivity)
  have average : ∑ i, 1 / (Fintype.card I : ℝ) * (1 + weight i) ≤ 2 ^ (1 / (Fintype.card I : ℝ)) := by
    rw [← Finset.mul_sum, Finset.sum_add_distrib]
    simp only [Finset.sum_const, Finset.card_univ, nsmul_eq_mul, mul_one]
    rw [div_mul_eq_mul_div, one_mul, div_le_iff₀ some]
    linarith
  rw [Real.finsetProd_rpow _ _ (fun i _ => by have := nonneg i; positivity)] at mean
  have prodNonneg : 0 ≤ ∏ i, (1 + weight i) := Finset.prod_nonneg fun i _ => by have := nonneg i; positivity
  exact (Real.rpow_le_rpow_iff prodNonneg (by norm_num) (by positivity)).mp (le_trans mean average)

variable [Fintype I] {rank cost period : I → Nat}

def lastRelease (period : I → Nat) (i j : I) : Nat :=
  period i / period j * period j

theorem ceil_le_of_le {period multiple t : Nat} (positive : 0 < period) (bound : t ≤ multiple * period) :
    (t + period - 1) / period ≤ multiple := by
  rw [Nat.div_le_iff_le_mul_add_pred positive]
  rw [Nat.mul_comm] at bound
  omega

theorem timeDemand_le (injective : Function.Injective rank) (periodPos : ∀ i, 0 < period i) {i : I}
    (monotonic : ∀ j, rank j < rank i → period j ≤ period i) {point : Nat} (short : point ≤ period i) :
    timeDemand rank cost period i point ≤ ∑ j with rank j ≤ rank i, cost j * (period i / period j) +
        ∑ j ∈ Finset.univ.filter (fun j => rank j ≤ rank i) with lastRelease period i j < point,
          cost j * (period i / period j) := by
  have each (j : I) (ranked : rank j < rank i) : cost j * ((point + period j - 1) / period j) ≤
      cost j * (period i / period j) +
        if lastRelease period i j < point then cost j * (period i / period j) else 0 := by
    have positive := periodPos j
    have atLeast : 1 ≤ period i / period j := (Nat.one_le_div_iff positive).mpr (monotonic j ranked)
    split
    · have within : point ≤ (period i / period j + period i / period j) * period j := by
        have whole := Nat.div_add_mod (period i) (period j)
        have small := Nat.mod_lt (period i) positive
        nlinarith
      rw [← Nat.mul_add]
      exact Nat.mul_le_mul_left _ (ceil_le_of_le positive within)
    next before => exact Nat.mul_le_mul_left _ (ceil_le_of_le positive (not_lt.mp before))
  have items : Finset.univ.filter (fun j => rank j ≤ rank i) =
      insert i (Finset.univ.filter fun j => rank j < rank i) := by
    ext j
    simp only [Finset.mem_filter, Finset.mem_univ, true_and, Finset.mem_insert, le_iff_lt_or_eq, injective.eq_iff]
    tauto
  rw [items, Finset.sum_filter (fun j => lastRelease period i j < point), Finset.sum_insert (by simp),
    Finset.sum_insert (by simp), Nat.div_self (periodPos i), mul_one]
  have demand := Finset.sum_le_sum fun j (member : j ∈ Finset.univ.filter fun j => rank j < rank i) =>
    each j (Finset.mem_filter.mp member).2
  rw [Finset.sum_add_distrib] at demand
  unfold timeDemand
  omega

theorem exists_window (injective : Function.Injective rank) (costPos : ∀ i, 0 < cost i)
    (periodPos : ∀ i, 0 < period i) (monotonic : ∀ i j, rank j < rank i → period j ≤ period i)
    (utilised : ∑ i, (cost i : ℝ) / period i ≤ Fintype.card I * ((2 : ℝ) ^ (1 / (Fintype.card I : ℝ)) - 1)) (i : I) :
    ∃ s, 0 < s ∧ s ≤ period i ∧ timeDemand rank cost period i s ≤ s := by
  by_contra! overloaded
  let items := Finset.univ.filter fun j => rank j ≤ rank i
  let weight := fun j => (cost j : ℝ) / period j
  have periodReal (j : I) : (0 : ℝ) < period j := by exact_mod_cast periodPos j
  have weightPos (j : I) : 0 < weight j := div_pos (by exact_mod_cast costPos j) (periodReal j)
  have work (j : I) : weight j * lastRelease period i j = (cost j * (period i / period j) : ℕ) := by
    have := (periodReal j).ne'
    simp only [weight, lastRelease]
    push_cast
    field_simp
  have shorter (j : I) (member : j ∈ items) : period j ≤ period i := by
    rcases Nat.lt_or_eq_of_le (Finset.mem_filter.mp member).2 with before | same
    · exact monotonic i j before
    · rw [injective same]
  have below (j : I) (member : j ∈ items) : (lastRelease period i j : ℝ) <
      ∑ l ∈ items, weight l * lastRelease period i l +
        ∑ l ∈ items with (lastRelease period i l : ℝ) < lastRelease period i j,
          weight l * lastRelease period i l := by
    have atLeast := (Nat.one_le_div_iff (periodPos j)).mpr (shorter j member)
    have short : lastRelease period i j ≤ period i := Nat.div_mul_le_self _ _
    have exceeded := overloaded (lastRelease period i j) (Nat.mul_pos atLeast (periodPos j)) short
    have demand := lt_of_lt_of_le exceeded (timeDemand_le injective periodPos (monotonic i) short)
    simp only [work, Nat.cast_lt]
    exact_mod_cast demand
  have outgrown := sum_lt_prod items ⟨i, by simp [items]⟩ (fun j _ => weightPos j)
    (fun j _ => Nat.cast_nonneg (lastRelease period i j)) below
  have allTasks : ∏ j ∈ items, (1 + weight j) ≤ 2 := by
    have : Nonempty I := ⟨i⟩
    refine le_trans ?_ (prod_le_two (fun j => (weightPos j).le) utilised)
    apply Finset.prod_le_prod_of_subset_of_one_le (Finset.subset_univ items)
    · intro j _
      linarith [weightPos j]
    · intro j _ _
      linarith [weightPos j]
  have basePos : 0 ≤ ∑ j ∈ items, weight j * lastRelease period i j :=
    Finset.sum_nonneg fun j _ => mul_nonneg (weightPos j).le (Nat.cast_nonneg _)
  nlinarith

end UtilisationBound

end Uniprocessor
