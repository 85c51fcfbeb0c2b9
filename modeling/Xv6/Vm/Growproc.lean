import Xv6.Vm.User

set_option autoImplicit false

namespace Xv6.Vm

open Halting Bytes Ledger

variable {P : Type} {image : Image} {m m' : Memory} {owner owner' : Owner P} {p : P} {pgdir sz : Nat} {n : Int}

-- sz + n for an unsigned sz and an int n
def addInt (sz : Nat) (n : Int) : Nat := ((sz + n) % 2 ^ 32).toNat

-- growproc for a process of size `sz`, with the size that it has afterwards.
def growproc (image : Image) (pgdir sz : Nat) (n : Int) : Kernel (Int × Nat) :=
  if n > 0 then do
    let grown ← allocuvm image pgdir sz (addInt sz n)
    pure (if grown = 0 then (-1, sz) else (0, grown))
  else if n < 0 then do
    let shrunk ← deallocuvm image pgdir sz (addInt sz n)
    pure (if shrunk = 0 then (-1, sz) else (0, shrunk))
  else pure (0, sz)

-- Exactly the pages below PGROUNDUP(sz) are mapped.
def Exactly (m : Memory) (pgdir sz : Nat) : Prop := ∀ k, (mapped m pgdir k).isSome = true ↔ k < pagesOf sz

structure Process (image : Image) (m : Memory) (owner : Owner P) (p : P) (pgdir sz : Nat) : Prop where
  good : Good image m owner p pgdir
  clean : NoLoose owner p
  exactly : Exactly m pgdir sz

/-- The result `r` with the size after it is `sz + n` with the new bytes zero, or a failure that changed nothing. -/
def AllOrNothing (m : Memory) (pgdir sz : Nat) (n : Int) (r : Int × Nat) (m' : Memory) : Prop :=
  r.1 = 0 ∧ (r.2 : Int) = sz + n ∧ Exactly m' pgdir r.2 ∧ (∀ a < min sz r.2, byteOf m' pgdir a = byteOf m pgdir a) ∧
      (∀ a, sz ≤ a → a < r.2 → byteOf m' pgdir a = some 0) ∨
    r.1 = -1 ∧ r.2 = sz ∧ mapped m' pgdir = mapped m pgdir ∧ ∀ a, byteOf m' pgdir a = byteOf m pgdir a

section Sizes

theorem mapped_lt {k v : Nat} (used : mapped m pgdir k = some v) : k < userPages := (present_of_mapped used).1

theorem Exactly.le_kernBase (exactly : Exactly m pgdir sz) : sz ≤ kernBase := by
  by_contra beyond
  have inside : userPages < pagesOf sz := lt_pagesOf_iff.mpr (Nat.lt_of_not_le beyond)
  obtain ⟨v, used⟩ := Option.isSome_iff_exists.mp ((exactly userPages).mpr inside)
  exact absurd (mapped_lt used) (Nat.lt_irrefl _)

theorem Exactly.absent {k : Nat} (exactly : Exactly m pgdir sz) (low : k < userPages) (past : pagesOf sz ≤ k) :
    present (entry m pgdir k) = false := by
  by_contra valid
  have used := mapped_of_present low (by simpa using valid)
  have inside := (exactly k).mp (by rw [used]; rfl)
  omega

theorem exactly_congr (same : mapped m' pgdir = mapped m pgdir) (exactly : Exactly m pgdir sz) :
    Exactly m' pgdir sz := fun k => same ▸ exactly k

theorem div_pgSize_lt {a sz : Nat} (below : a < sz) : a / pgSize < pagesOf sz := by
  rw [lt_pagesOf_iff]
  simp only [pgSize]
  omega

end Sizes

section Grow

theorem Grown.kept_below {low hi k : Nat} (good : Good image m owner p pgdir)
    (grown : Grown image m owner p pgdir low hi m' owner') (below : k < low) :
    mapped m' pgdir k = mapped m pgdir k ∧ ∀ v, mapped m pgdir k = some v → m'.page v = m.page v :=
  good.space.kept grown.good.space grown.acts fun touched => Nat.not_le.mpr below touched.2

theorem Grown.mapped_beyond {low hi k : Nat} (grown : Grown image m owner p pgdir low hi m' owner') (beyond : hi ≤ k) :
    mapped m' pgdir k = mapped m pgdir k := by
  rw [mapped, mapped, grown.others k (Or.inr beyond)]

theorem Grown.exactly {newsz : Nat} (process : Process image m owner p pgdir sz) (order : sz ≤ newsz)
    (grown : Grown image m owner p pgdir (pagesOf sz) (pagesOf newsz) m' owner')
    (fresh : Fresh m' pgdir (pagesOf sz) (pagesOf newsz)) : Exactly m' pgdir newsz := by
  have wider := pagesOf_mono order
  intro k
  by_cases below : k < pagesOf sz
  · rw [(grown.kept_below process.good below).1, process.exactly k]
    omega
  by_cases inside : k < pagesOf newsz
  · obtain ⟨mem, used, -⟩ := fresh k (Nat.le_of_not_lt below) inside
    simp [used, inside]
  · rw [grown.mapped_beyond (Nat.le_of_not_lt inside), process.exactly k]
    omega

theorem Grown.mapped_undone {newsz : Nat} (process : Process image m owner p pgdir sz)
    (grown : Grown image m owner p pgdir (pagesOf sz) (pagesOf newsz) m' owner')
    (gone : ∀ k, pagesOf sz ≤ k → k < pagesOf newsz → present (entry m' pgdir k) = false) :
    mapped m' pgdir = mapped m pgdir := by
  funext k
  by_cases below : k < pagesOf sz
  · exact (grown.kept_below process.good below).1
  by_cases inside : k < pagesOf newsz
  · have before : mapped m pgdir k = none := by
      rw [← Option.not_isSome_iff_eq_none, process.exactly k]
      exact below
    rw [before, mapped, gone k (Nat.le_of_not_lt below) inside]
    simp
  · exact grown.mapped_beyond (Nat.le_of_not_lt inside)

theorem Grown.byteOf_below {low hi a : Nat} (good : Good image m owner p pgdir)
    (grown : Grown image m owner p pgdir low hi m' owner') (below : a / pgSize < low) :
    byteOf m' pgdir a = byteOf m pgdir a := by
  obtain ⟨same, page⟩ := grown.kept_below good below
  exact byteOf_congr same page

theorem byteOf_none {a : Nat} (unmapped : mapped m pgdir (a / pgSize) = none) : byteOf m pgdir a = none := by
  rw [byteOf, unmapped]
  rfl

theorem Exactly.byteOf_none {a : Nat} (exactly : Exactly m pgdir sz) (past : pagesOf sz ≤ a / pgSize) :
    byteOf m pgdir a = none := by
  refine Vm.byteOf_none ?_
  rw [← Option.not_isSome_iff_eq_none, exactly]
  omega

theorem Fresh.byteOf_zero {low hi a : Nat} (fresh : Fresh m pgdir low hi) (start : low ≤ a / pgSize)
    (inside : a / pgSize < hi) : byteOf m pgdir a = some 0 := by
  obtain ⟨mem, used, zero, -⟩ := fresh _ start inside
  rw [byteOf, used, Option.map_some, zero]

-- The bytes from sz up to the end of its last page, as far as they become part of the process, are zero.
def TailZero (m : Memory) (pgdir sz : Nat) (n : Int) : Prop :=
  ∀ a, sz ≤ a → (a : Int) < sz + n → a < pgRoundUp sz → byteOf m pgdir a = some 0

theorem addInt_eq {newsz : Nat} (sum : (newsz : Int) = sz + n) (small : newsz < 2 ^ 32) : addInt sz n = newsz := by
  rw [addInt, ← sum]
  omega

theorem growproc_grows (process : Process image m owner p pgdir sz) (grows : 0 < n) (small : n < 2 ^ 31) :
    Returns (growproc image pgdir sz n) m fun r m' =>
      (r.1 = 0 ∨ r.1 = -1) ∧ (AllOrNothing m pgdir sz n r m' ↔ (r.1 = 0 → TailZero m pgdir sz n)) := by
  obtain ⟨newsz, sum⟩ := Int.eq_ofNat_of_zero_le (show (0 : Int) ≤ sz + n by omega)
  have bound := process.exactly.le_kernBase
  have total : addInt sz n = newsz := addInt_eq sum.symm (by simp only [kernBase] at bound; omega)
  have order : sz ≤ newsz := by omega
  rw [growproc, if_pos grows, total]
  have fails : AllOrNothing m pgdir sz n (-1, sz) m := Or.inr ⟨rfl, rfl, rfl, fun _ => rfl⟩
  by_cases limit : newsz ≥ kernBase
  · rw [allocuvm, if_pos limit]
    exact returns_pure ⟨Or.inr rfl, iff_of_true fails fun wrong => absurd wrong (by simp)⟩
  have fresh (k : Nat) (low : pagesOf sz ≤ k) (high : k < pagesOf newsz) : present (entry m pgdir k) = false :=
    process.exactly.absent (Nat.lt_of_lt_of_le high (pagesOf_le (Nat.le_of_lt (Nat.lt_of_not_le limit)))) low
  refine returns_bind (allocuvm_returns process.good process.clean fresh) fun r m' after => returns_pure ?_
  rw [if_neg limit, if_neg (Nat.not_lt.mpr order)] at after
  obtain ⟨owner', ⟨rfl, grown, zeros⟩ | ⟨rfl, grown, gone⟩⟩ := after
  · have positive : r ≠ 0 := by omega
    rw [if_neg positive]
    refine ⟨Or.inl rfl, ?_⟩
    have exactly := grown.exactly process order zeros
    have kept (a : Nat) (below : a < pgRoundUp sz) : byteOf m' pgdir a = byteOf m pgdir a := by
      refine grown.byteOf_below process.good ?_
      rw [pgRoundUp_eq] at below
      exact (Nat.div_lt_iff_lt_mul (by decide)).mpr below
    have inPages (a : Nat) (below : a < sz) : a < pgRoundUp sz := by
      simp only [pgRoundUp, pgSize]
      omega
    constructor
    · rintro (⟨-, -, -, -, zero⟩ | ⟨wrong, -⟩)
      · intro _ a start inside below
        rw [← kept a below]
        exact zero a start (by simp only; omega)
      · exact absurd wrong (by simp)
    · intro tail
      refine Or.inl ⟨rfl, sum.symm, exactly, fun a below => ?_, fun a start inside => ?_⟩
      · exact kept a (inPages a (Nat.lt_of_lt_of_le below (Nat.min_le_left ..)))
      · by_cases below : a < pgRoundUp sz
        · rw [kept a below]
          exact tail rfl a start (by simp only at inside; omega) below
        · rw [pgRoundUp_eq] at below
          exact zeros.byteOf_zero ((Nat.le_div_iff_mul_le (by decide)).mpr (Nat.le_of_not_lt below))
            (div_pgSize_lt inside)
  · refine ⟨Or.inr rfl, iff_of_true (Or.inr ⟨rfl, rfl, ?_, fun a => ?_⟩) fun wrong => absurd wrong (by simp)⟩
    · exact grown.mapped_undone process gone
    · have same := grown.mapped_undone process gone
      by_cases below : a / pgSize < pagesOf sz
      · exact grown.byteOf_below process.good below
      · have past := Nat.le_of_not_lt below
        rw [process.exactly.byteOf_none past, (exactly_congr same process.exactly).byteOf_none past]

end Grow

section Shrink

theorem Exactly.dropped {newsz : Nat} (exactly : Exactly m pgdir sz) (order : newsz ≤ sz)
    (entries : entry m' pgdir = dropped (pagesOf newsz) sz (entry m pgdir)) : Exactly m' pgdir newsz := by
  have narrower := pagesOf_mono order
  intro k
  rw [mapped_dropped entries]
  split
  next gone => simp [gone.1]
  next kept =>
    rw [← lt_pagesOf_iff] at kept
    rw [exactly k]
    omega

theorem addInt_negative (shrinks : n < 0) (small : -2 ^ 31 ≤ n) (limit : sz ≤ kernBase) (under : (sz : Int) + n < 0) :
    sz ≤ addInt sz n := by
  simp only [addInt, kernBase] at *
  omega

theorem growproc_shrinks (process : Process image m owner p pgdir sz) (shrinks : n < 0) (small : -2 ^ 31 ≤ n) :
    Returns (growproc image pgdir sz n) m fun r m' =>
      (r.1 = 0 ∨ r.1 = -1) ∧ (AllOrNothing m pgdir sz n r m' ↔ sz = 0 ∨ 0 < sz + n) := by
  have limit := process.exactly.le_kernBase
  rw [growproc, if_neg (by omega), if_pos shrinks]
  by_cases under : (sz : Int) + n < 0
  · -- The sum wraps around, and deallocuvm does nothing.
    rw [deallocuvm, if_pos (addInt_negative shrinks small limit under)]
    by_cases empty : sz = 0
    · subst empty
      refine returns_pure ⟨Or.inr rfl, iff_of_true ?_ (Or.inl rfl)⟩
      exact Or.inr ⟨rfl, rfl, rfl, fun _ => rfl⟩
    · refine returns_pure ?_
      rw [if_neg empty]
      refine ⟨Or.inl rfl, iff_of_false ?_ (by omega)⟩
      rintro (⟨-, size, -⟩ | ⟨wrong, -⟩)
      · simp only at size
        omega
      · exact absurd wrong (by simp)
  obtain ⟨newsz, sum⟩ := Int.eq_ofNat_of_zero_le (Int.le_of_not_gt under)
  have order : newsz < sz := by omega
  have total : addInt sz n = newsz := addInt_eq sum.symm (by simp only [kernBase] at limit; omega)
  rw [total]
  refine returns_bind (deallocuvm_returns process.good limit) fun r m' after => returns_pure ?_
  obtain ⟨value, owner', good', acts, entries, -⟩ := after
  rw [Nat.min_eq_right order.le] at value
  subst value
  have exactly := process.exactly.dropped order.le entries
  by_cases zero : r = 0
  · subst zero
    refine ⟨Or.inr rfl, iff_of_false ?_ (by omega)⟩
    -- All pages are gone, although growproc says that it failed.
    rintro (⟨wrong, -⟩ | ⟨-, -, same, -⟩)
    · exact absurd wrong (by simp)
    · have first : 0 < pagesOf sz := lt_pagesOf_iff.mpr (by omega)
      rw [← process.exactly 0, ← congrFun same 0, exactly 0] at first
      exact absurd first (by decide)
  · rw [if_neg zero]
    refine ⟨Or.inl rfl, iff_of_true (Or.inl ⟨rfl, sum.symm, exactly, fun a below => ?_, fun a start inside => ?_⟩)
      (by omega)⟩
    · have page := div_pgSize_lt (Nat.lt_of_lt_of_le below (Nat.min_le_right ..))
      exact process.good.space.byteOf_kept good'.space acts fun touched => Nat.not_le.mpr page touched.2
    · simp only at inside
      omega

end Shrink

theorem TailZero.of_not_pos (still : n ≤ 0) : TailZero m pgdir sz n := by
  intro a start inside _
  omega

section Sample

-- A kernel of 16 pages from KERNLINK on, and the frames after it.
def sampleImage : Image where
  data := kernLink + pgSize
  endAddr := kernLink + 16 * pgSize
  aligned := by decide
  text := by decide
  order := by decide
  fits := by decide

def sampleFrame (i : Nat) : Nat := kernLink + 16 * pgSize + i * pgSize

-- An empty page directory in frame 0 with `n` free frames.
def sampleMemory (n : Nat) : Memory where
  freelist := (List.range n).map fun i => sampleFrame (i + 1)
  page := fun _ _ => 0
  refuses := fun _ => false
  calls := 0

def sampleOwner (n v : Nat) : Status (Use Nat) :=
  if v = sampleFrame 0 then .used (.pgdir 0)
  else if v ∈ (sampleMemory n).freelist then .free
  else .outside

theorem sampleMemory_good : Good sampleImage (sampleMemory 4) (sampleOwner 4) 0 (sampleFrame 0) := by
  refine ⟨⟨by decide, fun v => ?_, fun v managed => ?_⟩, Space.empty rfl (fun v => ?_) (fun i v => ?_) fun i v => ?_⟩
  · have apart : sampleFrame 0 ∉ (sampleMemory 4).freelist := by decide
    unfold sampleOwner
    split
    next dir => simp [dir, apart]
    next => split <;> simp_all
  · have frames : ∀ v ∈ (sampleMemory 4).freelist, Frame sampleImage v := by decide
    unfold sampleOwner at managed
    split at managed
    next dir =>
      subst dir
      decide
    next =>
      split at managed
      next listed => exact frames v listed
      next => exact absurd rfl managed
  all_goals
    unfold sampleOwner
    split
    next dir => simp [dir]
    next dir => split <;> simp [dir]

theorem sampleOwner_clean : NoLoose (sampleOwner 4) 0 := by
  intro v
  unfold sampleOwner
  split
  next => simp
  next => split <;> simp

def samplePage : Memory := ((allocuvm sampleImage (sampleFrame 0) 0 pgSize).run (sampleMemory 4)).2

theorem sampleMemory_process : Process sampleImage (sampleMemory 4) (sampleOwner 4) 0 (sampleFrame 0) 0 := by
  refine ⟨sampleMemory_good, sampleOwner_clean, fun k => ?_⟩
  have zero : entry (sampleMemory 4) (sampleFrame 0) k = 0 := entry_zero rfl k
  simp [mapped, zero, present_zero, pagesOf, pgSize]

theorem sampleOwner_used {v : Nat} {u : Use Nat} (held : sampleOwner 4 v = .used u) : u = .pgdir 0 := by
  unfold sampleOwner at held
  split at held
  next =>
    cases held
    rfl
  next => split at held <;> cases held

theorem samplePage_process : ∃ owner : Owner Nat, Process sampleImage samplePage owner 0 (sampleFrame 0) pgSize ∧
      ∀ v u, owner v = .used u → u.above 0 0 := by
  have process := sampleMemory_process
  have value : ((allocuvm sampleImage (sampleFrame 0) 0 pgSize).run (sampleMemory 4)).1 = some pgSize := by
    decide +kernel
  have fresh (k : Nat) (low : pagesOf 0 ≤ k) (high : k < pagesOf pgSize) :
      present (entry (sampleMemory 4) (sampleFrame 0) k) = false := by rw [entry_zero rfl, present_zero]
  obtain ⟨r, m', run, after⟩ := allocuvm_returns process.good process.clean fresh
  rw [if_neg (by decide), if_neg (by decide)] at after
  have state : samplePage = m' := by rw [samplePage, run]
  rw [run] at value
  obtain ⟨owner, ⟨rfl, grown, zeros⟩ | ⟨rfl, -⟩⟩ := after
  · rw [state]
    refine ⟨owner, ⟨grown.good, grown.clean, grown.exactly process (Nat.zero_le _) zeros⟩, fun v u held => ?_⟩
    by_contra other
    have before := sampleOwner_used (grown.acts.only v u other held)
    exact other (by simp [before, Use.above])
  · exact absurd (Option.some.inj value) (by decide)

end Sample

end Xv6.Vm
