import Xv6.Vm.Mapping

set_option autoImplicit false

namespace Xv6.Vm

open Halting Bytes Ledger

variable {P : Type} {image : Image} {m : Memory} {owner : Owner P} {p : P} {pgdir : Nat}

section Sizes

-- The pages below PGROUNDUP(sz).
def pagesOf (sz : Nat) : Nat := (sz + pgSize - 1) / pgSize

theorem pgRoundUp_eq (sz : Nat) : pgRoundUp sz = pagesOf sz * pgSize := rfl

theorem lt_pagesOf_iff {k sz : Nat} : k < pagesOf sz ↔ k * pgSize < sz := by
  simp only [pagesOf, pgSize]
  omega

theorem pagesOf_le {sz bound : Nat} (small : sz ≤ bound * pgSize) : pagesOf sz ≤ bound := by
  simp only [pagesOf, pgSize] at *
  omega

theorem pagesOf_mono {small large : Nat} (order : small ≤ large) : pagesOf small ≤ pagesOf large :=
  Nat.div_le_div_right (by omega)

theorem lt_userPages {n : Nat} (below : n * pgSize < kernBase) : n < userPages := by
  simp only [userPages, kernBase, pgSize] at *
  omega

theorem table_index_ne {n i : Nat} (low : n < userPages) (high : userPages / nEntries ≤ i) : i ≠ n / nEntries := by
  simp only [userPages, kernBase, pgSize, nEntries] at *
  omega

theorem nextPage_eq {n : Nat} (low : n < userPages) : nextPage (n * pgSize) = (n + 1) * pgSize := by
  simp only [userPages, kernBase, nextPage, pgSize] at *
  omega

end Sizes

section Contents

-- The byte at a user address.
def byteOf (m : Memory) (pgdir a : Nat) : Option Byte :=
  (mapped m pgdir (a / pgSize)).map fun v => m.page v (a % pgSize)

theorem byteOf_congr {m' : Memory} {a : Nat} (same : mapped m' pgdir (a / pgSize) = mapped m pgdir (a / pgSize))
    (page : ∀ v, mapped m pgdir (a / pgSize) = some v → m'.page v = m.page v) :
    byteOf m' pgdir a = byteOf m pgdir a := by
  rw [byteOf, byteOf, same]
  cases used : mapped m pgdir (a / pgSize) with
  | none => rfl
  | some v => simp only [Option.map_some, page v used]

theorem Space.kept {touched : Use P → Prop} {m' : Memory} {owner' : Owner P} {k : Nat}
    (before : Space m owner p pgdir) (after : Space m' owner' p pgdir)
    (acts : Acts touched m.page owner m'.page owner') (fixed : ¬touched (.user p k)) :
    mapped m' pgdir k = mapped m pgdir k ∧ ∀ v, mapped m pgdir k = some v → m'.page v = m.page v := by
  refine ⟨Option.ext fun v => ?_, fun v used => (acts.keeps v _ fixed ((before.users k v).mpr used)).2⟩
  rw [← after.users, ← before.users]
  exact ⟨acts.only v _ fixed, fun held => (acts.keeps v _ fixed held).1⟩

theorem Space.byteOf_kept {touched : Use P → Prop} {m' : Memory} {owner' : Owner P} {a : Nat}
    (before : Space m owner p pgdir) (after : Space m' owner' p pgdir)
    (acts : Acts touched m.page owner m'.page owner') (fixed : ¬touched (.user p (a / pgSize))) :
    byteOf m' pgdir a = byteOf m pgdir a := by
  obtain ⟨same, page⟩ := before.kept after acts fixed
  exact byteOf_congr same page

end Contents

section Deallocate

variable {n oldsz : Nat}

theorem present_of_mapped {v : Nat} (used : mapped m pgdir n = some v) :
    n < userPages ∧ present (entry m pgdir n) = true ∧ v = p2v (pteAddr (entry m pgdir n)) := by
  unfold mapped at used
  split at used
  next valid => exact ⟨valid.1, valid.2, (Option.some.inj used).symm⟩
  next => cases used

theorem mapped_of_present (low : n < userPages) (valid : present (entry m pgdir n) = true) :
    mapped m pgdir n = some (p2v (pteAddr (entry m pgdir n))) := by
  rw [mapped, if_pos ⟨low, valid⟩]

theorem table_of_mapped {v : Nat} (used : mapped m pgdir n = some v) :
    ∃ t, table m pgdir (n / nEntries) = some t := by
  obtain ⟨_, valid, _⟩ := present_of_mapped used
  rw [entry] at valid
  cases here : table m pgdir (n / nEntries) with
  | none =>
    rw [here] at valid
    exact absurd valid (by simp [present_zero])
  | some t => exact ⟨t, rfl⟩

theorem Good.acts {touched : Use P → Prop} {m' : Memory} {owner' : Owner P} (good : Good image m owner p pgdir)
    (acts : Acts touched m.page owner m'.page owner') (account : Account (Frame image) m'.freelist owner')
    (apart : ∀ u, touched u → ¬u.of p) :
    Good image m' owner' p pgdir ∧ entry m' pgdir = entry m pgdir ∧ table m' pgdir = table m pgdir := by
  obtain ⟨space, same⟩ := good.space.framed acts apart
  exact ⟨⟨account, space⟩, same⟩

-- The entries after the pages from `low` up to `oldsz` are gone.
def dropped (low oldsz : Nat) (entries : Nat → Nat) (k : Nat) : Nat :=
  if low ≤ k ∧ k * pgSize < oldsz ∧ present (entries k) = true then 0 else entries k

theorem dropped_past {low : Nat} (past : oldsz ≤ low * pgSize) (entries : Nat → Nat) :
    dropped low oldsz entries = entries := by
  funext k
  rw [dropped, if_neg fun inside => ?_]
  have order := Nat.mul_le_mul_right pgSize inside.1
  omega

theorem mapped_dropped {m' : Memory} {low k : Nat} (entries : entry m' pgdir = dropped low oldsz (entry m pgdir)) :
    mapped m' pgdir k = if low ≤ k ∧ k * pgSize < oldsz then none else mapped m pgdir k := by
  rw [mapped, mapped, entries, dropped]
  by_cases valid : present (entry m pgdir k) = true <;> by_cases inside : low ≤ k ∧ k * pgSize < oldsz <;>
    simp [valid, inside, present_zero]

theorem deallocPage_missing (low : n < userPages) (missing : table m pgdir (n / nEntries) = none) :
    (deallocPage image pgdir (n * pgSize)).run m = (some ((n / nEntries + 1) * nEntries * pgSize), m) := by
  have known : n < nEntries * nEntries := Nat.lt_of_lt_of_le low (by decide)
  have jump : (pdx (n * pgSize) + 1) * 2 ^ 22 % 2 ^ 32 = (n / nEntries + 1) * nEntries * pgSize := by
    rw [pdx_page known]
    simp only [userPages, kernBase, pgSize, nEntries] at *
    omega
  rw [deallocPage, run_bind_some (walkpgdir_page_missing known missing), ← jump]
  rfl

theorem deallocPage_returns (good : Good image m owner p pgdir) (low : n < userPages) (more : n * pgSize < oldsz) :
    Returns (deallocPage image pgdir (n * pgSize)) m fun next m' => ∃ k owner', next = k * pgSize ∧ n < k ∧
      Good image m' owner' p pgdir ∧ Acts (Use.dropping p n) m.page owner m'.page owner' ∧
      entry m' pgdir = dropped n (min oldsz (k * pgSize)) (entry m pgdir) ∧ table m' pgdir = table m pgdir := by
  have known : n < nEntries * nEntries := Nat.lt_of_lt_of_le low (by decide)
  have further := nextPage_eq low
  cases here : table m pgdir (n / nEntries) with
  | none =>
    refine ⟨_, m, deallocPage_missing low here, (n / nEntries + 1) * nEntries, owner, rfl, ?_, good, Acts.refl _ _ _,
      ?_, rfl⟩
    · simp only [nEntries]
      omega
    funext k
    -- The pages that are skipped have no entries.
    by_cases skipped : n ≤ k ∧ k * pgSize < (n / nEntries + 1) * nEntries * pgSize
    · have index : k / nEntries = n / nEntries := by
        simp only [nEntries, pgSize] at *
        omega
      have absent : entry m pgdir k = 0 := by rw [entry, index, here]
      simp [dropped, absent]
    · rw [dropped, if_neg fun inside => skipped ⟨inside.1, Nat.lt_of_lt_of_le inside.2.1 (Nat.min_le_right ..)⟩]
  | some t =>
    have only (k : Nat) : n ≤ k ∧ k * pgSize < min oldsz ((n + 1) * pgSize) ↔ k = n := by
      simp only [pgSize] at *
      omega
    refine returns_step (walkpgdir_page known here) (returns_step (loadWord_entry here) ?_)
    by_cases valid : present (entry m pgdir n) = true
    swap
    · rw [if_neg valid, further]
      refine returns_pure ⟨n + 1, owner, rfl, Nat.lt_succ_self n, good, Acts.refl _ _ _, ?_, rfl⟩
      funext k
      rw [dropped, if_neg fun inside => ?_]
      have same := (only k).mp ⟨inside.1, inside.2.1⟩
      exact valid (same ▸ inside.2.2)
    have used := mapped_of_present low valid
    have held := (good.space.users n _).mpr used
    have frame := good.frame held
    have nonzero : pteAddr (entry m pgdir n) ≠ 0 := fun zero => by
      have bound := frame.bounds.1
      rw [zero] at bound
      exact absurd bound (by decide)
    rw [if_pos valid, if_neg nonzero]
    generalize p2v (pteAddr (entry m pgdir n)) = v at used held frame
    obtain ⟨good', entries, tables⟩ := good.clear here used
    refine returns_step (kfree_run frame) (returns_step rfl ?_)
    rw [further]
    refine returns_pure ⟨n + 1, _, rfl, Nat.lt_succ_self n, good', ?_, ?_, tables⟩
    · have table := (good.space.tables _ t).mpr here
      have first : Acts (Use.dropping p n) m.page owner (m.freed v).page owner :=
        acts_write (by simp [held, Status.Within, Use.dropping]) _
      have second : Acts (Use.dropping p n) (m.freed v).page owner ((m.freed v).put t (n % nEntries) 0).page owner :=
        acts_write (by simp [table, Status.Within, Use.dropping]) _
      exact (first.trans second).trans (acts_pass (by simp [held, Status.Within, Use.dropping]) trivial)
    · rw [entries]
      funext k
      by_cases same : k = n
      · subst same
        simp [dropped, valid, ((only k).mpr rfl).2]
      · rw [Function.update_of_ne same, dropped, if_neg fun inside => same ((only k).mp ⟨inside.1, inside.2.1⟩)]

theorem dropped_dropped {low next : Nat} (order : low ≤ next) (entries : Nat → Nat) :
    dropped next oldsz (dropped low (min oldsz (next * pgSize)) entries) = dropped low oldsz entries := by
  funext k
  have split : k < next ↔ k * pgSize < next * pgSize := by
    simp only [pgSize]
    omega
  by_cases before : k < next
  · have inside : k * pgSize < min oldsz (next * pgSize) ↔ k * pgSize < oldsz := by
      have := split.mp before
      omega
    simp only [dropped, Nat.not_le.mpr before, false_and, if_false, inside]
  · have outside : ¬k * pgSize < min oldsz (next * pgSize) := by omega
    have after : low ≤ k ↔ next ≤ k := by omega
    simp only [dropped, outside, false_and, and_false, if_false, after]

theorem deallocLoop_returns {fuel : Nat} (good : Good image m owner p pgdir) (limit : oldsz ≤ kernBase)
    (enough : oldsz ≤ (n + fuel) * pgSize) : Returns (deallocLoop image pgdir oldsz fuel (n * pgSize)) m fun _ m' =>
      ∃ owner', Good image m' owner' p pgdir ∧ Acts (Use.dropping p n) m.page owner m'.page owner' ∧
        entry m' pgdir = dropped n oldsz (entry m pgdir) ∧ table m' pgdir = table m pgdir := by
  induction fuel generalizing n m owner with
  | zero =>
    have past : oldsz ≤ n * pgSize := enough
    exact returns_pure ⟨owner, good, Acts.refl _ _ _, (dropped_past past _).symm, rfl⟩
  | succ fuel ih =>
    rw [deallocLoop]
    by_cases more : n * pgSize < oldsz
    · rw [if_pos more]
      have low := lt_userPages (Nat.lt_of_lt_of_le more limit)
      refine returns_bind (deallocPage_returns good low more) fun next m₁ between => ?_
      obtain ⟨k, owner₁, rfl, forward, good₁, acts₁, entries₁, tables₁⟩ := between
      have left : oldsz ≤ (k + fuel) * pgSize := enough.trans (Nat.mul_le_mul_right pgSize (by omega))
      refine returns_post (ih good₁ left) fun _ m' after => ?_
      obtain ⟨owner', good', acts, entries, tables⟩ := after
      refine ⟨owner', good', acts₁.trans (acts.mono (Use.dropping_mono forward.le)), ?_, tables.trans tables₁⟩
      rw [entries, entries₁, dropped_dropped forward.le]
    · rw [if_neg more]
      exact returns_pure ⟨owner, good, Acts.refl _ _ _, (dropped_past (Nat.le_of_not_lt more) _).symm, rfl⟩

theorem deallocuvm_returns {newsz : Nat} (good : Good image m owner p pgdir) (limit : oldsz ≤ kernBase) :
    Returns (deallocuvm image pgdir oldsz newsz) m fun r m' => r = min oldsz newsz ∧
      ∃ owner', Good image m' owner' p pgdir ∧ Acts (Use.dropping p (pagesOf newsz)) m.page owner m'.page owner' ∧
        entry m' pgdir = dropped (pagesOf newsz) oldsz (entry m pgdir) ∧ table m' pgdir = table m pgdir := by
  unfold deallocuvm
  by_cases grows : newsz ≥ oldsz
  · rw [if_pos grows]
    have past : oldsz ≤ pagesOf newsz * pgSize := by
      have covers := mt lt_pagesOf_iff.mpr (Nat.lt_irrefl (pagesOf newsz))
      omega
    exact returns_pure ⟨(Nat.min_eq_left grows).symm, owner, good, Acts.refl _ _ _, (dropped_past past _).symm, rfl⟩
  · rw [if_neg grows, pgRoundUp_eq]
    refine returns_bind (deallocLoop_returns good limit ?_) fun _ m' after => returns_pure ⟨by omega, after⟩
    simp only [pagesOf, pgSize] at *
    omega

end Deallocate

section Allocate

theorem mappages_one {n pa perm : Nat} {post : Bool → Memory → Prop} (known : n < nEntries * nEntries)
    (page : Returns (mapPage pgdir perm (n * pgSize) pa) m post) :
    Returns (mappages pgdir (n * pgSize) pgSize pa perm) m post := by
  have first : pgRoundDown (n * pgSize) = n * pgSize := by
    simp only [pgRoundDown, pgSize]
    omega
  have last : pgRoundDown ((n * pgSize + pgSize + (2 ^ 32 - 1)) % 2 ^ 32) = n * pgSize := by
    simp only [pgRoundDown, pgSize, nEntries] at known ⊢
    omega
  have rounds : (n * pgSize + (2 ^ 32 - n * pgSize)) % 2 ^ 32 / pgSize + 1 = 0 + 1 := by
    simp only [pgSize, nEntries] at known ⊢
    omega
  simp only [mappages, first, last, rounds]
  refine returns_bind page fun r m' after => ?_
  cases r with
  | true => exact returns_pure after
  | false => exact returns_pure after

theorem loose_not_of (u : Use P) (same : u = .loose p) : ¬u.of p := by
  subst same
  exact id

/-- A step that touched loose pages of `p` only. -/
structure Aside (image : Image) (m : Memory) (owner : Owner P) (p : P) (pgdir : Nat) (m' : Memory)
    (owner' : Owner P) : Prop where
  good : Good image m' owner' p pgdir
  acts : Acts (fun u => u = .loose p) m.page owner m'.page owner'
  entries : entry m' pgdir = entry m pgdir
  tables : table m' pgdir = table m pgdir

variable {m' : Memory} {owner' : Owner P}

theorem Good.aside (good : Good image m owner p pgdir) (acts : Acts (fun u => u = .loose p) m.page owner m'.page owner')
    (account : Account (Frame image) m'.freelist owner') : Aside image m owner p pgdir m' owner' := by
  obtain ⟨after, entries, tables⟩ := good.acts acts account loose_not_of
  exact ⟨after, acts, entries, tables⟩

theorem Good.unchanged (good : Good image m owner p pgdir) (pages : m'.page = m.page)
    (list : m'.freelist = m.freelist) : Aside image m owner p pgdir m' owner :=
  good.aside (pages ▸ Acts.refl _ _ _) (list ▸ good.account)

theorem Aside.trans {m₁ m₂ : Memory} {owner₁ owner₂ : Owner P} (first : Aside image m owner p pgdir m₁ owner₁)
    (second : Aside image m₁ owner₁ p pgdir m₂ owner₂) : Aside image m owner p pgdir m₂ owner₂ :=
  ⟨second.good, first.acts.trans second.acts, second.entries.trans first.entries, second.tables.trans first.tables⟩

theorem kalloc_loose (good : Good image m owner p pgdir) : Returns kalloc m fun r m' => m'.page = m.page ∧
      match r with
      | none => m'.freelist = m.freelist
      | some mem => Aside image m owner p pgdir m' (Function.update owner mem (.used (.loose p))) := by
  refine returns_post kalloc_returns fun r m' ⟨pages, _, list⟩ => ⟨pages, ?_⟩
  cases r with
  | none => exact list
  | some mem =>
    have account : Account (Frame image) (mem :: m'.freelist) owner := list ▸ good.account
    have free : owner mem = .free := (account.listed mem).mpr List.mem_cons_self
    exact good.aside (pages ▸ acts_pass (by simp [free, Status.Within]) rfl) (account.take _)

theorem Good.write_loose (good : Good image m owner p pgdir) {mem : Nat} (loose : owner mem = .used (.loose p))
    (blk : Block) : Aside image m owner p pgdir (m.write mem blk) owner :=
  good.aside (acts_write (by simp [loose, Status.Within]) _) good.account

theorem Good.free_loose (good : Good image m owner p pgdir) {mem : Nat} (loose : owner mem = .used (.loose p)) :
    Aside image m owner p pgdir (m.freed mem) (Function.update owner mem .free) := by
  have write : Acts (fun u => u = .loose p) m.page owner (m.freed mem).page owner :=
    acts_write (by simp [loose, Status.Within]) _
  exact good.aside (write.trans (acts_pass (by simp [loose, Status.Within]) trivial)) (good.account.give loose)

def NoLoose (owner : Owner P) (p : P) : Prop := ∀ v, owner v ≠ .used (.loose p)

def Fresh (m : Memory) (pgdir low hi : Nat) : Prop :=
  ∀ k, low ≤ k → k < hi → ∃ mem, mapped m pgdir k = some mem ∧ m.page mem = (fun _ => 0) ∧
    user (entry m pgdir k) = true

structure Grown (image : Image) (m : Memory) (owner : Owner P) (p : P) (pgdir low hi : Nat) (m' : Memory)
    (owner' : Owner P) : Prop where
  good : Good image m' owner' p pgdir
  acts : Acts (Use.above p low) m.page owner m'.page owner'
  clean : NoLoose owner' p
  others : ∀ k, k < low ∨ hi ≤ k → entry m' pgdir k = entry m pgdir k
  tables : ∀ i, userPages / nEntries ≤ i → table m' pgdir i = table m pgdir i

theorem acts_loose_above {cell cell' : Nat → Block} {owner owner' : Owner P} {low : Nat}
    (acts : Acts (fun u => u = .loose p) cell owner cell' owner') : Acts (Use.above p low) cell owner cell' owner' :=
  acts.mono fun u same => by simp [same, Use.above]

variable {oldsz newsz : Nat}

theorem undo_returns (good : Good image m owner p pgdir) (limit : newsz < kernBase) :
    Returns (deallocuvm image pgdir newsz oldsz) m fun _ m' => ∃ owner', Good image m' owner' p pgdir ∧
      Acts (Use.dropping p (pagesOf oldsz)) m.page owner m'.page owner' ∧
      (∀ k, k < pagesOf oldsz ∨ pagesOf newsz ≤ k → entry m' pgdir k = entry m pgdir k) ∧
      (∀ k, pagesOf oldsz ≤ k → k < pagesOf newsz → present (entry m' pgdir k) = false) ∧
      table m' pgdir = table m pgdir := by
  refine returns_post (deallocuvm_returns good limit.le) fun _ m' after => ?_
  obtain ⟨_, owner', good', acts, entries, tables⟩ := after
  refine ⟨owner', good', acts, fun k outside => ?_, fun k low high => ?_, tables⟩
  · rw [entries, dropped, if_neg fun inside => ?_]
    have := lt_pagesOf_iff.mpr inside.2.1
    omega
  · rw [entries, dropped]
    split
    next => exact present_zero
    next kept => simpa [low, lt_pagesOf_iff.mp high] using kept

theorem NoLoose.loose_eq (clean : NoLoose owner p) {mem v : Nat}
    (held : Function.update owner mem (.used (.loose p)) v = .used (.loose p)) : v = mem := by
  by_contra other
  rw [Function.update_of_ne other] at held
  exact clean v held

theorem Aside.mappages {n mem perm : Nat}
    (taken : Aside image m owner p pgdir m' (Function.update owner mem (.used (.loose p)))) (clean : NoLoose owner p)
    (known : n < userPages) (fresh : present (entry m pgdir n) = false) (small : perm < pgSize) :
    Returns (mappages pgdir (n * pgSize) pgSize (v2p mem) perm) m' fun r m₁ =>
      match r with
      | true => ∃ owner', Grown image m owner p pgdir n (n + 1) m₁ owner' ∧ mapped m₁ pgdir n = some mem ∧
          m₁.page mem = m'.page mem ∧ entry m₁ pgdir n = v2p mem ||| perm ||| pteP
      | false => Aside image m owner p pgdir m₁ (Function.update owner mem (.used (.loose p))) := by
  have page := mapPage_user taken.good known (taken.entries ▸ fresh) (Function.update_self ..) small (Nat.le_refl n)
  refine returns_post (mappages_one (Nat.lt_of_lt_of_le known (by decide)) page) fun r m₁ after => ?_
  cases r with
  | true =>
    obtain ⟨owner', good', acts, entries, tables, used, same, left⟩ := after
    refine ⟨owner', ⟨good', (acts_loose_above taken.acts).trans acts, fun v held => ?_, fun k outside => ?_,
      fun i high => ?_⟩, (good'.space.users n mem).mp used, same, by rw [entries, Function.update_self]⟩
    · obtain ⟨other, held⟩ := left v held
      exact other (clean.loose_eq held)
    · rw [entries, Function.update_of_ne (by omega), taken.entries]
    · rw [tables i (table_index_ne known high), taken.tables]
  | false => exact taken.trans (taken.good.unchanged after.1 after.2)

theorem allocPage_returns {j : Nat} (good : Good image m owner p pgdir) (clean : NoLoose owner p)
    (limit : newsz < kernBase) (start : pagesOf oldsz ≤ j) (inside : j < pagesOf newsz)
    (fresh : ∀ k, j ≤ k → k < pagesOf newsz → present (entry m pgdir k) = false) :
    Returns (allocPage image pgdir oldsz newsz (j * pgSize)) m fun r m' => ∃ owner', match r with
      | true => Grown image m owner p pgdir j (j + 1) m' owner' ∧ Fresh m' pgdir j (j + 1)
      | false => Grown image m owner p pgdir (pagesOf oldsz) (pagesOf newsz) m' owner' ∧
          ∀ k, pagesOf oldsz ≤ k → k < pagesOf newsz → present (entry m' pgdir k) = false := by
  have known : j < userPages := Nat.lt_of_lt_of_le inside (pagesOf_le (Nat.le_of_lt limit))
  refine returns_bind (kalloc_loose good) fun r m₁ ⟨pages, taken⟩ => ?_
  cases r with
  | none =>
    have aside := good.unchanged pages taken
    refine returns_bind (undo_returns aside.good limit) fun _ m' undone => returns_pure ?_
    obtain ⟨owner', good', acts, others, gone, tables⟩ := undone
    refine ⟨owner', ⟨good', pages ▸ acts.mono (Use.above_of_dropping _), fun v held => ?_, fun k outside => ?_,
      fun i _ => ?_⟩, gone⟩
    · exact clean v (acts.only v _ (by simp [Use.dropping]) held)
    · rw [others k outside, aside.entries]
    · rw [tables, aside.tables]
  | some mem =>
    have filled := taken.trans (taken.good.write_loose (Function.update_self ..) fun _ => 0)
    refine returns_step rfl ?_
    refine returns_bind (filled.mappages clean known (fresh j le_rfl inside) (show pteW ||| pteU < pgSize by decide))
      fun r m₃ mapped => ?_
    cases r with
    | true =>
      obtain ⟨owner', grown, used, same, is⟩ := mapped
      refine returns_pure ⟨owner', grown, fun k low high => ?_⟩
      obtain rfl : k = j := by omega
      refine ⟨mem, used, same.trans (Function.update_self ..), ?_⟩
      have frame := filled.good.frame (Function.update_self ..)
      rw [is, Nat.or_assoc, user, testBit_or_aligned frame.v2p_aligned (by decide)]
      decide
    | false =>
      refine returns_bind (undo_returns mapped.good limit) fun _ m₄ undone => ?_
      obtain ⟨owner₄, good₄, acts₄, others, gone, tables₄⟩ := undone
      have loose₄ := (acts₄.keeps mem _ (by simp [Use.dropping]) (Function.update_self ..)).1
      have freed := good₄.free_loose loose₄
      refine returns_step (kfree_run (good₄.frame loose₄)) (returns_pure ?_)
      refine ⟨_, ⟨freed.good, ?_, fun v held => ?_, fun k outside => ?_, fun i _ => ?_⟩, fun k low high => ?_⟩
      · exact ((acts_loose_above mapped.acts).trans (acts₄.mono (Use.above_of_dropping _))).trans
          (acts_loose_above freed.acts)
      · by_cases same : v = mem
        · subst same
          simp at held
        · rw [Function.update_of_ne same] at held
          exact same (clean.loose_eq (acts₄.only v _ (by simp [Use.dropping]) held))
      · rw [freed.entries, others k outside, mapped.entries]
      · rw [freed.tables, tables₄, mapped.tables]
      · rw [freed.entries, gone k low high]

theorem allocLoop_returns {n j : Nat} (good : Good image m owner p pgdir) (clean : NoLoose owner p)
    (limit : newsz < kernBase) (start : pagesOf oldsz ≤ j) (left : j + n = pagesOf newsz)
    (fresh : ∀ k, j ≤ k → k < pagesOf newsz → present (entry m pgdir k) = false) :
    Returns (allocLoop image pgdir oldsz newsz n (j * pgSize)) m fun r m' => ∃ owner', match r with
      | true => Grown image m owner p pgdir j (pagesOf newsz) m' owner' ∧ Fresh m' pgdir j (pagesOf newsz)
      | false => Grown image m owner p pgdir (pagesOf oldsz) (pagesOf newsz) m' owner' ∧
          ∀ k, pagesOf oldsz ≤ k → k < pagesOf newsz → present (entry m' pgdir k) = false := by
  induction n generalizing m owner j with
  | zero =>
    rw [allocLoop]
    refine returns_pure ⟨owner, ⟨good, Acts.refl _ _ _, clean, fun _ _ => rfl, fun _ _ => rfl⟩, fun k low high => ?_⟩
    omega
  | succ n ih =>
    have inside : j < pagesOf newsz := by omega
    have known : j < userPages := Nat.lt_of_lt_of_le inside (pagesOf_le (Nat.le_of_lt limit))
    rw [allocLoop]
    refine returns_bind (allocPage_returns good clean limit start inside fresh) fun r m₁ ⟨owner₁, round⟩ => ?_
    cases r with
    | false => exact returns_pure ⟨owner₁, round⟩
    | true =>
      obtain ⟨grown, zero⟩ := round
      simp only [if_true, nextPage_eq known]
      have later (k : Nat) (low : j + 1 ≤ k) (high : k < pagesOf newsz) : present (entry m₁ pgdir k) = false := by
        rw [grown.others k (Or.inr low)]
        exact fresh k (by omega) high
      refine returns_post (ih grown.good grown.clean (by omega) (by omega) later) fun r m' ⟨owner', rest⟩ => ?_
      refine ⟨owner', ?_⟩
      cases r with
      | true =>
        obtain ⟨more, zeros⟩ := rest
        refine ⟨⟨more.good, grown.acts.trans (more.acts.mono (Use.above_mono (Nat.le_succ j))), more.clean,
          fun k outside => ?_, fun i high => (more.tables i high).trans (grown.tables i high)⟩, fun k low high => ?_⟩
        · rw [more.others k (by omega), grown.others k (by omega)]
        · by_cases first : k = j
          · -- The later rounds leave the page of this round alone.
            subst first
            obtain ⟨mem, used, content, perm⟩ := zero k le_rfl (Nat.lt_succ_self k)
            have same := more.others k (Or.inl (Nat.lt_succ_self k))
            have held := (grown.good.space.users k mem).mpr used
            obtain ⟨held', page⟩ := more.acts.keeps mem _ (by simp [Use.above]) held
            exact ⟨mem, (more.good.space.users k mem).mp held', page.trans content, same ▸ perm⟩
          · exact zeros k (by omega) high
      | false =>
        obtain ⟨undone, gone⟩ := rest
        refine ⟨⟨undone.good, (grown.acts.mono (Use.above_mono start)).trans undone.acts, undone.clean,
          fun k outside => ?_, fun i high => (undone.tables i high).trans (grown.tables i high)⟩, gone⟩
        rw [undone.others k outside, grown.others k (by omega)]

theorem allocuvm_returns (good : Good image m owner p pgdir) (clean : NoLoose owner p)
    (fresh : ∀ k, pagesOf oldsz ≤ k → k < pagesOf newsz → present (entry m pgdir k) = false) :
    Returns (allocuvm image pgdir oldsz newsz) m fun r m' =>
      if newsz ≥ kernBase then r = 0 ∧ m' = m else if newsz < oldsz then r = oldsz ∧ m' = m else ∃ owner',
        r = newsz ∧ Grown image m owner p pgdir (pagesOf oldsz) (pagesOf newsz) m' owner' ∧
            Fresh m' pgdir (pagesOf oldsz) (pagesOf newsz) ∨
        r = 0 ∧ Grown image m owner p pgdir (pagesOf oldsz) (pagesOf newsz) m' owner' ∧
          ∀ k, pagesOf oldsz ≤ k → k < pagesOf newsz → present (entry m' pgdir k) = false := by
  unfold allocuvm
  split
  next => exact returns_pure ⟨rfl, rfl⟩
  next limit =>
    split
    next => exact returns_pure ⟨rfl, rfl⟩
    next order =>
      have rounds : pagesOf oldsz + (newsz + pgSize - 1 - pgRoundUp oldsz) / pgSize = pagesOf newsz := by
        have := pagesOf_mono (Nat.le_of_not_lt order)
        simp only [pgRoundUp, pagesOf, pgSize] at this ⊢
        omega
      rw [pgRoundUp_eq] at rounds ⊢
      have loop := allocLoop_returns good clean (Nat.lt_of_not_le limit) le_rfl rounds fresh
      refine returns_bind loop fun r m' after => ?_
      obtain ⟨owner', result⟩ := after
      cases r with
      | true => exact returns_pure ⟨owner', Or.inl ⟨rfl, result⟩⟩
      | false => exact returns_pure ⟨owner', Or.inr ⟨rfl, result⟩⟩

end Allocate

end Xv6.Vm
