import Xv6.Vm.Growproc
import Xv6.Vm.Kernel

set_option autoImplicit false

namespace Xv6.Vm

open Halting Bytes Ledger

variable {P : Type} {image : Image} {m : Memory} {owner : Owner P} {p : P} {pgdir n oldsz newsz : Nat}

section Rounds

variable (image) (pgdir)

-- The loop of deallocuvm, and whether it has ended when the fuel is used up.
def deallocRounds (oldsz : Nat) : Nat → Nat → Kernel Bool
  | 0, a => pure (decide (oldsz ≤ a))
  | fuel + 1, a =>
    if a < oldsz then do
      let next ← deallocPage image pgdir a
      deallocRounds oldsz fuel next
    else pure true

-- Page after page, without a skip.
def sweep (n : Nat) : Nat → Kernel Bool
  | 0 => pure true
  | k + 1 => do
    let _ ← deallocPage image pgdir (n * pgSize)
    sweep (n + 1) k

def sweepuvm (oldsz newsz : Nat) : Kernel Nat :=
  if newsz ≥ oldsz then pure oldsz
  else do
    let _ ← sweep image pgdir (pagesOf newsz) (pagesOf oldsz - pagesOf newsz)
    pure newsz

end Rounds

theorem deallocPage_next {t : Nat} (low : n < userPages) (here : table m pgdir (n / nEntries) = some t) :
    ∃ r m', (deallocPage image pgdir (n * pgSize)).run m = (r, m') ∧ (r = none ∨ r = some ((n + 1) * pgSize)) := by
  have known : n < nEntries * nEntries := Nat.lt_of_lt_of_le low (by decide)
  have further := nextPage_eq low
  rw [deallocPage, run_bind_some (walkpgdir_page known here), run_bind_some (loadWord_entry here), further]
  split
  · split
    · exact ⟨none, m, rfl, .inl rfl⟩
    · rcases freed : (kfree image (p2v (pteAddr (entry m pgdir n)))).run m with ⟨_ | _, m'⟩
      · exact ⟨none, m', run_bind_none freed, .inl rfl⟩
      · exact ⟨_, _, run_bind_some freed, .inr rfl⟩
  · exact ⟨_, m, rfl, .inr rfl⟩

theorem sweep_missing {d : Nat} (limit : oldsz ≤ kernBase) (missing : table m pgdir (n / nEntries) = none)
    (inside : n + d ≤ (n / nEntries + 1) * nEntries) :
    (sweep image pgdir n (pagesOf oldsz - n)).run m = (sweep image pgdir (n + d) (pagesOf oldsz - (n + d))).run m := by
  induction d with
  | zero => rfl
  | succ d ih =>
    rw [ih (by omega)]
    by_cases more : n + d < pagesOf oldsz
    · have low := lt_userPages (Nat.lt_of_lt_of_le (lt_pagesOf_iff.mp more) limit)
      have index : (n + d) / nEntries = n / nEntries := by
        simp only [nEntries] at *
        omega
      obtain ⟨left, rest⟩ : ∃ left, pagesOf oldsz - (n + d) = left + 1 := ⟨pagesOf oldsz - (n + d) - 1, by omega⟩
      have same : pagesOf oldsz - (n + (d + 1)) = left := by omega
      rw [rest, same, sweep, run_bind_some (deallocPage_missing low (index ▸ missing))]
      rfl
    · have none : pagesOf oldsz - (n + d) = 0 ∧ pagesOf oldsz - (n + (d + 1)) = 0 := by omega
      rw [none.1, none.2]
      rfl

theorem deallocRounds_eq_sweep {fuel : Nat} (limit : oldsz ≤ kernBase) (enough : pagesOf oldsz ≤ n + fuel) :
    (deallocRounds image pgdir oldsz fuel (n * pgSize)).run m = (sweep image pgdir n (pagesOf oldsz - n)).run m := by
  induction fuel generalizing n m with
  | zero =>
    have past : ¬n * pgSize < oldsz := fun more => absurd (lt_pagesOf_iff.mpr more) (by omega)
    have none : pagesOf oldsz - n = 0 := by omega
    rw [deallocRounds, decide_eq_true (Nat.le_of_not_lt past), none, sweep]
  | succ fuel ih =>
    rw [deallocRounds]
    by_cases more : n * pgSize < oldsz
    · have low := lt_userPages (Nat.lt_of_lt_of_le more limit)
      have left := lt_pagesOf_iff.mpr more
      rw [if_pos more]
      cases here : table m pgdir (n / nEntries) with
      | none =>
        obtain ⟨d, further⟩ : ∃ d, (n / nEntries + 1) * nEntries = n + (d + 1) := by
          refine ⟨(n / nEntries + 1) * nEntries - n - 1, ?_⟩
          simp only [nEntries]
          omega
        rw [run_bind_some (deallocPage_missing low here), sweep_missing limit here further.symm.le, further]
        exact ih (by omega)
      | some t =>
        obtain ⟨rest, count⟩ : ∃ rest, pagesOf oldsz - n = rest + 1 := ⟨pagesOf oldsz - n - 1, by omega⟩
        have same : pagesOf oldsz - (n + 1) = rest := by omega
        obtain ⟨r, m', ran, stopped | next⟩ := @deallocPage_next image m pgdir n t low here
        · subst stopped
          rw [count, sweep, run_bind_none ran, run_bind_none ran]
        · subst next
          rw [count, sweep, run_bind_some ran, run_bind_some ran, ih (by omega), same]
    · have none : pagesOf oldsz - n = 0 := Nat.sub_eq_zero_of_le (Nat.le_of_not_lt fun less => more (lt_pagesOf_iff.mp less))
      rw [if_neg more, none, sweep]

theorem deallocLoop_eq (fuel a : Nat) (m : Memory) : (deallocLoop image pgdir oldsz fuel a).run m =
    (deallocRounds image pgdir oldsz fuel a >>= fun _ => pure ()).run m := by
  induction fuel generalizing a m with
  | zero => rfl
  | succ fuel ih =>
    rw [deallocLoop, deallocRounds]
    split
    · rw [run_bind_assoc]
      exact run_bind_ext ih
    · rfl

theorem deallocuvm_eq_sweepuvm (limit : oldsz ≤ kernBase) :
    (deallocuvm image pgdir oldsz newsz).run m = (sweepuvm image pgdir oldsz newsz).run m := by
  rw [deallocuvm, sweepuvm]
  split
  · rfl
  · refine (run_bind_congr (deallocLoop_eq _ _ m)).trans (run_bind_assoc.trans (run_bind_congr ?_))
    exact deallocRounds_eq_sweep limit (Nat.le_add_left _ _)

/-- From `m` to `m'`, exactly the present pages from `newsz` to `oldsz` go, each frame once. -/
structure Deallocates (m m' : Memory) (pgdir oldsz newsz : Nat) : Prop where
  nodup : m'.freelist.Nodup
  frees : ∀ v, v ∈ m'.freelist ↔ v ∈ m.freelist ∨
    ∃ n, pagesOf newsz ≤ n ∧ n * pgSize < oldsz ∧ mapped m pgdir n = some v
  entries : entry m' pgdir = dropped (pagesOf newsz) oldsz (entry m pgdir)
  tables : table m' pgdir = table m pgdir

structure Frees (m m' : Memory) (pgdir : Nat) : Prop where
  nodup : m'.freelist.Nodup
  frees : ∀ v, v ∈ m'.freelist ↔
    v ∈ m.freelist ∨ (∃ n, mapped m pgdir n = some v) ∨ (∃ i, table m pgdir i = some v) ∨ v = pgdir

theorem deallocuvm_deallocates (good : Good image m owner p pgdir) (limit : oldsz ≤ kernBase) :
    Returns (deallocuvm image pgdir oldsz newsz) m fun r m' =>
      r = min oldsz newsz ∧ Deallocates m m' pgdir oldsz newsz := by
  refine returns_post (deallocuvm_returns good limit) fun r m' ⟨value, owner', good', acts, entries, tables⟩ => ?_
  refine ⟨value, good'.account.nodup, fun v => ?_, entries, tables⟩
  have still (v : Nat) (u : Use P) (mine : u.dropping p (pagesOf newsz)) :
      owner' v = .used u ↔ (∀ n, u = .user p n → oldsz ≤ n * pgSize) ∧ owner v = .used u := by
    cases u with
    | table q i =>
      obtain rfl : q = p := mine
      rw [good'.space.tables, good.space.tables, tables]
      simp
    | user q n =>
      obtain ⟨rfl, low⟩ := mine
      rw [good'.space.users, good.space.users, mapped_dropped entries]
      by_cases past : oldsz ≤ n * pgSize
      · simp [past, Nat.not_lt.mpr past]
      · simp [past, Nat.lt_of_not_le past, low]
    | pgdir | loose | stack | pipe => exact mine.elim
  rw [← good'.account.listed, acts.freed_iff still, good.account.listed]
  refine or_congr_right ⟨?_, ?_⟩
  · rintro ⟨u, mine, gone, held⟩
    push Not at gone
    obtain ⟨n, rfl, inside⟩ := gone
    exact ⟨n, mine.2, inside, (good.space.users n v).mp held⟩
  · rintro ⟨n, low, inside, used⟩
    exact ⟨.user p n, ⟨rfl, low⟩, fun kept => absurd (kept n rfl) (by omega), (good.space.users n v).mpr used⟩

theorem freevm_frees (good : Good image m owner p pgdir) (clean : NoLoose owner p) :
    Returns (freevm image pgdir) m fun _ m' => Frees m m' pgdir := by
  refine returns_post (freevm_returns good clean) fun _ m' ⟨owner', account, acts, unused⟩ => ⟨account.nodup, fun v => ?_⟩
  have gone (v : Nat) (u : Use P) (mine : u.above p 0) :
      owner' v = .used u ↔ False ∧ owner v = .used u := by
    simpa using fun held => unused v u held mine
  rw [← account.listed, acts.freed_iff gone, good.account.listed]
  refine or_congr_right ⟨?_, ?_⟩
  · rintro ⟨u, mine, -, held⟩
    cases u with
    | pgdir q =>
      obtain rfl : q = p := mine
      exact .inr (.inr ((good.space.dir v).mp held))
    | table q i =>
      obtain rfl : q = p := mine
      exact .inr (.inl ⟨i, (good.space.tables i v).mp held⟩)
    | user q n =>
      obtain rfl : q = p := mine.1
      exact .inl ⟨n, (good.space.users n v).mp held⟩
    | loose q =>
      obtain rfl : q = p := mine
      exact absurd held (clean v)
    | stack | pipe => exact mine.elim
  · rintro (⟨n, used⟩ | ⟨i, hung⟩ | rfl)
    · exact ⟨.user p n, ⟨rfl, Nat.zero_le n⟩, id, (good.space.users n v).mpr used⟩
    · exact ⟨.table p i, rfl, id, (good.space.tables i v).mpr hung⟩
    · exact ⟨.pgdir p, rfl, id, good.space.dir_self⟩

end Xv6.Vm
