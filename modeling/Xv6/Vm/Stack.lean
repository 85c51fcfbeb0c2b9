import Xv6.Vm.Loader

set_option autoImplicit false

namespace Xv6.Vm

open Halting Bytes Ledger

variable {P : Type} {image : Image} {m m' : Memory} {owner owner' : Owner P} {p : P} {pgdir sz : Nat}
  {content : List Byte} {phs : List Proghdr}

section Guard

-- *pte & ~PTE_U
def withoutUser (pte : Nat) : Nat := pte &&& (2 ^ 32 - 1 - pteU)

theorem withoutUser_lt (pte : Nat) : withoutUser pte < 2 ^ 32 := Nat.and_lt_two_pow _ (by decide)

theorem present_withoutUser (pte : Nat) : present (withoutUser pte) = present pte := by
  rw [present, withoutUser, Nat.testBit_and, show Nat.testBit (2 ^ 32 - 1 - pteU) 0 = true by decide, Bool.and_true, present]

theorem user_withoutUser (pte : Nat) : user (withoutUser pte) = false := by
  rw [user, withoutUser, Nat.testBit_and, show Nat.testBit (2 ^ 32 - 1 - pteU) 2 = false by decide, Bool.and_false]

theorem pteAddr_withoutUser {pte : Nat} (small : pte < 2 ^ 32) : pteAddr (withoutUser pte) = pteAddr pte := by
  have high : withoutUser pte >>> 12 = pte >>> 12 := by
    rw [withoutUser, Nat.shiftRight_and_distrib, show (2 ^ 32 - 1 - pteU) >>> 12 = 2 ^ 20 - 1 by decide,
      Nat.and_two_pow_sub_one_eq_mod, Nat.shiftRight_eq_div_pow]
    omega
  rw [pteAddr, pteAddr, ← Nat.shiftRight_eq_div_pow, high, Nat.shiftRight_eq_div_pow]

theorem entry_lt (m : Memory) (pgdir n : Nat) : entry m pgdir n < 2 ^ 32 := by
  unfold entry
  split
  next => decide
  next => exact word_lt

theorem clearpteu_returns {k v : Nat} (good : Good image m owner p pgdir) (used : mapped m pgdir k = some v) :
    Returns (clearpteu pgdir (k * pgSize)) m fun _ m' => Good image m' owner p pgdir ∧
      Acts (Use.structural p) m.page owner m'.page owner ∧
      entry m' pgdir = Function.update (entry m pgdir) k (withoutUser (entry m pgdir k)) ∧
      table m' pgdir = table m pgdir ∧ mapped m' pgdir = mapped m pgdir := by
  obtain ⟨low, valid, _⟩ := present_of_mapped used
  obtain ⟨t, here⟩ := table_of_mapped used
  have known : k < nEntries * nEntries := Nat.lt_of_lt_of_le low (by decide)
  have held := (good.space.tables _ t).mpr here
  have entries := entry_put good.space.tabled here (withoutUser_lt (entry m pgdir k))
  have same (j : Nat) : mapped (m.put t (k % nEntries) (withoutUser (entry m pgdir k))) pgdir j = mapped m pgdir j := by
    simp only [mapped, entries]
    by_cases index : j = k
    · subst index
      rw [Function.update_self, present_withoutUser, pteAddr_withoutUser (entry_lt ..)]
    · rw [Function.update_of_ne index]
  refine returns_step (walkpgdir_page known here) (returns_step (loadWord_entry here) ?_)
  refine ⟨_, _, rfl, good.put_word here same, acts_write ?_ _, entries, table_put good.space.tabled here, funext same⟩
  simp [held, Status.Within, Use.structural]

end Guard

structure Ready (image : Image) (m : Memory) (owner : Owner P) (p : P) (pgdir top : Nat) : Prop where
  process : Process image m owner p pgdir ((top + 1) * pgSize)
  kernel : ∀ n, userPages ≤ n → entry m pgdir n = kernelEntry image n
  hole : ∀ i, userPages / nEntries ≤ i → ¬kernelTable i → table m pgdir i = none
  positive : 0 < top
  guard : user (entry m pgdir (top - 1)) = false
  accessible : user (entry m pgdir top) = true

structure Prepared (image : Image) (m : Memory) (owner : Owner P) (p : P) (pgdir top : Nat) (content : List Byte)
    (phs : List Proghdr) : Prop where
  ready : Ready image m owner p pgdir top
  bytes : ∀ a < (top + 1) * pgSize, byteOf m pgdir a = segmentByte content phs a
  zero : ∀ a, (top - 1) * pgSize ≤ a → segmentByte content phs a = some 0

section Prepare

theorem pagesOf_pages (n : Nat) : pagesOf (n * pgSize) = n := by
  simp only [pagesOf, pgSize]
  omega

theorem Loaded.round (loaded : Loaded image m owner p pgdir sz content phs) :
    Loaded image m owner p pgdir (pgRoundUp sz) content phs := by
  have same : pagesOf (pgRoundUp sz) = pagesOf sz := by rw [pgRoundUp_eq, pagesOf_pages]
  have more : sz ≤ pgRoundUp sz := by
    simp only [pgRoundUp, pgSize]
    omega
  obtain ⟨⟨good, clean, exactly⟩, kernel, hole, accessible, below, bytes⟩ := loaded
  refine ⟨⟨good, clean, fun k => ?_⟩, kernel, hole, fun k => ?_, fun ph known load => (below ph known load).trans more,
    fun a => ?_⟩
  · rw [same, exactly k]
  · rw [same]
    exact accessible k
  · rw [same]
    exact bytes a

theorem stackPages_returns (loaded : Loaded image m owner p pgdir sz content phs) :
    Returns (stackPages image pgdir sz) m fun r m' => ∃ owner', Acts (Use.above p 0) m.page owner m'.page owner' ∧
      Good image m' owner' p pgdir ∧ NoLoose owner' p ∧ ∀ sz', r = some sz' →
        sz' = (pagesOf sz + 2) * pgSize ∧ Prepared image m' owner' p pgdir (pagesOf sz + 1) content phs := by
  have limit := loaded.process.exactly.le_kernBase
  have pages : pagesOf sz ≤ userPages := pagesOf_le limit
  have total : (pgRoundUp sz + 2 * pgSize) % 2 ^ 32 = (pagesOf sz + 2) * pgSize := by
    rw [pgRoundUp_eq, Nat.add_mul]
    simp only [userPages, kernBase, pgSize] at *
    omega
  rw [stackPages, total]
  refine returns_bind (allocuvm_loaded loaded.round) fun r m₁ allocated => ?_
  obtain ⟨owner₁, acts₁, good₁, clean₁, grown⟩ := allocated
  split
  next => exact returns_pure ⟨owner₁, acts₁, good₁, clean₁, fun _ wrong => by cases wrong⟩
  next positive =>
    obtain ⟨size, loaded₁⟩ := grown positive
    have larger : pgRoundUp sz ≤ (pagesOf sz + 2) * pgSize := by
      rw [pgRoundUp_eq]
      exact Nat.mul_le_mul_right _ (Nat.le_add_right ..)
    rw [Nat.max_eq_right larger] at size
    subst size
    have count : pagesOf ((pagesOf sz + 2) * pgSize) = pagesOf sz + 2 := pagesOf_pages _
    have guardPage : (pagesOf sz + 2) * pgSize - 2 * pgSize = pagesOf sz * pgSize := by
      rw [← Nat.sub_mul, Nat.add_sub_cancel]
    obtain ⟨v, used⟩ := Option.isSome_iff_exists.mp ((loaded₁.process.exactly (pagesOf sz)).mpr (by omega))
    rw [guardPage]
    refine returns_bind (clearpteu_returns good₁ used) fun _ m' cleared => returns_pure ?_
    obtain ⟨good, acts, entries, tables, same⟩ := cleared
    refine ⟨owner₁, acts₁.trans (acts.mono (Use.above_of_structural 0)), good, clean₁, fun sz' value => ?_⟩
    obtain rfl := Option.some.inj value
    have low := (present_of_mapped used).1
    refine ⟨rfl, ⟨⟨good, clean₁, exactly_congr same loaded₁.process.exactly⟩, fun n high => ?_, fun i high other => ?_,
      Nat.succ_pos _, ?_, ?_⟩, fun a inside => ?_, fun a beyond => ?_⟩
    · rw [entries, Function.update_of_ne (by omega), loaded₁.kernel n high]
    · rw [tables, loaded₁.hole i high other]
    · rw [Nat.add_sub_cancel, entries, Function.update_self, user_withoutUser]
    · rw [entries, Function.update_of_ne (by omega)]
      exact loaded₁.accessible _ (by omega)
    · rw [← loaded₁.bytes a (div_pgSize_lt inside)]
      exact good₁.space.byteOf_kept good.space acts (by simp [Use.structural])
    · refine segmentByte_beyond loaded.below ?_
      rw [Nat.add_sub_cancel] at beyond
      have more : sz ≤ pagesOf sz * pgSize := by
        simp only [pagesOf, pgSize]
        omega
      omega

theorem prepare_returns {elf : Elfhdr} (loaded : Loaded image m owner p pgdir 0 content [])
    (size : content.length < 2 ^ 32) :
    Returns (prepare image pgdir content elf) m fun r m' => ∃ owner', Acts (Use.above p 0) m.page owner m'.page owner' ∧
      Good image m' owner' p pgdir ∧ NoLoose owner' p ∧ ∀ sz, r = some sz → ∃ top, sz = (top + 1) * pgSize ∧
        Prepared image m' owner' p pgdir top content (headers content elf.phnum elf.phoff) := by
  refine returns_bind (loadLoop_returns loaded size) fun r m₁ ⟨owner₁, acts₁, good₁, clean₁, result⟩ => ?_
  cases r with
  | none => exact returns_pure ⟨owner₁, acts₁, good₁, clean₁, fun _ wrong => by cases wrong⟩
  | some sz =>
    refine returns_post (stackPages_returns (result sz rfl)) fun r m' ⟨owner', acts, good, clean, rest⟩ => ?_
    refine ⟨owner', acts₁.trans acts, good, clean, fun sz' same => ?_⟩
    obtain ⟨rfl, prepared⟩ := rest sz' same
    exact ⟨_, rfl, prepared⟩

end Prepare

section Copyout

variable {n o t v : Nat} {buf : List Byte}

theorem uva2ka_missing (known : n < nEntries * nEntries) (missing : table m pgdir (n / nEntries) = none) :
    (uva2ka pgdir (n * pgSize)).run m = (none, m) := by
  rw [uva2ka, run_bind_some (walkpgdir_page_missing known missing)]
  rfl

theorem uva2ka_blocked (known : n < nEntries * nEntries) (here : table m pgdir (n / nEntries) = some t)
    (blocked : user (entry m pgdir n) = false) : (uva2ka pgdir (n * pgSize)).run m = (some none, m) := by
  rw [uva2ka, run_bind_some (walkpgdir_page known here)]
  dsimp only
  rw [run_bind_some (loadWord_entry here)]
  by_cases valid : present (entry m pgdir n) = false
  · rw [if_pos valid]
    rfl
  · rw [if_neg valid, if_pos blocked]
    rfl

theorem uva2ka_user (used : mapped m pgdir n = some v) (access : user (entry m pgdir n) = true) :
    (uva2ka pgdir (n * pgSize)).run m = (some (some v), m) := by
  obtain ⟨low, valid, frame⟩ := present_of_mapped used
  obtain ⟨t, here⟩ := table_of_mapped used
  have known : n < nEntries * nEntries := Nat.lt_of_lt_of_le low (by decide)
  rw [uva2ka, run_bind_some (walkpgdir_page known here)]
  dsimp only
  rw [run_bind_some (loadWord_entry here), if_neg (by simp [valid]), if_neg (by simp [access]), frame]
  rfl

theorem pgRoundDown_page (small : o < pgSize) : pgRoundDown (n * pgSize + o) = n * pgSize := by
  simp only [pgRoundDown, pgSize] at *
  omega

theorem copyoutPage_missing (small : o < pgSize) (known : n < nEntries * nEntries)
    (missing : table m pgdir (n / nEntries) = none) : (copyoutPage pgdir (n * pgSize + o) buf).run m = (none, m) := by
  rw [copyoutPage, pgRoundDown_page small, run_bind_none (uva2ka_missing known missing)]

theorem copyoutPage_blocked (small : o < pgSize) (known : n < nEntries * nEntries)
    (here : table m pgdir (n / nEntries) = some t) (blocked : user (entry m pgdir n) = false) :
    (copyoutPage pgdir (n * pgSize + o) buf).run m = (some false, m) := by
  rw [copyoutPage, pgRoundDown_page small, run_bind_some (uva2ka_blocked known here blocked)]
  rfl

theorem copyoutPage_user (small : o < pgSize) (used : mapped m pgdir n = some v)
    (access : user (entry m pgdir n) = true) : (copyoutPage pgdir (n * pgSize + o) buf).run m =
      (some true, m.write v (blit (m.page v) o (buf.take (pgSize - o)))) := by
  rw [copyoutPage, pgRoundDown_page small, run_bind_some (uva2ka_user used access), Nat.add_sub_cancel_left]
  rfl

theorem copyout_missing (small : o < pgSize) (known : n < nEntries * nEntries)
    (missing : table m pgdir (n / nEntries) = none) (more : 0 < buf.length) :
    (copyout pgdir (n * pgSize + o) buf).run m = (none, m) := by
  obtain ⟨fuel, length⟩ := Nat.exists_eq_succ_of_ne_zero (Nat.ne_of_gt more)
  rw [copyout, length, copyoutLoop, if_pos more, run_bind_none (copyoutPage_missing small known missing)]

theorem copyout_page (good : Good image m owner p pgdir) (used : mapped m pgdir n = some v)
    (access : user (entry m pgdir n) = true) (more : 0 < buf.length) (fits : o + buf.length ≤ pgSize) :
    Returns (copyout pgdir (n * pgSize + o) buf) m fun r m' => r = true ∧ Rewritten image m owner p pgdir m' ∧
      Overlaid m pgdir (n * pgSize + o) buf m' := by
  obtain ⟨fuel, length⟩ := Nat.exists_eq_succ_of_ne_zero (Nat.ne_of_gt more)
  have small : o < pgSize := by omega
  have whole : buf.take (pgSize - o) = buf := List.take_of_length_le (by omega)
  have rest : buf.drop (pgSize - o) = [] := List.drop_of_length_le (by omega)
  rw [copyout, length, copyoutLoop, if_pos more]
  refine returns_step (copyoutPage_user small used access) ?_
  rw [if_pos rfl, pgRoundDown_page small, Nat.add_sub_cancel_left, rest, whole]
  have done : copyoutLoop pgdir fuel (nextPage (n * pgSize)) [] = pure true := by
    cases fuel <;> rfl
  rw [done]
  exact returns_pure ⟨rfl, good.write_user used _, overlaid_blit good used fits⟩

theorem copyoutLoop_blocked {d fuel : Nat} (good : Good image m owner p pgdir)
    (full : ∀ k, n ≤ k → k < n + d → (mapped m pgdir k).isSome = true) (known : n + d < nEntries * nEntries)
    (here : table m pgdir ((n + d) / nEntries) = some t) (blocked : user (entry m pgdir (n + d)) = false)
    (small : o < pgSize) (more : 0 < buf.length) (long : d * pgSize < o + buf.length) (enough : buf.length ≤ fuel) :
    Returns (copyoutLoop pgdir fuel (n * pgSize + o) buf) m fun r m' =>
      r = false ∧ Rewritten image m owner p pgdir m' := by
  induction d generalizing m n o buf fuel with
  | zero =>
    obtain ⟨fuel, rfl⟩ := Nat.exists_eq_add_of_lt (Nat.lt_of_lt_of_le more enough)
    rw [copyoutLoop, if_pos more]
    exact returns_step (copyoutPage_blocked small known here blocked) (returns_pure ⟨rfl, Rewritten.refl good⟩)
  | succ d ih =>
    obtain ⟨fuel, rfl⟩ := Nat.exists_eq_add_of_lt (Nat.lt_of_lt_of_le more enough)
    obtain ⟨v, used⟩ := Option.isSome_iff_exists.mp (full n le_rfl (by omega))
    have low := (present_of_mapped used).1
    rw [copyoutLoop, if_pos more]
    by_cases access : user (entry m pgdir n) = true
    · refine returns_step (copyoutPage_user small used access) ?_
      have rewritten := good.write_user used (blit (m.page v) o (buf.take (pgSize - o)))
      have shift : n + 1 + d = n + (d + 1) := by omega
      have length : (buf.drop (pgSize - o)).length = buf.length - (pgSize - o) := List.length_drop
      have full₁ (k : Nat) (start : n + 1 ≤ k) (limit : k < n + 1 + d) :
          (mapped (m.write v (blit (m.page v) o (buf.take (pgSize - o)))) pgdir k).isSome = true := by
        rw [rewritten.mapped_eq]
        exact full k (by omega) (by omega)
      rw [Nat.succ_mul] at long
      rw [if_pos rfl, pgRoundDown_page small, nextPage_eq low, Nat.add_sub_cancel_left,
        ← Nat.add_zero ((n + 1) * pgSize)]
      refine returns_post (ih rewritten.good full₁ (by omega) ?_ ?_ (by decide) (by omega) (by omega) (by omega))
        fun r m' ⟨value, again⟩ => ⟨value, rewritten.trans again⟩
      · rw [rewritten.tables, shift, here]
      · rw [rewritten.entries, shift, blocked]
    · obtain ⟨s, there⟩ := table_of_mapped used
      have closed : user (entry m pgdir n) = false := by simpa using access
      refine returns_step (copyoutPage_blocked small (by omega) there closed) ?_
      exact returns_pure ⟨rfl, Rewritten.refl good⟩

theorem copyout_blocked {d : Nat} (good : Good image m owner p pgdir)
    (full : ∀ k, n ≤ k → k < n + d → (mapped m pgdir k).isSome = true) (known : n + d < nEntries * nEntries)
    (here : table m pgdir ((n + d) / nEntries) = some t) (blocked : user (entry m pgdir (n + d)) = false)
    (small : o < pgSize) (more : 0 < buf.length) (long : d * pgSize < o + buf.length) :
    Returns (copyout pgdir (n * pgSize + o) buf) m fun r m' => r = false ∧ Rewritten image m owner p pgdir m' :=
  copyoutLoop_blocked good full known here blocked small more long le_rfl

end Copyout

end Xv6.Vm
