import Xv6.Vm.Stack

set_option autoImplicit false

namespace Xv6.Vm

open Halting Bytes Ledger

variable {P : Type} {image : Image} {m m' : Memory} {owner owner' : Owner P} {p q : P} {pgdir top sp : Nat}

section Ready

theorem Ready.rewrite (ready : Ready image m owner p pgdir top) (rewritten : Rewritten image m owner p pgdir m') :
    Ready image m' owner p pgdir top := by
  obtain ⟨⟨_, clean, exactly⟩, kernel, hole, positive, guard, accessible⟩ := ready
  refine ⟨⟨rewritten.good, clean, exactly_congr rewritten.mapped_eq exactly⟩, ?_, ?_, positive, ?_, ?_⟩
  all_goals first | rw [rewritten.entries] | rw [rewritten.tables]
  all_goals assumption

theorem Ready.limit (ready : Ready image m owner p pgdir top) : (top + 1) * pgSize ≤ kernBase :=
  ready.process.exactly.le_kernBase

theorem Ready.used (ready : Ready image m owner p pgdir top) {k : Nat} (below : k ≤ top) :
    (mapped m pgdir k).isSome = true := by
  rw [ready.process.exactly, pagesOf_pages]
  omega

theorem Ready.kernel_blocked (ready : Ready image m owner p pgdir top) {n : Nat} (kernel : kernelPage n)
    (high : userPages ≤ n) : user (entry m pgdir n) = false ∧ ∃ t, table m pgdir (n / nEntries) = some t := by
  obtain ⟨valid, closed⟩ : KernelOnly (kernelEntry image n) := kernelEntry_kernelOnly kernel
  rw [← ready.kernel n high] at valid closed
  refine ⟨closed, ?_⟩
  cases here : table m pgdir (n / nEntries) with
  | none =>
    rw [entry, here] at valid
    exact absurd valid (by simp [present_zero])
  | some t => exact ⟨t, rfl⟩

-- The addresses above the kernel for which there are no page tables.
def Hole (a : Nat) : Prop := kernBase + physTop ≤ a ∧ a < devSpace

instance (a : Nat) : Decidable (Hole a) := inferInstanceAs (Decidable (_ ∧ _))

theorem Ready.hole_missing (ready : Ready image m owner p pgdir top) {a : Nat} (hole : Hole a) :
    table m pgdir (a / pgSize / nEntries) = none := by
  obtain ⟨low, high⟩ := hole
  refine ready.hole _ ?_ ?_
  · simp only [userPages, kernBase, physTop, devSpace, pgSize, nEntries] at *
    omega
  · rintro ⟨n, kernel, same⟩
    simp only [kernelPage, userPages, kernBase, physTop, devSpace, pgSize, nEntries] at *
    omega

end Ready

section Push

variable {s : List Byte}

theorem minus_of_le {a b : Nat} (order : b ≤ a) (small : a < 2 ^ 32) : minus a b = a - b := by
  rw [minus]
  omega

theorem minus_of_lt {a b : Nat} (wraps : a < b) (small : b ≤ 2 ^ 31) : minus a b = a + 2 ^ 32 - b := by
  rw [minus]
  omega

theorem pushed_aligned (sp : Nat) (s : List Byte) : pushed sp s % 4 = 0 := Nat.mul_mod_left ..

theorem pushed_of_le (order : s.length + 1 ≤ sp) (small : sp ≤ kernBase) :
    pushed sp s + s.length + 1 ≤ sp ∧ sp ≤ pushed sp s + s.length + 4 := by
  rw [pushed, minus_of_le order (Nat.lt_of_le_of_lt small (by decide))]
  omega

theorem pushed_of_lt (wraps : sp < s.length + 1) (small : s.length < kernBase) :
    kernBase ≤ pushed sp s ∧ pushed sp s < 2 ^ 32 := by
  have bound : s.length + 1 ≤ 2 ^ 31 := small
  rw [pushed, minus_of_lt wraps bound]
  simp only [kernBase] at *
  omega

theorem length_string : (s ++ [0]).length = s.length + 1 := by simp

theorem push_hole (ready : Ready image m owner p pgdir top) (hole : Hole (pushed sp s)) :
    (copyout pgdir (pushed sp s) (s ++ [0])).run m = (none, m) := by
  have split : pushed sp s = pushed sp s / pgSize * pgSize + pushed sp s % pgSize := (Nat.div_add_mod' ..).symm
  have missing := ready.hole_missing hole
  have known : pushed sp s / pgSize < nEntries * nEntries := by
    have high := hole.2
    simp only [devSpace, pgSize, nEntries] at *
    omega
  rw [split]
  exact copyout_missing (Nat.mod_lt _ (by decide)) known missing (by simp)

theorem push_top (ready : Ready image m owner p pgdir top) (high : sp ≤ (top + 1) * pgSize)
    (small : s.length < kernBase) (low : top * pgSize ≤ pushed sp s) (inside : pushed sp s < (top + 1) * pgSize) :
    pushed sp s + s.length + 1 ≤ sp ∧
      Returns (copyout pgdir (pushed sp s) (s ++ [0])) m fun r m' => r = true ∧ Rewritten image m owner p pgdir m' ∧
        Overlaid m pgdir (pushed sp s) (s ++ [0]) m' := by
  have limit := ready.limit
  have order : s.length + 1 ≤ sp := by
    by_contra wraps
    have := (pushed_of_lt (Nat.lt_of_not_le wraps) small).1
    omega
  obtain ⟨fits, -⟩ := pushed_of_le order (high.trans limit)
  refine ⟨fits, ?_⟩
  obtain ⟨v, used⟩ := Option.isSome_iff_exists.mp (ready.used le_rfl)
  obtain ⟨o, place⟩ := Nat.exists_eq_add_of_le low
  rw [Nat.succ_mul] at high
  rw [place] at fits ⊢
  refine copyout_page ready.process.good used ready.accessible (by simp) ?_
  rw [length_string]
  omega

theorem push_blocked (ready : Ready image m owner p pgdir top) (low : top * pgSize ≤ sp)
    (high : sp ≤ (top + 1) * pgSize) (small : s.length < kernBase) (mapped : ¬Hole (pushed sp s))
    (outside : pushed sp s < top * pgSize ∨ (top + 1) * pgSize ≤ pushed sp s) :
    Returns (copyout pgdir (pushed sp s) (s ++ [0])) m fun r m' =>
      r = false ∧ Rewritten image m owner p pgdir m' := by
  have limit := ready.limit
  have split : pushed sp s = pushed sp s / pgSize * pgSize + pushed sp s % pgSize := (Nat.div_add_mod' ..).symm
  have offset : pushed sp s % pgSize < pgSize := Nat.mod_lt _ (by decide)
  by_cases order : s.length + 1 ≤ sp
  · obtain ⟨fits, close⟩ := pushed_of_le order (high.trans limit)
    have below : pushed sp s < top * pgSize := by omega
    obtain ⟨d, guardPage⟩ : ∃ d, top - 1 = pushed sp s / pgSize + d := by
      refine Nat.exists_eq_add_of_le (Nat.le_sub_one_of_lt ?_)
      exact (Nat.div_lt_iff_lt_mul (by decide)).mpr below
    obtain ⟨v, used⟩ := Option.isSome_iff_exists.mp (ready.used (Nat.sub_le top 1))
    obtain ⟨t, here⟩ := table_of_mapped used
    have userPage := (present_of_mapped used).1
    rw [guardPage] at here userPage
    rw [split]
    refine copyout_blocked ready.process.good (fun k _ limit => ready.used (by omega))
      (Nat.lt_of_lt_of_le userPage (by decide)) here (guardPage ▸ ready.guard) offset (by simp) ?_
    rw [length_string]
    have positive := ready.positive
    have reach : (top - 1) * pgSize + pgSize = top * pgSize := by
      rw [← Nat.succ_mul, Nat.succ_eq_add_one, Nat.sub_add_cancel positive]
    rw [guardPage, Nat.add_mul] at reach
    simp only [pgSize] at *
    omega
  · obtain ⟨kernel, word⟩ := pushed_of_lt (Nat.lt_of_not_le order) small
    have page : kernelPage (pushed sp s / pgSize) := by
      simp only [Hole, kernelPage, userPages, kernBase, physTop, devSpace, pgSize, nEntries] at *
      omega
    have high : userPages ≤ pushed sp s / pgSize := by
      simp only [userPages, kernBase, pgSize] at *
      omega
    have known : pushed sp s / pgSize < nEntries * nEntries := by
      simp only [pgSize, nEntries] at *
      omega
    obtain ⟨closed, t, here⟩ := ready.kernel_blocked page high
    rw [split]
    exact copyout_blocked (d := 0) ready.process.good (fun k _ limit => by omega) known here closed offset (by simp)
      (by simp)

end Push

section Strings

-- From the stack pointer `sp` on, with `argc` strings pushed, some string lands in the hole.
def Reaches (top : Nat) : Nat → Nat → List (List Byte) → Prop
  | _, _, [] => False
  | argc, sp, s :: rest => argc < maxArg ∧ (Hole (pushed sp s) ∨
      top * pgSize ≤ pushed sp s ∧ pushed sp s < (top + 1) * pgSize ∧ Reaches top (argc + 1) (pushed sp s) rest)

/-- The strings lie one below the other, from `sp` down to `last`. -/
def Placed : Nat → List (List Byte) → List Nat → Nat → Prop
  | sp, [], [], last => last = sp
  | sp, s :: argv, ptr :: ptrs, last => ptr % 4 = 0 ∧ ptr + s.length + 1 ≤ sp ∧ Placed ptr argv ptrs last
  | _, _, _, _ => False

structure Stored (m : Memory) (pgdir : Nat) (argv : List (List Byte)) (ptrs : List Nat) (m' : Memory) : Prop where
  strings : ∀ x ∈ argv.zip ptrs, ∀ j ≤ x.1.length, byteOf m' pgdir (x.2 + j) = (x.1 ++ [0])[j]?
  others : ∀ a, (∀ x ∈ argv.zip ptrs, a < x.2 ∨ x.2 + x.1.length + 1 ≤ a) → byteOf m' pgdir a = byteOf m pgdir a

variable {argv : List (List Byte)} {ptrs : List Nat} {last argc : Nat}

theorem Placed.length (placed : Placed sp argv ptrs last) : ptrs.length = argv.length := by
  induction argv generalizing sp ptrs with
  | nil =>
    cases ptrs with
    | nil => rfl
    | cons ptr ptrs => exact placed.elim
  | cons s argv ih =>
    cases ptrs with
    | nil => exact placed.elim
    | cons ptr ptrs => simp [ih placed.2.2]

theorem Placed.le (placed : Placed sp argv ptrs last) : last ≤ sp := by
  induction argv generalizing sp ptrs with
  | nil =>
    cases ptrs with
    | nil => exact Nat.le_of_eq placed
    | cons ptr ptrs => exact placed.elim
  | cons s argv ih =>
    cases ptrs with
    | nil => exact placed.elim
    | cons ptr ptrs =>
      have below := ih placed.2.2
      have inside := placed.2.1
      omega

theorem Placed.bounds (placed : Placed sp argv ptrs last) :
    ∀ x ∈ argv.zip ptrs, last ≤ x.2 ∧ x.2 + x.1.length + 1 ≤ sp ∧ x.2 % 4 = 0 := by
  induction argv generalizing sp ptrs with
  | nil => simp
  | cons s argv ih =>
    cases ptrs with
    | nil => simp
    | cons ptr ptrs =>
      obtain ⟨aligned, inside, rest⟩ := placed
      intro x known
      have below := rest.le
      rcases List.mem_cons.mp known with rfl | later
      · simp only
        omega
      · have := ih rest x later
        omega

theorem pushArgs_stops (ready : Ready image m owner p pgdir top) (high : sp ≤ (top + 1) * pgSize)
    (small : ∀ s ∈ argv, s.length < kernBase) (reaches : Reaches top argc sp argv) :
    ∃ m', (pushArgs pgdir argc sp argv).run m = (none, m') := by
  induction argv generalizing m argc sp with
  | nil => exact reaches.elim
  | cons s rest ih =>
    obtain ⟨more, reaches⟩ := reaches
    rw [pushArgs, if_neg (Nat.not_le.mpr more)]
    by_cases hole : Hole (pushed sp s)
    · exact ⟨m, run_bind_none (push_hole ready hole)⟩
    obtain ⟨low, inside, later⟩ := reaches.resolve_left hole
    have short := small s List.mem_cons_self
    obtain ⟨fits, r, m₁, value, rfl, rewritten, _⟩ := push_top ready high short low inside
    obtain ⟨m', stops⟩ := ih (ready.rewrite rewritten) inside.le (fun s known => small s (List.mem_cons_of_mem _ known))
      later
    refine ⟨m', ?_⟩
    rw [run_bind_some value, if_pos rfl, run_bind_none stops]

theorem pushArgs_returns (ready : Ready image m owner p pgdir top) (low : top * pgSize ≤ sp)
    (high : sp ≤ (top + 1) * pgSize) (small : ∀ s ∈ argv, s.length < kernBase) (stays : ¬Reaches top argc sp argv) :
    Returns (pushArgs pgdir argc sp argv) m fun r m' => Rewritten image m owner p pgdir m' ∧
      ∀ last ptrs, r = some (last, ptrs) → top * pgSize ≤ last ∧ Placed sp argv ptrs last ∧
        (argv = [] ∨ argc + argv.length ≤ maxArg) ∧ Stored m pgdir argv ptrs m' := by
  induction argv generalizing m argc sp with
  | nil =>
    refine returns_pure ⟨Rewritten.refl ready.process.good, fun last ptrs same => ?_⟩
    cases same
    exact ⟨low, rfl, Or.inl rfl, by simp, fun _ _ => rfl⟩
  | cons s rest ih =>
    rw [pushArgs]
    by_cases full : argc ≥ maxArg
    · rw [if_pos full]
      exact returns_pure ⟨Rewritten.refl ready.process.good, fun _ _ wrong => by cases wrong⟩
    have more : argc < maxArg := Nat.lt_of_not_le full
    have short := small s List.mem_cons_self
    have hole : ¬Hole (pushed sp s) := fun hole => stays ⟨more, Or.inl hole⟩
    rw [if_neg full]
    by_cases inside : top * pgSize ≤ pushed sp s ∧ pushed sp s < (top + 1) * pgSize
    swap
    · refine returns_bind (push_blocked ready low high short hole (by omega)) fun r m' ⟨value, rewritten⟩ => ?_
      rw [value, if_neg (by decide)]
      exact returns_pure ⟨rewritten, fun _ _ wrong => by cases wrong⟩
    obtain ⟨fits, copied⟩ := push_top ready high short inside.1 inside.2
    refine returns_bind copied fun r m₁ ⟨value, rewritten, overlaid⟩ => ?_
    have later : ¬Reaches top (argc + 1) (pushed sp s) rest := fun again => stays ⟨more, Or.inr ⟨inside.1, inside.2, again⟩⟩
    rw [value, if_pos rfl]
    refine returns_bind (ih (ready.rewrite rewritten) inside.1 inside.2.le
      (fun s known => small s (List.mem_cons_of_mem _ known)) later) fun r m' ⟨again, pushes⟩ => ?_
    cases r with
    | none => exact returns_pure ⟨rewritten.trans again, fun _ _ wrong => by cases wrong⟩
    | some result =>
      obtain ⟨last, ptrs⟩ := result
      obtain ⟨bottom, placed, count, stored⟩ := pushes last ptrs rfl
      refine returns_pure ⟨rewritten.trans again, fun _ _ same => ?_⟩
      cases same
      refine ⟨bottom, ⟨pushed_aligned sp s, fits, placed⟩, Or.inr ?_, fun x known j inString => ?_, fun a apart => ?_⟩
      · rcases count with rfl | count
        · exact more
        · rw [List.length_cons]
          omega
      · rcases List.mem_cons.mp known with rfl | known
        · -- The strings that follow are all below this one.
          simp only at inString ⊢
          rw [stored.others _ fun x known => Or.inr ?_, overlaid, if_pos ?_, Nat.add_sub_cancel_left]
          · rw [length_string]
            omega
          · have := (placed.bounds x known).2.1
            omega
        · exact stored.strings x known j inString
      · rw [stored.others a fun x known => apart x (List.mem_cons_of_mem _ known), overlaid, if_neg]
        have here := apart (s, pushed sp s) List.mem_cons_self
        rw [length_string]
        simp only at here
        omega

theorem Placed.pairwise (placed : Placed sp argv ptrs last) :
    (argv.zip ptrs).Pairwise fun x y => y.2 + y.1.length + 1 ≤ x.2 := by
  induction argv generalizing sp ptrs with
  | nil => simp
  | cons s argv ih =>
    cases ptrs with
    | nil => simp
    | cons ptr ptrs =>
      obtain ⟨_, _, rest⟩ := placed
      rw [List.zip_cons_cons, List.pairwise_cons]
      exact ⟨fun x known => (rest.bounds x known).2.1, ih rest⟩

end Strings

section Ustack

variable {argv : List (List Byte)} {ptrs : List Nat} {last esp : Nat}

-- A word of user memory.
def userWord (m : Memory) (pgdir a : Nat) : Option Nat :=
  if ∀ t : Fin 4, (byteOf m pgdir (a + t)).isSome = true then
    some (getLe (fun o => (byteOf m pgdir o).getD 0) a 4)
  else none

theorem userWord_of_bytes {a w : Nat} (bytes : ∀ t < 4, byteOf m pgdir (a + t) = some (leByte w t))
    (small : w < 2 ^ 32) : userWord m pgdir a = some w := by
  have known (t : Fin 4) : (byteOf m pgdir (a + t)).isSome = true := by
    rw [bytes t t.isLt]
    rfl
  have value : getLe (fun o => (byteOf m pgdir o).getD 0) a 4 = w % 2 ^ 32 :=
    getLe_of_bytes fun t inside => by rw [bytes t inside, Option.getD_some]
  rw [userWord, if_pos known, value, Nat.mod_eq_of_lt small]

theorem length_wordBytes (ws : List Nat) : (ws.flatMap wordBytes).length = 4 * ws.length := by
  induction ws with
  | nil => rfl
  | cons w ws ih =>
    rw [List.flatMap_cons, List.length_append, ih, List.length_cons]
    simp only [wordBytes, List.length_map, List.length_range]
    omega

theorem wordBytes_get {ws : List Nat} {i w t : Nat} (here : ws[i]? = some w) (inside : t < 4) :
    (ws.flatMap wordBytes)[4 * i + t]? = some (leByte w t) := by
  induction ws generalizing i with
  | nil => simp at here
  | cons first ws ih =>
    have length : (wordBytes first).length = 4 := by simp [wordBytes]
    rw [List.flatMap_cons]
    cases i with
    | zero =>
      obtain rfl : first = w := by simpa using here
      rw [List.getElem?_append_left (by omega)]
      simp [wordBytes, inside]
    | succ i =>
      rw [List.getElem?_append_right (by omega), length, show 4 * (i + 1) + t - 4 = 4 * i + t by omega]
      exact ih (by simpa using here)

theorem length_ustack : (ustack sp ptrs).length = ptrs.length + 4 := by simp [ustack]

theorem userWord_ustack {ws : List Nat} {i w : Nat} (overlaid : Overlaid m pgdir esp (ws.flatMap wordBytes) m')
    (here : ws[i]? = some w) (small : w < 2 ^ 32) : userWord m' pgdir (esp + 4 * i) = some w := by
  refine userWord_of_bytes (fun t inside => ?_) small
  have known : i < ws.length := (List.getElem?_eq_some_iff.mp here).1
  rw [overlaid, length_wordBytes, if_pos (by omega), show esp + 4 * i + t - esp = 4 * i + t by omega]
  exact wordBytes_get here inside

structure Layout (m : Memory) (pgdir sz esp : Nat) (argv : List (List Byte)) (ptrs : List Nat) : Prop where
  inside : sz - pgSize ≤ esp
  returnAddress : userWord m pgdir esp = some 0xffffffff
  argc : userWord m pgdir (esp + 4) = some argv.length
  argvPointer : userWord m pgdir (esp + 8) = some (esp + 12)
  count : ptrs.length = argv.length
  pointers : ∀ i < argv.length, userWord m pgdir (esp + 12 + 4 * i) = ptrs[i]?
  null : userWord m pgdir (esp + 12 + 4 * argv.length) = some 0
  strings : ∀ x ∈ argv.zip ptrs, x.2 % 4 = 0 ∧ ∀ j ≤ x.1.length, byteOf m pgdir (x.2 + j) = (x.1 ++ [0])[j]?
  -- The strings lie between the words and the end of the page, and no two overlap.
  above : ∀ x ∈ argv.zip ptrs, esp + 4 * (argv.length + 4) ≤ x.2 ∧ x.2 + x.1.length + 1 ≤ sz
  apart : (argv.zip ptrs).Pairwise fun x y => y.2 + y.1.length + 1 ≤ x.2

def Elsewhere (esp : Nat) (argv : List (List Byte)) (ptrs : List Nat) (a : Nat) : Prop :=
  (a < esp ∨ esp + 4 * (argv.length + 4) ≤ a) ∧ ∀ x ∈ argv.zip ptrs, a < x.2 ∨ x.2 + x.1.length + 1 ≤ a

theorem layout_of_ustack {m₁ : Memory} (bottom : top * pgSize ≤ esp) (words : esp + 4 * (ptrs.length + 4) = last)
    (limit : (top + 1) * pgSize ≤ kernBase) (count : ptrs.length ≤ maxArg)
    (placed : Placed ((top + 1) * pgSize) argv ptrs last) (stored : Stored m pgdir argv ptrs m₁)
    (overlaid : Overlaid m₁ pgdir esp ((ustack last ptrs).flatMap wordBytes) m') :
    Layout m' pgdir ((top + 1) * pgSize) esp argv ptrs ∧
      ∀ a, Elsewhere esp argv ptrs a → byteOf m' pgdir a = byteOf m pgdir a := by
  have length := placed.length
  have below := placed.le
  have bounds := placed.bounds
  have size : ((ustack last ptrs).flatMap wordBytes).length = 4 * (ptrs.length + 4) := by
    rw [length_wordBytes, length_ustack]
  have small : last < 2 ^ 32 := Nat.lt_of_le_of_lt (below.trans limit) (by decide)
  have pointer : minus last ((ptrs.length + 1) * 4) = esp + 12 := by
    rw [minus_of_le (by omega) small]
    omega
  have word {i w : Nat} (here : (ustack last ptrs)[i]? = some w) (fits : w < 2 ^ 32) :
      userWord m' pgdir (esp + 4 * i) = some w := userWord_ustack overlaid here fits
  have above (a : Nat) (high : last ≤ a) : byteOf m' pgdir a = byteOf m₁ pgdir a := by
    rw [overlaid, if_neg (by omega)]
  refine ⟨⟨?_, ?_, ?_, ?_, length, fun i known => ?_, ?_, fun x known => ⟨(bounds x known).2.2, fun j inString => ?_⟩,
    fun x known => ?_, placed.pairwise⟩, fun a ⟨apart, other⟩ => ?_⟩
  · rw [Nat.succ_mul, Nat.add_sub_cancel]
    exact bottom
  · exact word (i := 0) rfl (by decide)
  · refine (word (i := 1) rfl ?_).trans (by rw [length])
    simp only [maxArg] at count
    omega
  · have third := word (i := 2) rfl (Nat.mod_lt _ (by decide))
    rwa [pointer] at third
  · have known' : i < ptrs.length := length ▸ known
    have here : (ustack last ptrs)[i + 3]? = some ptrs[i] := by
      simp only [ustack, List.cons_append, List.getElem?_cons_succ]
      rw [List.getElem?_append_left known', List.getElem?_eq_getElem known']
    have inString : (argv[i], ptrs[i]) ∈ argv.zip ptrs := by
      have zipped : i < (argv.zip ptrs).length := by simp [known, known']
      have member := List.getElem_mem zipped
      rwa [List.getElem_zip] at member
    have high := (bounds _ inString).2.1
    rw [List.getElem?_eq_getElem known', show esp + 12 + 4 * i = esp + 4 * (i + 3) by omega]
    refine word here ?_
    simp only [kernBase] at limit high
    omega
  · have here : (ustack last ptrs)[ptrs.length + 3]? = some 0 := by
      simp only [ustack, List.cons_append, List.getElem?_cons_succ]
      simp
    rw [← length, show esp + 12 + 4 * ptrs.length = esp + 4 * (ptrs.length + 3) by omega]
    exact word here (by decide)
  · have low := (bounds x known).1
    rw [above _ (by omega), stored.strings x known j inString]
  · have := bounds x known
    omega
  · rw [overlaid, size, if_neg (by omega), stored.others a other]

end Ustack

section SetUp

variable {argv : List (List Byte)}

theorem setUpStack_stops (ready : Ready image m owner p pgdir top) (small : ∀ s ∈ argv, s.length < kernBase)
    (reaches : Reaches top 0 ((top + 1) * pgSize) argv) :
    ∃ m', (setUpStack pgdir ((top + 1) * pgSize) argv).run m = (none, m') := by
  obtain ⟨m', stops⟩ := pushArgs_stops ready le_rfl small reaches
  exact ⟨m', run_bind_none stops⟩

theorem setUpStack_returns (ready : Ready image m owner p pgdir top) (small : ∀ s ∈ argv, s.length < kernBase)
    (stays : ¬Reaches top 0 ((top + 1) * pgSize) argv) :
    Returns (setUpStack pgdir ((top + 1) * pgSize) argv) m fun r m' => Rewritten image m owner p pgdir m' ∧
      ∀ esp, r = some esp → ∃ ptrs, Layout m' pgdir ((top + 1) * pgSize) esp argv ptrs ∧
        ∀ a, Elsewhere esp argv ptrs a → byteOf m' pgdir a = byteOf m pgdir a := by
  have limit := ready.limit
  have positive := ready.positive
  have order : top * pgSize ≤ (top + 1) * pgSize := Nat.mul_le_mul_right _ (Nat.le_succ top)
  refine returns_bind (pushArgs_returns ready order le_rfl small stays) fun r m₁ ⟨rewritten, pushes⟩ => ?_
  cases r with
  | none => exact returns_pure ⟨rewritten, fun _ wrong => by cases wrong⟩
  | some result =>
    obtain ⟨last, ptrs⟩ := result
    obtain ⟨bottom, placed, bound, stored⟩ := pushes last ptrs rfl
    have ready₁ := ready.rewrite rewritten
    have count : ptrs.length ≤ maxArg := by
      rw [placed.length]
      rcases bound with rfl | bound
      · exact Nat.zero_le _
      · omega
    have page : pgSize ≤ top * pgSize := Nat.le_mul_of_pos_left _ positive
    have below := placed.le
    have room : 4 * (ptrs.length + 4) ≤ pgSize := by
      simp only [maxArg, pgSize] at *
      omega
    have size : ((ustack last ptrs).flatMap wordBytes).length = 4 * (ptrs.length + 4) := by
      rw [length_wordBytes, length_ustack]
    obtain ⟨esp, words⟩ : ∃ esp, esp + 4 * (ptrs.length + 4) = last := ⟨_, Nat.sub_add_cancel (by omega)⟩
    have pointer : minus last ((3 + ptrs.length + 1) * 4) = esp := by
      rw [minus_of_le (by omega) (Nat.lt_of_le_of_lt (below.trans limit) (by decide))]
      omega
    rw [Nat.succ_mul] at below
    simp only [pointer]
    by_cases fits : top * pgSize ≤ esp
    · obtain ⟨v, used⟩ := Option.isSome_iff_exists.mp (ready₁.used le_rfl)
      obtain ⟨o, rfl⟩ := Nat.exists_eq_add_of_le fits
      have copied (buf : List Byte) (more : 0 < buf.length) (within : o + buf.length ≤ pgSize) :=
        copyout_page ready₁.process.good used ready₁.accessible more within
      refine returns_bind (copied _ (by omega) (by omega)) fun r m' after => ?_
      obtain ⟨value, again, overlaid⟩ := after
      rw [value, if_pos rfl]
      refine returns_pure ⟨rewritten.trans again, fun esp' same => ?_⟩
      obtain rfl := Option.some.inj same
      exact ⟨ptrs, layout_of_ustack fits words limit count placed stored overlaid⟩
    · obtain ⟨v, used⟩ := Option.isSome_iff_exists.mp (ready₁.used (Nat.sub_le top 1))
      obtain ⟨t, here⟩ := table_of_mapped used
      have low := (present_of_mapped used).1
      have guardPage : (top - 1) * pgSize + pgSize = top * pgSize := by
        rw [← Nat.succ_mul, Nat.succ_eq_add_one, Nat.sub_add_cancel positive]
      obtain ⟨o, rfl⟩ : ∃ o, esp = (top - 1) * pgSize + o := Nat.exists_eq_add_of_le (by omega)
      have known : top - 1 < nEntries * nEntries := Nat.lt_of_lt_of_le low (by decide)
      have blocked (buf : List Byte) (more : 0 < buf.length) := copyout_blocked (d := 0) ready₁.process.good
        (fun k _ limit => by omega) known here ready₁.guard (show o < pgSize by omega) more (by omega)
      refine returns_bind (blocked _ (by omega)) fun r m' after => ?_
      obtain ⟨value, again⟩ := after
      rw [value, if_neg (by decide)]
      exact returns_pure ⟨rewritten.trans again, fun _ wrong => by cases wrong⟩

end SetUp

end Xv6.Vm
