import Xv6.Vm.User

set_option autoImplicit false

namespace Xv6.Vm

open Halting Bytes Ledger

variable {P : Type} {image : Image} {m m' : Memory} {owner owner' : Owner P} {p : P} {pgdir : Nat}

def Unused (owner : Owner P) (p : P) : Prop := ∀ v u, owner v = .used u → ¬u.above p 0

section Sections

def Kmap.first (k : Kmap) : Nat := k.virt / pgSize
def Kmap.pages (k : Kmap) : Nat := (k.physEnd + (2 ^ 32 - k.physStart)) % 2 ^ 32 / pgSize
def Kmap.frame (k : Kmap) : Nat := k.physStart / pgSize

structure Kmap.Fits (k : Kmap) : Prop where
  aligned : k.virt % pgSize = 0 ∧ k.physStart % pgSize = 0 ∧ k.physEnd % pgSize = 0
  some : 0 < k.pages
  kernel : userPages ≤ k.first
  virt : k.first + k.pages ≤ nEntries * nEntries
  phys : k.frame + k.pages ≤ nEntries * nEntries
  perm : k.perm < pgSize

def Kmap.Has (k : Kmap) (n : Nat) : Prop := k.first ≤ n ∧ n < k.first + k.pages

instance (k : Kmap) (n : Nat) : Decidable (k.Has n) := inferInstanceAs (Decidable (_ ∧ _))

-- The entries after the pages from `j` on are mapped to those from `f` on.
def ranged (j n f perm : Nat) (entries : Nat → Nat) (k : Nat) : Nat :=
  if j ≤ k ∧ k < j + n then (f + (k - j)) * pgSize ||| perm ||| pteP else entries k

def kmapped : List Kmap → (Nat → Nat) → Nat → Nat
  | [], entries => entries
  | k :: rest, entries => kmapped rest (ranged k.first k.pages k.frame k.perm entries)

-- No section maps a page that is mapped already.
def Apart : List Kmap → (Nat → Nat) → Prop
  | [], _ => True
  | k :: rest, entries =>
    (∀ n, k.Has n → present (entries n) = false) ∧ Apart rest (ranged k.first k.pages k.frame k.perm entries)

def kernelEntry (image : Image) : Nat → Nat := kmapped (kmap image) fun _ => 0

variable {n : Nat} {entries : Nat → Nat} {ks : List Kmap}

def filled (j n : Nat) (g entries : Nat → Nat) (k : Nat) : Nat :=
  if j ≤ k ∧ k < j + n then g (k - j) else entries k

theorem filled_succ {j : Nat} (g : Nat → Nat) :
    filled (j + 1) n (fun i => g (i + 1)) (Function.update entries j (g 0)) = filled j (n + 1) g entries := by
  funext k
  by_cases first : k = j
  · subst first
    simp [filled]
  by_cases inside : j + 1 ≤ k ∧ k < j + 1 + n
  · have index : k - (j + 1) + 1 = k - j := by omega
    rw [filled, filled, if_pos inside, if_pos (by omega), index]
  · rw [filled, filled, if_neg inside, if_neg (by omega), Function.update_of_ne first]

theorem ranged_succ {j f perm : Nat} :
    ranged (j + 1) n (f + 1) perm (Function.update entries j (f * pgSize ||| perm ||| pteP)) =
      ranged j (n + 1) f perm entries := by
  have shifted := @filled_succ n entries j fun i => (f + i) * pgSize ||| perm ||| pteP
  simp only [← Nat.add_assoc, Nat.add_right_comm f _ 1] at shifted
  exact shifted

theorem v2p_data (image : Image) : v2p image.data = image.data - kernBase := by
  have text := image.text
  have fits := image.fits
  simp only [v2p, kernLink, kernBase, extMem, physTop] at *
  omega

theorem kmap_fits (image : Image) : ∀ k ∈ kmap image, k.Fits := by
  have aligned := image.aligned
  have text := image.text
  have fits := image.fits
  intro k known
  rw [kmap, v2p_data, show v2p kernLink = extMem by decide] at known
  simp only [List.mem_cons, List.not_mem_nil, or_false] at known
  obtain rfl | rfl | rfl | rfl := known
  all_goals
    simp only [kernBase, kernLink, extMem, physTop, pgSize] at aligned text fits
    refine ⟨⟨?_, ?_, ?_⟩, ?_, ?_, ?_, ?_, ?_⟩ <;>
      simp only [Kmap.first, Kmap.pages, Kmap.frame, kernBase, kernLink, extMem, physTop, devSpace, pgSize, userPages,
        nEntries, pteW] <;>
      omega

theorem ranged_outside {j f perm k : Nat} (outside : ¬(j ≤ k ∧ k < j + n)) :
    ranged j n f perm entries k = entries k := if_neg outside

theorem kmapped_outside (outside : ∀ k ∈ ks, ¬k.Has n) : kmapped ks entries n = entries n := by
  induction ks generalizing entries with
  | nil => rfl
  | cons k rest ih =>
    rw [kmapped, ih fun k known => outside k (List.mem_cons_of_mem _ known)]
    exact ranged_outside (outside k List.mem_cons_self)

-- What the entries of the kernel pages have in common.
def KernelOnly (pte : Nat) : Prop := present pte = true ∧ user pte = false

theorem ranged_kernelOnly {j f perm k : Nat} (inside : j ≤ k ∧ k < j + n) (closed : user perm = false) :
    KernelOnly (ranged j n f perm entries k) := by
  have aligned : (f + (k - j)) * pgSize % pgSize = 0 := Nat.mul_mod_left ..
  rw [ranged, if_pos inside, Nat.or_assoc]
  refine ⟨?_, ?_⟩
  · rw [present, testBit_or_aligned aligned (by decide), Nat.testBit_or]
    simp [pteP]
  · rw [user] at closed ⊢
    rw [testBit_or_aligned aligned (by decide), Nat.testBit_or, closed]
    rfl

theorem kmapped_kernelOnly (perms : ∀ k ∈ ks, user k.perm = false)
    (inside : KernelOnly (entries n) ∨ ∃ k ∈ ks, k.Has n) : KernelOnly (kmapped ks entries n) := by
  induction ks generalizing entries with
  | nil => simpa [kmapped] using inside
  | cons k rest ih =>
    refine ih (fun k known => perms k (List.mem_cons_of_mem _ known)) ?_
    by_cases here : k.Has n
    · exact Or.inl (ranged_kernelOnly here (perms k List.mem_cons_self))
    obtain before | ⟨k', known, has⟩ := inside
    · left
      rwa [ranged_outside here]
    · obtain rfl | later := List.mem_cons.mp known
      · exact absurd has here
      · exact Or.inr ⟨k', later, has⟩

theorem kmapped_lt (fits : ∀ k ∈ ks, k.Fits) (small : entries n < 2 ^ 32) : kmapped ks entries n < 2 ^ 32 := by
  induction ks generalizing entries with
  | nil => exact small
  | cons k rest ih =>
    refine ih (fun k known => fits k (List.mem_cons_of_mem _ known)) ?_
    have fit := fits k List.mem_cons_self
    unfold ranged
    split
    next inside =>
      rw [Nat.or_assoc]
      refine or_lt (Nat.mul_mod_left ..) (perm_lt fit.perm) ?_
      have phys := fit.phys
      simp only [nEntries, pgSize] at *
      omega
    next => exact small

theorem kernelEntry_lt (image : Image) (n : Nat) : kernelEntry image n < 2 ^ 32 :=
  kmapped_lt (kmap_fits image) (by decide)

def kernelPage (n : Nat) : Prop :=
  userPages ≤ n ∧ n * pgSize < kernBase + physTop ∨ devSpace ≤ n * pgSize ∧ n < nEntries * nEntries

theorem kmap_has (image : Image) (n : Nat) : (∃ k ∈ kmap image, k.Has n) ↔ kernelPage n := by
  have aligned := image.aligned
  have text := image.text
  have fits := image.fits
  rw [kmap, v2p_data, show v2p kernLink = extMem by decide]
  simp only [kernBase, kernLink, extMem, physTop, pgSize] at aligned text fits
  simp only [List.mem_cons, List.not_mem_nil, or_false, exists_eq_or_imp, exists_eq_left, Kmap.Has, Kmap.first,
    Kmap.pages, kernelPage, kernBase, kernLink, extMem, physTop, devSpace, pgSize, userPages, nEntries]
  omega

theorem kernelEntry_of_not (not : ¬kernelPage n) : kernelEntry image n = 0 := by
  rw [← kmap_has image] at not
  refine kmapped_outside fun k known has => not ⟨k, known, has⟩

theorem kernelEntry_kernelOnly (kernel : kernelPage n) : KernelOnly (kernelEntry image n) := by
  refine kmapped_kernelOnly (fun k known => ?_) (Or.inr ((kmap_has image n).mpr kernel))
  simp only [kmap, List.mem_cons, List.not_mem_nil, or_false] at known
  obtain rfl | rfl | rfl | rfl := known <;> dsimp only <;> decide

theorem user_not_kernel (low : n < userPages) : ¬kernelPage n := by
  simp only [kernelPage, userPages, kernBase, devSpace, pgSize] at *
  omega

theorem kmap_apart (image : Image) : Apart (kmap image) fun _ => 0 := by
  have aligned := image.aligned
  have text := image.text
  have fits := image.fits
  have zero {j n f perm k : Nat} {entries : Nat → Nat} (before : present (entries k) = false)
      (outside : ¬(j ≤ k ∧ k < j + n)) : present (ranged j n f perm entries k) = false := by
    rwa [ranged_outside outside]
  rw [kmap, v2p_data, show v2p kernLink = extMem by decide]
  simp only [kernBase, kernLink, extMem, physTop, pgSize] at aligned text fits
  refine ⟨fun n _ => present_zero, fun n has => ?_, fun n has => ?_, fun n has => ?_, trivial⟩
  · refine zero present_zero ?_
    simp only [Kmap.Has, Kmap.first, Kmap.pages, kernBase, kernLink, extMem, pgSize] at has ⊢
    omega
  · refine zero (zero present_zero ?_) ?_ <;>
      simp only [Kmap.Has, Kmap.first, Kmap.pages, kernBase, kernLink, extMem, physTop, pgSize] at has ⊢ <;>
      omega
  · refine zero (zero (zero present_zero ?_) ?_) ?_ <;>
      simp only [Kmap.Has, Kmap.first, Kmap.pages, kernBase, kernLink, extMem, physTop, devSpace, pgSize] at has ⊢ <;>
      omega

end Sections

section Map

theorem mapPage_kernel {j f perm : Nat} (good : Good image m owner p pgdir) (high : userPages ≤ j)
    (known : j < nEntries * nEntries) (phys : f < nEntries * nEntries) (small : perm < pgSize)
    (fresh : present (entry m pgdir j) = false) :
    Returns (mapPage pgdir perm (j * pgSize) (f * pgSize)) m fun r m' => ∃ owner', Good image m' owner' p pgdir ∧
      Acts (Use.structural p) m.page owner m'.page owner' ∧
      (∀ i, i ≠ j / nEntries → table m' pgdir i = table m pgdir i) ∧
      (r = true → entry m' pgdir = Function.update (entry m pgdir) j (f * pgSize ||| perm ||| pteP)) := by
  refine returns_post (mapPage_returns good known fresh) fun r m' mapped => ?_
  cases r with
  | false =>
    obtain ⟨pages, list⟩ := mapped
    refine ⟨owner, good.same pages list, pages ▸ Acts.refl _ _ _, fun i _ => ?_, fun wrong => by cases wrong⟩
    rw [table_congr (congrFun pages _)]
  | true =>
    obtain ⟨m₁, owner₁, t, good₁, acts, entries, tables, rfl⟩ := mapped
    have here : table m₁ pgdir (j / nEntries) = some t := by rw [tables, Function.update_self]
    have held := (good₁.space.tables _ t).mpr here
    have below : f * pgSize ||| perm ||| pteP < 2 ^ 32 := by
      rw [Nat.or_assoc]
      refine or_lt (Nat.mul_mod_left ..) (perm_lt small) ?_
      simp only [nEntries, pgSize] at *
      omega
    refine ⟨owner₁, good₁.put_kernel here high below, acts.trans (acts_write ?_ _), fun i other => ?_, fun _ => ?_⟩
    · simp [held, Status.Within, Use.structural]
    · rw [table_put good₁.space.tabled here, tables, Function.update_of_ne other]
    · rw [entry_put good₁.space.tabled here below, entries]

theorem mapLoop_kernel {n j f perm : Nat} (good : Good image m owner p pgdir) (high : userPages ≤ j)
    (known : j + n ≤ nEntries * nEntries) (phys : f + n ≤ nEntries * nEntries) (small : perm < pgSize)
    (fresh : ∀ k, j ≤ k → k < j + n → present (entry m pgdir k) = false) :
    Returns (mapLoop pgdir perm n (j * pgSize % 2 ^ 32) (f * pgSize % 2 ^ 32)) m fun r m' => ∃ owner',
      Good image m' owner' p pgdir ∧ Acts (Use.structural p) m.page owner m'.page owner' ∧
      (∀ i, (∀ k, j ≤ k → k < j + n → i ≠ k / nEntries) → table m' pgdir i = table m pgdir i) ∧
      (r = true → entry m' pgdir = ranged j n f perm (entry m pgdir)) := by
  induction n generalizing m owner j f with
  | zero =>
    refine returns_pure ⟨owner, good, Acts.refl _ _ _, fun _ _ => rfl, fun _ => ?_⟩
    funext k
    exact (ranged_outside (by omega)).symm
  | succ n ih =>
    have inside : j * pgSize % 2 ^ 32 = j * pgSize ∧ f * pgSize % 2 ^ 32 = f * pgSize := by
      simp only [nEntries, pgSize] at *
      omega
    rw [mapLoop, inside.1, inside.2]
    have page := mapPage_kernel (f := f) good high (by omega) (by omega) small (fresh j le_rfl (by omega))
    refine returns_bind page fun r m₁ first => ?_
    obtain ⟨owner₁, good₁, acts₁, tables₁, entries₁⟩ := first
    cases r with
    | false =>
      refine returns_pure ⟨owner₁, good₁, acts₁, fun i apart => ?_, fun wrong => by cases wrong⟩
      exact tables₁ i (apart j le_rfl (by omega))
    | true =>
      have next (a : Nat) : nextPage (a * pgSize) = (a + 1) * pgSize % 2 ^ 32 := by rw [nextPage, Nat.succ_mul]
      have later (k : Nat) (low : j + 1 ≤ k) (limit : k < j + 1 + n) : present (entry m₁ pgdir k) = false := by
        rw [entries₁ rfl, Function.update_of_ne (by omega)]
        exact fresh k (by omega) (by omega)
      rw [if_pos rfl, next, next]
      refine returns_post (ih good₁ (by omega) (by omega) (by omega) later) fun r m' after => ?_
      obtain ⟨owner', good', acts, tables, entries⟩ := after
      refine ⟨owner', good', acts₁.trans acts, fun i apart => ?_, fun success => ?_⟩
      · rw [tables i fun k low limit => apart k (by omega) (by omega), tables₁ i (apart j le_rfl (by omega))]
      · rw [entries success, entries₁ rfl, ranged_succ]

theorem last_page {first n : Nat} (some : 0 < n) (bound : first + n ≤ nEntries * nEntries) :
    pgRoundDown ((first * pgSize + n * pgSize + (2 ^ 32 - 1)) % 2 ^ 32) = (first + n - 1) * pgSize := by
  obtain ⟨n, rfl⟩ : ∃ k, n = k + 1 := ⟨n - 1, by omega⟩
  have before : first * pgSize + (n + 1) * pgSize + (2 ^ 32 - 1) = (first + n) * pgSize + (pgSize - 1) + 2 ^ 32 := by
    simp only [pgSize]
    omega
  have small : (first + n) * pgSize + (pgSize - 1) < 2 ^ 32 := by
    simp only [nEntries, pgSize] at *
    omega
  have round : pgRoundDown ((first + n) * pgSize + (pgSize - 1)) = (first + n) * pgSize := by
    simp only [pgRoundDown, pgSize]
    omega
  have index : first + (n + 1) - 1 = first + n := by omega
  rw [before, Nat.add_mod_right, Nat.mod_eq_of_lt small, round, index]

theorem mapKernel_eq {k : Kmap} (fits : k.Fits) :
    mapKernel pgdir k = mapLoop pgdir k.perm k.pages (k.first * pgSize % 2 ^ 32) (k.frame * pgSize % 2 ^ 32) := by
  obtain ⟨⟨virt, start, stop⟩, some, kernel, bound, phys, perm⟩ := fits
  have size : (k.physEnd + (2 ^ 32 - k.physStart)) % 2 ^ 32 = k.pages * pgSize := by
    simp only [Kmap.pages, Kmap.frame, nEntries, pgSize] at *
    omega
  have first : pgRoundDown k.virt = k.first * pgSize % 2 ^ 32 := by
    simp only [Kmap.first, pgRoundDown, nEntries, pgSize] at *
    omega
  have last : pgRoundDown ((k.virt + k.pages * pgSize + (2 ^ 32 - 1)) % 2 ^ 32) = (k.first + k.pages - 1) * pgSize := by
    have page : k.virt = k.first * pgSize := (Nat.div_mul_cancel (Nat.dvd_of_mod_eq_zero virt)).symm
    rw [page, last_page some bound]
  have rounds : ((k.first + k.pages - 1) * pgSize + (2 ^ 32 - k.first * pgSize % 2 ^ 32)) % 2 ^ 32 / pgSize + 1 =
      k.pages := by
    simp only [nEntries, pgSize] at *
    omega
  have frame : k.physStart = k.frame * pgSize % 2 ^ 32 := by
    simp only [Kmap.frame, nEntries, pgSize] at *
    omega
  rw [mapKernel, mappages, size, first, last, rounds, ← frame]

theorem kmapLoop_returns {ks : List Kmap} (good : Good image m owner p pgdir) (fits : ∀ k ∈ ks, k.Fits)
    (apart : Apart ks (entry m pgdir)) : Returns (kmapLoop (mapKernel pgdir) ks) m fun r m' => ∃ owner',
      Good image m' owner' p pgdir ∧ Acts (Use.structural p) m.page owner m'.page owner' ∧
      (∀ i, (∀ k ∈ ks, ∀ n, k.Has n → i ≠ n / nEntries) → table m' pgdir i = table m pgdir i) ∧
      (r = true → entry m' pgdir = kmapped ks (entry m pgdir)) := by
  induction ks generalizing m owner with
  | nil => exact returns_pure ⟨owner, good, Acts.refl _ _ _, fun _ _ => rfl, fun _ => rfl⟩
  | cons k rest ih =>
    obtain ⟨fresh, later⟩ := apart
    have fit := fits k List.mem_cons_self
    rw [kmapLoop, mapKernel_eq fit]
    have here := mapLoop_kernel good fit.kernel fit.virt fit.phys fit.perm fun n low high => fresh n ⟨low, high⟩
    refine returns_bind here fun r m₁ ⟨owner₁, good₁, acts₁, tables₁, entries₁⟩ => ?_
    cases r with
    | false =>
      refine returns_pure ⟨owner₁, good₁, acts₁, fun i other => ?_, fun wrong => by cases wrong⟩
      exact tables₁ i fun n low high => other k List.mem_cons_self n ⟨low, high⟩
    | true =>
      rw [if_pos rfl]
      rw [← entries₁ rfl] at later
      refine returns_post (ih good₁ (fun k known => fits k (List.mem_cons_of_mem _ known)) later) fun r m' after => ?_
      obtain ⟨owner', good', acts, tables, entries⟩ := after
      refine ⟨owner', good', acts₁.trans acts, fun i other => ?_, fun success => ?_⟩
      · rw [tables i fun k' known => other k' (List.mem_cons_of_mem _ known),
          tables₁ i fun n low high => other k List.mem_cons_self n ⟨low, high⟩]
      · rw [entries success, entries₁ rfl, kmapped]

end Map

section Free

-- What is left of an address space while freevm frees the page tables with the indices in `rest`.
structure Freeing (image : Image) (m : Memory) (owner : Owner P) (p : P) (pgdir : Nat) (rest : List Nat) : Prop where
  account : Account (Frame image) m.freelist owner
  dir : ∀ v, owner v = .used (.pgdir p) ↔ v = pgdir
  tables : ∀ i v, owner v = .used (.table p i) ↔ i ∈ rest ∧ table m pgdir i = some v
  users : ∀ n v, owner v ≠ .used (.user p n)
  clean : NoLoose owner p

variable {rest : List Nat}

theorem Freeing.skip {i : Nat} (freeing : Freeing image m owner p pgdir (i :: rest))
    (missing : table m pgdir i = none) : Freeing image m owner p pgdir rest := by
  refine ⟨freeing.account, freeing.dir, fun k v => ?_, freeing.users, freeing.clean⟩
  rw [freeing.tables, List.mem_cons]
  by_cases same : k = i
  · subst same
    simp [missing]
  · simp [same]

theorem Freeing.free {i t : Nat} (freeing : Freeing image m owner p pgdir (i :: rest)) (nodup : (i :: rest).Nodup)
    (here : table m pgdir i = some t) : Freeing image (m.freed t) (Function.update owner t .free) p pgdir rest ∧
      Acts (Use.above p 0) m.page owner (m.freed t).page (Function.update owner t .free) := by
  have held : owner t = .used (.table p i) := (freeing.tables i t).mpr ⟨List.mem_cons_self, here⟩
  have notDir : t ≠ pgdir := by
    rintro rfl
    rw [(freeing.dir t).mpr rfl] at held
    cases held
  have tables : table (m.freed t) pgdir = table m pgdir := table_congr (Function.update_of_ne notDir.symm _ _)
  have write : Acts (Use.above p 0) m.page owner (m.freed t).page owner :=
    acts_write (by simp [held, Status.Within, Use.above]) _
  refine ⟨⟨freeing.account.give held, fun v => ?_, fun k v => ?_, fun n v => ?_, fun v => ?_⟩,
    write.trans (acts_pass (by simp [held, Status.Within, Use.above]) trivial)⟩
  · by_cases same : v = t
    · subst same
      simp [notDir]
    · rw [Function.update_of_ne same, freeing.dir]
  · rw [tables]
    by_cases same : v = t
    · subst same
      rw [Function.update_self]
      refine iff_of_false (by simp) fun both => ?_
      obtain ⟨known, hung⟩ := both
      have again := (freeing.tables k v).mpr ⟨List.mem_cons_of_mem _ known, hung⟩
      rw [held] at again
      cases again
      exact (List.nodup_cons.mp nodup).1 known
    · rw [Function.update_of_ne same, freeing.tables, List.mem_cons]
      by_cases index : k = i
      · subst index
        have other : table m pgdir k ≠ some v := fun hung => same (Option.some.inj (hung.symm.trans here))
        simp [other]
      · simp [index]
  · by_cases same : v = t
    · subst same
      simp
    · rw [Function.update_of_ne same]
      exact freeing.users n v
  · by_cases same : v = t
    · subst same
      simp
    · rw [Function.update_of_ne same]
      exact freeing.clean v

theorem freeTables_returns (freeing : Freeing image m owner p pgdir rest) (nodup : rest.Nodup)
    (known : ∀ i ∈ rest, i < nEntries) :
    Returns (freeTables image pgdir rest) m fun _ m' => ∃ owner', Freeing image m' owner' p pgdir [] ∧
      Acts (Use.above p 0) m.page owner m'.page owner' := by
  induction rest generalizing m owner with
  | nil => exact returns_pure ⟨owner, freeing, Acts.refl _ _ _⟩
  | cons i rest ih =>
    have small := known i List.mem_cons_self
    have later : ∀ i ∈ rest, i < nEntries := fun i there => known i (List.mem_cons_of_mem _ there)
    have nodup' := (List.nodup_cons.mp nodup).2
    have loaded : (loadWord pgdir i).run m = (some (word m pgdir i), m) := rfl
    rw [freeTables, freeTable]
    by_cases valid : present (word m pgdir i) = true
    · have here : table m pgdir i = some (p2v (pteAddr (word m pgdir i))) := by rw [table, if_pos ⟨small, valid⟩]
      have held := (freeing.tables i _).mpr ⟨List.mem_cons_self, here⟩
      have frame : Frame image (p2v (pteAddr (word m pgdir i))) := freeing.account.valid _ (by simp [held])
      obtain ⟨freeing', acts⟩ := freeing.free nodup here
      have freed : (freeTable image pgdir i).run m = (some (), m.freed (p2v (pteAddr (word m pgdir i)))) := by
        rw [freeTable, run_bind_some loaded, if_pos valid, kfree_run frame]
      refine returns_step freed (returns_post (ih freeing' nodup' later) fun _ m' after => ?_)
      obtain ⟨owner', done, more⟩ := after
      exact ⟨owner', done, acts.trans more⟩
    · have missing : table m pgdir i = none := by rw [table, if_neg fun both => valid both.2]
      have skipped : (freeTable image pgdir i).run m = (some (), m) := by
        rw [freeTable, run_bind_some loaded, if_neg valid]
        rfl
      exact returns_step skipped (ih (freeing.skip missing) nodup' later)

theorem mapped_kernBase {m' : Memory} (entries : entry m' pgdir = dropped 0 kernBase (entry m pgdir)) (n : Nat) :
    mapped m' pgdir n = none := by
  rw [mapped_dropped entries]
  split
  next => rfl
  next past =>
    rw [mapped, if_neg fun valid => past ⟨Nat.zero_le n, ?_⟩]
    simp only [userPages, kernBase, pgSize] at *
    omega

theorem freevm_returns (good : Good image m owner p pgdir) (clean : NoLoose owner p) :
    Returns (freevm image pgdir) m fun _ m' => ∃ owner', Account (Frame image) m'.freelist owner' ∧
      Acts (Use.above p 0) m.page owner m'.page owner' ∧ Unused owner' p := by
  refine returns_bind (deallocuvm_returns good le_rfl) fun _ m₁ ⟨_, owner₁, good₁, acts₁, entries, _⟩ => ?_
  have freeing : Freeing image m₁ owner₁ p pgdir (List.range nEntries) := by
    refine ⟨good₁.account, good₁.space.dir, fun i v => ?_, fun n v held => ?_, fun v held => ?_⟩
    · rw [good₁.space.tables, List.mem_range]
      exact ⟨fun hung => ⟨table_lt hung, hung⟩, And.right⟩
    · have used := (good₁.space.users n v).mp held
      rw [mapped_kernBase entries] at used
      cases used
    · exact clean v (acts₁.only v _ (by simp [Use.dropping]) held)
  refine returns_bind (freeTables_returns freeing List.nodup_range fun i => List.mem_range.mp) ?_
  rintro _ m₂ ⟨owner₂, done, acts₂⟩
  have dir : owner₂ pgdir = .used (.pgdir p) := (done.dir pgdir).mpr rfl
  have write : Acts (Use.above p 0) m₂.page owner₂ (m₂.freed pgdir).page owner₂ :=
    acts_write (by simp [dir, Status.Within, Use.above]) _
  have acts₃ : Acts (Use.above p 0) m₂.page owner₂ (m₂.freed pgdir).page (Function.update owner₂ pgdir .free) :=
    write.trans (acts_pass (by simp [dir, Status.Within, Use.above]) trivial)
  refine ⟨(), _, kfree_run (done.account.valid _ (by simp [dir])), _, done.account.give dir,
    ((acts₁.mono (Use.above_of_dropping _)).trans acts₂).trans acts₃, fun v u held mine => ?_⟩
  by_cases same : v = pgdir
  · subst same
    simp at held
  rw [Function.update_of_ne same] at held
  cases u with
  | pgdir q =>
    obtain rfl : q = p := mine
    exact same ((done.dir v).mp held)
  | table q i =>
    obtain rfl : q = p := mine
    exact absurd ((done.tables i v).mp held).1 List.not_mem_nil
  | user q n =>
    obtain rfl : q = p := mine.1
    exact done.users n v held
  | loose q =>
    obtain rfl : q = p := mine
    exact done.clean v held
  | stack | pipe => exact mine

end Free

section Setup

def kernelTable (i : Nat) : Prop := ∃ n, kernelPage n ∧ i = n / nEntries

theorem setupkvm_returns (account : Account (Frame image) m.freelist owner) (unused : Unused owner p) :
    Returns (setupkvm image) m fun r m' => ∃ owner', Acts (Use.above p 0) m.page owner m'.page owner' ∧ match r with
      | none => Account (Frame image) m'.freelist owner' ∧ Unused owner' p
      | some d => Good image m' owner' p d ∧ NoLoose owner' p ∧ entry m' d = kernelEntry image ∧
          ∀ i, ¬kernelTable i → table m' d i = none := by
  refine returns_bind kalloc_returns fun r m₁ ⟨pages, _, list⟩ => ?_
  cases r with
  | none => exact returns_pure ⟨owner, pages ▸ Acts.refl _ _ _, list ▸ account, unused⟩
  | some d =>
    have account₁ : Account (Frame image) (d :: m₁.freelist) owner := list ▸ account
    have free : owner d = .free := (account₁.listed d).mpr List.mem_cons_self
    let owner₁ := Function.update owner d (.used (.pgdir p))
    let zeroed := m₁.write d fun _ => 0
    have zero : zeroed.page d = fun _ => 0 := Function.update_self ..
    have apart (v : Nat) (u : Use P) (held : owner₁ v = .used u) (mine : u.above p 0) :
        v = d ∧ u = .pgdir p := by
      by_cases same : v = d
      · subst same
        simp only [owner₁, Function.update_self] at held
        cases held
        exact ⟨rfl, rfl⟩
      · simp only [owner₁, Function.update_of_ne same] at held
        exact absurd mine (unused v u held)
    have clean : NoLoose owner₁ p := fun v held => by cases (apart v _ held rfl).2
    have space : Space zeroed owner₁ p d := by
      refine Space.empty zero (fun v => ⟨fun held => (apart v _ held rfl).1, ?_⟩) (fun i v held => ?_) fun n v held => ?_
      · rintro rfl
        exact Function.update_self ..
      · cases (apart v _ held rfl).2
      · cases (apart v _ held ⟨rfl, Nat.zero_le n⟩).2
    have good : Good image zeroed owner₁ p d := ⟨account₁.take _, space⟩
    have first : Acts (Use.above p 0) m.page owner zeroed.page owner :=
      pages ▸ acts_write (by simp [free, Status.Within]) _
    have start : Acts (Use.above p 0) m.page owner zeroed.page owner₁ :=
      first.trans (acts_pass (by simp [free, Status.Within]) rfl)
    have entries : entry zeroed d = fun _ => 0 := funext (entry_zero zero)
    refine returns_step rfl ?_
    rw [if_neg (by decide)]
    have loop := kmapLoop_returns good (kmap_fits image) (entries ▸ kmap_apart image)
    refine returns_bind loop fun r m₂ after => ?_
    obtain ⟨owner₂, good₂, acts₂, tables₂, entries₂⟩ := after
    have total := start.trans (acts₂.mono (Use.above_of_structural 0))
    have clean₂ : NoLoose owner₂ p := fun v held => clean v (acts₂.only v _ (by simp [Use.structural]) held)
    cases r with
    | true =>
      rw [entries] at entries₂
      refine returns_pure ⟨owner₂, total, good₂, clean₂, entries₂ rfl, fun i other => ?_⟩
      rw [tables₂ i fun k known n has same => other ⟨n, (kmap_has image n).mp ⟨k, known, has⟩, same⟩]
      exact table_zero zero i
    | false =>
      refine returns_bind (freevm_returns good₂ clean₂) fun _ m' freed => ?_
      obtain ⟨owner', account', acts', unused'⟩ := freed
      exact returns_pure ⟨owner', total.trans acts', account', unused'⟩

end Setup

end Xv6.Vm
