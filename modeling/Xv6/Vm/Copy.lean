import Xv6.Vm.Growproc
import Xv6.Vm.Kernel

set_option autoImplicit false

namespace Xv6.Vm

open Halting Bytes Ledger

variable {P : Type} {image : Image} {m m' : Memory} {owner owner' : Owner P} {p q : P} {pgdir d : Nat}

section Flags

theorem pteFlags_or {x f : Nat} (aligned : x % pgSize = 0) (small : f < pgSize) : pteFlags (x ||| f) = f := by
  rw [or_eq_add aligned small, pteFlags]
  simp only [pgSize] at *
  omega

theorem pteFlags_lt (pte : Nat) : pteFlags pte < pgSize := Nat.mod_lt _ (by decide)

-- The flags of an entry that is present have PTE_P already.
theorem pteFlags_present {pte : Nat} (valid : present pte = true) : pteFlags pte ||| pteP = pteFlags pte := by
  refine Nat.eq_of_testBit_eq fun i => ?_
  rw [Nat.testBit_or]
  cases i with
  | zero =>
    have bit : (pteFlags pte).testBit 0 = true := by
      rw [pteFlags, Nat.testBit_mod_two_pow]
      simpa [present] using valid
    simp [bit]
  | succ i =>
    have none : pteP.testBit (i + 1) = false := by
      rw [pteP, Nat.testBit_succ]
      simp
    rw [none, Bool.or_false]

end Flags

section Pages

theorem Use.above_apart {low : Nat} (apart : p ≠ q) (u : Use P) (touched : u.above q low) : ¬u.of p := by
  cases u with
  | pgdir r | table r => exact fun mine => apart (mine.symm.trans touched)
  | user r => exact fun mine => apart (mine.symm.trans touched.1)
  | loose | stack | pipe => exact id

def SamePages (m : Memory) (pgdir : Nat) (m' : Memory) (d low hi : Nat) : Prop :=
  ∀ k, low ≤ k → k < hi → ∃ v w, mapped m pgdir k = some v ∧ mapped m' d k = some w ∧ m'.page w = m.page v ∧
    pteFlags (entry m' d k) = pteFlags (entry m pgdir k)

theorem copyPage_returns {n v : Nat} (good : Good image m owner q d) (clean : NoLoose owner q)
    (used : mapped m pgdir n = some v) (fresh : present (entry m d n) = false) :
    Returns (copyPage image pgdir d (n * pgSize)) m fun r m' => ∃ owner', Grown image m owner q d n (n + 1) m' owner' ∧
      (r = true → ∃ w, mapped m' d n = some w ∧ m'.page w = m.page v ∧
        pteFlags (entry m' d n) = pteFlags (entry m pgdir n)) := by
  obtain ⟨low, valid, source⟩ := present_of_mapped used
  obtain ⟨t, here⟩ := table_of_mapped used
  have bound : n < nEntries * nEntries := Nat.lt_of_lt_of_le low (by decide)
  refine returns_step (walkpgdir_page bound here) (returns_step (loadWord_entry here) ?_)
  rw [if_pos valid, ← source]
  refine returns_bind (kalloc_loose good) fun r m₁ ⟨pages, taken⟩ => ?_
  cases r with
  | none =>
    have aside := good.unchanged pages taken
    refine returns_pure ⟨owner, ⟨aside.good, pages ▸ Acts.refl _ _ _, clean, fun k _ => ?_, fun i _ => ?_⟩,
      fun wrong => by cases wrong⟩
    · rw [aside.entries]
    · rw [aside.tables]
  | some mem =>
    have filled := taken.trans (taken.good.write_loose (Function.update_self ..) (m₁.page v))
    refine returns_step rfl (returns_step rfl ?_)
    refine returns_bind (filled.mappages clean low fresh (pteFlags_lt (entry m pgdir n))) fun r m₃ mapped => ?_
    cases r with
    | true =>
      obtain ⟨owner', grown, mine, same, is⟩ := mapped
      refine returns_pure ⟨owner', grown, fun _ => ⟨mem, mine, ?_, ?_⟩⟩
      · rw [same, ← pages]
        exact Function.update_self ..
      · have aligned := (filled.good.frame (Function.update_self ..)).v2p_aligned
        rw [is, Nat.or_assoc, pteFlags_present valid, pteFlags_or aligned (pteFlags_lt _)]
    | false =>
      have loose : Function.update owner mem (.used (.loose q)) mem = .used (.loose q) := Function.update_self ..
      have freed := mapped.trans (mapped.good.free_loose loose)
      refine returns_step (kfree_run (mapped.good.frame loose)) (returns_pure ?_)
      refine ⟨_, ⟨freed.good, acts_loose_above freed.acts, fun w held => ?_, fun k _ => ?_, fun i _ => ?_⟩,
        fun wrong => by cases wrong⟩
      · by_cases same : w = mem
        · subst same
          simp at held
        · rw [Function.update_of_ne same] at held
          exact same (clean.loose_eq held)
      · rw [freed.entries]
      · rw [freed.tables]

theorem copyLoop_returns {n j : Nat} (source : Space m owner p pgdir) (good : Good image m owner q d)
    (clean : NoLoose owner q) (apart : p ≠ q) (full : ∀ k, j ≤ k → k < j + n → (mapped m pgdir k).isSome = true)
    (fresh : ∀ k, j ≤ k → k < j + n → present (entry m d k) = false) :
    Returns (copyLoop image pgdir d n (j * pgSize)) m fun r m' => ∃ owner',
      Grown image m owner q d j (j + n) m' owner' ∧ (r = true → SamePages m pgdir m' d j (j + n)) := by
  induction n generalizing m owner j with
  | zero =>
    rw [copyLoop]
    refine returns_pure ⟨owner, ⟨good, Acts.refl _ _ _, clean, fun _ _ => rfl, fun _ _ => rfl⟩, fun _ k low high => ?_⟩
    omega
  | succ n ih =>
    obtain ⟨v, used⟩ := Option.isSome_iff_exists.mp (full j le_rfl (by omega))
    have low := (present_of_mapped used).1
    rw [copyLoop]
    refine returns_bind (copyPage_returns good clean used (fresh j le_rfl (by omega))) fun r m₁ round => ?_
    obtain ⟨owner₁, grown, copied⟩ := round
    cases r with
    | false =>
      refine returns_pure ⟨owner₁, ⟨grown.good, grown.acts, grown.clean, fun k outside => ?_, grown.tables⟩,
        fun wrong => by cases wrong⟩
      exact grown.others k (by omega)
    | true =>
      simp only [if_true, nextPage_eq low]
      obtain ⟨source₁, entries₁, _⟩ := source.framed grown.acts (Use.above_apart apart)
      have mapped₁ := mapped_congr entries₁
      have later (k : Nat) (start : j + 1 ≤ k) (limit : k < j + 1 + n) : present (entry m₁ d k) = false := by
        rw [grown.others k (by omega)]
        exact fresh k (by omega) (by omega)
      have full₁ (k : Nat) (start : j + 1 ≤ k) (limit : k < j + 1 + n) : (mapped m₁ pgdir k).isSome = true := by
        rw [mapped₁]
        exact full k (by omega) (by omega)
      refine returns_post (ih source₁ grown.good grown.clean full₁ later) fun r m' ⟨owner', more, rest⟩ => ?_
      refine ⟨owner', ⟨more.good, grown.acts.trans (more.acts.mono (Use.above_mono (Nat.le_succ j))), more.clean,
        fun k outside => ?_, fun i high => (more.tables i high).trans (grown.tables i high)⟩,
        fun success k start limit => ?_⟩
      · rw [more.others k (by omega), grown.others k (by omega)]
      by_cases first : k = j
      · subst first
        obtain ⟨w, usedHere, content, flags⟩ := copied rfl
        have held := (grown.good.space.users k w).mpr usedHere
        obtain ⟨held', page⟩ := more.acts.keeps w _ (by simp [Use.above]) held
        refine ⟨v, w, used, (more.good.space.users k w).mp held', page.trans content, ?_⟩
        rw [more.others k (Or.inl (Nat.lt_succ_self k)), flags]
      · obtain ⟨v', w, usedThere, usedHere, content, flags⟩ := rest success k (by omega) (by omega)
        rw [mapped₁] at usedThere
        have kept := grown.acts.keeps v' (.user p k) (fun touched => Use.above_apart apart _ touched rfl)
          ((source.users k v').mpr usedThere)
        exact ⟨v', w, usedThere, usedHere, content.trans kept.2, by rw [flags, entries₁]⟩

end Pages

section Isolation

/-- copyuvm's copy `d` of the pages below `sz` of `pgdir`, for a new address space `q`. -/
structure Isolated (image : Image) (m : Memory) (owner : Owner P) (p q : P) (pgdir sz d : Nat) (m' : Memory)
    (owner' : Owner P) : Prop where
  pages : SamePages m pgdir m' d 0 (pagesOf sz)
  only : ∀ k, pagesOf sz ≤ k → mapped m' d k = none
  -- The frames of the copy were free, and each has this one use now.
  frames : ∀ k w, mapped m' d k = some w → w ∈ m.freelist ∧ owner' w = .used (.user q k)
  account : Account (Frame image) m'.freelist owner'
  parent : Space m' owner' p pgdir
  child : Space m' owner' q d
  kernel : ∃ m₁, (setupkvm image).run m = (some (some d), m₁) ∧ ∀ n, userPages ≤ n → entry m' d n = entry m₁ d n
  -- All frames in other uses, those of the parent among them, keep their use and their bytes.
  others : ∀ v u, ¬u.above q 0 → owner v = .used u → owner' v = .used u ∧ m'.page v = m.page v

end Isolation

end Xv6.Vm
