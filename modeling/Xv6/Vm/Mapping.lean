import Xv6.Vm.PageTable

set_option autoImplicit false

namespace Xv6.Vm

open Halting Bytes Ledger

variable {P : Type}

def Use.structural (p : P) : Use P → Prop
  | pgdir q => q = p
  | table q _ => q = p
  | user _ _ => False
  | loose _ => False
  | stack _ => False
  | pipe _ => False

def Use.above (p : P) (low : Nat) : Use P → Prop
  | pgdir q => q = p
  | table q _ => q = p
  | user q n => q = p ∧ low ≤ n
  | loose q => q = p
  | stack _ => False
  | pipe _ => False

theorem Use.above_of_structural {p : P} (low : Nat) (u : Use P) (structural : u.structural p) : u.above p low := by
  cases u with
  | pgdir | table => exact structural
  | user | loose | stack | pipe => exact structural.elim

def Use.dropping (p : P) (low : Nat) : Use P → Prop
  | pgdir _ => False
  | table q _ => q = p
  | user q n => q = p ∧ low ≤ n
  | loose _ => False
  | stack _ => False
  | pipe _ => False

theorem Use.above_of_dropping {p : P} (low : Nat) (u : Use P) (dropping : u.dropping p low) : u.above p low := by
  cases u with
  | table | user => exact dropping
  | pgdir | loose | stack | pipe => exact dropping.elim

theorem Use.above_mono {p : P} {low high : Nat} (order : low ≤ high) (u : Use P) (above : u.above p high) :
    u.above p low := by
  cases u with
  | user q n => exact ⟨above.1, order.trans above.2⟩
  | pgdir | table | loose => exact above
  | stack | pipe => exact above.elim

theorem Use.dropping_mono {p : P} {low high : Nat} (order : low ≤ high) (u : Use P) (dropping : u.dropping p high) :
    u.dropping p low := by
  cases u with
  | user q n => exact ⟨dropping.1, order.trans dropping.2⟩
  | table => exact dropping
  | pgdir | loose | stack | pipe => exact dropping.elim

section Walk

variable {image : Image} {m : Memory} {owner : Owner P} {p : P} {pgdir va t : Nat}

theorem pdx_lt (va : Nat) : pdx va < nEntries := Nat.mod_lt _ (by decide)

theorem present_of_table (here : table m pgdir (pdx va) = some t) :
    present (word m pgdir (pdx va)) = true ∧ t = p2v (pteAddr (word m pgdir (pdx va))) := by
  unfold table at here
  split at here
  next valid => exact ⟨valid.2, (Option.some.inj here).symm⟩
  next => cases here

theorem not_present_of_table (missing : table m pgdir (pdx va) = none) : present (word m pgdir (pdx va)) = false := by
  unfold table at missing
  split at missing
  next => cases missing
  next invalid => simpa [pdx_lt] using invalid

theorem walkpgdir_found {alloc : Bool} (here : table m pgdir (pdx va) = some t) :
    (walkpgdir pgdir va alloc).run m = (some (some (t, ptx va)), m) := by
  obtain ⟨valid, same⟩ := present_of_table here
  have loaded : (loadWord pgdir (pdx va)).run m = (some (word m pgdir (pdx va)), m) := rfl
  rw [walkpgdir, run_bind_some loaded, if_pos valid, same]
  rfl

theorem walkpgdir_missing (missing : table m pgdir (pdx va) = none) :
    (walkpgdir pgdir va false).run m = (some none, m) := by
  have loaded : (loadWord pgdir (pdx va)).run m = (some (word m pgdir (pdx va)), m) := rfl
  rw [walkpgdir, run_bind_some loaded, if_neg (by simp [not_present_of_table missing]), if_neg (by decide)]
  rfl

theorem pdx_page {n : Nat} (known : n < nEntries * nEntries) : pdx (n * pgSize) = n / nEntries := by
  simp only [pdx, nEntries, pgSize] at *
  omega

theorem ptx_page (n : Nat) : ptx (n * pgSize) = n % nEntries := by rw [ptx_eq, Nat.mul_div_cancel n (by decide)]

theorem walkpgdir_page {n : Nat} {alloc : Bool} (known : n < nEntries * nEntries)
    (here : table m pgdir (n / nEntries) = some t) :
    (walkpgdir pgdir (n * pgSize) alloc).run m = (some (some (t, n % nEntries)), m) := by
  rw [walkpgdir_found (pdx_page known ▸ here), ptx_page]

theorem walkpgdir_page_missing {n : Nat} (known : n < nEntries * nEntries)
    (missing : table m pgdir (n / nEntries) = none) : (walkpgdir pgdir (n * pgSize) false).run m = (some none, m) :=
  walkpgdir_missing (pdx_page known ▸ missing)

theorem loadWord_entry {n : Nat} (here : table m pgdir (n / nEntries) = some t) :
    (loadWord t (n % nEntries)).run m = (some (entry m pgdir n), m) := by
  rw [entry, here]
  rfl

theorem walkpgdir_hangs (missing : table m pgdir (pdx va) = none) :
    Returns (walkpgdir pgdir va true) m fun r m' => m'.calls = m.calls + 1 ∧ match r with
      | none => m'.page = m.page ∧ m'.freelist = m.freelist
      | some (t, j) => j = ptx va ∧ m.freelist = t :: m'.freelist ∧ (pgdir ≠ t → Hangs m m' pgdir (pdx va) t) := by
  have loaded : (loadWord pgdir (pdx va)).run m = (some (word m pgdir (pdx va)), m) := rfl
  refine returns_step loaded ?_
  rw [if_neg (by simp [not_present_of_table missing]), if_pos rfl]
  refine returns_bind kalloc_returns fun r m₁ ⟨pages, calls, list⟩ => ?_
  cases r with
  | none => exact returns_pure ⟨calls, pages, list⟩
  | some t =>
    refine returns_step rfl (returns_step rfl (returns_pure ⟨calls, rfl, list, fun other => ⟨?_, ?_, fun v away apart => ?_⟩⟩))
    · simp [Memory.put, Memory.write, other, pages]
    · simp [Memory.put, Memory.write, other.symm]
    · simp [Memory.put, Memory.write, away, apart, pages]

theorem walkpgdir_alloc (good : Good image m owner p pgdir) : Returns (walkpgdir pgdir va true) m fun r m' =>
      match r with
      | none => m'.page = m.page ∧ m'.freelist = m.freelist ∧ table m pgdir (pdx va) = none
      | some (t, j) => j = ptx va ∧ ∃ owner', Good image m' owner' p pgdir ∧
          Acts (Use.structural p) m.page owner m'.page owner' ∧ entry m' pgdir = entry m pgdir ∧
          table m' pgdir = Function.update (table m pgdir) (pdx va) (some t) := by
  cases here : table m pgdir (pdx va) with
  | some t =>
    refine ⟨_, _, walkpgdir_found here, rfl, owner, good, Acts.refl _ _ _, rfl, ?_⟩
    exact (Function.update_eq_self_iff.mpr here.symm).symm
  | none =>
    refine returns_post (walkpgdir_hangs here) fun r m' ⟨_, result⟩ => ?_
    match r with
    | none => exact ⟨result.1, result.2, rfl⟩
    | some (t, j) =>
      obtain ⟨index, list, hangs⟩ := result
      have account : Account (Frame image) (t :: m'.freelist) owner := list ▸ good.account
      have free : owner t = .free := (account.listed t).mpr List.mem_cons_self
      have dir := good.space.dir_self
      have hangs := hangs fun same => by rw [same, free] at dir; cases dir
      have written : Acts (Use.structural p) m.page owner m'.page owner := by
        refine ⟨fun v u fixed held => ⟨held, hangs.others v ?_ ?_⟩, fun _ _ _ held => held, fun _ => Iff.rfl⟩
        · rintro rfl
          rw [dir] at held
          cases held
          exact fixed rfl
        · rintro rfl
          rw [free] at held
          cases held
      obtain ⟨after, entries, tables⟩ := good.hung hangs account (pdx_lt va) here
      exact ⟨index, _, after, written.trans (acts_pass (by simp [free, Status.Within]) rfl), entries, tables⟩

end Walk

section Map

variable {image : Image} {m : Memory} {owner : Owner P} {p : P} {pgdir n : Nat}

theorem mapPage_returns {perm pa : Nat} (good : Good image m owner p pgdir) (known : n < nEntries * nEntries)
    (fresh : present (entry m pgdir n) = false) : Returns (mapPage pgdir perm (n * pgSize) pa) m fun r m' =>
      match r with
      | false => m'.page = m.page ∧ m'.freelist = m.freelist
      | true => ∃ m₁ owner₁ t, Good image m₁ owner₁ p pgdir ∧ Acts (Use.structural p) m.page owner m₁.page owner₁ ∧
          entry m₁ pgdir = entry m pgdir ∧ table m₁ pgdir = Function.update (table m pgdir) (n / nEntries) (some t) ∧
          m' = m₁.put t (n % nEntries) (pa ||| perm ||| pteP) := by
  refine returns_bind (walkpgdir_alloc good) fun r m₁ walked => ?_
  cases r with
  | none => exact returns_pure ⟨walked.1, walked.2.1⟩
  | some found =>
    obtain ⟨t, j⟩ := found
    obtain ⟨index, owner₁, good₁, acts, entries, tables⟩ := walked
    rw [pdx_page known] at tables
    rw [ptx_page] at index
    subst index
    have here : table m₁ pgdir (n / nEntries) = some t := by rw [tables, Function.update_self]
    refine returns_step (loadWord_entry here) ?_
    rw [entries, if_neg (by simp [fresh])]
    exact returns_step rfl (returns_pure ⟨m₁, owner₁, t, good₁, acts, entries, tables, rfl⟩)

theorem mapPage_user {perm mem low : Nat} (good : Good image m owner p pgdir) (known : n < userPages)
    (fresh : present (entry m pgdir n) = false) (loose : owner mem = .used (.loose p)) (small : perm < pgSize)
    (above : low ≤ n) : Returns (mapPage pgdir perm (n * pgSize) (v2p mem)) m fun r m' =>
      match r with
      | false => m'.page = m.page ∧ m'.freelist = m.freelist
      | true => ∃ owner', Good image m' owner' p pgdir ∧ Acts (Use.above p low) m.page owner m'.page owner' ∧
          entry m' pgdir = Function.update (entry m pgdir) n (v2p mem ||| perm ||| pteP) ∧
          (∀ i, i ≠ n / nEntries → table m' pgdir i = table m pgdir i) ∧
          owner' mem = .used (.user p n) ∧ m'.page mem = m.page mem ∧
          ∀ v, owner' v = .used (.loose p) → v ≠ mem ∧ owner v = .used (.loose p) := by
  have bound : n < nEntries * nEntries := Nat.lt_of_lt_of_le known (by decide)
  refine returns_post (mapPage_returns good bound fresh) fun r m' mapped => ?_
  cases r with
  | false => exact mapped
  | true =>
    obtain ⟨m₁, owner₁, t, good₁, acts, entries, tables, stored⟩ := mapped
    subst stored
    obtain ⟨loose₁, content⟩ := acts.keeps mem _ (by simp [Use.structural]) loose
    have here : table m₁ pgdir (n / nEntries) = some t := by rw [tables, Function.update_self]
    have fresh₁ : present (entry m₁ pgdir n) = false := by rw [entries, fresh]
    have held := (good₁.space.tables _ t).mpr here
    have other : mem ≠ t := by
      rintro rfl
      rw [loose₁] at held
      cases held
    have frame := good.frame loose
    have entryWord : v2p mem ||| perm ||| pteP < 2 ^ 32 := by
      rw [Nat.or_assoc]
      exact or_lt frame.v2p_aligned (perm_lt small) (Nat.lt_trans frame.v2p_lt (by decide))
    refine ⟨_, good₁.put_user here known fresh₁ loose₁ small, ?_, ?_, fun i other => ?_, Function.update_self .., ?_,
      fun v left => ?_⟩
    · have first := acts.mono (Use.above_of_structural low)
      have second : Acts (Use.above p low) m₁.page owner₁
          (m₁.put t (n % nEntries) (v2p mem ||| perm ||| pteP)).page owner₁ :=
        acts_write (by simp [held, Status.Within, Use.above]) _
      exact (first.trans second).trans (acts_pass (by simp [loose₁, Status.Within, Use.above]) ⟨rfl, above⟩)
    · rw [entry_put good₁.space.tabled here entryWord, entries]
    · rw [table_put good₁.space.tabled here, tables, Function.update_of_ne other]
    · rw [← content]
      exact Function.update_of_ne other _ _
    · by_cases same : v = mem
      · subst same
        simp at left
      · rw [Function.update_of_ne same] at left
        exact ⟨same, acts.only v _ (by simp [Use.structural]) left⟩

end Map

end Xv6.Vm
