import Xv6.Vm.Growproc
import Xv6.Vm.Kernel

set_option autoImplicit false

namespace Xv6.Vm

open Halting Bytes Ledger

variable {P : Type} {image : Image} {m m' : Memory} {owner : Owner P} {p : P} {pgdir perm j f n va size pa : Nat}

-- The loop of mappages as it is written, which ends when a == last; none when the fuel is used up.
def mapRounds (pgdir perm last : Nat) : Nat → Nat → Nat → Kernel (Option Bool)
  | 0, _, _ => pure none
  | fuel + 1, a, pa => do
    if ← mapPage pgdir perm a pa then
      if a = last then pure (some true) else mapRounds pgdir perm last fuel (nextPage a) (nextPage pa)
    else pure (some false)

-- A call of kalloc adds one, unless it takes a page.
def Memory.spent (m : Memory) : Nat := m.calls + m.freelist.length

/-- The page tables and the free pages are pages of their own. -/
structure Formed (image : Image) (m : Memory) (pgdir : Nat) : Prop extends Tabled m pgdir where
  free : ∀ v ∈ m.freelist, Frame image v ∧ v ≠ pgdir ∧ ∀ i, table m pgdir i ≠ some v
  nodup : m.freelist.Nodup

-- The entries with `n` pages from `j` on mapped to those from `f` on.
def placed (j n f perm : Nat) : (Nat → Nat) → Nat → Nat :=
  filled j n fun i => (f + i) * pgSize % 2 ^ 32 ||| perm ||| pteP

theorem Formed.same (formed : Formed image m pgdir) (tables : table m' pgdir = table m pgdir)
    (list : m'.freelist = m.freelist) : Formed image m' pgdir :=
  ⟨⟨tables ▸ formed.dir, tables ▸ formed.inj⟩, by rw [list, tables]; exact formed.free, list ▸ formed.nodup⟩

theorem Formed.hung {i t : Nat} (formed : Formed image m pgdir) (list : m.freelist = t :: m'.freelist)
    (tables : table m' pgdir = Function.update (table m pgdir) i (some t)) : Formed image m' pgdir := by
  have free := formed.free
  have nodup := formed.nodup
  rw [list] at free nodup
  obtain ⟨_, other, fresh⟩ := free t List.mem_cons_self
  have hung (k v : Nat) : table m' pgdir k = some v ↔ k = i ∧ v = t ∨ k ≠ i ∧ table m pgdir k = some v := by
    rw [tables]
    by_cases same : k = i <;> simp [same, eq_comm]
  refine ⟨⟨fun k v here => ?_, fun k l v here there => ?_⟩, fun v listed => ?_, (List.nodup_cons.mp nodup).2⟩
  · rcases (hung k v).mp here with ⟨-, rfl⟩ | ⟨-, before⟩
    · exact other
    · exact formed.dir k v before
  · rcases (hung k v).mp here with ⟨rfl, rfl⟩ | ⟨-, before⟩ <;> rcases (hung l _).mp there with ⟨rfl, same⟩ | ⟨-, also⟩
    · rfl
    · exact absurd also (fresh l)
    · exact absurd (same ▸ before) (fresh k)
    · exact formed.inj k l v before also
  · obtain ⟨frame, away, unhung⟩ := free v (List.mem_cons_of_mem t listed)
    refine ⟨frame, away, fun k here => ?_⟩
    rcases (hung k v).mp here with ⟨-, rfl⟩ | ⟨-, before⟩
    · exact (List.nodup_cons.mp nodup).1 listed
    · exact unhung k before

theorem walkpgdir_formed (formed : Formed image m pgdir) (known : j < nEntries * nEntries) :
    Returns (walkpgdir pgdir (j * pgSize) true) m fun r m' =>
      Formed image m' pgdir ∧ entry m' pgdir = entry m pgdir ∧ match r with
        | none => m'.spent = m.spent + 1
        | some (t, i) => m'.spent = m.spent ∧ i = j % nEntries ∧ table m' pgdir (j / nEntries) = some t := by
  cases here : table m pgdir (j / nEntries) with
  | some t => exact ⟨_, _, walkpgdir_page known here, formed, rfl, rfl, rfl, here⟩
  | none =>
    have missing : table m pgdir (pdx (j * pgSize)) = none := by rw [pdx_page known, here]
    refine returns_post (walkpgdir_hangs missing) fun r m' ⟨calls, result⟩ => ?_
    match r with
    | none =>
      obtain ⟨pages, list⟩ := result
      refine ⟨formed.same (table_congr (congrFun pages _)) list,
        entry_congr (congrFun pages _) fun _ t _ => congrFun pages t, ?_⟩
      simp only [Memory.spent, calls, list]
      omega
    | some (t, i) =>
      obtain ⟨index, list, hangs⟩ := result
      obtain ⟨frame, other, fresh⟩ := formed.free t (by simp [list])
      have hangs := hangs other.symm
      have tables := table_hung hangs frame (pdx_lt _)
      refine ⟨formed.hung list tables, entry_hung formed.toTabled hangs frame (pdx_lt _) missing fresh, ?_,
        index.trans (ptx_page j), ?_⟩
      · simp only [Memory.spent, calls, list, List.length_cons]
        omega
      · rw [tables, pdx_page known, Function.update_self]

theorem mapPage_formed (formed : Formed image m pgdir) (known : j < nEntries * nEntries) (small : perm < pgSize)
    (fresh : present (entry m pgdir j) = false) (aligned : pa % pgSize = 0) (below : pa < 2 ^ 32) :
    Returns (mapPage pgdir perm (j * pgSize) pa) m fun r m' => Formed image m' pgdir ∧ match r with
      | false => m'.spent = m.spent + 1
      | true => m'.spent = m.spent ∧ entry m' pgdir = Function.update (entry m pgdir) j (pa ||| perm ||| pteP) := by
  refine returns_bind (walkpgdir_formed formed known) fun r m₁ ⟨formed₁, entries, result⟩ => ?_
  match r with
  | none => exact returns_pure ⟨formed₁, result⟩
  | some (t, i) =>
    obtain ⟨spent, rfl, here⟩ := result
    have word : pa ||| perm ||| pteP < 2 ^ 32 := by
      rw [Nat.or_assoc]
      exact or_lt aligned (perm_lt small) below
    refine returns_step (loadWord_entry here) ?_
    rw [entries, if_neg (by simp [fresh])]
    refine returns_step rfl (returns_pure ⟨formed₁.same (table_put formed₁.toTabled here) rfl, spent, ?_⟩)
    rw [entry_put formed₁.toTabled here word, entries]

theorem placed_succ {entries : Nat → Nat} :
    placed (j + 1) n (f + 1) perm (Function.update entries j (f * pgSize % 2 ^ 32 ||| perm ||| pteP)) =
      placed j (n + 1) f perm entries := by
  have shifted := @filled_succ n entries j fun i => (f + i) * pgSize % 2 ^ 32 ||| perm ||| pteP
  simp only [← Nat.add_assoc, Nat.add_right_comm f _ 1] at shifted
  exact shifted

theorem mapLoop_formed (formed : Formed image m pgdir) (known : j + n ≤ nEntries * nEntries) (small : perm < pgSize)
    (fresh : ∀ k, j ≤ k → k < j + n → present (entry m pgdir k) = false) :
    Returns (mapLoop pgdir perm n (j * pgSize % 2 ^ 32) (f * pgSize % 2 ^ 32)) m fun r m' =>
      match r with
      | false => m.spent < m'.spent
      | true => m'.spent = m.spent ∧ entry m' pgdir = placed j n f perm (entry m pgdir) := by
  induction n generalizing m j f with
  | zero =>
    refine returns_pure ⟨rfl, ?_⟩
    funext k
    rw [placed, filled, if_neg (by omega)]
  | succ n ih =>
    have inside : j * pgSize % 2 ^ 32 = j * pgSize := by
      simp only [nEntries, pgSize] at *
      omega
    have aligned : f * pgSize % 2 ^ 32 % pgSize = 0 := by
      simp only [pgSize]
      omega
    rw [mapLoop, inside]
    have page := mapPage_formed formed (j := j) (by omega) small (fresh j (Nat.le_refl j) (by omega)) aligned
      (Nat.mod_lt _ (by decide))
    refine returns_bind page fun r m₁ after => ?_
    obtain ⟨formed₁, result⟩ := after
    cases r with
    | false => exact returns_pure (by simp only [result]; omega)
    | true =>
      obtain ⟨spent, entries⟩ := result
      have next : nextPage (j * pgSize) = (j + 1) * pgSize % 2 ^ 32 ∧
          nextPage (f * pgSize % 2 ^ 32) = (f + 1) * pgSize % 2 ^ 32 := by
        simp only [nextPage, pgSize]
        omega
      have later (k : Nat) (low : j + 1 ≤ k) (limit : k < j + 1 + n) : present (entry m₁ pgdir k) = false := by
        rw [entries, Function.update_of_ne (by omega)]
        exact fresh k (by omega) (by omega)
      rw [if_pos rfl, next.1, next.2]
      refine returns_post (ih formed₁ (by omega) later) fun r m' after => ?_
      rwa [spent, entries, placed_succ] at after

theorem mapRounds_eq {d fuel : Nat} (known : j + d < nEntries * nEntries) (enough : d < fuel) :
    (mapRounds pgdir perm ((j + d) * pgSize) fuel (j * pgSize) pa).run m =
      (mapLoop pgdir perm (d + 1) (j * pgSize) pa >>= fun r => pure (some r)).run m := by
  induction d generalizing j pa m fuel with
  | zero =>
    obtain ⟨fuel, rfl⟩ : ∃ k, fuel = k + 1 := ⟨fuel - 1, by omega⟩
    rw [mapRounds, mapLoop, run_bind_assoc]
    refine run_bind_ext fun r m' => ?_
    cases r <;> simp <;> rfl
  | succ d ih =>
    obtain ⟨fuel, rfl⟩ : ∃ k, fuel = k + 1 := ⟨fuel - 1, by omega⟩
    have apart : j * pgSize ≠ (j + (d + 1)) * pgSize := by
      simp only [pgSize]
      omega
    have next : nextPage (j * pgSize) = (j + 1) * pgSize := by
      simp only [nextPage, nEntries, pgSize] at *
      omega
    have last : j + (d + 1) = j + 1 + d := by omega
    rw [mapRounds, mapLoop, run_bind_assoc]
    refine run_bind_ext fun r m' => ?_
    cases r with
    | false => rfl
    | true =>
      rw [if_pos rfl, if_pos rfl, if_neg apart, next, last]
      exact ih (by omega) (by omega)

theorem mappages_eq (some : 1 ≤ size) (fits : va + size - 1 < 2 ^ 32) : mappages pgdir va size pa perm =
    mapLoop pgdir perm ((va + size - 1) / pgSize - va / pgSize + 1) (va / pgSize * pgSize) pa := by
  have last : (va + size + (2 ^ 32 - 1)) % 2 ^ 32 = va + size - 1 := by omega
  have rounds : (pgRoundDown (va + size - 1) + (2 ^ 32 - pgRoundDown va)) % 2 ^ 32 / pgSize =
      (va + size - 1) / pgSize - va / pgSize := by
    simp only [pgRoundDown, pgSize]
    omega
  rw [mappages, last, rounds]
  rfl

theorem Apart.not_has {ks : List Kmap} {entries : Nat → Nat} (apart : Apart ks entries)
    (taken : present (entries n) = true) : ∀ k ∈ ks, ¬k.Has n := by
  induction ks generalizing entries with
  | nil => simp
  | cons first rest ih =>
    have other : ¬first.Has n := fun has => by simp [apart.1 n has] at taken
    refine List.forall_mem_cons.mpr ⟨other, ih apart.2 ?_⟩
    rwa [ranged_outside other]

theorem kmapped_has {ks : List Kmap} {entries : Nat → Nat} {k : Kmap} (closed : ∀ k ∈ ks, user k.perm = false)
    (apart : Apart ks entries) (known : k ∈ ks) (has : k.Has n) :
    kmapped ks entries n = (k.frame + (n - k.first)) * pgSize ||| k.perm ||| pteP := by
  induction ks generalizing entries with
  | nil => cases known
  | cons first rest ih =>
    rcases List.mem_cons.mp known with rfl | inside
    · have taken : present (ranged k.first k.pages k.frame k.perm entries n) = true :=
        (ranged_kernelOnly has (closed k List.mem_cons_self)).1
      rw [kmapped, kmapped_outside (apart.2.not_has taken)]
      exact if_pos has
    · exact ih (fun k inside => closed k (List.mem_cons_of_mem first inside)) apart.2 inside

theorem kmap_closed (image : Image) : ∀ k ∈ kmap image, user k.perm = false := by
  simp only [kmap, List.forall_mem_cons, List.not_mem_nil, false_imp_iff, implies_true, and_true]
  decide

theorem kernelEntry_user (n : Nat) : user (kernelEntry image n) = false := by
  by_cases kernel : kernelPage n
  · exact (kernelEntry_kernelOnly kernel).2
  · rw [kernelEntry_of_not kernel]
    rfl

theorem Good.formed (good : Good image m owner p pgdir) : Formed image m pgdir where
  toTabled := good.space.tabled
  free v listed := by
    have held := (good.account.listed v).mpr listed
    refine ⟨good.account.valid v (by simp [held]), fun same => ?_, fun i hung => ?_⟩
    · simp [(good.space.dir v).mpr same] at held
    · simp [(good.space.tables i v).mpr hung] at held
  nodup := good.account.nodup

/-- What mappages does in the memory `m` with the pages from `va` to `va + size - 1`. -/
structure MapsRange (m : Memory) (pgdir va size pa perm : Nat) : Prop where
  ends : ∀ fuel, (va + size - 1) / pgSize - va / pgSize < fuel →
    (mapRounds pgdir perm (pgRoundDown (va + size - 1)) fuel (pgRoundDown va) pa).run m =
      (mappages pgdir va size pa perm >>= fun r => pure (some r)).run m
  maps : Returns (mappages pgdir va size pa perm) m fun r m' =>
    match r with
    | false => m.spent < m'.spent
    | true => m'.spent = m.spent ∧ entry m' pgdir =
        placed (va / pgSize) ((va + size - 1) / pgSize - va / pgSize + 1) (pa / pgSize) perm (entry m pgdir)

/-- mappages maps its range and nothing else, unless a call of kalloc fails; setupkvm maps each range of kmap, and
nothing for the user. -/
theorem mappages_exact :
    (∀ m pgdir va size pa perm, Formed image m pgdir → 1 ≤ size → va + size - 1 < 2 ^ 32 → pa < 2 ^ 32 →
      pa % pgSize = 0 → perm < pgSize →
      (∀ k, va / pgSize ≤ k → k ≤ (va + size - 1) / pgSize → present (entry m pgdir k) = false) →
      MapsRange m pgdir va size pa perm) ∧
    ∀ m (owner : Owner P) p, Account (Frame image) m.freelist owner → Unused owner p →
      Returns (setupkvm image) m fun r m' => ∀ pgdir, r = some pgdir →
        (∀ k ∈ kmap image, ∀ n, k.Has n →
          entry m' pgdir n = (k.frame + (n - k.first)) * pgSize ||| k.perm ||| pteP) ∧
        ∀ n, userPages ≤ n → user (entry m' pgdir n) = false := by
  refine ⟨fun m pgdir va size pa perm formed some fits below aligned small fresh => ?_,
    fun m owner p account unused => ?_⟩
  · obtain ⟨d, last⟩ := Nat.exists_eq_add_of_le (Nat.div_le_div_right (c := pgSize) (by omega : va ≤ va + size - 1))
    have known : va / pgSize + d < nEntries * nEntries := by
      rw [← last]
      simp only [pgSize, nEntries]
      omega
    have count : va / pgSize + d - va / pgSize = d := by omega
    have start : va / pgSize * pgSize % 2 ^ 32 = va / pgSize * pgSize ∧ pa / pgSize * pgSize % 2 ^ 32 = pa := by
      simp only [pgSize] at *
      omega
    refine ⟨fun fuel enough => ?_, ?_⟩ <;> rw [mappages_eq some fits, last, count]
    · rw [last, count] at enough
      rw [pgRoundDown, pgRoundDown, last]
      exact mapRounds_eq known enough
    · have loop := mapLoop_formed (n := d + 1) (f := pa / pgSize) formed known small fun k low high =>
        fresh k low (last ▸ Nat.lt_succ_iff.mp high)
      rwa [start.1, start.2] at loop
  · refine returns_post (setupkvm_returns account unused) fun r m' ⟨owner', _, made⟩ pgdir same => ?_
    subst same
    obtain ⟨_, _, entries, _⟩ := made
    rw [entries]
    exact ⟨fun k known n => kmapped_has (kmap_closed image) (kmap_apart image) known, fun n _ => kernelEntry_user n⟩

theorem sampleMemory_maps : MapsRange (sampleMemory 4) (sampleFrame 0) 0 1 0 pteP :=
  (@mappages_exact Nat sampleImage).1 _ _ _ _ _ _ sampleMemory_good.formed (by decide) (by decide) (by decide)
    (by decide) (by decide) fun k _ _ => by rw [entry_zero rfl k, present_zero]

end Xv6.Vm
