import Xv6.Vm.Code

set_option autoImplicit false

namespace Xv6.Vm

open Halting Bytes Ledger

section Entries

variable {x f n : Nat}

theorem or_eq_add (aligned : x % pgSize = 0) (small : f < pgSize) : x ||| f = x + f := by
  obtain ⟨k, rfl⟩ := Nat.dvd_of_mod_eq_zero aligned
  exact (Nat.two_pow_add_eq_or_of_lt (i := 12) small k).symm

theorem pteAddr_or (aligned : x % pgSize = 0) (small : f < pgSize) : pteAddr (x ||| f) = x := by
  rw [or_eq_add aligned small, pteAddr]
  simp only [pgSize] at *
  omega

theorem testBit_or_aligned (aligned : x % pgSize = 0) (low : n < 12) : (x ||| f).testBit n = f.testBit n := by
  obtain ⟨k, rfl⟩ := Nat.dvd_of_mod_eq_zero aligned
  have zero : (pgSize * k).testBit n = false := by
    rw [show pgSize = 2 ^ 12 from rfl, Nat.testBit_two_pow_mul]
    simp [Nat.not_le.mpr low]
  rw [Nat.testBit_or, zero, Bool.false_or]

theorem or_lt (aligned : x % pgSize = 0) (small : f < pgSize) (below : x < 2 ^ 32) : x ||| f < 2 ^ 32 := by
  rw [or_eq_add aligned small]
  simp only [pgSize] at *
  omega

theorem perm_lt {perm : Nat} (small : perm < pgSize) : perm ||| pteP < pgSize :=
  Nat.or_lt_two_pow (n := 12) small (by decide)

theorem present_zero : present 0 = false := by decide

end Entries

section View

-- The page-table page at a directory index.
def table (m : Memory) (pgdir i : Nat) : Option Nat :=
  if i < nEntries ∧ present (word m pgdir i) = true then some (p2v (pteAddr (word m pgdir i))) else none

-- The entry of a virtual page; 0 where its page table is missing.
def entry (m : Memory) (pgdir n : Nat) : Nat :=
  match table m pgdir (n / nEntries) with
  | none => 0
  | some t => word m t (n % nEntries)

def userPages : Nat := kernBase / pgSize

-- The frame at a virtual page below KERNBASE.
def mapped (m : Memory) (pgdir n : Nat) : Option Nat :=
  if n < userPages ∧ present (entry m pgdir n) = true then some (p2v (pteAddr (entry m pgdir n))) else none

variable {m m' : Memory} {pgdir i n t : Nat}

theorem table_congr (same : m'.page pgdir = m.page pgdir) : table m' pgdir = table m pgdir := by
  funext i
  simp only [table, word_congr same]

theorem entry_congr (same : m'.page pgdir = m.page pgdir)
    (tables : ∀ i t, table m pgdir i = some t → m'.page t = m.page t) : entry m' pgdir = entry m pgdir := by
  funext n
  rw [entry, entry, table_congr same]
  cases here : table m pgdir (n / nEntries) with
  | none => rfl
  | some t => exact word_congr (tables _ t here)

theorem mapped_congr (same : entry m' pgdir = entry m pgdir) : mapped m' pgdir = mapped m pgdir := by
  funext n
  rw [mapped, mapped, same]

theorem table_lt (here : table m pgdir i = some t) : i < nEntries := by
  unfold table at here
  split at here
  next known => exact known.1
  next => cases here

theorem ptx_eq (va : Nat) : ptx va = va / pgSize % nEntries := rfl

end View

-- Every page table is a page of its own.
structure Tabled (m : Memory) (pgdir : Nat) : Prop where
  dir : ∀ i t, table m pgdir i = some t → t ≠ pgdir
  inj : ∀ i j t, table m pgdir i = some t → table m pgdir j = some t → i = j

inductive Use (P : Type) where
  | pgdir (p : P)
  | table (p : P) (i : Nat)
  | user (p : P) (n : Nat)
  | loose (p : P)
  | stack (p : P)
  | pipe (k : Nat)
deriving DecidableEq

abbrev Owner (P : Type) := Nat → Status (Use P)

variable {P : Type}

/-- The page directory, the page tables and the user pages of address space `p`, and no other frames, are
owned by it. -/
structure Space (m : Memory) (owner : Owner P) (p : P) (pgdir : Nat) : Prop where
  dir : ∀ v, owner v = .used (.pgdir p) ↔ v = pgdir
  tables : ∀ i v, owner v = .used (.table p i) ↔ table m pgdir i = some v
  users : ∀ n v, owner v = .used (.user p n) ↔ mapped m pgdir n = some v

structure Good (image : Image) (m : Memory) (owner : Owner P) (p : P) (pgdir : Nat) : Prop where
  account : Account (Frame image) m.freelist owner
  space : Space m owner p pgdir

-- The frames that belong to the page table of `p`.
def Use.of (p : P) : Use P → Prop
  | pgdir q => q = p
  | table q _ => q = p
  | user q _ => q = p
  | loose _ => False
  | stack _ => False
  | pipe _ => False

section Space

variable {image : Image} {m m' : Memory} {owner owner' : Owner P} {p q : P} {pgdir v : Nat}

theorem Space.dir_self (space : Space m owner p pgdir) : owner pgdir = .used (.pgdir p) := (space.dir pgdir).mpr rfl

theorem Good.frame (good : Good image m owner p pgdir) {u : Use P} (held : owner v = .used u) : Frame image v :=
  good.account.valid v (by simp [held])

theorem Space.framed {touched : Use P → Prop} (space : Space m owner p pgdir)
    (acts : Acts touched m.page owner m'.page owner') (apart : ∀ u, touched u → ¬u.of p) :
    Space m' owner' p pgdir ∧ entry m' pgdir = entry m pgdir ∧ table m' pgdir = table m pgdir := by
  have keeps (u : Use P) (mine : u.of p) (v : Nat) : owner' v = .used u ↔ owner v = .used u :=
    ⟨acts.only v u fun t => apart u t mine, fun held => (acts.keeps v u (fun t => apart u t mine) held).1⟩
  have page (u : Use P) (mine : u.of p) (v : Nat) (held : owner v = .used u) : m'.page v = m.page v :=
    (acts.keeps v u (fun t => apart u t mine) held).2
  have sameDir := page (.pgdir p) rfl pgdir space.dir_self
  have sameTable : table m' pgdir = table m pgdir := table_congr sameDir
  have sameEntry : entry m' pgdir = entry m pgdir :=
    entry_congr sameDir fun i t here => page (.table p i) rfl t ((space.tables i t).mpr here)
  refine ⟨⟨fun v => ?_, fun i v => ?_, fun n v => ?_⟩, sameEntry, sameTable⟩
  · rw [keeps (.pgdir p) rfl, space.dir]
  · rw [keeps (.table p i) rfl, space.tables, sameTable]
  · rw [keeps (.user p n) rfl, space.users, mapped_congr sameEntry]

theorem table_zero (zero : m.page pgdir = fun _ => 0) (i : Nat) : table m pgdir i = none := by
  rw [table, word, zero, getLe_zero]
  simp [present]

theorem entry_zero (zero : m.page pgdir = fun _ => 0) (n : Nat) : entry m pgdir n = 0 := by
  rw [entry, table_zero zero]

theorem Space.empty (zero : m.page pgdir = fun _ => 0) (dir : ∀ v, owner v = .used (.pgdir p) ↔ v = pgdir)
    (tables : ∀ i v, owner v ≠ .used (.table p i)) (users : ∀ n v, owner v ≠ .used (.user p n)) :
    Space m owner p pgdir := by
  refine ⟨dir, fun i v => iff_of_false (tables i v) ?_, fun n v => iff_of_false (users n v) ?_⟩
  · simp [table_zero zero]
  · simp [mapped, entry_zero zero, present_zero]

theorem Good.same (good : Good image m owner p pgdir) (pages : m'.page = m.page) (list : m'.freelist = m.freelist) :
    Good image m' owner p pgdir := by
  have sameTable : table m' pgdir = table m pgdir := table_congr (congrFun pages pgdir)
  have sameEntry : entry m' pgdir = entry m pgdir := entry_congr (congrFun pages pgdir) fun _ t _ => congrFun pages t
  exact ⟨list ▸ good.account, good.space.dir, fun i v => sameTable ▸ good.space.tables i v,
    fun n v => mapped_congr sameEntry ▸ good.space.users n v⟩

theorem Space.tabled (space : Space m owner p pgdir) : Tabled m pgdir := by
  refine ⟨fun i t here => ?_, fun i j t here there => ?_⟩
  · rintro rfl
    have held := (space.tables i t).mpr here
    rw [space.dir_self] at held
    cases held
  · have held := (space.tables i t).mpr here
    rw [(space.tables j t).mpr there] at held
    cases held
    rfl

end Space

section Effects

variable {m m' : Memory} {owner : Owner P} {p : P} {pgdir i n t w : Nat}

theorem table_put (tabled : Tabled m pgdir) {k : Nat} (here : table m pgdir k = some t) :
    table (m.put t i w) pgdir = table m pgdir := table_congr (Function.update_of_ne (tabled.dir _ _ here).symm _ _)

theorem entry_put (tabled : Tabled m pgdir) (here : table m pgdir (n / nEntries) = some t) (small : w < 2 ^ 32) :
    entry (m.put t (n % nEntries) w) pgdir = Function.update (entry m pgdir) n w := by
  funext k
  rw [entry, table_put tabled here]
  by_cases same : k = n
  · subst same
    rw [here, Function.update_self]
    simp only [word, Memory.put, Memory.write, Function.update_self]
    exact getLe_putLe_self _ small
  rw [Function.update_of_ne same, entry]
  cases there : table m pgdir (k / nEntries) with
  | none => rfl
  | some s =>
    simp only [word, Memory.put, Memory.write]
    by_cases shared : s = t
    · subst shared
      have index := tabled.inj _ _ _ there here
      have apart : k % nEntries ≠ n % nEntries := by
        simp only [nEntries] at *
        omega
      rw [Function.update_self]
      exact getLe_putLe_ne _ apart
    · rw [Function.update_of_ne shared]

structure Hangs (m m' : Memory) (pgdir i t : Nat) : Prop where
  dir : m'.page pgdir = putLe (m.page pgdir) (4 * i) 4 (v2p t ||| pteP ||| pteW ||| pteU)
  empty : m'.page t = fun _ => 0
  others : ∀ v, v ≠ pgdir → v ≠ t → m'.page v = m.page v

theorem pde_eq (t : Nat) : v2p t ||| pteP ||| pteW ||| pteU = v2p t ||| 7 := by
  rw [Nat.or_assoc, Nat.or_assoc]
  rfl

variable {image : Image}

theorem table_hung (hangs : Hangs m m' pgdir i t) (frame : Frame image t) (known : i < nEntries) :
    table m' pgdir = Function.update (table m pgdir) i (some t) := by
  have aligned := frame.v2p_aligned
  have below : v2p t < 2 ^ 32 := Nat.lt_trans frame.v2p_lt (by decide)
  funext k
  by_cases same : k = i
  · subst same
    have stored : word m' pgdir k = v2p t ||| 7 := by
      rw [word, hangs.dir, pde_eq]
      exact getLe_putLe_self _ (or_lt aligned (by decide) below)
    have valid : present (v2p t ||| 7) = true := testBit_or_aligned aligned (by decide)
    rw [Function.update_self, table, stored, if_pos ⟨known, valid⟩, pteAddr_or aligned (by decide), frame.p2v_v2p]
  · have kept : word m' pgdir k = word m pgdir k := by
      rw [word, hangs.dir]
      exact getLe_putLe_ne _ same
    rw [Function.update_of_ne same, table, table, kept]

theorem entry_hung (tabled : Tabled m pgdir) (hangs : Hangs m m' pgdir i t) (frame : Frame image t)
    (known : i < nEntries) (missing : table m pgdir i = none) (fresh : ∀ k, table m pgdir k ≠ some t) :
    entry m' pgdir = entry m pgdir := by
  funext n
  rw [entry, entry, table_hung hangs frame known]
  by_cases same : n / nEntries = i
  · rw [same, Function.update_self, missing]
    simp only [word, hangs.empty]
    exact getLe_zero _ _
  · rw [Function.update_of_ne same]
    cases here : table m pgdir (n / nEntries) with
    | none => rfl
    | some s =>
      have other : s ≠ t := fun shared => fresh _ (shared ▸ here)
      exact word_congr (hangs.others s (tabled.dir _ _ here) other)

theorem Good.hung (good : Good image m owner p pgdir) (hangs : Hangs m m' pgdir i t)
    (account : Account (Frame image) (t :: m'.freelist) owner) (known : i < nEntries)
    (missing : table m pgdir i = none) :
    Good image m' (Function.update owner t (.used (.table p i))) p pgdir ∧ entry m' pgdir = entry m pgdir ∧
      table m' pgdir = Function.update (table m pgdir) i (some t) := by
  have free : owner t = .free := (account.listed t).mpr List.mem_cons_self
  have frame : Frame image t := account.valid t (by simp [free])
  have fresh : ∀ k, table m pgdir k ≠ some t := fun k hung => by
    rw [(good.space.tables k t).mpr hung] at free
    cases free
  have tables := table_hung hangs frame known
  have entries := entry_hung good.space.tabled hangs frame known missing fresh
  refine ⟨⟨account.take _, fun v => ?_, fun k v => ?_, fun n v => ?_⟩, entries, tables⟩
  · by_cases same : v = t
    · subst same
      have other : v ≠ pgdir := by
        rintro rfl
        rw [good.space.dir_self] at free
        cases free
      simp [other]
    · rw [Function.update_of_ne same, good.space.dir]
  · rw [tables]
    by_cases same : v = t
    · subst same
      rw [Function.update_self]
      by_cases index : k = i
      · subst index
        simp
      · rw [Function.update_of_ne index]
        simp [fresh k, Ne.symm index]
    · rw [Function.update_of_ne same, good.space.tables]
      by_cases index : k = i
      · subst index
        simp [missing, Ne.symm same]
      · rw [Function.update_of_ne index]
  · rw [mapped_congr entries]
    by_cases same : v = t
    · subst same
      have unmapped : mapped m pgdir n ≠ some v := fun used => by
        rw [(good.space.users n v).mpr used] at free
        cases free
      simp [unmapped]
    · rw [Function.update_of_ne same, good.space.users]

theorem Good.put_word (good : Good image m owner p pgdir) (here : table m pgdir (n / nEntries) = some t)
    (same : ∀ k, mapped (m.put t (n % nEntries) w) pgdir k = mapped m pgdir k) :
    Good image (m.put t (n % nEntries) w) owner p pgdir := by
  refine ⟨good.account, good.space.dir, fun i v => ?_, fun k v => ?_⟩
  · rw [table_put good.space.tabled here, good.space.tables]
  · rw [same, good.space.users]

theorem Good.put_kernel (good : Good image m owner p pgdir) (here : table m pgdir (n / nEntries) = some t)
    (high : userPages ≤ n) (small : w < 2 ^ 32) : Good image (m.put t (n % nEntries) w) owner p pgdir := by
  refine good.put_word here fun k => ?_
  simp only [mapped, entry_put good.space.tabled here small]
  by_cases low : k < userPages
  · rw [Function.update_of_ne (by omega)]
  · simp [low]

theorem Good.put_user (good : Good image m owner p pgdir) (here : table m pgdir (n / nEntries) = some t)
    (low : n < userPages) (fresh : present (entry m pgdir n) = false) {mem perm : Nat}
    (loose : owner mem = .used (.loose p)) (small : perm < pgSize) :
    Good image (m.put t (n % nEntries) (v2p mem ||| perm ||| pteP)) (Function.update owner mem (.used (.user p n)))
      p pgdir := by
  have frame := good.frame loose
  have aligned := frame.v2p_aligned
  have flags := perm_lt small
  have below : v2p mem < 2 ^ 32 := Nat.lt_trans frame.v2p_lt (by decide)
  rw [Nat.or_assoc]
  have entries := entry_put good.space.tabled here (or_lt aligned flags below)
  have valid : present (v2p mem ||| (perm ||| pteP)) = true := by
    rw [present, testBit_or_aligned aligned (by decide), Nat.testBit_or]
    simp [pteP]
  have now : mapped (m.put t (n % nEntries) (v2p mem ||| (perm ||| pteP))) pgdir =
      Function.update (mapped m pgdir) n (some mem) := by
    funext k
    simp only [mapped, entries]
    by_cases same : k = n
    · subst same
      simp [low, valid, pteAddr_or aligned flags, frame.p2v_v2p]
    · simp only [Function.update_of_ne same, mapped]
  have unused : mapped m pgdir n = none := by simp [mapped, fresh]
  refine ⟨good.account.pass loose _, fun v => ?_, fun i v => ?_, fun k v => ?_⟩
  · by_cases same : v = mem
    · subst same
      have other : v ≠ pgdir := by
        rintro rfl
        rw [good.space.dir_self] at loose
        cases loose
      simp [other]
    · rw [Function.update_of_ne same, good.space.dir]
  · rw [table_put good.space.tabled here]
    by_cases same : v = mem
    · subst same
      have other : table m pgdir i ≠ some v := fun hung => by
        rw [(good.space.tables i v).mpr hung] at loose
        cases loose
      simp [other]
    · rw [Function.update_of_ne same, good.space.tables]
  · rw [now]
    by_cases same : v = mem
    · subst same
      rw [Function.update_self]
      by_cases index : k = n
      · subst index
        simp
      · have other : mapped m pgdir k ≠ some v := fun used => by
          rw [(good.space.users k v).mpr used] at loose
          cases loose
        simp [Function.update_of_ne index, other, Ne.symm index]
    · rw [Function.update_of_ne same, good.space.users]
      by_cases index : k = n
      · subst index
        simp [unused, Ne.symm same]
      · rw [Function.update_of_ne index]

theorem Good.clear (good : Good image m owner p pgdir) {v : Nat} (here : table m pgdir (n / nEntries) = some t)
    (used : mapped m pgdir n = some v) :
    Good image ((m.freed v).put t (n % nEntries) 0) (Function.update owner v .free) p pgdir ∧
      entry ((m.freed v).put t (n % nEntries) 0) pgdir = Function.update (entry m pgdir) n 0 ∧
      table ((m.freed v).put t (n % nEntries) 0) pgdir = table m pgdir := by
  have held := (good.space.users n v).mpr used
  have notDir : v ≠ pgdir := by
    rintro rfl
    rw [good.space.dir_self] at held
    cases held
  have notTable (i s : Nat) (hung : table m pgdir i = some s) : s ≠ v := by
    rintro rfl
    rw [(good.space.tables i s).mpr hung] at held
    cases held
  have sameDir : (m.freed v).page pgdir = m.page pgdir := Function.update_of_ne notDir.symm _ _
  have sameTable : table (m.freed v) pgdir = table m pgdir := table_congr sameDir
  have sameEntry : entry (m.freed v) pgdir = entry m pgdir :=
    entry_congr sameDir fun i s hung => Function.update_of_ne (notTable i s hung) _ _
  -- With its frame freed but still mapped, the space is as before except for the owner.
  have between : Space (m.freed v) owner p pgdir := ⟨good.space.dir, fun i s => sameTable ▸ good.space.tables i s,
      fun k s => mapped_congr sameEntry ▸ good.space.users k s⟩
  have entries := entry_put between.tabled (sameTable ▸ here) (w := 0) (by decide)
  have tables : table ((m.freed v).put t (n % nEntries) 0) pgdir = table m pgdir :=
    (table_put between.tabled (sameTable ▸ here)).trans sameTable
  rw [sameEntry] at entries
  refine ⟨⟨good.account.give held, fun s => ?_, fun i s => ?_, fun k s => ?_⟩, entries, tables⟩
  · by_cases same : s = v
    · subst same
      simp [notDir]
    · rw [Function.update_of_ne same, good.space.dir]
  · rw [tables]
    by_cases same : s = v
    · subst same
      have other : table m pgdir i ≠ some s := fun hung => notTable i s hung rfl
      simp [other]
    · rw [Function.update_of_ne same, good.space.tables]
  · simp only [mapped, entries]
    by_cases same : s = v
    · subst same
      rw [Function.update_self]
      by_cases index : k = n
      · subst index
        simp [present_zero]
      · have other : mapped m pgdir k ≠ some s := fun also => by
          rw [(good.space.users k s).mpr also] at held
          cases held
          exact index rfl
        rw [mapped] at other
        simp only [Function.update_of_ne index, reduceCtorEq, false_iff]
        exact other
    · rw [Function.update_of_ne same, good.space.users]
      by_cases index : k = n
      · subst index
        have other : mapped m pgdir k ≠ some s := fun also => same (Option.some.inj (also.symm.trans used))
        simp [other, present_zero]
      · simp only [Function.update_of_ne index, mapped]

end Effects

end Xv6.Vm
