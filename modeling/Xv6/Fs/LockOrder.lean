import Xv6.Shared.Interleaving
import Xv6.Fs.Dangling

set_option autoImplicit false

namespace Xv6.Fs

open Threads

section Discipline

structure Ghost where
  stamp : Nat → Nat
  clock : Nat
  own : Nat → Multiset Nat

abbrev Kernel := World State Nat Nat Ghost

abbrev inodeOf (w : Kernel) (i : Nat) : Inode := w.state.core.inodes i

/-- If `x` is a directory then it was made after `d`. -/
def Above (w : Kernel) (d x : Nat) : Prop := (inodeOf w x).type = .dir → w.ghost.stamp d < w.ghost.stamp x

def openRefs (c : Core) (i : Nat) : Nat := c.files.countP fun file => decide (file.type = .inode ∧ file.ip = i)

def ownRefs (n : Nat) (own : Nat → Multiset Nat) (i : Nat) : Nat := ∑ p ∈ Finset.range n, (own p).count i

structure Ordered (w : Kernel) : Prop where
  small : w.state.core.ninodes ≤ 2 ^ 16
  bound : ∀ i, (inodeOf w i).type ≠ .free → i < w.state.core.ninodes
  past : ∀ i, w.ghost.stamp i < w.ghost.clock
  entries : ∀ d, (inodeOf w d).type = .dir → ∀ entry ∈ (inodeOf w d).slots, entry.inum ≠ 0 →
    entry.name ≠ dot → entry.name ≠ dotdot → Above w d entry.inum
  cached : ∀ i, w.state.core.valid i = true → (inodeOf w i).type ≠ .free
  counted : ∀ i, ownRefs w.state.core.procs.length w.ghost.own i + openRefs w.state.core i ≤ w.state.core.ref i

structure StepOf (p : Nat) (w w' : Kernel) : Prop where
  content : ∀ i, w.locks i ≠ some p → (inodeOf w i).type ≠ .free → inodeOf w' i = inodeOf w i
  stamps : ∀ i, (inodeOf w i).type ≠ .free → w'.ghost.stamp i = w.ghost.stamp i
  later : ∀ i, w.ghost.stamp i ≤ w'.ghost.stamp i
  clock : w.ghost.clock ≤ w'.ghost.clock
  made : ∀ i, (inodeOf w' i).type = .dir → (inodeOf w i).type = .dir ∨ w.ghost.clock ≤ w'.ghost.stamp i
  own : ∀ q, q ≠ p → w'.ghost.own q = w.ghost.own q
  locks : ∀ q, q ≠ p → ∀ i, w'.locks i = some q ↔ w.locks i = some q
  kept : ∀ q, q ≠ p → q < w.state.core.procs.length → ∀ i ∈ w.ghost.own q, (inodeOf w i).type ≠ .free →
    (inodeOf w' i).type = (inodeOf w i).type
  cwd : ∀ q, q ≠ p → cwdOf w'.state.core q = cwdOf w.state.core q
  procs : w'.state.core.procs.length = w.state.core.procs.length

structure Undisturbed (p : Nat) (w w' : Kernel) : Prop where
  content : ∀ i, w.locks i = some p → (inodeOf w i).type ≠ .free →
    inodeOf w' i = inodeOf w i ∧ w'.ghost.stamp i = w.ghost.stamp i
  later : ∀ i, w.ghost.stamp i ≤ w'.ghost.stamp i
  clock : w.ghost.clock ≤ w'.ghost.clock
  made : ∀ i, (inodeOf w' i).type = .dir → (inodeOf w i).type = .dir ∨ w.ghost.clock ≤ w'.ghost.stamp i
  own : w'.ghost.own p = w.ghost.own p
  locks : ∀ i, w'.locks i = some p ↔ w.locks i = some p
  kept : p < w.state.core.procs.length → ∀ i ∈ w.ghost.own p, (inodeOf w i).type ≠ .free →
    (inodeOf w' i).type = (inodeOf w i).type
  cwd : cwdOf w'.state.core p = cwdOf w.state.core p
  procs : w'.state.core.procs.length = w.state.core.procs.length

theorem Undisturbed.trans {p : Nat} {w₁ w₂ w₃ : Kernel} (first : Undisturbed p w₁ w₂)
    (second : Undisturbed p w₂ w₃) : Undisturbed p w₁ w₃ where
  content i held typed := by
    obtain ⟨same, stamp⟩ := first.content i held typed
    obtain ⟨same', stamp'⟩ := second.content i ((first.locks i).mpr held) (by rwa [same])
    exact ⟨same'.trans same, stamp'.trans stamp⟩
  later i := Nat.le_trans (first.later i) (second.later i)
  clock := Nat.le_trans first.clock second.clock
  made i isDir := by
    rcases second.made i isDir with before | late
    · exact (first.made i before).imp id fun late => Nat.le_trans late (second.later i)
    · exact Or.inr (Nat.le_trans first.clock late)
  own := second.own.trans first.own
  locks i := (second.locks i).trans (first.locks i)
  kept known i owned typed := by
    have same := first.kept known i owned typed
    rw [second.kept (first.procs ▸ known) i (first.own ▸ owned) (by rwa [same]), same]
  cwd := second.cwd.trans first.cwd
  procs := second.procs.trans first.procs

/-- Lock the parent before the child: a process that asks for an inode lock by ilock holds only locks of
directories that were made before, if what it asks for is a directory. -/
def lockOrder : Discipline State Nat Via Nat Ghost where
  inv := Ordered
  guar := StepOf
  rely := Undisturbed
  wait p via x w := via = .ilock → ∀ d, w.locks d = some p → (inodeOf w d).type = .dir ∧ Above w d x
  guar_refl p w := ⟨fun _ _ _ => rfl, fun _ _ => rfl, fun _ => le_rfl, le_rfl, fun _ => Or.inl, fun _ _ => rfl,
    fun _ _ _ => Iff.rfl, fun _ _ _ _ _ _ => rfl, fun _ _ => rfl, rfl⟩
  rely_refl p w := ⟨fun _ _ _ => ⟨rfl, rfl⟩, fun _ => le_rfl, le_rfl, fun _ => Or.inl, rfl, fun _ => Iff.rfl,
    fun _ _ _ _ => rfl, rfl, rfl⟩
  rely_trans _ _ _ _ := Undisturbed.trans
  rely_guar p q w w' apart _ _ step :=
    { content := fun i held typed => ⟨step.content i (by simp [held, apart]) typed, step.stamps i typed⟩
      later := step.later
      clock := step.clock
      made := step.made
      own := step.own p apart
      locks := step.locks p apart
      kept := step.kept p apart
      cwd := step.cwd p apart
      procs := step.procs }

end Discipline

section Knowledge

/-- The references and the working directory of a process; of the inodes of the references in `plain` it
knows that they are files or devices. -/
structure Holding where
  refs : Multiset Nat
  cwd : Nat
  plain : Multiset Nat := 0

/-- What a process knows at one point of a call: the locks that it holds, which of the locked inodes are
allocated, which are directories, and what lies below these. -/
structure Local extends Holding where
  held : List Nat := []
  typed : List Nat := []
  dirs : List Nat := []
  above : List (Nat × Nat) := []

structure Knows (p : Nat) (l : Local) (w : Kernel) : Prop where
  known : p < w.state.core.procs.length
  nodup : l.held.Nodup
  locks : ∀ i, w.locks i = some p ↔ i ∈ l.held
  own : w.ghost.own p = l.refs + l.plain
  cwd : cwdOf w.state.core p = l.cwd
  plain : ∀ i ∈ l.plain, (inodeOf w i).type ≠ .free ∧ (inodeOf w i).type ≠ .dir
  typed : ∀ i ∈ l.typed, i ∈ l.held ∧ (inodeOf w i).type ≠ .free
  dirs : ∀ d ∈ l.dirs, d ∈ l.held ∧ (inodeOf w d).type = .dir ∧ w.ghost.stamp d < w.ghost.clock
  above : ∀ pair ∈ l.above, pair.1 ∈ l.dirs ∧ Above w pair.1 pair.2

abbrev Does {A : Type} (p : Nat) (l : Local) (x : Code A) (post : A → Kernel → Prop) : Prop :=
  lockOrder.Keeps p (Knows p l) x post

abbrev Spares {A : Type} (p : Nat) (l : Local) (x : Code A) : Prop := Does p l x fun _ => Knows p l

variable {p i : Nat} {l l' : Local} {w : Kernel}

theorem knows_stays : lockOrder.Stays p (Knows p l) := by
  intro w w' knows moved _
  have same (i : Nat) (held : i ∈ l.held) := moved.content i ((knows.locks i).mpr held)
  have dirs (d : Nat) (dir : d ∈ l.dirs) : inodeOf w' d = inodeOf w d ∧ w'.ghost.stamp d = w.ghost.stamp d :=
    same d (knows.dirs d dir).1 (by simp [(knows.dirs d dir).2.1])
  refine ⟨moved.procs ▸ knows.known, knows.nodup, fun i => (moved.locks i).trans (knows.locks i),
    moved.own.trans knows.own, moved.cwd.trans knows.cwd, fun i file => ?_, fun i typed => ?_, fun d dir => ?_,
    fun pair below => ?_⟩
  · have owned : i ∈ w.ghost.own p := by
      rw [knows.own]
      exact Multiset.mem_add.mpr (Or.inr file)
    rw [moved.kept knows.known i owned (knows.plain i file).1]
    exact knows.plain i file
  · obtain ⟨held, used⟩ := knows.typed i typed
    rw [(same i held used).1]
    exact ⟨held, used⟩
  · obtain ⟨held, isDir, past⟩ := knows.dirs d dir
    rw [(dirs d dir).1, (dirs d dir).2]
    exact ⟨held, isDir, Nat.lt_of_lt_of_le past moved.clock⟩
  · obtain ⟨dir, before⟩ := knows.above pair below
    refine ⟨dir, fun isDir => ?_⟩
    rw [(dirs pair.1 dir).2]
    rcases moved.made pair.2 isDir with old | late
    · exact Nat.lt_of_lt_of_le (before old) (moved.later pair.2)
    · exact Nat.lt_of_lt_of_le (knows.dirs pair.1 dir).2.2 late

structure Local.Inside (l : Local) : Prop where
  nodup : l.held.Nodup
  typed : ∀ i ∈ l.typed, i ∈ l.held
  dirs : ∀ d ∈ l.dirs, d ∈ l.held
  above : ∀ pair ∈ l.above, pair.1 ∈ l.dirs

theorem Knows.inside (knows : Knows p l w) : l.Inside :=
  ⟨knows.nodup, fun i typed => (knows.typed i typed).1, fun d dir => (knows.dirs d dir).1,
    fun pair below => (knows.above pair below).1⟩

theorem Knows.forget (knows : Knows p l w) (same : l'.toHolding = l.toHolding) (inside : l'.Inside)
    (held : ∀ j, j ∈ l'.held ↔ j ∈ l.held) (typed : ∀ j ∈ l'.typed, j ∈ l.typed) (dirs : ∀ d ∈ l'.dirs, d ∈ l.dirs)
    (above : ∀ pair ∈ l'.above, pair ∈ l.above) : Knows p l' w := by
  refine ⟨knows.known, inside.nodup, fun j => (knows.locks j).trans (held j).symm, ?_, ?_, ?_, fun j member => ?_,
    fun d dir => ?_, fun pair below => ?_⟩
  · rw [same]
    exact knows.own
  · rw [same]
    exact knows.cwd
  · rw [same]
    exact knows.plain
  · exact ⟨inside.typed j member, (knows.typed j (typed j member)).2⟩
  · exact ⟨inside.dirs d dir, (knows.dirs d (dirs d dir)).2⟩
  · exact ⟨inside.above pair below, (knows.above pair (above pair below)).2⟩

structure Drops (i : Nat) (l l' : Local) : Prop where
  refs : l'.refs = l.refs
  cwd : l'.cwd = l.cwd
  plain : l'.plain = l.plain
  nodup : l'.held.Nodup
  held : ∀ j, j ∈ l'.held ↔ j ∈ l.held ∧ j ≠ i
  typed : ∀ j ∈ l'.typed, j ∈ l.typed ∧ j ≠ i
  dirs : ∀ d ∈ l'.dirs, d ∈ l.dirs ∧ d ≠ i
  above : ∀ pair ∈ l'.above, pair ∈ l.above ∧ pair.1 ∈ l'.dirs

theorem Local.Inside.drops (inside : l.Inside) (fresh : i ∉ l.held) : Drops i { l with held := i :: l.held } l where
  refs := rfl
  cwd := rfl
  plain := rfl
  nodup := inside.nodup
  held j := by
    by_cases same : j = i <;> simp [same, fresh]
  typed j member := ⟨member, fun same => fresh (same ▸ inside.typed j member)⟩
  dirs d dir := ⟨dir, fun same => fresh (same ▸ inside.dirs d dir)⟩
  above pair below := ⟨below, inside.above pair below⟩

end Knowledge

section Steps

variable {A : Type} {p i : Nat} {l l' : Local} {w : Kernel} {s : State}

theorem ownRefs_update {n : Nat} (own : Nat → Multiset Nat) (known : p < n) (r : Multiset Nat) (j : Nat) :
    ownRefs n (Function.update own p r) j + (own p).count j = ownRefs n own j + r.count j := by
  have change := sum_change (f := fun q => (own q).count j) (g := fun q => (Function.update own p r q).count j) known
    fun q away => by simp [away]
  simpa [ownRefs] using change

def Ghost.give (ghost : Ghost) (p : Nat) (r : Multiset Nat) : Ghost :=
  { ghost with own := Function.update ghost.own p r }

/-- A step of `p` that changes no inode: references move between the process, the open files and the
reference counts. -/
structure Moves (p : Nat) (c c' : Core) (r r' : Multiset Nat) : Prop where
  ninodes : c'.ninodes = c.ninodes
  inodes : c'.inodes = c.inodes
  valid : ∀ i, c'.valid i = true → c.valid i = true ∨ (c.inodes i).type ≠ .free
  procs : c'.procs.length = c.procs.length
  cwd : ∀ q, q ≠ p → cwdOf c' q = cwdOf c q
  balance : ∀ i, r'.count i + openRefs c' i + c.ref i ≤ r.count i + openRefs c i + c'.ref i

theorem Moves.allowed {r' : Multiset Nat} (moves : Moves p w.state.core s.core l.refs r') (knows : Knows p l w)
    (inv : Ordered w) : lockOrder.Allowed p w ⟨s, w.locks, w.ghost.give p (r' + l.plain)⟩ := by
  constructor
  · refine ⟨?_, ?_, inv.past, ?_, ?_, fun i => ?_⟩
    · dsimp only
      rw [moves.ninodes]
      exact inv.small
    · simp only [inodeOf, moves.inodes, moves.ninodes]
      exact inv.bound
    · simp only [inodeOf, Above, moves.inodes]
      exact inv.entries
    · intro i valid
      rw [inodeOf, moves.inodes]
      exact (moves.valid i valid).elim (inv.cached i) id
    · have before := inv.counted i
      have balance := moves.balance i
      have own := ownRefs_update w.ghost.own knows.known (r' + l.plain) i
      rw [knows.own, Multiset.count_add, Multiset.count_add] at own
      dsimp only [Ghost.give]
      rw [moves.procs]
      omega
  · refine ⟨fun i _ _ => ?_, fun _ _ => rfl, fun _ => le_rfl, le_rfl, fun i isDir => ?_, fun q away => ?_,
      fun _ _ _ => Iff.rfl, fun _ _ _ i _ _ => ?_, moves.cwd, moves.procs⟩
    · rw [inodeOf, moves.inodes]
    · rw [inodeOf, moves.inodes] at isDir
      exact Or.inl isDir
    · simp [Ghost.give, away]
    · rw [inodeOf, moves.inodes]

theorem Moves.knows {r' : Multiset Nat} (moves : Moves p w.state.core s.core l.refs r') (knows : Knows p l w) :
    Knows p { l with refs := r', cwd := cwdOf s.core p } ⟨s, w.locks, w.ghost.give p (r' + l.plain)⟩ := by
  refine ⟨moves.procs ▸ knows.known, knows.nodup, knows.locks, by simp [Ghost.give], rfl, ?_, ?_, ?_, ?_⟩
  all_goals simp only [inodeOf, Above, moves.inodes]
  · exact knows.plain
  · exact knows.typed
  · exact knows.dirs
  · exact knows.above

theorem keeps_moves {blocks : Core → List LogBlock} {f : Core → Option (A × Core)} (refs : A → Multiset Nat)
    (cwd : Nat) (moves : ∀ c, p < c.procs.length → cwdOf c p = l.cwd → ∀ a c', f c = some (a, c') →
      Moves p c c' l.refs (refs a) ∧ cwdOf c' p = cwd) :
    Does p l (change blocks f) fun a => Knows p { l with refs := refs a, cwd } := by
  refine keeps_atomic knows_stays fun w inv knows a s value => ?_
  obtain ⟨⟨b, c'⟩, found, same⟩ := Option.map_eq_some_iff.mp value
  cases same
  obtain ⟨moves, here⟩ := moves _ knows.known knows.cwd _ _ found
  have moves' : Moves p w.state.core
      (State.core { w.state with core := c', logged := logAll w.state.logged (blocks w.state.core) }) l.refs _ := moves
  subst here
  exact ⟨_, moves'.allowed knows inv, moves'.knows knows⟩

structure Quiet (c c' : Core) : Prop where
  ninodes : c'.ninodes = c.ninodes
  inodes : c'.inodes = c.inodes
  ref : c'.ref = c.ref
  valid : ∀ i, c'.valid i = true → c.valid i = true ∨ (c.inodes i).type ≠ .free
  files : ∀ i, openRefs c' i ≤ openRefs c i
  cwd : ∀ q, cwdOf c' q = cwdOf c q
  procs : c'.procs.length = c.procs.length

theorem Quiet.refl (c : Core) : Quiet c c := ⟨rfl, rfl, rfl, fun _ => Or.inl, fun _ => le_rfl, fun _ => rfl, rfl⟩

theorem Quiet.moves {c c' : Core} (quiet : Quiet c c') (r : Multiset Nat) : Moves p c c' r r :=
  ⟨quiet.ninodes, quiet.inodes, quiet.valid, quiet.procs, fun q _ => quiet.cwd q, fun i => by
    have := quiet.files i
    rw [quiet.ref]
    omega⟩

theorem keeps_quiet {blocks : Core → List LogBlock} {f : Core → Option (A × Core)}
    (quiet : ∀ c a c', f c = some (a, c') → Quiet c c') : Spares p l (change blocks f) :=
  keeps_moves (fun _ => l.refs) l.cwd fun c _ here a c' value =>
    ⟨(quiet c a c' value).moves _, ((quiet c a c' value).cwd p).trans here⟩

theorem keeps_read {f : Core → A} {post : A → Kernel → Prop}
    (learn : ∀ w, Ordered w → Knows p l w → post (f w.state.core) w) : Does p l (read f) post := by
  refine keeps_atomic knows_stays fun w inv knows a s value => ?_
  cases value
  exact ⟨w.ghost, ⟨inv, lockOrder.guar_refl p w⟩, learn w inv knows⟩

/-- A step of `p` that changes the content of inode `i`: what it writes into directory slots keeps the
order. -/
structure Edits (w : Kernel) (i : Nat) (c' : Core) : Prop where
  ninodes : c'.ninodes = w.state.core.ninodes
  others : ∀ j, j ≠ i → c'.inodes j = inodeOf w j
  type : (c'.inodes i).type = (inodeOf w i).type
  slots : ∀ entry ∈ (c'.inodes i).slots, entry ∈ (inodeOf w i).slots ∨ entry.inum = 0 ∨ entry.name = dot ∨
    entry.name = dotdot ∨ Above w i entry.inum
  ref : c'.ref = w.state.core.ref
  valid : c'.valid = w.state.core.valid
  files : c'.files = w.state.core.files
  procs : c'.procs = w.state.core.procs

theorem Edits.types {c' : Core} (edits : Edits w i c') (j : Nat) : (c'.inodes j).type = (inodeOf w j).type := by
  by_cases same : j = i
  · rw [same, edits.type]
  · rw [edits.others j same]

theorem Edits.allowed (edits : Edits w i s.core) (inv : Ordered w) (held : w.locks i = some p) :
    lockOrder.Allowed p w ⟨s, w.locks, w.ghost⟩ := by
  have same := edits.types
  constructor
  · refine ⟨?_, fun j typed => ?_, inv.past, fun d isDir entry present used notDot notDotdot => ?_,
      fun j valid => ?_, fun j => ?_⟩
    · dsimp only
      rw [edits.ninodes]
      exact inv.small
    · rw [same] at typed
      rw [edits.ninodes]
      exact inv.bound j typed
    · rw [same] at isDir
      suffices Above w d entry.inum by
        rw [Above, same]
        exact this
      by_cases here : d = i
      · subst here
        rcases edits.slots entry present with old | zero | isDot | isDotdot | above
        · exact inv.entries d isDir entry old used notDot notDotdot
        · exact absurd zero used
        · exact absurd isDot notDot
        · exact absurd isDotdot notDotdot
        · exact above
      · rw [inodeOf, edits.others d here] at present
        exact inv.entries d isDir entry present used notDot notDotdot
    · dsimp only at valid
      rw [edits.valid] at valid
      rw [same]
      exact inv.cached j valid
    · simp only [openRefs, edits.files, edits.procs, edits.ref]
      exact inv.counted j
  · refine ⟨fun j free typed => edits.others j fun here => free (here ▸ held), fun _ _ => rfl, fun _ => le_rfl, le_rfl,
      fun j isDir => Or.inl (by rwa [same] at isDir), fun _ _ => rfl, fun _ _ _ => Iff.rfl,
      fun _ _ _ j _ _ => same j, fun q _ => ?_, ?_⟩
    · simp only [cwdOf, edits.procs]
    · simp only [edits.procs]

theorem Edits.knows (edits : Edits w i s.core) (knows : Knows p l w) : Knows p l ⟨s, w.locks, w.ghost⟩ := by
  have same := edits.types
  refine ⟨by simpa only [edits.procs] using knows.known, knows.nodup, knows.locks, knows.own, ?_, ?_, ?_, ?_, ?_⟩
  · simpa only [cwdOf, edits.procs] using knows.cwd
  · simpa only [inodeOf, same] using knows.plain
  · simpa only [inodeOf, same] using knows.typed
  · simpa only [inodeOf, same] using knows.dirs
  · simpa only [Above, inodeOf, same] using knows.above

theorem keeps_edits {blocks : Core → List LogBlock} {f : Core → Option (A × Core)} (held : i ∈ l.held)
    (edits : ∀ w, Ordered w → Knows p l w → ∀ a c', f w.state.core = some (a, c') → Edits w i c') :
    Spares p l (change blocks f) := by
  refine keeps_atomic knows_stays fun w inv knows a s value => ?_
  obtain ⟨⟨b, c'⟩, found, same⟩ := Option.map_eq_some_iff.mp value
  cases same
  have edits' : Edits w i
      (State.core { w.state with core := c', logged := logAll w.state.logged (blocks w.state.core) }) :=
    edits w inv knows _ _ found
  exact ⟨w.ghost, edits'.allowed inv ((knows.locks i).mpr held), edits'.knows knows⟩

theorem keeps_lock {via : Via} (wait : via = .ilock → ∀ d ∈ l.held, (d, i) ∈ l.above) :
    Does p l (acquire via i) fun _ => Knows p { l with held := i :: l.held } := by
  refine keeps_acquire knows_stays (fun w inv knows isLock d held => ?_) fun w inv knows free => ⟨w.ghost, ⟨?_, ?_⟩, ?_⟩
  · have below := knows.above _ (wait isLock d ((knows.locks d).mp held))
    exact ⟨(knows.dirs d below.1).2.1, below.2⟩
  · exact ⟨inv.small, inv.bound, inv.past, inv.entries, inv.cached, inv.counted⟩
  · refine { lockOrder.guar_refl p w with locks := fun q away j => ?_ }
    by_cases same : j = i
    · subst same
      simp [free, Ne.symm away]
    · simp [same]
  · have fresh : i ∉ l.held := fun held => by simp [(knows.locks i).mpr held] at free
    refine ⟨knows.known, List.nodup_cons.mpr ⟨fresh, knows.nodup⟩, fun j => ?_, knows.own, knows.cwd, knows.plain,
      fun j typed => ?_, fun d dir => ?_, knows.above⟩
    · by_cases same : j = i
      · subst same
        simp
      · simp [same, knows.locks]
    · exact ⟨List.mem_cons_of_mem _ (knows.typed j typed).1, (knows.typed j typed).2⟩
    · exact ⟨List.mem_cons_of_mem _ (knows.dirs d dir).1, (knows.dirs d dir).2⟩

theorem keeps_unlock (drops : l.held.Nodup → Drops i l l') : Does p l (release i) fun _ => Knows p l' := by
  refine keeps_release knows_stays fun w inv knows held => ⟨w.ghost, ⟨?_, ?_⟩, ?_⟩
  · exact ⟨inv.small, inv.bound, inv.past, inv.entries, inv.cached, inv.counted⟩
  · refine { lockOrder.guar_refl p w with locks := fun q away j => ?_ }
    by_cases same : j = i
    · subst same
      simp [held, Ne.symm away]
    · simp [same]
  · have drops := drops knows.nodup
    refine ⟨knows.known, drops.nodup, fun j => ?_, ?_, ?_, ?_, fun j typed => ?_, fun d dir => ?_, fun pair below => ?_⟩
    · by_cases same : j = i
      · subst same
        simp [drops.held]
      · simp [same, knows.locks, drops.held]
    · rw [drops.refs, drops.plain]
      exact knows.own
    · rw [drops.cwd]
      exact knows.cwd
    · rw [drops.plain]
      exact knows.plain
    · obtain ⟨old, away⟩ := drops.typed j typed
      exact ⟨(drops.held j).mpr ⟨(knows.typed j old).1, away⟩, (knows.typed j old).2⟩
    · obtain ⟨old, away⟩ := drops.dirs d dir
      exact ⟨(drops.held d).mpr ⟨(knows.dirs d old).1, away⟩, (knows.dirs d old).2⟩
    · exact ⟨(drops.above pair below).2, (knows.above pair (drops.above pair below).1).2⟩

theorem lastPut_alone (inv : Ordered w) (last : lastPut w.state.core i = true) (known : p < w.state.core.procs.length)
    (owned : i ∈ w.ghost.own p) {q : Nat} (away : q ≠ p) (other : q < w.state.core.procs.length) :
    i ∉ w.ghost.own q := by
  intro too
  have one : w.state.core.ref i = 1 := by
    simp only [lastPut, Bool.and_eq_true, decide_eq_true_eq] at last
    exact last.2.2
  have both := add_le_sum (f := fun q => (w.ghost.own q).count i) away other known
  have := inv.counted i
  have := Multiset.one_le_count_iff_mem.mpr owned
  have := Multiset.one_le_count_iff_mem.mpr too
  simp only [ownRefs] at *
  omega

theorem ifree_allowed (inv : Ordered w) (last : lastPut w.state.core i = true)
    (known : p < w.state.core.procs.length) (owned : i ∈ w.ghost.own p) (held : w.locks i = some p)
    (freed : s.core = w.state.core.ifree i) : lockOrder.Allowed p w ⟨s, w.locks, w.ghost⟩ := by
  have type (j : Nat) : (s.core.inodes j).type = if j = i then .free else (inodeOf w j).type := by
    rw [freed]
    by_cases same : j = i <;> simp [Core.ifree, same]
  have others (j : Nat) (away : j ≠ i) : s.core.inodes j = inodeOf w j := by
    rw [freed, ifree_inodes_other away]
  constructor
  · refine ⟨?_, fun j typed => ?_, inv.past, fun d isDir entry present used notDot notDotdot isDir' => ?_,
      fun j valid => ?_, fun j => ?_⟩
    · dsimp only
      rw [freed]
      exact inv.small
    · rw [type] at typed
      rw [freed]
      split at typed
      · exact absurd rfl typed
      · exact inv.bound j typed
    · rw [type] at isDir isDir'
      split at isDir
      · cases isDir
      split at isDir'
      · cases isDir'
      next away _ =>
        rw [inodeOf, others d away] at present
        exact inv.entries d isDir entry present used notDot notDotdot isDir'
    · rw [type]
      dsimp only at valid
      rw [freed] at valid
      by_cases same : j = i
      · simp [Core.ifree, same] at valid
      · rw [if_neg same]
        exact inv.cached j (by simpa [Core.ifree, same] using valid)
    · rw [freed]
      exact inv.counted j
  · refine ⟨fun j free _ => others j fun here => free (here ▸ held), fun _ _ => rfl, fun _ => le_rfl, le_rfl,
      fun j isDir => Or.inl ?_, fun _ _ => rfl, fun _ _ _ => Iff.rfl, fun q away other j owns _ => ?_,
      fun q _ => ?_, ?_⟩
    · rw [type] at isDir
      split at isDir
      · cases isDir
      · exact isDir
    · rw [type, if_neg]
      rintro rfl
      exact lastPut_alone inv last known owned away other owns
    · rw [freed]
      rfl
    · rw [freed]
      rfl

theorem ifree_knows (inv : Ordered w) (last : lastPut w.state.core i = true) (knows : Knows p l w) (owned : i ∈ l.refs)
    (typed : i ∉ l.typed) (dirs : i ∉ l.dirs) (freed : s.core = w.state.core.ifree i) :
    Knows p l ⟨s, w.locks, w.ghost⟩ := by
  have others (j : Nat) (away : j ≠ i) : s.core.inodes j = inodeOf w j := by
    rw [freed, ifree_inodes_other away]
  have notPlain : i ∉ l.plain := by
    intro plain
    have one : w.state.core.ref i = 1 := by
      simp only [lastPut, Bool.and_eq_true, decide_eq_true_eq] at last
      exact last.2.2
    have counted := inv.counted i
    have mine : (w.ghost.own p).count i ≤ ownRefs w.state.core.procs.length w.ghost.own i :=
      le_sum (f := fun q => (w.ghost.own q).count i) knows.known
    rw [knows.own, Multiset.count_add] at mine
    have := Multiset.one_le_count_iff_mem.mpr owned
    have := Multiset.one_le_count_iff_mem.mpr plain
    omega
  refine ⟨by simpa [freed, Core.ifree] using knows.known, knows.nodup, knows.locks, knows.own, ?_, fun j plain => ?_,
    fun j isTyped => ?_, fun d dir => ?_, fun pair below => ⟨(knows.above pair below).1, fun isDir => ?_⟩⟩
  · dsimp only
    rw [freed]
    exact knows.cwd
  · rw [inodeOf, others j fun same => notPlain (same ▸ plain)]
    exact knows.plain j plain
  · rw [inodeOf, others j fun same => typed (same ▸ isTyped)]
    exact knows.typed j isTyped
  · rw [inodeOf, others d fun same => dirs (same ▸ dir)]
    exact knows.dirs d dir
  · by_cases same : pair.2 = i
    · simp [inodeOf, freed, same] at isDir
    · rw [inodeOf, others _ same] at isDir
      exact (knows.above pair below).2 isDir

def Ghost.allocate (ghost : Ghost) (i : Nat) : Ghost :=
  { ghost with stamp := Function.update ghost.stamp i ghost.clock, clock := ghost.clock + 1 }

theorem ialloc_allowed {type : FileType} (inv : Ordered w) (fresh : findFree w.state.core = some i)
    (made : s.core = w.state.core.setInode i (freshInode type)) :
    lockOrder.Allowed p w ⟨s, w.locks, w.ghost.allocate i⟩ := by
  have free : (inodeOf w i).type = .free := by
    have := List.find?_some fresh
    simpa using this
  have others (j : Nat) (away : j ≠ i) : s.core.inodes j = inodeOf w j := by simp [made, Core.setInode, away]
  have here : s.core.inodes i = freshInode type := by simp [made, Core.setInode]
  have stamps (j : Nat) (away : j ≠ i) : (w.ghost.allocate i).stamp j = w.ghost.stamp j := by
    simp [Ghost.allocate, away]
  have apart {j : Nat} (typed : (inodeOf w j).type ≠ .free) : j ≠ i := fun same => typed (same ▸ free)
  constructor
  · refine ⟨?_, fun j typed => ?_, fun j => ?_, fun d isDir entry present used notDot notDotdot isDir' => ?_,
      fun j valid => ?_, fun j => ?_⟩
    · dsimp only
      rw [made]
      exact inv.small
    · rw [made]
      by_cases same : j = i
      · rw [same]
        exact (findFree_bound fresh).2
      · rw [inodeOf, others j same] at typed
        exact inv.bound j typed
    · by_cases same : j = i
      · simp [Ghost.allocate, same]
      · rw [stamps j same]
        exact Nat.lt_succ_of_lt (inv.past j)
    · by_cases same : d = i
      · rw [same, inodeOf, here] at present
        cases present
      rw [inodeOf, others d same] at isDir present
      rw [stamps d same]
      by_cases target : entry.inum = i
      · simpa [Ghost.allocate, target] using inv.past d
      · rw [stamps _ target]
        rw [inodeOf, others _ target] at isDir'
        exact inv.entries d isDir entry present used notDot notDotdot isDir'
    · dsimp only at valid
      rw [made] at valid
      have before := inv.cached j valid
      rw [inodeOf, others j (apart before)]
      exact before
    · rw [made]
      exact inv.counted j
  · refine ⟨fun j _ typed => others j (apart typed), fun j typed => stamps j (apart typed), fun j => ?_,
      Nat.le_succ _, fun j isDir => ?_, fun _ _ => rfl, fun _ _ _ => Iff.rfl, fun _ _ _ j _ typed => ?_,
      fun q _ => ?_, ?_⟩
    · by_cases same : j = i
      · simpa [Ghost.allocate, same] using (inv.past i).le
      · rw [stamps j same]
    · by_cases same : j = i
      · exact Or.inr (by simp [Ghost.allocate, same])
      · rw [inodeOf, others j same] at isDir
        exact Or.inl isDir
    · rw [inodeOf, others j (apart typed)]
    · rw [made]
      rfl
    · rw [made]
      rfl

theorem ialloc_knows {type : FileType} (inv : Ordered w) (knows : Knows p l w) (fresh : findFree w.state.core = some i)
    (made : s.core = w.state.core.setInode i (freshInode type)) :
    Knows p { l with above := (l.dirs.map fun d => (d, i)) ++ l.above } ⟨s, w.locks, w.ghost.allocate i⟩ := by
  have free : (inodeOf w i).type = .free := by
    have := List.find?_some fresh
    simpa using this
  have others (j : Nat) (away : j ≠ i) : s.core.inodes j = inodeOf w j := by simp [made, Core.setInode, away]
  have stamps (j : Nat) (away : j ≠ i) : (w.ghost.allocate i).stamp j = w.ghost.stamp j := by
    simp [Ghost.allocate, away]
  have apart {j : Nat} (typed : (inodeOf w j).type ≠ .free) : j ≠ i := fun same => typed (same ▸ free)
  have dirs (d : Nat) (dir : d ∈ l.dirs) : d ≠ i := apart (by simp [(knows.dirs d dir).2.1])
  have new (d : Nat) (dir : d ∈ l.dirs) : (w.ghost.allocate i).stamp d < (w.ghost.allocate i).stamp i := by
    rw [stamps d (dirs d dir)]
    simpa [Ghost.allocate] using inv.past d
  refine ⟨by simpa [made, Core.setInode] using knows.known, knows.nodup, knows.locks, knows.own, ?_, fun j plain => ?_,
    fun j typed => ?_, fun d dir => ?_, fun pair below => ?_⟩
  · dsimp only
    rw [made]
    exact knows.cwd
  · rw [inodeOf, others j (apart (knows.plain j plain).1)]
    exact knows.plain j plain
  · rw [inodeOf, others j (apart (knows.typed j typed).2)]
    exact knows.typed j typed
  · rw [inodeOf, others d (dirs d dir), stamps d (dirs d dir)]
    obtain ⟨held, isDir, past⟩ := knows.dirs d dir
    exact ⟨held, isDir, Nat.lt_succ_of_lt past⟩
  · rcases List.mem_append.mp below with now | old
    · obtain ⟨d, dir, rfl⟩ := List.mem_map.mp now
      exact ⟨dir, fun _ => new d dir⟩
    · obtain ⟨dir, before⟩ := knows.above pair old
      refine ⟨dir, fun isDir => ?_⟩
      by_cases same : pair.2 = i
      · rw [same]
        exact new pair.1 dir
      · rw [inodeOf, others _ same] at isDir
        rw [stamps _ same, stamps _ (dirs _ dir)]
        exact before isDir

end Steps

section Primitives

variable {A : Type} {p i d x : Nat} {name : Name} {l l' : Local}

theorem keeps_learn {fact : Prop} {x : Code A} {pre : Kernel → Prop} {post : A → Kernel → Prop}
    (learn : ∀ w, Ordered w → pre w → fact) (keeps : fact → lockOrder.Keeps p pre x post) :
    lockOrder.Keeps p pre x post := fun w inv before => keeps (learn w inv before) w inv before

theorem keeps_core {w : Kernel} {s : State} (same : s.core = w.state.core) (inv : Ordered w) (knows : Knows p l w) :
    ∃ ghost, lockOrder.Allowed p w ⟨s, w.locks, ghost⟩ ∧ Knows p l ⟨s, w.locks, ghost⟩ := by
  obtain ⟨core, outstanding, logged⟩ := s
  cases same
  refine ⟨w.ghost, ⟨?_, ?_⟩, ?_⟩
  · exact ⟨inv.small, inv.bound, inv.past, inv.entries, inv.cached, inv.counted⟩
  · exact ⟨fun _ _ _ => rfl, fun _ _ => rfl, fun _ => le_rfl, le_rfl, fun _ => Or.inl, fun _ _ => rfl,
      fun _ _ _ => Iff.rfl, fun _ _ _ _ _ _ => rfl, fun _ _ => rfl, rfl⟩
  · exact ⟨knows.known, knows.nodup, knows.locks, knows.own, knows.cwd, knows.plain, knows.typed, knows.dirs,
      knows.above⟩

theorem keeps_beginOp : Spares p l beginOp := keeps_await knows_stays fun _ inv knows => keeps_core rfl inv knows

theorem keeps_endOp : Spares p l endOp := by
  refine keeps_atomic knows_stays fun w inv knows a s value => ?_
  cases value
  exact keeps_core rfl inv knows

theorem igot_moves {c : Core} {r : Multiset Nat} : Moves p c (c.igot i) r (i ::ₘ r) := by
  refine ⟨rfl, rfl, fun _ => Or.inl, rfl, fun _ _ => rfl, fun j => ?_⟩
  change _ + openRefs c j + c.ref j ≤ _ + openRefs c j + Function.update c.ref i (c.ref i + 1) j
  by_cases same : j = i
  · subst same
    simp only [Multiset.count_cons_self, Function.update_self]
    omega
  · simp [same]

theorem unref_moves {c : Core} {r : Multiset Nat} : Moves p c (c.unref i) (i ::ₘ r) r := by
  refine ⟨rfl, rfl, fun j valid => Or.inl ?_, rfl, fun _ _ => rfl, fun j => ?_⟩
  · by_cases same : j = i
    · subst same
      simp only [Core.unref, Function.update_self, Bool.and_eq_true] at valid
      exact valid.1
    · simpa [Core.unref, same] using valid
  · change _ + openRefs c j + c.ref j ≤ _ + openRefs c j + Function.update c.ref i (c.ref i - 1) j
    by_cases same : j = i
    · subst same
      simp only [Multiset.count_cons_self, Function.update_self]
      omega
    · simp [same]

theorem keeps_iget : Does p l (iget i) fun _ => Knows p { l with refs := i ::ₘ l.refs } := by
  refine keeps_moves (fun _ => i ::ₘ l.refs) l.cwd fun c _ here a c' value => ?_
  split at value
  · cases value
  · cases value
    exact ⟨igot_moves, here⟩

theorem keeps_idup : Does p l (idup i) fun _ => Knows p { l with refs := i ::ₘ l.refs } := by
  unfold idup update
  refine keeps_moves (fun _ => i ::ₘ l.refs) l.cwd fun c _ here a c' value => ?_
  cases value
  exact ⟨igot_moves, here⟩

theorem keeps_checkRef : Spares p l (checkRef i) := by
  refine keeps_quiet fun c a c' value => ?_
  split at value
  · cases value
  · cases value
    exact Quiet.refl c

theorem load_some {c c' : Core} {a : Unit} (value : (if c.valid i then some ((), c)
    else if (c.inodes i).type = .free then none else some ((), c.loaded i)) = some (a, c'))
    (cached : c.valid i = true → (c.inodes i).type ≠ .free) : (c.inodes i).type ≠ .free ∧ Quiet c c' := by
  by_cases valid : c.valid i = true
  · rw [if_pos valid] at value
    cases value
    exact ⟨cached valid, Quiet.refl _⟩
  rw [if_neg valid] at value
  by_cases typed : (c.inodes i).type = .free
  · rw [if_pos typed] at value
    cases value
  · rw [if_neg typed] at value
    cases value
    refine ⟨typed, { Quiet.refl c with valid := fun j valid => ?_ }⟩
    by_cases same : j = i
    · exact Or.inr (same ▸ typed)
    · exact Or.inl (by simpa [Core.loaded, same] using valid)

theorem keeps_load (held : i ∈ l.held) : Does p l (change unlogged fun c =>
    if c.valid i then some ((), c) else if (c.inodes i).type = .free then none else some ((), c.loaded i)) fun _ =>
    Knows p { l with typed := i :: l.typed } := by
  refine keeps_atomic knows_stays fun w inv knows a s value => ?_
  obtain ⟨⟨b, c'⟩, found, same⟩ := Option.map_eq_some_iff.mp value
  cases same
  obtain ⟨typed, quiet⟩ := load_some found (inv.cached i)
  have moves : Moves p w.state.core
      (State.core { w.state with core := c', logged := logAll w.state.logged (unlogged w.state.core) }) l.refs l.refs :=
    quiet.moves _
  refine ⟨_, moves.allowed knows inv, ?_⟩
  have after := moves.knows knows
  refine { after with cwd := (quiet.cwd p).trans knows.cwd, typed := fun j member => ?_ }
  rcases List.mem_cons.mp member with rfl | old
  · exact ⟨held, by simpa only [inodeOf, quiet.inodes] using typed⟩
  · exact after.typed j old

theorem keeps_ilock (wait : ∀ d ∈ l.held, (d, i) ∈ l.above) : Does p l (ilock i) fun _ =>
    Knows p { l with held := i :: l.held, typed := i :: l.typed } :=
  keeps_bind keeps_checkRef fun _ => keeps_bind (keeps_lock fun _ => wait) fun _ => keeps_load List.mem_cons_self

theorem keeps_iunlock (drops : l.held.Nodup → Drops i l l') : Does p l (iunlock i) fun _ => Knows p l' :=
  keeps_bind keeps_checkRef fun _ => keeps_unlock drops

theorem keeps_freeLast (typed : i ∉ l.typed) (dirs : i ∉ l.dirs) (held : i ∈ l.held) (owned : i ∈ l.refs)
    {blocks : Core → List LogBlock} : Spares p l (update blocks fun c => if lastPut c i then c.ifree i else c) := by
  refine keeps_atomic knows_stays fun w inv knows a s value => ?_
  cases value
  have owned' : i ∈ w.ghost.own p := by
    rw [knows.own]
    exact Multiset.mem_add.mpr (Or.inl owned)
  by_cases last : lastPut w.state.core i = true
  · simp only [last, if_true]
    exact ⟨w.ghost, ifree_allowed inv last knows.known owned' ((knows.locks i).mpr held) rfl,
      ifree_knows inv last knows owned typed dirs rfl⟩
  · exact keeps_core (by simp [last]) inv knows

theorem keeps_iput : Does p { l with refs := i ::ₘ l.refs } (iput i) fun _ => Knows p l := by
  refine keeps_learn (fun w _ knows => knows.inside) fun inside => ?_
  refine keeps_bind (keeps_lock fun isLock => by cases isLock) fun _ => ?_
  refine keeps_learn (fun w _ knows => List.nodup_cons.mp knows.nodup) fun fresh => ?_
  have drops := inside.drops fresh.1
  have typed : i ∉ l.typed := fun member => (drops.typed i member).2 rfl
  have dirs : i ∉ l.dirs := fun member => (drops.dirs i member).2 rfl
  have owned : i ∈ i ::ₘ l.refs := Multiset.mem_cons_self i l.refs
  refine keeps_bind (@keeps_freeLast p i { l with refs := i ::ₘ l.refs, held := i :: l.held } typed dirs
    List.mem_cons_self owned _) fun _ => ?_
  refine keeps_bind (keeps_unlock fun _ => drops) fun _ => ?_
  refine keeps_moves (fun _ => l.refs) l.cwd fun c _ here a c' value => ?_
  cases value
  exact ⟨unref_moves, here⟩

theorem keeps_iunlockput (drops : l.held.Nodup → Drops i l { l' with refs := i ::ₘ l'.refs }) :
    Does p l (iunlockput i) fun _ => Knows p l' := keeps_bind (keeps_iunlock drops) fun _ => keeps_iput

theorem keeps_ialloc {type : FileType} : Does p l (ialloc type) fun i =>
    Knows p { l with refs := i ::ₘ l.refs, above := (l.dirs.map fun d => (d, i)) ++ l.above } := by
  have found : Does p l
      (change (fun c => ((findFree c).map fun i => inodeBlock i c).getD []) fun c =>
        (findFree c).map fun i => (i, c.setInode i (freshInode type)))
      fun i => Knows p { l with above := (l.dirs.map fun d => (d, i)) ++ l.above } := by
    refine keeps_atomic knows_stays fun w inv knows i s value => ?_
    obtain ⟨result, found, same⟩ := Option.map_eq_some_iff.mp value
    obtain ⟨j, fresh, rfl⟩ := Option.map_eq_some_iff.mp found
    cases same
    exact ⟨w.ghost.allocate _, ialloc_allowed inv fresh rfl, ialloc_knows inv knows fresh rfl⟩
  exact keeps_bind found fun i => keeps_then keeps_iget

/-- What an entry of the locked directory `d` says about the inode that it names. -/
def Local.seeing (l : Local) (d : Nat) (name : Name) (found : Option (Nat × Nat)) : Local :=
  { l with
    dirs := d :: l.dirs
    above := match found with
      | none => l.above
      | some (x, _) => if name = dot ∨ name = dotdot then l.above else (d, x) :: l.above }

theorem Knows.seeing {w : Kernel} (knows : Knows p l w) (inv : Ordered w) (held : d ∈ l.held)
    (isDir : (inodeOf w d).type = .dir) : Knows p (l.seeing d name (findSlot name (inodeOf w d).slots 0)) w := by
  refine { knows with dirs := fun d' dir => ?_, above := fun pair below => ?_ }
  · rcases List.mem_cons.mp dir with rfl | old
    · exact ⟨held, isDir, inv.past d'⟩
    · exact knows.dirs d' old
  · simp only [Local.seeing] at below ⊢
    have old (before : pair ∈ l.above) : pair.1 ∈ d :: l.dirs ∧ Above w pair.1 pair.2 :=
      ⟨List.mem_cons_of_mem _ (knows.above pair before).1, (knows.above pair before).2⟩
    split at below
    · exact old below
    next x off found =>
      split at below
      · exact old below
      next notDots =>
        rcases List.mem_cons.mp below with rfl | before
        · obtain ⟨n, -, used, present⟩ := findSlot_some found
          push Not at notDots
          exact ⟨List.mem_cons_self, inv.entries d isDir _ (List.mem_of_getElem? present) used notDots.1 notDots.2⟩
        · exact old before

def taken (refs : Multiset Nat) : Option Nat → Multiset Nat
  | none => refs
  | some x => x ::ₘ refs

theorem keeps_dirlookup (held : d ∈ l.held) : Does p l (dirlookup d name) fun found =>
    Knows p { l.seeing d name found with refs := taken l.refs (found.map Prod.fst) } := by
  have look : Does p l (read fun c => c.inodes d) fun dir w =>
      dir.type = .dir → Knows p (l.seeing d name (findSlot name dir.slots 0)) w :=
    keeps_read fun w inv knows isDir => knows.seeing inv held isDir
  refine keeps_bind look fun dir => ?_
  by_cases isDir : dir.type = .dir
  · rw [if_neg (not_not.mpr isDir)]
    cases found : findSlot name dir.slots 0 with
    | none => exact keeps_ret fun w inv knows => knows isDir
    | some pair =>
      refine keeps_pre (keeps_bind keeps_iget fun _ => keeps_ret fun w inv knows => ?_) fun w inv knows => knows isDir
      exact knows
  · rw [if_pos isDir]
    exact keeps_panic

theorem writeSlot_edits {w : Kernel} {off : Nat} {entry : Dirent} {c' : Core}
    (written : writeSlot w.state.core d off entry = some c')
    (ordered : entry.inum = 0 ∨ entry.name = dot ∨ entry.name = dotdot ∨ Above w d entry.inum) : Edits w d c' := by
  unfold writeSlot at written
  split at written
  · cases written
  cases written
  refine ⟨rfl, fun j away => by simp [putEntry_inodes, away], by simp [putEntry_inodes],
    fun kept present => ?_, rfl, rfl, rfl, rfl⟩
  simp only [putEntry_inodes, Function.update_self] at present
  rcases mem_putSlot present with rfl | old
  · exact Or.inr ordered
  · exact Or.inl old

theorem keeps_clearSlot {off : Nat} (held : d ∈ l.held) : Spares p l (clearSlot d off) := by
  refine keeps_edits held fun w inv knows a c' value => ?_
  obtain ⟨e, written, same⟩ := Option.map_eq_some_iff.mp value
  cases same
  exact writeSlot_edits written (Or.inl rfl)

theorem keeps_appendEntry (held : d ∈ l.held)
    (ordered : name = dot ∨ name = dotdot ∨ (d, x) ∈ l.above ∧ x ∈ l.typed ∨ x ∈ l.plain) :
    Spares p l (appendEntry d name x) := by
  refine keeps_edits held fun w inv knows a c' value => ?_
  obtain ⟨e, written, same⟩ := Option.map_eq_some_iff.mp value
  cases same
  have fits (typed : (inodeOf w x).type ≠ .free) : x % 2 ^ 16 = x :=
    Nat.mod_eq_of_lt (Nat.lt_of_lt_of_le (inv.bound x typed) inv.small)
  refine writeSlot_edits written ?_
  rcases ordered with isDot | isDotdot | ⟨below, typed⟩ | plain
  · exact Or.inr (Or.inl isDot)
  · exact Or.inr (Or.inr (Or.inl isDotdot))
  · refine Or.inr (Or.inr (Or.inr ?_))
    dsimp only
    rw [fits (knows.typed x typed).2]
    exact (knows.above _ below).2
  · refine Or.inr (Or.inr (Or.inr ?_))
    dsimp only
    rw [fits (knows.plain x plain).1]
    exact fun isDir => absurd isDir (knows.plain x plain).2

theorem keeps_dirlink (held : d ∈ l.held)
    (ordered : name = dot ∨ name = dotdot ∨ (d, x) ∈ l.above ∧ x ∈ l.typed ∨ x ∈ l.plain) :
    Spares p l (dirlink d name x) := by
  refine keeps_learn (fun w _ knows => knows.inside) fun inside => ?_
  refine keeps_bind (keeps_dirlookup held) fun found => ?_
  have below : ∀ pair ∈ l.above, pair ∈ (l.seeing d name found).above := by
    intro pair before
    simp only [Local.seeing]
    split
    · exact before
    · split
      · exact before
      · exact List.mem_cons_of_mem _ before
  have dirs : ∀ d' ∈ l.dirs, d' ∈ d :: l.dirs := fun _ => List.mem_cons_of_mem _
  cases found with
  | none =>
    refine keeps_pre (keeps_then (keeps_appendEntry held ordered)) fun w _ knows => ?_
    exact knows.forget rfl inside (fun _ => Iff.rfl) (fun _ => id) dirs below
  | some pair =>
    refine keeps_pre (keeps_then keeps_iput) fun w _ knows => ?_
    exact knows.forget rfl ⟨inside.nodup, inside.typed, inside.dirs, inside.above⟩ (fun _ => Iff.rfl) (fun _ => id) dirs below

theorem keeps_setInode {blocks : Core → List LogBlock} {f : Inode → Inode} (held : i ∈ l.held)
    (type : ∀ ip, (f ip).type = ip.type) (slots : ∀ ip, (f ip).slots = ip.slots) :
    Spares p l (update blocks fun c => c.setInode i (f (c.inodes i))) := by
  refine keeps_edits held fun w inv knows a c' value => ?_
  cases value
  refine ⟨rfl, fun j away => ?_, ?_, fun entry present => Or.inl ?_, rfl, rfl, rfl, rfl⟩
  · simp [Core.setInode, away]
  · simp [Core.setInode, type]
  · simpa [Core.setInode, slots] using present

theorem keeps_addLink {n : Int} (held : i ∈ l.held) : Spares p l (addLink i n) :=
  @keeps_setInode p i l (inodeBlock i) (fun ip => { ip with nlink := short (ip.nlink + n) }) held (fun _ => rfl)
    fun _ => rfl

theorem keeps_initInode {major minor : Int} (held : i ∈ l.held) : Spares p l (initInode i major minor) :=
  @keeps_setInode p i l (inodeBlock i)
    (fun ip => { ip with major := short major, minor := short minor, nlink := 1 }) held (fun _ => rfl) fun _ => rfl

end Primitives

end Xv6.Fs
