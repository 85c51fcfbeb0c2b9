import Xv6.Kernel.Param
import Xv6.Shared.Halting

set_option autoImplicit false

namespace Xv6.Log

open Halting

-- BSIZE bytes as the 32-bit words that struct logheader reads.
abbrev Block := Fin 128 → BitVec 32
abbrev Disk := Nat → Block

structure Buf where
  dev : Nat
  blockno : Nat
  valid : Bool
  dirty : Bool
  refcnt : Nat
  data : Block

def Buf.holds (buf : Buf) (blockno : Nat) : Bool :=
  decide (buf.dev = rootDev ∧ buf.blockno = blockno)

/-- The in-memory `struct log`; `lh` is the list block[0 .. n). -/
structure LogState where
  start : Nat
  size : Nat
  outstanding : Nat
  committing : Bool
  lh : List Nat

/-- The buffers stand in the order of the list from `head.next`. The last two fields only record the
run: how many calls of `commit` have returned, and the disk with that number after each write. -/
structure Machine where
  disk : Disk
  cache : List Buf
  log : LogState
  commits : Nat
  crashPoints : List (Disk × Nat)

abbrev Kernel := Halt Machine

def updateBuf (cache : List Buf) (blockno : Nat) (f : Buf → Buf) : List Buf :=
  cache.map fun buf => if buf.holds blockno then f buf else buf

-- The second loop of bget runs from head.prev, so the last unused buffer is taken.
def recycle (blockno : Nat) : List Buf → Option (List Buf)
  | [] => none
  | buf :: rest =>
    match recycle blockno rest with
    | some found => some (buf :: found)
    | none =>
      if buf.refcnt = 0 ∧ buf.dirty = false then
        some ({ buf with dev := rootDev, blockno, valid := false, dirty := false, refcnt := 1 } :: rest)
      else none

def bget (blockno : Nat) : Kernel Unit := ⟨fun m =>
  if m.cache.any (fun buf => buf.holds blockno) then
    (some (), { m with cache := updateBuf m.cache blockno fun buf => { buf with refcnt := buf.refcnt + 1 } })
  else
    match recycle blockno m.cache with
    | some cache => (some (), { m with cache })
    | none => (none, m)⟩

-- The buffer returned by bread is named by its block number.
def bufAt (blockno : Nat) : Kernel Buf := ⟨fun m =>
  (m.cache.find? fun buf => buf.holds blockno, m)⟩

def updateAt (blockno : Nat) (f : Buf → Buf) : Kernel Unit :=
  modify fun m => { m with cache := updateBuf m.cache blockno f }

def setData (blockno : Nat) (data : Block) : Kernel Unit :=
  updateAt blockno fun buf => { buf with data }

def writeDisk (blockno : Nat) (data : Block) : Kernel Unit :=
  modify fun m => { m with
    disk := Function.update m.disk blockno data
    crashPoints := m.crashPoints ++ [(Function.update m.disk blockno data, m.commits)] }

-- idestart refuses blocks from FSSIZE on.
def iderw (blockno : Nat) : Kernel Unit := do
  let buf ← bufAt blockno
  if buf.valid ∧ ¬ buf.dirty then panic
  else if blockno ≥ fsSize then panic
  else if buf.dirty then do
    writeDisk blockno buf.data
    updateAt blockno fun buf => { buf with dirty := false, valid := true }
  else do
    let m ← get
    updateAt blockno fun buf => { buf with data := m.disk blockno, valid := true }

def fill (blockno : Nat) (buf : Buf) : Kernel Unit :=
  if buf.valid then pure () else iderw blockno

def bread (blockno : Nat) : Kernel Block := do
  bget blockno
  let buf ← bufAt blockno
  fill blockno buf
  let buf ← bufAt blockno
  pure buf.data

def markDirty (blockno : Nat) : Kernel Unit :=
  updateAt blockno fun buf => { buf with dirty := true }

def bwrite (blockno : Nat) : Kernel Unit := do
  markDirty blockno
  iderw blockno

def brelse (blockno : Nat) : Kernel Unit := do
  updateAt blockno fun buf => { buf with refcnt := buf.refcnt - 1 }
  let buf ← bufAt blockno
  if buf.refcnt = 0 then
    modify fun m => { m with cache := buf :: m.cache.filter fun other => !other.holds blockno }
  else pure ()

/-- What the log sees through the cache: `contents` is what a reader of a block gets, `pinned` are the
blocks with B_DIRTY set, `refs` counts the holders of a block. -/
structure View where
  disk : Disk
  contents : Disk
  pinned : Nat → Prop
  refs : Nat → Nat
  log : LogState
  commits : Nat
  crashPoints : List (Disk × Nat)

namespace View

def take (v : View) (blockno : Nat) : View :=
  { v with refs := Function.update v.refs blockno (v.refs blockno + 1) }

def assign (v : View) (blockno : Nat) (data : Block) : View :=
  { v with contents := Function.update v.contents blockno data }

def pin (v : View) (blockno : Nat) : View :=
  { v with pinned := fun b => b = blockno ∨ v.pinned b }

def write (v : View) (blockno : Nat) : View :=
  let disk := Function.update v.disk blockno (v.contents blockno)
  { v with
    disk
    pinned := fun b => b ≠ blockno ∧ v.pinned b
    crashPoints := v.crashPoints ++ [(disk, v.commits)] }

def drop (v : View) (blockno : Nat) : View :=
  { v with refs := Function.update v.refs blockno (v.refs blockno - 1) }

end View

def Apart (cache : List Buf) : Prop :=
  cache.Pairwise fun a b => ∀ blockno, a.holds blockno = true → b.holds blockno = false

structure Fits (buf : Buf) (v : View) (blockno : Nat) : Prop where
  bound : blockno < fsSize
  valid : buf.valid = true
  data : buf.data = v.contents blockno
  dirty : buf.dirty = true ↔ v.pinned blockno
  refcnt : buf.refcnt = v.refs blockno

-- Only a block that nobody holds has to agree with the disk: a held buffer is not recycled.
structure CacheOk (cache : List Buf) (v : View) : Prop where
  apart : Apart cache
  cached : ∀ buf ∈ cache, ∀ blockno, buf.holds blockno = true → Fits buf v blockno
  absent : ∀ blockno, (∀ buf ∈ cache, buf.holds blockno = false) → v.refs blockno = 0 ∧ ¬ v.pinned blockno
  clean : ∀ blockno, v.refs blockno = 0 → ¬ v.pinned blockno → v.contents blockno = v.disk blockno

structure Shows (v : View) (m : Machine) : Prop where
  disk : m.disk = v.disk
  log : m.log = v.log
  commits : m.commits = v.commits
  crashPoints : m.crashPoints = v.crashPoints
  cache : CacheOk m.cache v

variable {buf : Buf} {cache : List Buf} {blockno : Nat}

theorem holds_unique {a b : Nat} (first : buf.holds a = true) (second : buf.holds b = true) : a = b := by
  simp only [Buf.holds, decide_eq_true_eq] at first second
  rw [← first.2, second.2]

theorem find_apart (apart : Apart cache) (member : buf ∈ cache) (holds : buf.holds blockno = true) :
    cache.find? (fun buf => buf.holds blockno) = some buf := by
  induction cache with
  | nil => cases member
  | cons first rest ih =>
    obtain ⟨away, apart⟩ := List.pairwise_cons.mp apart
    rcases List.mem_cons.mp member with rfl | later
    · simp [holds]
    · have other : first.holds blockno = false := by
        by_contra same
        have absurd := away buf later blockno (by simpa using same)
        simp [holds] at absurd
      simp [other, ih apart later]

theorem CacheOk.renew {cache' : List Buf} {v v' : View} (ok : CacheOk cache v) (apart : Apart cache')
    (only : ∀ other ∈ cache', other = buf ∨ other ∈ cache ∧ other.holds blockno = false) (listed : buf ∈ cache')
    (holds : buf.holds blockno = true) (fits : Fits buf v' blockno)
    (kept : ∀ other ∈ cache, other.holds blockno = false → other ∉ cache' →
      ∀ b, other.holds b = true → v.refs b = 0 ∧ ¬ v.pinned b)
    (same : ∀ b, b ≠ blockno → v'.contents b = v.contents b ∧ (v'.pinned b ↔ v.pinned b) ∧ v'.refs b = v.refs b)
    (clean : ∀ b, v'.refs b = 0 → ¬ v'.pinned b → v'.contents b = v'.disk b) : CacheOk cache' v' where
  apart := apart
  cached := by
    intro other member b found
    rcases only other member with rfl | ⟨old, away⟩
    · rw [← holds_unique holds found]
      exact fits
    · have elsewhere : b ≠ blockno := by
        rintro rfl
        simp [found] at away
      obtain ⟨data, pin, count⟩ := same b elsewhere
      obtain ⟨bound, valid, data', dirty, refcnt⟩ := ok.cached other old b found
      exact ⟨bound, valid, data'.trans data.symm, dirty.trans pin.symm, refcnt.trans count.symm⟩
  absent := by
    intro b missing
    have elsewhere : b ≠ blockno := by
      rintro rfl
      simpa [holds] using missing buf listed
    obtain ⟨_, pin, count⟩ := same b elsewhere
    rw [pin, count]
    by_cases held : ∃ other ∈ cache, other.holds b = true
    · obtain ⟨other, member, found⟩ := held
      have away : other.holds blockno = false := by
        by_contra here
        exact elsewhere (holds_unique found (by simpa using here))
      apply kept other member away _ b found
      intro still
      simp [missing other still] at found
    · exact ok.absent b (by simpa using held)
  clean := clean

theorem updateBuf_apart {f : Buf → Buf} (keep : ∀ buf b, (f buf).holds b = buf.holds b) (apart : Apart cache) :
    Apart (updateBuf cache blockno f) := by
  apply List.pairwise_map.mpr
  refine apart.imp ?_
  intro a b away other
  have same (buf : Buf) : (if buf.holds blockno then f buf else buf).holds other = buf.holds other := by
    split <;> simp [keep]
  simpa [same] using away other

theorem CacheOk.update {v v' : View} {f : Buf → Buf} (ok : CacheOk cache v)
    (keep : ∀ buf b, (f buf).holds b = buf.holds b) (member : buf ∈ cache) (holds : buf.holds blockno = true)
    (fits : Fits (f buf) v' blockno)
    (same : ∀ b, b ≠ blockno → v'.contents b = v.contents b ∧ (v'.pinned b ↔ v.pinned b) ∧ v'.refs b = v.refs b)
    (clean : ∀ b, v'.refs b = 0 → ¬ v'.pinned b → v'.contents b = v'.disk b) :
    CacheOk (updateBuf cache blockno f) v' := by
  have renewed : f buf ∈ updateBuf cache blockno f := List.mem_map.mpr ⟨buf, member, by simp [holds]⟩
  refine ok.renew (updateBuf_apart keep ok.apart) ?_ renewed (by rw [keep, holds]) fits ?_ same clean
  · intro other listed
    obtain ⟨old, old_member, rfl⟩ := List.mem_map.mp listed
    by_cases here : old.holds blockno = true
    · left
      have equal := (find_apart ok.apart old_member here).symm.trans (find_apart ok.apart member holds)
      simp [holds, Option.some.inj equal]
    · right
      simpa [here] using old_member
  · intro other old away gone
    exact absurd (List.mem_map.mpr ⟨other, old, by simp [away]⟩) gone

theorem recycle_some {found : List Buf} (result : recycle blockno cache = some found) :
    ∃ front old back, cache = front ++ old :: back ∧ old.refcnt = 0 ∧ old.dirty = false ∧ found = front ++ { old with
        dev := rootDev, blockno, valid := false, dirty := false, refcnt := 1 } :: back := by
  induction cache generalizing found with
  | nil => simp [recycle] at result
  | cons buf rest ih =>
    cases deeper : recycle blockno rest with
    | some inner =>
      simp only [recycle, deeper, Option.some.injEq] at result
      obtain ⟨front, old, back, shape, idle, clean, value⟩ := ih deeper
      exact ⟨buf :: front, old, back, by rw [shape]; rfl, idle, clean, by rw [← result, value]; rfl⟩
    | none =>
      simp only [recycle, deeper] at result
      split at result
      next unused => exact ⟨[], buf, rest, rfl, unused.1, unused.2, (Option.some.inj result).symm⟩
      next => cases result

theorem run_bufAt {m : Machine} (apart : Apart m.cache) (member : buf ∈ m.cache) (holds : buf.holds blockno = true) :
    (bufAt blockno).run m = (some buf, m) := by
  simp [bufAt, find_apart apart member holds]

def Safe (good : Disk × Nat → Prop) (m : Machine) : Prop := ∀ point ∈ m.crashPoints, good point

section Operations

variable {m : Machine} {v : View} {blockno : Nat}

theorem Shows.held (shown : Shows v m) (held : 0 < v.refs blockno) :
    ∃ buf ∈ m.cache, buf.holds blockno = true ∧ Fits buf v blockno := by
  by_contra missing
  have idle := shown.cache.absent blockno (by
    intro buf member
    by_contra holds
    have holds : buf.holds blockno = true := by simpa using holds
    exact missing ⟨buf, member, holds, shown.cache.cached buf member blockno holds⟩)
  omega

theorem Shows.update {v' : View} {f : Buf → Buf} {buf : Buf} (shown : Shows v m)
    (keep : ∀ buf b, (f buf).holds b = buf.holds b)
    (member : buf ∈ m.cache) (holds : buf.holds blockno = true) (fits : Fits (f buf) v' blockno)
    (same : ∀ b, b ≠ blockno → v'.contents b = v.contents b ∧ (v'.pinned b ↔ v.pinned b) ∧ v'.refs b = v.refs b)
    (clean : ∀ b, v'.refs b = 0 → ¬ v'.pinned b → v'.contents b = v'.disk b)
    (disk : v'.disk = v.disk) (log : v'.log = v.log) (commits : v'.commits = v.commits)
    (crashPoints : v'.crashPoints = v.crashPoints) : Shows v' { m with cache := updateBuf m.cache blockno f } where
  disk := shown.disk.trans disk.symm
  log := shown.log.trans log.symm
  commits := shown.commits.trans commits.symm
  crashPoints := shown.crashPoints.trans crashPoints.symm
  cache := shown.cache.update keep member holds fits same clean

theorem bread_cached (shown : Shows v m) {buf : Buf} (member : buf ∈ m.cache) (holds : buf.holds blockno = true) :
    ∃ m', (bread blockno).run m = (some (v.contents blockno), m') ∧ Shows (v.take blockno) m' := by
  let increment := fun buf : Buf => { buf with refcnt := buf.refcnt + 1 }
  let m' := { m with cache := updateBuf m.cache blockno increment }
  have fits := shown.cache.cached buf member blockno holds
  have shown' : Shows (v.take blockno) m' := by
    refine shown.update (fun _ _ => rfl) member holds ?_ ?_ ?_ rfl rfl rfl rfl
    · exact ⟨fits.bound, fits.valid, fits.data, fits.dirty, by simp [View.take, increment, fits.refcnt]⟩
    · intro b other
      simp [View.take, other]
    · intro b idle clean
      by_cases here : b = blockno
      · simp [View.take, here] at idle
      · exact shown.cache.clean b (by simpa [View.take, here] using idle) clean
  refine ⟨m', ?_, shown'⟩
  have taken : (bget blockno).run m = (some (), m') := by
    have found : m.cache.any (fun buf => buf.holds blockno) = true := List.any_eq_true.mpr ⟨buf, member, holds⟩
    simp only [bget, found, if_true]
    rfl
  have lookup : (bufAt blockno).run m' = (some (increment buf), m') :=
    run_bufAt shown'.cache.apart (List.mem_map.mpr ⟨buf, member, by simp [holds]⟩) holds
  have filled : (fill blockno (increment buf)).run m' = (some (), m') := by
    simp [fill, increment, fits.valid]
  unfold bread
  rw [run_bind_some taken, run_bind_some lookup, run_bind_some filled, run_bind_some lookup]
  simp [increment, fits.data]

theorem recycled_apart {front back : List Buf} {old fresh : Buf} (apart : Apart (front ++ old :: back))
    (missing : ∀ buf ∈ front ++ old :: back, buf.holds blockno = false)
    (only : ∀ b, fresh.holds b = true → b = blockno) : Apart (front ++ fresh :: back) := by
  have away {buf : Buf} (member : buf ∈ front ++ old :: back) (b : Nat) (held : buf.holds b = true) :
      fresh.holds b = false := by
    by_contra here
    rw [only b (by simpa using here), missing buf member] at held
    cases held
  have later {buf : Buf} (member : buf ∈ back) (b : Nat) (held : fresh.holds b = true) :
      buf.holds b = false := by
    rw [only b held]
    exact missing buf (by simp [member])
  simp only [Apart, List.pairwise_append, List.pairwise_cons, List.mem_cons, forall_eq_or_imp] at apart ⊢
  obtain ⟨front_apart, ⟨_, back_apart⟩, across⟩ := apart
  exact ⟨front_apart, ⟨fun buf member => later member, back_apart⟩, fun buf member =>
    ⟨away (by simp [member]), (across buf member).2⟩⟩

theorem bread_missing (shown : Shows v m) (missing : ∀ buf ∈ m.cache, buf.holds blockno = false) :
    (∃ m', (bread blockno).run m = (none, m') ∧ m'.crashPoints = m.crashPoints) ∨
      ∃ m', (bread blockno).run m = (some (v.contents blockno), m') ∧ blockno < fsSize ∧
        Shows (v.take blockno) m' := by
  have uncached : ¬ m.cache.any (fun buf => buf.holds blockno) = true := by simpa using missing
  cases taken : recycle blockno m.cache with
  | none =>
    exact Or.inl ⟨m, run_bind_none (by simp only [bget, uncached, taken]; rfl), rfl⟩
  | some cache =>
    obtain ⟨front, old, back, shape, idle, clean, found⟩ := recycle_some taken
    set fresh : Buf := { old with dev := rootDev, blockno, valid := false, dirty := false, refcnt := 1 }
    have holds : fresh.holds blockno = true := by simp [fresh, Buf.holds]
    have apart : Apart cache := by
      rw [found]
      exact recycled_apart (shape ▸ shown.cache.apart) (shape ▸ missing)
        fun b held => (holds_unique held holds)
    let m₁ := { m with cache }
    have getBuffer : (bget blockno).run m = (some (), m₁) := by
      simp only [bget, uncached, taken]
      rfl
    have lookup : (bufAt blockno).run m₁ = (some fresh, m₁) := run_bufAt apart (by simp [m₁, found]) holds
    by_cases bound : blockno < fsSize
    · right
      let loaded : Buf → Buf := fun buf => { buf with data := m.disk blockno, valid := true }
      let m' := { m₁ with cache := updateBuf cache blockno loaded }
      have filled : (fill blockno fresh).run m₁ = (some (), m') := by
        simp only [fill, iderw, fresh]
        rw [if_neg (by simp), run_bind_some lookup]
        simp only [fresh, ge_iff_le, Nat.not_le.mpr bound]
        rfl
      have listed : loaded fresh ∈ m'.cache := List.mem_map.mpr ⟨fresh, by simp [found], by simp [holds]⟩
      have lookup' : (bufAt blockno).run m' = (some (loaded fresh), m') :=
        run_bufAt (updateBuf_apart (fun _ _ => rfl) apart) listed holds
      obtain ⟨unheld, unpinned⟩ := shown.cache.absent blockno missing
      have current : m.disk blockno = v.contents blockno := by
        rw [shown.disk, shown.cache.clean blockno unheld unpinned]
      refine ⟨m', ?_, bound, shown.disk, shown.log, shown.commits, shown.crashPoints, ?_⟩
      · unfold bread
        rw [run_bind_some getBuffer, run_bind_some lookup, run_bind_some filled, run_bind_some lookup']
        simp [loaded, current]
      · refine shown.cache.renew (updateBuf_apart (fun _ _ => rfl) apart) ?_ listed holds
          ⟨bound, rfl, current, by simp [loaded, fresh, View.take, unpinned],
            by simp [loaded, fresh, View.take, unheld]⟩ ?_ ?_ ?_
        · intro other member
          obtain ⟨buf, buf_member, rfl⟩ := List.mem_map.mp member
          by_cases here : buf = fresh
          · left
            simp [here, holds]
          · right
            have listed : buf ∈ m.cache := by
              simp only [found, shape, List.mem_append, List.mem_cons] at buf_member ⊢
              tauto
            simp [missing buf listed, listed]
        · intro other member _ gone b held
          have evicted : other = old := by
            by_contra different
            refine gone (List.mem_map.mpr ⟨other, ?_, by simp [missing other member]⟩)
            simp only [found, shape, List.mem_append, List.mem_cons] at member ⊢
            tauto
          subst evicted
          have fits := shown.cache.cached other member b held
          exact ⟨by rw [← fits.refcnt, idle], fun pin => by simp [fits.dirty.mpr pin] at clean⟩
        · intro b other
          simp [View.take, other]
        · intro b free clean
          by_cases here : b = blockno
          · simp [View.take, here] at free
          · exact shown.cache.clean b (by simpa [View.take, here] using free) clean
    · left
      refine ⟨m₁, ?_, rfl⟩
      have stopped : (fill blockno fresh).run m₁ = (none, m₁) := by
        simp only [fill, iderw, fresh]
        rw [if_neg (by simp), run_bind_some lookup]
        simp only [fresh, ge_iff_le, Nat.not_lt.mp bound]
        rfl
      unfold bread
      rw [run_bind_some getBuffer, run_bind_some lookup, run_bind_none stopped]

variable {good : Disk × Nat → Prop}

theorem bread_spec (points : ∀ point ∈ v.crashPoints, good point) : Triple (Shows v) (bread blockno)
    (fun data m => (blockno < fsSize ∧ data = v.contents blockno) ∧ Shows (v.take blockno) m) (Safe good) := by
  intro m shown
  by_cases present : ∃ buf ∈ m.cache, buf.holds blockno = true
  · obtain ⟨buf, member, holds⟩ := present
    obtain ⟨m', result, shown'⟩ := bread_cached shown member holds
    rw [result]
    exact ⟨⟨(shown.cache.cached buf member blockno holds).bound, rfl⟩, shown'⟩
  · rcases bread_missing shown (by simpa using present) with
      ⟨m', result, same⟩ | ⟨m', result, bound, shown'⟩
    · rw [result]
      simpa [Safe, same, shown.crashPoints] using points
    · rw [result]
      exact ⟨⟨bound, rfl⟩, shown'⟩

theorem setData_spec (held : 0 < v.refs blockno) (data : Block) : Triple (Shows v) (setData blockno data)
    (fun _ m => Shows (v.assign blockno data) m) (Safe good) := by
  intro m shown
  obtain ⟨buf, member, holds, fits⟩ := shown.held held
  refine shown.update (fun _ _ => rfl) member holds ?_ ?_ ?_ rfl rfl rfl rfl
  · exact ⟨fits.bound, fits.valid, by simp [View.assign], fits.dirty, fits.refcnt⟩
  · intro b other
    simp [View.assign, other]
  · intro b idle clean
    have other : b ≠ blockno := by
      rintro rfl
      simp [View.assign] at idle
      omega
    simpa [View.assign, other] using shown.cache.clean b idle clean

theorem markDirty_spec (held : 0 < v.refs blockno) : Triple (Shows v) (markDirty blockno)
    (fun _ m => Shows (v.pin blockno) m) (Safe good) := by
  intro m shown
  obtain ⟨buf, member, holds, fits⟩ := shown.held held
  refine shown.update (fun _ _ => rfl) member holds ?_ ?_ ?_ rfl rfl rfl rfl
  · exact ⟨fits.bound, fits.valid, fits.data, by simp [View.pin], fits.refcnt⟩
  · intro b other
    simp [View.pin, other]
  · intro b idle clean
    exact shown.cache.clean b idle (by simpa [View.pin] using fun pin => clean (Or.inr pin))

theorem Shows.moveFront (shown : Shows v m) {buf : Buf} (member : buf ∈ m.cache) (holds : buf.holds blockno = true) :
    Shows v { m with cache := buf :: m.cache.filter fun other => !other.holds blockno } := by
  refine ⟨shown.disk, shown.log, shown.commits, shown.crashPoints, ?_⟩
  refine shown.cache.renew ?_ ?_ List.mem_cons_self holds (shown.cache.cached buf member blockno holds)
    ?_ (fun _ _ => ⟨rfl, Iff.rfl, rfl⟩) shown.cache.clean
  · refine List.pairwise_cons.mpr ⟨?_, shown.cache.apart.filter _⟩
    intro other listed b held
    rw [← holds_unique holds held]
    simpa using (List.mem_filter.mp listed).2
  · intro other listed
    simpa using listed
  · intro other listed away gone
    simp [listed, away] at gone

theorem brelse_spec (held : 0 < v.refs blockno)
    (current : v.refs blockno = 1 → ¬ v.pinned blockno → v.contents blockno = v.disk blockno) :
    Triple (Shows v) (brelse blockno) (fun _ m => Shows (v.drop blockno) m) (Safe good) := by
  intro m shown
  obtain ⟨buf, member, holds, fits⟩ := shown.held held
  let release := fun buf : Buf => { buf with refcnt := buf.refcnt - 1 }
  let m₁ := { m with cache := updateBuf m.cache blockno release }
  have shown₁ : Shows (v.drop blockno) m₁ := by
    refine shown.update (fun _ _ => rfl) member holds ?_ ?_ ?_ rfl rfl rfl rfl
    · exact ⟨fits.bound, fits.valid, fits.data, fits.dirty, by simp [release, View.drop, fits.refcnt]⟩
    · intro b other
      simp [View.drop, other]
    · intro b idle clean
      by_cases here : b = blockno
      · subst here
        have last : v.refs b = 1 := by
          simp [View.drop] at idle
          omega
        exact current last clean
      · exact shown.cache.clean b (by simpa [View.drop, here] using idle) clean
  have listed : release buf ∈ m₁.cache := List.mem_map.mpr ⟨buf, member, by simp [holds]⟩
  have released : (updateAt blockno release).run m = (some (), m₁) := rfl
  unfold brelse
  rw [run_bind_some released, run_bind_some (run_bufAt shown₁.cache.apart listed holds)]
  by_cases last : (release buf).refcnt = 0
  · rw [if_pos last]
    exact shown₁.moveFront listed holds
  · rw [if_neg last]
    exact shown₁

theorem iderw_dirty (held : 0 < v.refs blockno) (dirty : v.pinned blockno) :
    Triple (Shows v) (iderw blockno) (fun _ m => Shows (v.write blockno) m) (Safe good) := by
  intro m shown
  obtain ⟨buf, member, holds, fits⟩ := shown.held held
  have isDirty : buf.dirty = true := fits.dirty.mpr dirty
  have bound : ¬ blockno ≥ fsSize := Nat.not_le.mpr fits.bound
  unfold iderw
  rw [run_bind_some (run_bufAt shown.cache.apart member holds), if_neg (by simp [isDirty]), if_neg bound,
    if_pos isDirty, run_bind_some rfl]
  refine ⟨?_, shown.log, shown.commits, ?_, ?_⟩
  · simp [View.write, fits.data, shown.disk]
  · simp [View.write, fits.data, shown.disk, shown.commits, shown.crashPoints]
  · refine shown.cache.update (fun _ _ => rfl) member holds ?_ ?_ ?_
    · exact ⟨fits.bound, rfl, fits.data, by simp [View.write], fits.refcnt⟩
    · intro b other
      simp [View.write, other]
    · intro b idle clean
      by_cases here : b = blockno
      · simp [View.write, here]
      · simp only [View.write, ne_eq, here, not_false_eq_true, true_and] at clean idle
        simpa [View.write, here] using shown.cache.clean b idle clean

theorem View.write_pin (v : View) (blockno : Nat) : (v.pin blockno).write blockno = v.write blockno := by
  have same : (fun b => b ≠ blockno ∧ (b = blockno ∨ v.pinned b)) = fun b => b ≠ blockno ∧ v.pinned b := by
    funext b
    by_cases here : b = blockno <;> simp [here]
  simp only [View.write, View.pin, same]

theorem bwrite_spec (held : 0 < v.refs blockno) :
    Triple (Shows v) (bwrite blockno) (fun _ m => Shows (v.write blockno) m) (Safe good) := by
  have written : Triple (Shows (v.pin blockno)) (iderw blockno) _ (Safe good) := iderw_dirty held (Or.inl rfl)
  rw [View.write_pin] at written
  exact triple_bind (markDirty_spec held) fun _ => written

end Operations

end Xv6.Log
