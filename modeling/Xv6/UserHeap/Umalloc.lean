import Xv6.Processes.Machine

set_option autoImplicit false

namespace Xv6.Umalloc

-- sizeof(Header)
def unit : Nat := 8

structure Header where
  ptr : Nat
  size : Nat

/-- A call of sbrk by morecore: the argument as an int, the bytes by which the memory grew, and the bytes of the
block that is recorded. -/
structure Request where
  n : Int
  granted : Nat
  recorded : Nat

/-- The headers by their address, `base` and `freep`, the size of the process, what the kernel makes of it in each
call of sbrk (none: it fails), and what sbrk was asked for and gave. -/
structure Heap where
  header : Nat → Header
  base : Nat
  freep : Nat
  sz : Nat
  answer : Nat → Nat → Int → Option Nat
  requests : List Request
  regions : List (Nat × Nat)

namespace Heap

def ptr (heap : Heap) (a : Nat) : Nat := (heap.header a).ptr

def size (heap : Heap) (a : Nat) : Nat := (heap.header a).size

def setPtr (heap : Heap) (a v : Nat) : Heap :=
  { heap with header := Function.update heap.header a { heap.header a with ptr := v } }

-- size is a uint.
def setSize (heap : Heap) (a v : Nat) : Heap :=
  { heap with header := Function.update heap.header a { heap.header a with size := v % 2 ^ 32 } }

def setFreep (heap : Heap) (freep : Nat) : Heap := { heap with freep }

def Obtained (heap : Heap) (x : Nat) : Prop :=
  x < heap.sz ∧ ∃ region ∈ heap.regions, region.1 ≤ x ∧ x < region.1 + region.2

end Heap

def freeLoop (heap : Heap) (bp : Nat) : Nat → Nat → Option Nat
  | 0, _ => none
  | fuel + 1, p =>
    if bp > p ∧ bp < heap.ptr p then some p
    else if p ≥ heap.ptr p ∧ (bp > p ∨ bp < heap.ptr p) then some p
    else freeLoop heap bp fuel (heap.ptr p)

def joinNext (heap : Heap) (bp p : Nat) : Heap :=
  if bp + unit * heap.size bp = heap.ptr p then
    (heap.setSize bp (heap.size bp + heap.size (heap.ptr p))).setPtr bp (heap.ptr (heap.ptr p))
  else heap.setPtr bp (heap.ptr p)

def joinPrevious (heap : Heap) (bp p : Nat) : Heap :=
  if p + unit * heap.size p = bp then
    (heap.setSize p (heap.size p + heap.size bp)).setPtr p (heap.ptr bp)
  else heap.setPtr p bp

-- free, for the header bp; none where its loop goes on.
def free (fuel bp : Nat) (heap : Heap) : Option Heap :=
  (freeLoop heap bp fuel heap.freep).map fun p => (joinPrevious (joinNext heap bp p) bp p).setFreep p

def Heap.ask (heap : Heap) (n : Int) (sz recorded : Nat) : Heap :=
  { heap with
    sz
    requests := ⟨n, sz - heap.sz, recorded⟩ :: heap.requests
    regions := (heap.sz, sz - heap.sz) :: heap.regions }

def unitsAsked (nunits : Nat) : Nat := if nunits < 4096 then 4096 else nunits

-- The argument of sbrk is an int.
@[irreducible] def bytesAsked (nu : Nat) : Int := ((nu * unit : Nat) : Int).bmod (2 ^ 32)

def record (fuel nu hp : Nat) (heap : Heap) : Option (Option Nat) × Heap :=
  match free fuel hp (heap.setSize hp nu) with
  | none => (none, heap)
  | some heap => (some (some heap.freep), heap)

/-- morecore after its call of sbrk. The result is none where free does not end, and some none for a null pointer. -/
def granted (fuel nu : Nat) (heap : Heap) : Option Nat → Option (Option Nat) × Heap
  | none => (some none, heap.ask (bytesAsked nu) heap.sz 0)
  | some sz => record fuel nu heap.sz (heap.ask (bytesAsked nu) sz (nu * unit))

def sbrk (nu : Nat) (heap : Heap) : Option Nat := heap.answer heap.requests.length heap.sz (bytesAsked nu)

def morecore (fuel nunits : Nat) (heap : Heap) : Option (Option Nat) × Heap :=
  granted fuel (unitsAsked nunits) heap (sbrk (unitsAsked nunits) heap)

def mallocLoop (nunits : Nat) : Nat → Nat → Nat → Heap → Option Nat × Heap
  | 0, _, _, heap => (none, heap)
  | fuel + 1, prevp, p, heap =>
    if heap.size p ≥ nunits then
      if heap.size p = nunits then (some (p + unit), (heap.setPtr prevp (heap.ptr p)).setFreep prevp)
      else
        let rest := heap.size p - nunits
        (some (p + unit * rest + unit), ((heap.setSize p rest).setSize (p + unit * rest) nunits).setFreep prevp)
    else if p = heap.freep then
      match morecore fuel nunits heap with
      | (none, heap) => (none, heap)
      | (some none, heap) => (some 0, heap)
      | (some (some q), heap) => mallocLoop nunits fuel q (heap.ptr q) heap
    else mallocLoop nunits fuel p (heap.ptr p) heap

def unitsFor (nbytes : BitVec 32) : Nat := (nbytes + 7).toNat / unit + 1

def firstCall (heap : Heap) : Heap :=
  if heap.freep = 0 then ((heap.setPtr heap.base heap.base).setSize heap.base 0).setFreep heap.base else heap

def malloc (fuel : Nat) (nbytes : BitVec 32) (heap : Heap) : Option Nat × Heap :=
  let heap := firstCall heap
  mallocLoop (unitsFor nbytes) fuel heap.freep (heap.ptr heap.freep) heap

/-- The free list: freep leads to headers of `free` only, and their blocks are memory that sbrk gave. -/
structure FreeList (heap : Heap) (free : Nat → Prop) : Prop where
  start : free heap.freep
  closed : ∀ a, free a → free (heap.ptr a)
  inside : ∀ a, free a → ∀ x, a ≤ x → x < a + unit * heap.size a → heap.Obtained x

def Heap.Kernel (heap : Heap) : Prop := ∀ k sz n, ∃ memory, heap.answer k sz n = Processes.growproc sz n memory

structure Ready (heap : Heap) : Prop where
  kernel : heap.Kernel
  list : heap.freep = 0 ∨ ∃ free, FreeList heap free
  below : heap.sz < Processes.kernBase
  requests : heap.requests = []

structure MallocRight (nbytes : BitVec 32) (result : Option Nat) (heap : Heap) : Prop where
  requests : ∀ r ∈ heap.requests, 0 ≤ r.n ∧ r.recorded ≤ r.granted
  enough : ∀ ap, result = some ap → ap ≠ 0 → unit ≤ ap ∧
    ap + nbytes.toNat ≤ ap - unit + unit * heap.size (ap - unit) ∧
    ∀ x, ap - unit ≤ x → x < ap - unit + unit * heap.size (ap - unit) → heap.Obtained x

section Updates

variable {heap : Heap} {a b v : Nat}

@[simp] theorem ptr_setPtr : (heap.setPtr a v).ptr b = if b = a then v else heap.ptr b := by
  by_cases same : b = a <;> simp [Heap.ptr, Heap.setPtr, same]

@[simp] theorem size_setPtr : (heap.setPtr a v).size b = heap.size b := by
  by_cases same : b = a <;> simp [Heap.size, Heap.setPtr, same]

@[simp] theorem ptr_setSize : (heap.setSize a v).ptr b = heap.ptr b := by
  by_cases same : b = a <;> simp [Heap.ptr, Heap.setSize, same]

@[simp] theorem size_setSize : (heap.setSize a v).size b = if b = a then v % 2 ^ 32 else heap.size b := by
  by_cases same : b = a <;> simp [Heap.size, Heap.setSize, same]

@[simp] theorem obtained_setPtr {x : Nat} : (heap.setPtr a v).Obtained x ↔ heap.Obtained x := Iff.rfl

end Updates

variable {heap : Heap} {list : Nat → Prop} {a bp fuel nu nunits : Nat} {nbytes : BitVec 32}

theorem FreeList.setPtr (free : FreeList heap list) {v : Nat} (known : list v) : FreeList (heap.setPtr a v) list where
  start := free.start
  closed b member := by
    rw [ptr_setPtr]
    split_ifs
    · exact known
    · exact free.closed b member
  inside b member := by
    rw [size_setPtr]
    exact free.inside b member

theorem FreeList.setSize (free : FreeList heap list) {v : Nat}
    (fits : ∀ x, a ≤ x → x < a + unit * v → heap.Obtained x) : FreeList (heap.setSize a v) list where
  start := free.start
  closed b member := by
    rw [ptr_setSize]
    exact free.closed b member
  inside b member x low high := by
    rw [size_setSize] at high
    split_ifs at high with same
    · subst same
      have smaller := Nat.mul_le_mul_left unit (Nat.mod_le v (2 ^ 32))
      exact fits x low (by omega)
    · exact free.inside b member x low high

theorem FreeList.setFreep (free : FreeList heap list) (known : list a) : FreeList (heap.setFreep a) list where
  start := known
  closed := free.closed
  inside := free.inside

theorem FreeList.grow (free : FreeList heap list) (next : list (heap.ptr a) ∨ heap.ptr a = a)
    (fits : ∀ x, a ≤ x → x < a + unit * heap.size a → heap.Obtained x) : FreeList heap fun b => b = a ∨ list b where
  start := .inr free.start
  closed b member := by
    rcases member with rfl | old
    · exact next.symm.imp id id
    · exact .inr (free.closed b old)
  inside b member := by
    rcases member with rfl | old
    · exact fits
    · exact free.inside b old

theorem freeLoop_mem (free : FreeList heap list) {p q : Nat} (known : list p)
    (found : freeLoop heap bp fuel p = some q) : list q := by
  induction fuel generalizing p with
  | zero => cases found
  | succ fuel ih =>
    rw [freeLoop] at found
    split_ifs at found
    · exact Option.some.inj found ▸ known
    · exact Option.some.inj found ▸ known
    · exact ih (free.closed p known) found

theorem joinNext_list (free : FreeList heap list) {p : Nat} (known : list p)
    (fits : ∀ x, bp ≤ x → x < bp + unit * heap.size bp → heap.Obtained x) :
    FreeList (joinNext heap bp p) (fun b => b = bp ∨ list b) ∧ ∀ x, bp ≤ x →
      x < bp + unit * (joinNext heap bp p).size bp → (joinNext heap bp p).Obtained x := by
  have after := free.closed p known
  unfold joinNext
  split_ifs with touches
  · have joined : ∀ x, bp ≤ x → x < bp + unit * (heap.size bp + heap.size (heap.ptr p)) → heap.Obtained x := by
      intro x low high
      by_cases first : x < bp + unit * heap.size bp
      · exact fits x low first
      · exact free.inside _ after x (by omega) (by rw [Nat.mul_add] at high; omega)
    have smaller := Nat.mul_le_mul_left unit (Nat.mod_le (heap.size bp + heap.size (heap.ptr p)) (2 ^ 32))
    have linked := (free.setSize joined).setPtr (a := bp) (free.closed _ after)
    refine ⟨linked.grow (.inl (by simpa using free.closed _ after)) fun x low high => ?_, fun x low high => ?_⟩ <;>
      simp only [size_setPtr, size_setSize, if_true] at high <;> exact joined x low (by omega)
  · refine ⟨(free.setPtr (a := bp) after).grow (.inl (by simpa using after)) ?_, ?_⟩ <;> simpa using fits

theorem free_list (free : FreeList heap list) {heap' : Heap}
    (fits : ∀ x, bp ≤ x → x < bp + unit * heap.size bp → heap.Obtained x)
    (done : Umalloc.free fuel bp heap = some heap') : ∃ list', FreeList heap' list' := by
  obtain ⟨p, found, rfl⟩ := Option.map_eq_some_iff.mp done
  have known := freeLoop_mem free free.start found
  obtain ⟨joined, block⟩ := joinNext_list free known fits
  refine ⟨fun b => b = bp ∨ list b, FreeList.setFreep ?_ (.inr known)⟩
  unfold joinPrevious
  split_ifs with touches
  · refine (joined.setSize fun x low high => ?_).setPtr (joined.closed bp (.inl rfl))
    by_cases first : x < p + unit * (joinNext heap bp p).size p
    · exact joined.inside p (.inr known) x low first
    · exact block x (by omega) (by rw [Nat.mul_add] at high; omega)
  · exact joined.setPtr (.inl rfl)

theorem growproc_grows {sz newsz : Nat} {n : Nat} {memory : Bool} (below : sz < Processes.kernBase) (some_ : 0 < n)
    (small : n < 2 ^ 31) (grown : Processes.growproc sz n memory = some newsz) :
    newsz = sz + n ∧ newsz < Processes.kernBase := by
  simp only [Processes.kernBase] at below
  have value : (((sz : Int) + n) % 2 ^ 32).toNat = sz + n := by omega
  rw [Processes.growproc, if_pos (by omega), value] at grown
  split_ifs at grown with high wraps
  · omega
  · exact ⟨(Option.some.inj grown).symm, (Option.some.inj grown) ▸ not_le.mp high⟩

structure Sound (heap : Heap) : Prop where
  kernel : heap.Kernel
  list : ∃ free, FreeList heap free
  below : heap.sz < Processes.kernBase
  requests : ∀ r ∈ heap.requests, 0 ≤ r.n ∧ r.recorded ≤ r.granted

structure Served (out : Option (Option Nat) × Heap) : Prop where
  requests : ∀ r ∈ out.2.requests, 0 ≤ r.n ∧ r.recorded ≤ r.granted
  sound : out.1 ≠ none → Sound out.2
  freep : ∀ q, out.1 = some (some q) → q = out.2.freep

theorem free_rest {heap' : Heap} (done : free fuel bp heap = some heap') :
    heap'.answer = heap.answer ∧ heap'.sz = heap.sz ∧ heap'.requests = heap.requests := by
  obtain ⟨p, _, rfl⟩ := Option.map_eq_some_iff.mp done
  unfold joinPrevious joinNext
  split_ifs <;> exact ⟨rfl, rfl, rfl⟩

theorem FreeList.ask (free : FreeList heap list) {n : Int} {sz recorded : Nat} (more : heap.sz ≤ sz) :
    FreeList (heap.ask n sz recorded) list where
  start := free.start
  closed := free.closed
  inside a member x low high := by
    obtain ⟨below, region, given, bounds⟩ := free.inside a member x low high
    exact ⟨Nat.lt_of_lt_of_le below more, region, List.mem_cons_of_mem _ given, bounds⟩

theorem bytesAsked_eq (small : nu * unit < 2 ^ 31) : bytesAsked nu = (nu * unit : Nat) := by
  unfold bytesAsked
  generalize nu * unit = bytes at small
  exact Int.bmod_eq_of_le (by omega) (by omega)

theorem unitsAsked_small (small : nunits * unit < 2 ^ 31) :
    0 < unitsAsked nunits * unit ∧ unitsAsked nunits * unit < 2 ^ 31 := by
  unfold unitsAsked unit at *
  split_ifs <;> omega

theorem ask_right {n : Int} {sz recorded : Nat} (asks : ∀ r ∈ heap.requests, 0 ≤ r.n ∧ r.recorded ≤ r.granted)
    (grows : 0 ≤ n) (granted : recorded ≤ sz - heap.sz) :
    ∀ r ∈ (heap.ask n sz recorded).requests, 0 ≤ r.n ∧ r.recorded ≤ r.granted := by
  intro r member
  rcases List.mem_cons.mp member with rfl | old
  · exact ⟨grows, granted⟩
  · exact asks r old

theorem record_served (sound : Sound heap) {hp : Nat} (given : ∀ x, hp ≤ x → x < hp + unit * nu → heap.Obtained x) :
    Served (record fuel nu hp heap) := by
  obtain ⟨kernel, ⟨list, free⟩, below, asks⟩ := sound
  unfold record
  cases done : Umalloc.free fuel hp (heap.setSize hp nu) with
  | none => exact ⟨asks, fun ended => absurd rfl ended, fun q same => by cases same⟩
  | some heap' =>
    obtain ⟨answers, same, history⟩ := free_rest done
    have placed : ∃ list', FreeList heap' list' := by
      refine free_list (free.setSize given) (fun x low high => given x low ?_) done
      rw [size_setSize, if_pos rfl] at high
      have smaller := Nat.mul_le_mul_left unit (Nat.mod_le nu (2 ^ 32))
      omega
    have fine : ∀ r ∈ heap'.requests, 0 ≤ r.n ∧ r.recorded ≤ r.granted := by
      rw [history]
      exact asks
    have serves : heap'.Kernel := by
      rw [Heap.Kernel, answers]
      exact kernel
    exact ⟨fine, fun _ => ⟨serves, placed, same ▸ below, fine⟩, fun q found => by cases found; rfl⟩

theorem granted_served (sound : Sound heap) (positive : 0 < nu * unit) (bounded : nu * unit < 2 ^ 31)
    {result : Option Nat} (asked : sbrk nu heap = result) : Served (granted fuel nu heap result) := by
  obtain ⟨kernel, ⟨list, free⟩, below, asks⟩ := sound
  have bytes := bytesAsked_eq bounded
  have nonneg : 0 ≤ bytesAsked nu := by
    rw [bytes]
    exact Int.natCast_nonneg _
  cases result with
  | none =>
    have fine := ask_right asks nonneg (Nat.zero_le (heap.sz - heap.sz))
    exact ⟨fine, fun _ => ⟨kernel, ⟨list, free.ask (Nat.le_refl _)⟩, below, fine⟩, fun q found => by cases found⟩
  | some sz =>
    obtain ⟨memory, grown⟩ := kernel heap.requests.length heap.sz (bytesAsked nu)
    rw [sbrk, grown, bytes] at asked
    obtain ⟨whole, above⟩ := growproc_grows below positive bounded asked
    have fine := ask_right asks nonneg (show nu * unit ≤ sz - heap.sz by omega)
    have larger : Sound (heap.ask (bytesAsked nu) sz (nu * unit)) :=
      ⟨kernel, ⟨list, free.ask (by omega)⟩, above, fine⟩
    refine record_served larger fun x low high => ?_
    rw [Nat.mul_comm, ← whole] at high
    exact ⟨high, _, List.mem_cons_self, low, by dsimp only; omega⟩

structure Carved (nunits : Nat) (result : Option Nat) (heap : Heap) : Prop where
  requests : ∀ r ∈ heap.requests, 0 ≤ r.n ∧ r.recorded ≤ r.granted
  block : ∀ ap, result = some ap → ap ≠ 0 → unit ≤ ap ∧ heap.size (ap - unit) = nunits ∧
    ∀ x, ap - unit ≤ x → x < ap - unit + unit * nunits → heap.Obtained x

theorem carved (asks : ∀ r ∈ heap.requests, 0 ≤ r.n ∧ r.recorded ≤ r.granted) (size : heap.size a = nunits)
    (inside : ∀ x, a ≤ x → x < a + unit * nunits → heap.Obtained x) : Carved nunits (some (a + unit)) heap := by
  refine ⟨asks, fun ap same _ => ?_⟩
  cases same
  rw [Nat.add_sub_cancel]
  exact ⟨Nat.le_add_left _ _, size, inside⟩

theorem mallocLoop_carved (small : nunits * unit < 2 ^ 31) (fuel : Nat) {prevp p : Nat} (sound : Sound heap)
    (free : FreeList heap list) (previous : list prevp) (here : list p) :
    Carved nunits (mallocLoop nunits fuel prevp p heap).1 (mallocLoop nunits fuel prevp p heap).2 := by
  induction fuel generalizing prevp p heap list with
  | zero => exact ⟨sound.requests, fun ap same => by cases same⟩
  | succ fuel ih =>
    rw [mallocLoop]
    split_ifs with fits equal last
    · refine carved sound.requests ?_ fun x low high => ?_
      · change (heap.setPtr prevp (heap.ptr p)).size p = nunits
        rw [size_setPtr, equal]
      · exact free.inside p here x low (by rw [equal]; exact high)
    · refine carved sound.requests ?_ fun x low high => ?_
      · change ((heap.setSize p _).setSize _ nunits).size _ = nunits
        rw [size_setSize, if_pos rfl]
        have fewer : nunits ≤ nunits * unit := Nat.le_mul_of_pos_right nunits (by decide)
        exact Nat.mod_eq_of_lt (by omega)
      · refine free.inside p here x (by omega) ?_
        have whole : unit * (heap.size p - nunits) + unit * nunits = unit * heap.size p := by
          rw [← Nat.mul_add]
          congr 1
          omega
        omega
    · obtain ⟨positive, bounded⟩ := unitsAsked_small small
      have served : Served (morecore fuel nunits heap) := granted_served sound positive bounded rfl
      rcases moved : morecore fuel nunits heap with ⟨_ | _ | q, heap'⟩ <;> rw [moved] at served
      · exact ⟨served.requests, fun ap same => by cases same⟩
      · exact ⟨served.requests, fun ap same nonzero => absurd (Option.some.inj same).symm nonzero⟩
      · have after := served.sound (by simp)
        obtain ⟨list', listed⟩ := after.list
        have start : q = heap'.freep := served.freep q rfl
        subst start
        exact ih after listed listed.start (listed.closed _ listed.start)
    · exact ih sound free here (free.closed p here)

theorem unitsFor_small (small : nbytes.toNat < 2 ^ 31 - 15) :
    unitsFor nbytes * unit < 2 ^ 31 ∧ nbytes.toNat + unit ≤ unit * unitsFor nbytes := by
  have seven : (7 : BitVec 32).toNat = 7 := rfl
  simp only [unitsFor, unit, BitVec.toNat_add, seven]
  omega

theorem firstCall_sound (ready : Ready heap) : Sound (firstCall heap) := by
  have none : ∀ r ∈ heap.requests, 0 ≤ r.n ∧ r.recorded ≤ r.granted := by simp [ready.requests]
  unfold firstCall
  split_ifs with first
  · refine ⟨ready.kernel, ⟨fun a => a = heap.base, rfl, ?_, ?_⟩, ready.below, none⟩
    · rintro a rfl
      change ((heap.setPtr heap.base heap.base).setSize heap.base 0).ptr heap.base = heap.base
      simp
    · rintro a rfl x low high
      have empty : ((heap.setPtr heap.base heap.base).setSize heap.base 0).size heap.base = 0 := by simp
      change x < heap.base + unit * ((heap.setPtr heap.base heap.base).setSize heap.base 0).size heap.base at high
      rw [empty] at high
      omega
  · exact ⟨ready.kernel, ready.list.resolve_left first, ready.below, none⟩

theorem malloc_right (small : nbytes.toNat < 2 ^ 31 - 15) (ready : Ready heap) (fuel : Nat) :
    MallocRight nbytes (malloc fuel nbytes heap).1 (malloc fuel nbytes heap).2 := by
  obtain ⟨bounded, enough⟩ := unitsFor_small small
  have sound := firstCall_sound ready
  obtain ⟨list, free⟩ := sound.list
  have carved := mallocLoop_carved bounded fuel sound free free.start (free.closed _ free.start)
  refine ⟨carved.requests, fun ap returned nonzero => ?_⟩
  obtain ⟨low, size, inside⟩ := carved.block ap returned nonzero
  rw [malloc, size]
  exact ⟨low, by omega, inside⟩

def fresh : Heap where
  header := fun _ => ⟨0, 0⟩
  base := 64
  freep := 0
  sz := 0x4000
  answer := fun _ sz n => Processes.growproc sz n true
  requests := []
  regions := []

theorem fresh_ready : Ready fresh := ⟨fun _ _ _ => ⟨true, rfl⟩, .inl rfl, by decide, rfl⟩

theorem granted_asks (nu : Nat) (heap : Heap) (result : Option Nat) :
    ∃ r ∈ (granted 0 nu heap result).2.requests, r.n = bytesAsked nu ∧
      ∀ sz, result = some sz → r.granted = sz - heap.sz ∧ r.recorded = nu * unit := by
  cases result with
  | none => exact ⟨_, List.mem_cons_self, rfl, fun sz same => by cases same⟩
  | some size =>
    refine ⟨_, List.mem_cons_self, rfl, fun sz same => ?_⟩
    cases same
    exact ⟨rfl, rfl⟩

theorem mallocLoop_last {prevp : Nat} (small : heap.size heap.freep < nunits) :
    (mallocLoop nunits 1 prevp heap.freep heap).2 = (morecore 0 nunits heap).2 := by
  rw [mallocLoop, if_neg (Nat.not_le.mpr small), if_pos rfl]
  rcases morecore 0 nunits heap with ⟨_ | _ | q, heap'⟩ <;> rfl

theorem bmod_negative {k : Nat} (low : 2 ^ 31 ≤ k) (high : k < 2 ^ 32) : (k : Int).bmod (2 ^ 32) < 0 := by
  simp only [Int.bmod]
  split_ifs <;> omega

theorem bytesAsked_large (low : 2 ^ 28 ≤ nu) (high : nu < 2 ^ 29) : bytesAsked nu < 0 := by
  unfold bytesAsked
  exact bmod_negative (by rw [unit]; omega) (by rw [unit]; omega)

theorem malloc_large (low : 2 ^ 31 - 15 ≤ nbytes.toNat) (high : nbytes.toNat ≤ 2 ^ 32 - 8) :
    ¬MallocRight nbytes (malloc 1 nbytes fresh).1 (malloc 1 nbytes fresh).2 := by
  intro right
  obtain ⟨many, most⟩ : 2 ^ 28 ≤ unitsFor nbytes ∧ unitsFor nbytes ≤ 2 ^ 29 := by
    have seven : (7 : BitVec 32).toNat = 7 := rfl
    simp only [unitsFor, unit, BitVec.toNat_add, seven]
    omega
  have whole : unitsAsked (unitsFor nbytes) = unitsFor nbytes := if_neg (by omega)
  have last : (malloc 1 nbytes fresh).2 = (morecore 0 (unitsFor nbytes) (firstCall fresh)).2 :=
    mallocLoop_last (Nat.lt_of_lt_of_le (by decide) many)
  have asks := right.requests
  rw [last, morecore, whole] at asks
  obtain ⟨r, member, asked, given⟩ := granted_asks (unitsFor nbytes) (firstCall fresh) (sbrk (unitsFor nbytes) (firstCall fresh))
  obtain ⟨grows, granted⟩ := asks r member
  rw [asked] at grows
  rcases Nat.lt_or_eq_of_le most with fewer | most
  · exact absurd (bytesAsked_large many fewer) (Int.not_lt.mpr grows)
  · -- 2^32 bytes are no bytes: sbrk succeeds and gives nothing.
    have nothing : sbrk (unitsFor nbytes) (firstCall fresh) = some 0x4000 := by
      rw [most]
      decide +kernel
    obtain ⟨gave, recorded⟩ := given _ nothing
    rw [gave, recorded, most] at granted
    exact absurd granted (by decide +kernel)

theorem malloc_wraps (high : 2 ^ 32 - 8 < nbytes.toNat) :
    ¬MallocRight nbytes (malloc 3 nbytes fresh).1 (malloc 3 nbytes fresh).2 := by
  have one : unitsFor nbytes = 1 := by
    have seven : (7 : BitVec 32).toNat = 7 := rfl
    have := nbytes.isLt
    simp only [unitsFor, unit, BitVec.toNat_add, seven]
    omega
  have run : malloc 3 nbytes fresh = mallocLoop 1 3 64 64 (firstCall fresh) := by
    rw [malloc, one]
    rfl
  intro right
  rw [run] at right
  have returned : (mallocLoop 1 3 64 64 (firstCall fresh)).1 = some 0xc000 := by decide +kernel
  have size : (mallocLoop 1 3 64 64 (firstCall fresh)).2.size (0xc000 - unit) = 1 := by decide +kernel
  obtain ⟨_, enough, _⟩ := right.enough 0xc000 returned (by decide)
  rw [size, unit] at enough
  omega

/-- malloc(nbytes) is right in every heap exactly if nbytes is below 2^31 - 15. -/
theorem malloc_right_iff (nbytes : BitVec 32) :
    (∀ heap fuel, Ready heap → MallocRight nbytes (malloc fuel nbytes heap).1 (malloc fuel nbytes heap).2) ↔
      nbytes.toNat < 2 ^ 31 - 15 := by
  constructor
  · intro right
    by_contra large
    rw [Nat.not_lt] at large
    by_cases wraps : nbytes.toNat ≤ 2 ^ 32 - 8
    · exact malloc_large large wraps (right fresh 1 fresh_ready)
    · exact malloc_wraps (Nat.not_le.mp wraps) (right fresh 3 fresh_ready)
  · exact fun small heap fuel ready => malloc_right small ready fuel

/-- malloc(2^32 - 1) returns a block without a byte of payload. -/
theorem malloc_max_wraps : ∃ heap, Ready heap ∧ ¬MallocRight (-1) (malloc 3 (-1) heap).1 (malloc 3 (-1) heap).2 :=
  ⟨fresh, fresh_ready, malloc_wraps (by decide)⟩

end Xv6.Umalloc
