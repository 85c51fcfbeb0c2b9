import Xv6.Vm.Exec
import Xv6.Vm.Growproc
import Xv6.Vm.Kernel

set_option autoImplicit false

namespace Xv6.Vm

open Halting Bytes Ledger

variable {P : Type} {image : Image} {m m' m'' : Memory} {owner : Owner P} {p : P} {pgdir : Nat}

section Write

def Use.page (p : P) : Use P → Prop
  | user q _ => q = p
  | _ => False

structure Rewritten (image : Image) (m : Memory) (owner : Owner P) (p : P) (pgdir : Nat) (m' : Memory) : Prop where
  good : Good image m' owner p pgdir
  acts : Acts (Use.page p) m.page owner m'.page owner
  entries : entry m' pgdir = entry m pgdir
  tables : table m' pgdir = table m pgdir

theorem Rewritten.refl (good : Good image m owner p pgdir) : Rewritten image m owner p pgdir m :=
  ⟨good, Acts.refl _ _ _, rfl, rfl⟩

theorem Rewritten.trans (first : Rewritten image m owner p pgdir m') (second : Rewritten image m' owner p pgdir m'') :
    Rewritten image m owner p pgdir m'' :=
  ⟨second.good, first.acts.trans second.acts, second.entries.trans first.entries, second.tables.trans first.tables⟩

theorem Rewritten.mapped_eq (rewritten : Rewritten image m owner p pgdir m') : mapped m' pgdir = mapped m pgdir :=
  mapped_congr rewritten.entries

theorem Good.write_user (good : Good image m owner p pgdir) {k v : Nat} (used : mapped m pgdir k = some v)
    (blk : Block) : Rewritten image m owner p pgdir (m.write v blk) := by
  have held := (good.space.users k v).mpr used
  have other (w : Nat) (u : Use P) (there : owner w = .used u) (different : u ≠ .user p k) :
      (m.write v blk).page w = m.page w := by
    refine Function.update_of_ne ?_ _ _
    rintro rfl
    rw [held] at there
    cases there
    exact different rfl
  have sameDir := other pgdir _ good.space.dir_self (by simp)
  have tables : table (m.write v blk) pgdir = table m pgdir := table_congr sameDir
  have entries : entry (m.write v blk) pgdir = entry m pgdir :=
    entry_congr sameDir fun i t hung => other t _ ((good.space.tables i t).mpr hung) (by simp)
  refine ⟨⟨good.account, good.space.dir, fun i t => ?_, fun n w => ?_⟩, acts_write ?_ _, entries, tables⟩
  · rw [tables, good.space.tables]
  · rw [mapped_congr entries, good.space.users]
  · simp [held, Status.Within, Use.page]

theorem Space.mapped_inj (space : Space m owner p pgdir) {j k v : Nat} (here : mapped m pgdir j = some v)
    (there : mapped m pgdir k = some v) : j = k := by
  have held := (space.users j v).mpr here
  rw [(space.users k v).mpr there] at held
  cases held
  rfl

theorem byteOf_write (good : Good image m owner p pgdir) {k v : Nat} (used : mapped m pgdir k = some v) (blk : Block)
    (a : Nat) : byteOf (m.write v blk) pgdir a = if a / pgSize = k then some (blk (a % pgSize)) else byteOf m pgdir a := by
  have same := (good.write_user used blk).mapped_eq
  rw [byteOf, same]
  split
  next here => simp [here, used, Memory.write]
  next there =>
    rw [byteOf]
    cases mappedThere : mapped m pgdir (a / pgSize) with
    | none => rfl
    | some w =>
      have other : w ≠ v := fun shared => there (good.space.mapped_inj mappedThere (shared ▸ used))
      simp [Memory.write, other]

theorem blit_inside {blk : Block} {off t : Nat} {bytes : List Byte} (inside : t < bytes.length) :
    some (blit blk off bytes (off + t)) = bytes[t]? := by
  rw [blit, memmove_inside inside]
  simp [inside]

theorem blit_outside {blk : Block} {off o : Nat} {bytes : List Byte} (outside : o < off ∨ off + bytes.length ≤ o) :
    blit blk off bytes o = blk o := memmove_outside outside

def Overlaid (m : Memory) (pgdir va : Nat) (buf : List Byte) (m' : Memory) : Prop :=
  ∀ a, byteOf m' pgdir a = if va ≤ a ∧ a < va + buf.length then buf[a - va]? else byteOf m pgdir a

theorem overlaid_blit (good : Good image m owner p pgdir) {k v o : Nat} {buf : List Byte}
    (used : mapped m pgdir k = some v) (fits : o + buf.length ≤ pgSize) :
    Overlaid m pgdir (k * pgSize + o) buf (m.write v (blit (m.page v) o buf)) := by
  intro a
  rw [byteOf_write good used]
  by_cases here : a / pgSize = k
  · have split : a = k * pgSize + a % pgSize := by
      rw [← here, Nat.mul_comm]
      exact (Nat.div_add_mod a pgSize).symm
    have small : a % pgSize < pgSize := Nat.mod_lt _ (by decide)
    rw [if_pos here]
    generalize a % pgSize = r at split small
    subst split
    by_cases inside : o ≤ r ∧ r < o + buf.length
    · obtain ⟨t, rfl⟩ := Nat.exists_eq_add_of_le inside.1
      rw [if_pos (by omega), blit_inside (by omega)]
      congr 1
      omega
    · have old : byteOf m pgdir (k * pgSize + r) = some (m.page v r) := by
        rw [byteOf, here, used, Option.map_some]
        congr 2
        rw [Nat.mul_comm, Nat.mul_add_mod, Nat.mod_eq_of_lt small]
      rw [if_neg (by omega), blit_outside (by omega), old]
  · rw [if_neg here, if_neg]
    rintro ⟨low, high⟩
    refine here (Nat.div_eq_of_lt_le (by omega) ?_)
    rw [Nat.succ_mul]
    omega

end Write

section Load

variable {content : List Byte}

theorem readi_whole {off n : Nat} {bytes : List Byte} (value : Content.readi content off n = some bytes) :
    bytes = (content.drop off).take n ∧ (bytes.length = n ↔ off + n ≤ content.length ∨ n = 0) := by
  unfold Content.readi at value
  split at value
  next => cases value
  next allowed =>
    cases value
    refine ⟨rfl, ?_⟩
    simp only [List.length_take, List.length_drop]
    omega

theorem loadPage_returns {first j off filesz v : Nat} (good : Good image m owner p pgdir)
    (used : mapped m pgdir (first + j) = some v) (more : j * pgSize < filesz) (small : off + j * pgSize < 2 ^ 32) :
    Returns (loadPage pgdir content (first * pgSize) off filesz (j * pgSize)) m fun r m' =>
      Rewritten image m owner p pgdir m' ∧ (r = true →
        off + j * pgSize + min (filesz - j * pgSize) pgSize ≤ content.length ∧
        Overlaid m pgdir ((first + j) * pgSize) ((content.drop (off + j * pgSize)).take (min (filesz - j * pgSize) pgSize))
          m') := by
  obtain ⟨low, valid, frame⟩ := present_of_mapped used
  obtain ⟨t, here⟩ := table_of_mapped used
  have known : first + j < nEntries * nEntries := Nat.lt_of_lt_of_le low (by decide)
  have address : (first * pgSize + j * pgSize) % 2 ^ 32 = (first + j) * pgSize := by
    simp only [userPages, kernBase, pgSize] at *
    omega
  have count : (if filesz - j * pgSize < pgSize then filesz - j * pgSize else pgSize) = min (filesz - j * pgSize) pgSize := by
    split <;> omega
  rw [loadPage, address, Nat.mod_eq_of_lt small]
  refine returns_step (walkpgdir_page known here) (returns_step (loadWord_entry here) ?_)
  simp only [count, ← frame]
  cases value : Content.readi content (off + j * pgSize) (min (filesz - j * pgSize) pgSize) with
  | none => exact returns_pure ⟨Rewritten.refl good, fun wrong => by cases wrong⟩
  | some bytes =>
    obtain ⟨rfl, whole⟩ := readi_whole value
    refine returns_step rfl (returns_pure ⟨good.write_user used _, fun success => ?_⟩)
    have length := of_decide_eq_true success
    refine ⟨(whole.mp length).resolve_right ?_, ?_⟩
    · have positive : 0 < pgSize := by decide
      omega
    · have fits := Nat.min_le_right (filesz - j * pgSize) pgSize
      rw [← length] at fits
      have overlaid := overlaid_blit (o := 0) good used ((Nat.zero_add _).trans_le fits)
      rwa [Nat.add_zero] at overlaid

theorem loadPages_returns {n first j off filesz : Nat} (good : Good image m owner p pgdir)
    (size : content.length < 2 ^ 32) (rounds : j + n = pagesOf filesz)
    (full : ∀ k, j ≤ k → k < j + n → (mapped m pgdir (first + k)).isSome = true)
    (small : n = 0 ∨ off + j * pgSize < 2 ^ 32) :
    Returns (loadPages pgdir content (first * pgSize) off filesz n (j * pgSize)) m fun r m' =>
      Rewritten image m owner p pgdir m' ∧ (r = true → ∀ a, byteOf m' pgdir a =
        if (first + j) * pgSize ≤ a ∧ a < first * pgSize + filesz then content[off + (a - first * pgSize)]?
        else byteOf m pgdir a) := by
  induction n generalizing m j with
  | zero =>
    refine returns_pure ⟨Rewritten.refl good, fun _ a => ?_⟩
    have done : filesz ≤ j * pgSize := by
      simp only [pagesOf, pgSize] at *
      omega
    rw [Nat.add_mul, if_neg (by omega)]
  | succ n ih =>
    obtain ⟨v, used⟩ := Option.isSome_iff_exists.mp (full j le_rfl (by omega))
    have more : j * pgSize < filesz := lt_pagesOf_iff.mp (by omega)
    have low := (present_of_mapped used).1
    rw [loadPages]
    refine returns_bind (loadPage_returns good used more (by omega)) fun r m₁ after => ?_
    obtain ⟨rewritten, copied⟩ := after
    cases r with
    | false => exact returns_pure ⟨rewritten, fun wrong => by cases wrong⟩
    | true =>
      obtain ⟨inside, overlaid⟩ := copied rfl
      rw [if_pos rfl, nextPage_eq (by omega)]
      -- Only the last page may be read in part.
      have next : n = 0 ∨ off + (j + 1) * pgSize < 2 ^ 32 := by
        by_cases last : n = 0
        · exact Or.inl last
        · right
          have beyond : (j + 1) * pgSize < filesz := lt_pagesOf_iff.mp (by omega)
          rw [Nat.succ_mul] at beyond ⊢
          omega
      have full₁ (k : Nat) (start : j + 1 ≤ k) (limit : k < j + 1 + n) :
          (mapped m₁ pgdir (first + k)).isSome = true := by
        rw [rewritten.mapped_eq]
        exact full k (by omega) (by omega)
      refine returns_post (ih rewritten.good (by omega) full₁ next) fun r m' after => ?_
      obtain ⟨again, rest⟩ := after
      refine ⟨rewritten.trans again, fun success a => ?_⟩
      have length : ((content.drop (off + j * pgSize)).take (min (filesz - j * pgSize) pgSize)).length =
          min (filesz - j * pgSize) pgSize := by
        rw [List.length_take, List.length_drop]
        omega
      rw [rest success a, overlaid a, length]
      simp only [Nat.add_mul, Nat.one_mul] at *
      by_cases here : first * pgSize + j * pgSize ≤ a ∧
          a < first * pgSize + j * pgSize + min (filesz - j * pgSize) pgSize
      · rw [if_neg (by omega), if_pos here, if_pos (by omega), List.getElem?_take_of_lt (by omega),
          List.getElem?_drop]
        congr 1
        omega
      · rw [if_neg here]
        by_cases later : first * pgSize + (j * pgSize + pgSize) ≤ a ∧ a < first * pgSize + filesz
        · rw [if_pos later, if_pos (by omega)]
        · rw [if_neg later, if_neg (by omega)]

theorem loaduvm_returns {first off filesz : Nat} (good : Good image m owner p pgdir) (size : content.length < 2 ^ 32)
    (full : ∀ k < pagesOf filesz, (mapped m pgdir (first + k)).isSome = true) (small : off < 2 ^ 32) :
    Returns (loaduvm pgdir content (first * pgSize) off filesz) m fun r m' =>
      Rewritten image m owner p pgdir m' ∧ (r = true → ∀ a, byteOf m' pgdir a =
        if first * pgSize ≤ a ∧ a < first * pgSize + filesz then content[off + (a - first * pgSize)]?
        else byteOf m pgdir a) := by
  have aligned : first * pgSize % pgSize = 0 := Nat.mul_mod_left ..
  rw [loaduvm, if_neg (by simp [aligned]), ← pagesOf]
  have loop := loadPages_returns (j := 0) good size (Nat.zero_add (pagesOf filesz))
    (fun k _ limit => full k (by omega)) (Or.inr (show off + 0 * pgSize < 2 ^ 32 by omega))
  simpa only [Nat.zero_mul, Nat.add_zero] using loop

end Load

section Segments

variable {content : List Byte} {phs : List Proghdr} {ph : Proghdr} {sz a : Nat}

def Proghdr.Covers (ph : Proghdr) (a : Nat) : Prop :=
  ph.type = elfProgLoad ∧ ph.vaddr ≤ a ∧ a < ph.vaddr + ph.filesz

instance (ph : Proghdr) (a : Nat) : Decidable (ph.Covers a) := inferInstanceAs (Decidable (_ ∧ _ ∧ _))

/-- The byte of the file that the last segment over `a` has there; zero where there is none. -/
def segmentByte (content : List Byte) (phs : List Proghdr) (a : Nat) : Option Byte :=
  match (phs.filter fun ph => ph.Covers a).getLast? with
  | none => some 0
  | some ph => content[ph.off + (a - ph.vaddr)]?

theorem segmentByte_nil : segmentByte content [] a = some 0 := rfl

theorem segmentByte_append : segmentByte content (phs ++ [ph]) a =
    if ph.Covers a then content[ph.off + (a - ph.vaddr)]? else segmentByte content phs a := by
  rw [segmentByte, List.filter_append]
  by_cases covers : ph.Covers a
  · simp [covers]
  · simp [covers, segmentByte]

theorem segmentByte_beyond (below : ∀ ph ∈ phs, ph.type = elfProgLoad → ph.vaddr + ph.filesz ≤ sz) (beyond : sz ≤ a) :
    segmentByte content phs a = some 0 := by
  have none : phs.filter (fun ph => decide (ph.Covers a)) = [] := by
    rw [List.filter_eq_nil_iff]
    intro ph known covers
    obtain ⟨load, -, high⟩ := of_decide_eq_true covers
    have := below ph known load
    omega
  rw [segmentByte, none]
  rfl

def headers (content : List Byte) : Nat → Nat → List Proghdr
  | 0, _ => []
  | n + 1, off => proghdr ((content.drop off).take proghdrSize) :: headers content n ((off + proghdrSize) % 2 ^ 32)

end Segments

structure Loaded (image : Image) (m : Memory) (owner : Owner P) (p : P) (pgdir sz : Nat) (content : List Byte)
    (phs : List Proghdr) : Prop where
  process : Process image m owner p pgdir sz
  kernel : ∀ n, userPages ≤ n → entry m pgdir n = kernelEntry image n
  hole : ∀ i, userPages / nEntries ≤ i → ¬kernelTable i → table m pgdir i = none
  accessible : ∀ k < pagesOf sz, user (entry m pgdir k) = true
  below : ∀ ph ∈ phs, ph.type = elfProgLoad → ph.vaddr + ph.filesz ≤ sz
  bytes : ∀ a, a / pgSize < pagesOf sz → byteOf m pgdir a = segmentByte content phs a

section Loop

variable {owner' : Owner P} {content : List Byte} {phs : List Proghdr} {ph : Proghdr} {sz newsz : Nat}

theorem Loaded.grow (loaded : Loaded image m owner p pgdir sz content phs) (order : sz ≤ newsz)
    (limit : pagesOf newsz ≤ userPages) (grown : Grown image m owner p pgdir (pagesOf sz) (pagesOf newsz) m' owner')
    (fresh : Fresh m' pgdir (pagesOf sz) (pagesOf newsz)) : Loaded image m' owner' p pgdir newsz content phs := by
  have process := loaded.process
  refine ⟨⟨grown.good, grown.clean, grown.exactly process order fresh⟩, fun n high => ?_, fun i high other => ?_,
    fun k inside => ?_, fun ph known load => (loaded.below ph known load).trans order, fun a inside => ?_⟩
  · rw [grown.others n (Or.inr (limit.trans high)), loaded.kernel n high]
  · rw [grown.tables i high, loaded.hole i high other]
  · by_cases old : k < pagesOf sz
    · rw [grown.others k (Or.inl old)]
      exact loaded.accessible k old
    · obtain ⟨_, _, _, access⟩ := fresh k (Nat.le_of_not_lt old) inside
      exact access
  · by_cases old : a / pgSize < pagesOf sz
    · rw [grown.byteOf_below process.good old, loaded.bytes a old]
    · have beyond : sz ≤ a := by
        by_contra before
        exact old (div_pgSize_lt (Nat.lt_of_not_le before))
      rw [fresh.byteOf_zero (Nat.le_of_not_lt old) inside, segmentByte_beyond loaded.below beyond]

theorem Loaded.absent (loaded : Loaded image m owner p pgdir sz content phs) (limit : newsz ≤ kernBase) (k : Nat)
    (start : pagesOf sz ≤ k) (inside : k < pagesOf newsz) : present (entry m pgdir k) = false :=
  loaded.process.exactly.absent (Nat.lt_of_lt_of_le inside (pagesOf_le limit)) start

theorem allocuvm_loaded (loaded : Loaded image m owner p pgdir sz content phs) :
    Returns (allocuvm image pgdir sz newsz) m fun r m' => ∃ owner', Acts (Use.above p 0) m.page owner m'.page owner' ∧
      Good image m' owner' p pgdir ∧ NoLoose owner' p ∧
      (r ≠ 0 → r = max sz newsz ∧ Loaded image m' owner' p pgdir r content phs) := by
  have process := loaded.process
  by_cases limit : newsz ≥ kernBase
  · rw [allocuvm, if_pos limit]
    exact returns_pure ⟨owner, Acts.refl _ _ _, process.good, process.clean, fun wrong => absurd rfl wrong⟩
  have below := Nat.le_of_lt (Nat.lt_of_not_le limit)
  refine returns_post (allocuvm_returns process.good process.clean (loaded.absent below)) fun r m' after => ?_
  rw [if_neg limit] at after
  split at after
  next order =>
    obtain ⟨rfl, rfl⟩ := after
    exact ⟨owner, Acts.refl _ _ _, process.good, process.clean, fun _ => ⟨(Nat.max_eq_left order.le).symm, loaded⟩⟩
  next order =>
    obtain ⟨owner', ⟨rfl, grown, fresh⟩ | ⟨rfl, grown, -⟩⟩ := after
    · have more := Nat.le_of_not_lt order
      exact ⟨owner', grown.acts.mono (Use.above_mono (Nat.zero_le _)), grown.good, grown.clean,
        fun _ => ⟨(Nat.max_eq_right more).symm, loaded.grow more (pagesOf_le below) grown fresh⟩⟩
    · exact ⟨owner', grown.acts.mono (Use.above_mono (Nat.zero_le _)), grown.good, grown.clean,
        fun wrong => absurd rfl wrong⟩

theorem Loaded.rewrite (loaded : Loaded image m owner p pgdir sz content phs)
    (rewritten : Rewritten image m owner p pgdir m') (load : ph.type = elfProgLoad) (inside : ph.vaddr + ph.filesz ≤ sz)
    (bytes : ∀ a, byteOf m' pgdir a = if ph.vaddr ≤ a ∧ a < ph.vaddr + ph.filesz then content[ph.off + (a - ph.vaddr)]?
      else byteOf m pgdir a) : Loaded image m' owner p pgdir sz content (phs ++ [ph]) := by
  have same := rewritten.mapped_eq
  refine ⟨⟨rewritten.good, loaded.process.clean, exactly_congr same loaded.process.exactly⟩, fun n high => ?_,
    fun i high other => ?_, fun k low => ?_, fun ph' known => ?_, fun a low => ?_⟩
  · rw [rewritten.entries, loaded.kernel n high]
  · rw [rewritten.tables, loaded.hole i high other]
  · rw [rewritten.entries]
    exact loaded.accessible k low
  · rcases List.mem_append.mp known with before | here
    · exact loaded.below ph' before
    · rw [List.mem_singleton.mp here]
      exact fun _ => inside
  · rw [bytes a, segmentByte_append, loaded.bytes a low]
    simp [Proghdr.Covers, load]

theorem Loaded.skip (loaded : Loaded image m owner p pgdir sz content phs) (other : ph.type ≠ elfProgLoad) :
    Loaded image m owner p pgdir sz content (phs ++ [ph]) := by
  refine ⟨loaded.process, loaded.kernel, loaded.hole, loaded.accessible, fun ph' known load => ?_, fun a low => ?_⟩
  · rcases List.mem_append.mp known with before | here
    · exact loaded.below ph' before load
    · exact absurd (List.mem_singleton.mp here ▸ load) other
  · rw [segmentByte_append, if_neg fun covers => other covers.1, loaded.bytes a low]

theorem Use.above_of_page (u : Use P) (page : u.page p) : u.above p 0 := by
  cases u with
  | user q n => exact ⟨page, Nat.zero_le n⟩
  | pgdir | table | loose | stack | pipe => exact page.elim

def Outcome (image : Image) (m : Memory) (owner : Owner P) (p : P) (pgdir : Nat) (content : List Byte)
    (phs : List Proghdr) (r : Option Nat) (m' : Memory) : Prop :=
  ∃ owner', Acts (Use.above p 0) m.page owner m'.page owner' ∧ Good image m' owner' p pgdir ∧ NoLoose owner' p ∧
    ∀ sz, r = some sz → Loaded image m' owner' p pgdir sz content phs

theorem Loaded.outcome_bad (loaded : Loaded image m owner p pgdir sz content phs) (phs' : List Proghdr) :
    Outcome image m owner p pgdir content phs' none m :=
  ⟨owner, Acts.refl _ _ _, loaded.process.good, loaded.process.clean, fun _ wrong => by cases wrong⟩

theorem loadSegment_returns (loaded : Loaded image m owner p pgdir sz content phs) (size : content.length < 2 ^ 32)
    (fields : ph.off < 2 ^ 32 ∧ ph.memsz < 2 ^ 32) : Returns (loadSegment image pgdir content ph sz) m
      (Outcome image m owner p pgdir content (phs ++ [ph])) := by
  unfold loadSegment
  split
  next other =>
    exact returns_pure ⟨owner, Acts.refl _ _ _, loaded.process.good, loaded.process.clean,
      fun sz' same => Option.some.inj same ▸ loaded.skip other⟩
  next load =>
  split
  next => exact returns_pure (loaded.outcome_bad _)
  next order =>
  split
  next => exact returns_pure (loaded.outcome_bad _)
  next nowrap =>
    have load := Classical.not_not.mp load
    have total : (ph.vaddr + ph.memsz) % 2 ^ 32 = ph.vaddr + ph.memsz := by omega
    rw [total]
    refine returns_bind (allocuvm_loaded loaded) fun r m₁ ⟨owner₁, acts₁, good₁, clean₁, grown⟩ => ?_
    have bad : Outcome image m owner p pgdir content (phs ++ [ph]) none m₁ :=
      ⟨owner₁, acts₁, good₁, clean₁, fun _ wrong => by cases wrong⟩
    split
    next => exact returns_pure bad
    next positive =>
    split
    next => exact returns_pure bad
    next aligned =>
      obtain ⟨rfl, loaded₁⟩ := grown positive
      obtain ⟨first, vaddr⟩ : ∃ first, ph.vaddr = first * pgSize :=
        ⟨ph.vaddr / pgSize, (Nat.div_mul_cancel (Nat.dvd_of_mod_eq_zero (Classical.not_not.mp aligned))).symm⟩
      have inside : ph.vaddr + ph.filesz ≤ max sz (ph.vaddr + ph.memsz) := by omega
      have full (k : Nat) (low : k < pagesOf ph.filesz) : (mapped m₁ pgdir (first + k)).isSome = true := by
        rw [loaded₁.process.exactly, lt_pagesOf_iff, Nat.add_mul, ← vaddr]
        rw [lt_pagesOf_iff] at low
        omega
      have step := loaduvm_returns good₁ size full fields.1
      rw [← vaddr] at step
      refine returns_bind step fun r m' ⟨rewritten, bytes⟩ => ?_
      have acts := acts₁.trans (rewritten.acts.mono Use.above_of_page)
      cases r with
      | false => exact returns_pure ⟨owner₁, acts, rewritten.good, clean₁, fun _ wrong => by cases wrong⟩
      | true =>
        exact returns_pure ⟨owner₁, acts, rewritten.good, clean₁,
          fun sz' same => Option.some.inj same ▸ loaded₁.rewrite rewritten load inside (bytes rfl)⟩

theorem le_lt {bytes : List Byte} {off n : Nat} : le bytes off n < 256 ^ n := getLe_lt

theorem loadHeader_returns {off : Nat} (loaded : Loaded image m owner p pgdir sz content phs)
    (size : content.length < 2 ^ 32) : Returns (loadHeader image pgdir content off sz) m
      (Outcome image m owner p pgdir content (phs ++ [proghdr ((content.drop off).take proghdrSize)])) := by
  unfold loadHeader
  split
  next => exact returns_pure (loaded.outcome_bad _)
  next bytes value =>
    obtain ⟨rfl, -⟩ := readi_whole value
    split
    next => exact returns_pure (loaded.outcome_bad _)
    next => exact loadSegment_returns loaded size ⟨le_lt, le_lt⟩

theorem loadLoop_returns {n off : Nat} (loaded : Loaded image m owner p pgdir sz content phs)
    (size : content.length < 2 ^ 32) : Returns (loadLoop image pgdir content n off sz) m
      (Outcome image m owner p pgdir content (phs ++ headers content n off)) := by
  induction n generalizing m owner off sz phs with
  | zero =>
    refine returns_pure ⟨owner, Acts.refl _ _ _, loaded.process.good, loaded.process.clean, fun sz' same => ?_⟩
    rw [headers, List.append_nil, ← Option.some.inj same]
    exact loaded
  | succ n ih =>
    rw [loadLoop]
    refine returns_bind (loadHeader_returns loaded size) fun r m₁ ⟨owner₁, acts₁, good₁, clean₁, more⟩ => ?_
    cases r with
    | none => exact returns_pure ⟨owner₁, acts₁, good₁, clean₁, fun _ wrong => by cases wrong⟩
    | some sz₁ =>
      refine returns_post (ih (more sz₁ rfl)) fun r m' ⟨owner', acts, good, clean, rest⟩ => ?_
      rw [List.append_assoc] at rest
      exact ⟨owner', acts₁.trans acts, good, clean, rest⟩

theorem Loaded.start (good : Good image m owner p pgdir) (clean : NoLoose owner p)
    (entries : entry m pgdir = kernelEntry image) (tables : ∀ i, ¬kernelTable i → table m pgdir i = none) :
    Loaded image m owner p pgdir 0 content [] := by
  have empty : pagesOf 0 = 0 := by decide
  refine ⟨⟨good, clean, fun k => ?_⟩, fun n _ => by rw [entries], fun i _ => tables i,
    fun k none => ?_, fun _ none => absurd none List.not_mem_nil, fun a none => ?_⟩
  · have unmapped : mapped m pgdir k = none := by
      rw [mapped, if_neg]
      rintro ⟨low, valid⟩
      rw [entries, kernelEntry_of_not (user_not_kernel low)] at valid
      exact absurd valid (by decide)
    simp [unmapped, empty]
  all_goals
    rw [empty] at none
    exact absurd none (Nat.not_lt_zero _)

end Loop

section Exec

theorem exec_failure (file : Option (List Byte)) (path : List UInt8) (argv : List (List Byte)) (curproc : Proc) :
    Triple (fun _ => True) (exec image file path argv curproc) (fun r _ => r.1 = -1 → r.2 = curproc)
      fun _ => True := by
  have anything {A : Type} (x : Kernel A) : Triple (fun _ => True) x (fun _ _ => True) fun _ => True := fun m _ => by
    rcases x.run m with ⟨_ | a, last⟩ <;> trivial
  unfold exec
  split
  next => exact triple_pure fun _ _ _ => rfl
  next content =>
  split
  next => exact triple_pure fun _ _ _ => rfl
  next elf _ =>
    refine triple_bind (anything _) fun r => ?_
    cases r with
    | none => exact triple_pure fun _ _ _ => rfl
    | some pgdir =>
      refine triple_bind (anything _) fun r => ?_
      cases r with
      | none => exact triple_bind (anything _) fun _ => triple_pure fun _ _ _ => rfl
      | some built =>
        refine triple_bind (anything _) fun _ => triple_pure fun _ _ wrong => ?_
        exact absurd wrong (by simp)

theorem sampleOwner_unused : Unused (sampleOwner 4) 1 := by
  intro v u held
  rw [sampleOwner_used held]
  simp [Use.above]

end Exec

end Xv6.Vm
