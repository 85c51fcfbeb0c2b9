import Xv6.Vm.Arguments
import Xv6.Vm.Copy

set_option autoImplicit false

namespace Xv6.Vm

open Halting Bytes Ledger

variable {P : Type} {image : Image} {m m' : Memory} {owner owner' : Owner P} {p q : P} {pgdir top sz esp : Nat}
  {content : List Byte} {phs : List Proghdr} {argv : List (List Byte)}

structure Started (m : Memory) (pgdir sz esp : Nat) (argv : List (List Byte)) (content : List Byte)
    (phs : List Proghdr) : Prop where
  exactly : Exactly m pgdir sz
  guard : user (entry m pgdir (sz / pgSize - 2)) = false
  accessible : user (entry m pgdir (sz / pgSize - 1)) = true
  stack : ∃ ptrs, Layout m pgdir sz esp argv ptrs ∧
    ∀ a < sz, Elsewhere esp argv ptrs a → byteOf m pgdir a = segmentByte content phs a
  zero : ∀ a, sz - 2 * pgSize ≤ a → segmentByte content phs a = some 0

theorem Started.congr (started : Started m pgdir sz esp argv content phs) (entries : entry m' pgdir = entry m pgdir)
    (bytes : byteOf m' pgdir = byteOf m pgdir) : Started m' pgdir sz esp argv content phs := by
  have words : userWord m' pgdir = userWord m pgdir := by
    funext a
    rw [userWord, userWord, bytes]
  obtain ⟨exactly, guard, accessible, ⟨ptrs, layout, others⟩, zero⟩ := started
  refine ⟨exactly_congr (mapped_congr entries) exactly, by rwa [entries], by rwa [entries], ⟨ptrs, ?_, ?_⟩, zero⟩
  · obtain ⟨inside, returnAddress, argc, argvPointer, count, pointers, null, strings, above, apart⟩ := layout
    exact ⟨inside, words ▸ returnAddress, words ▸ argc, words ▸ argvPointer, count, words ▸ pointers, words ▸ null,
      bytes ▸ strings, above, apart⟩
  · rw [bytes]
    exact others

section Build

theorem Prepared.started {m₁ : Memory} {ptrs : List Nat} (prepared : Prepared image m owner p pgdir top content phs)
    (rewritten : Rewritten image m owner p pgdir m₁) (layout : Layout m₁ pgdir ((top + 1) * pgSize) esp argv ptrs)
    (others : ∀ a, Elsewhere esp argv ptrs a → byteOf m₁ pgdir a = byteOf m pgdir a) :
    Started m₁ pgdir ((top + 1) * pgSize) esp argv content phs := by
  have ready := prepared.ready.rewrite rewritten
  have pages : (top + 1) * pgSize / pgSize = top + 1 := Nat.mul_div_cancel _ (by decide)
  refine ⟨ready.process.exactly, ?_, ?_, ⟨ptrs, layout, fun a below apart => ?_⟩, fun a beyond => ?_⟩
  · rw [pages]
    exact ready.guard
  · rw [pages]
    exact ready.accessible
  · rw [others a apart, prepared.bytes a below]
  · refine prepared.zero a ?_
    have shift : (top + 1) * pgSize - 2 * pgSize = (top - 1) * pgSize := by
      rw [← Nat.sub_mul]
      congr 1
    omega

theorem build_ends {elf : Elfhdr} (loaded : Loaded image m owner p pgdir 0 content [])
    (size : content.length < 2 ^ 32) (small : ∀ s ∈ argv, s.length < kernBase) :
    Ends (build image pgdir content elf argv) m (fun r m' => ∃ owner', Acts (Use.above p 0) m.page owner m'.page owner' ∧
      Good image m' owner' p pgdir ∧ NoLoose owner' p ∧ ∀ sz esp, r = some (sz, esp) →
        Started m' pgdir sz esp argv content (headers content elf.phnum elf.phoff)) fun _ => True := by
  refine ends_bind (ends_returns (prepare_returns loaded size)) fun r m₁ ⟨owner₁, acts₁, good₁, clean₁, made⟩ => ?_
  cases r with
  | none => exact ends_pure ⟨owner₁, acts₁, good₁, clean₁, fun _ _ wrong => by cases wrong⟩
  | some sz =>
    obtain ⟨top, rfl, prepared⟩ := made sz rfl
    by_cases reaches : Reaches top 0 ((top + 1) * pgSize) argv
    · obtain ⟨last, stops⟩ := setUpStack_stops prepared.ready small reaches
      exact ends_bind_stops stops trivial
    refine ends_bind (ends_returns (setUpStack_returns prepared.ready small reaches)) fun r m₂ ⟨rewritten, laid⟩ => ?_
    have acts := acts₁.trans (rewritten.acts.mono Use.above_of_page)
    cases r with
    | none => exact ends_pure ⟨owner₁, acts, rewritten.good, clean₁, fun _ _ wrong => by cases wrong⟩
    | some esp =>
      refine ends_pure ⟨owner₁, acts, rewritten.good, clean₁, fun sz' esp' same => ?_⟩
      cases same
      obtain ⟨ptrs, layout, others⟩ := laid esp rfl
      exact prepared.started rewritten layout others

end Build

section Exec

def sampleProc : Proc := ⟨sampleFrame 0, 0, 0, 0, []⟩

end Exec

section Sample

def wordsBlock (f : Nat → Nat) : Block := fun o => leByte (f (o / 4)) (o % 4)

theorem getLe_wordsBlock {f : Nat → Nat} {i : Nat} (small : f i < 2 ^ 32) : getLe (wordsBlock f) (4 * i) 4 = f i := by
  have bytes (t : Nat) (inside : t < 4) : wordsBlock f (4 * i + t) = leByte (f i) t := by
    have index : (4 * i + t) / 4 = i ∧ (4 * i + t) % 4 = t := by omega
    rw [wordsBlock, index.1, index.2]
  rw [getLe_of_bytes bytes]
  exact Nat.mod_eq_of_lt small

-- The page tables that the sample has: that of its two user pages and those of the kernel.
def sampleHung (i : Nat) : Prop := i = 0 ∨ 512 ≤ i ∧ i < 568 ∨ 1016 ≤ i ∧ i < 1024

instance (i : Nat) : Decidable (sampleHung i) := inferInstanceAs (Decidable (_ ∨ _ ∨ _))

def samplePde (i : Nat) : Nat := if sampleHung i then v2p (sampleFrame (i + 1)) ||| 7 else 0

def samplePte (n : Nat) : Nat :=
  if n = 0 then v2p (sampleFrame 1025) ||| 3
  else if n = 1 then v2p (sampleFrame 1026) ||| 7
  else kernelEntry sampleImage n

-- The page directory in frame 0, the page tables in the 1024 frames after it, then the two user pages.
def sampleBlock : Nat → Block
  | 0 => wordsBlock samplePde
  | i + 1 => if i < 1024 then wordsBlock fun j => samplePte (i * 1024 + j) else fun _ => 0

def sampleSpace : Memory where
  freelist := [sampleFrame 1027]
  page := fun v => sampleBlock ((v - sampleFrame 0) / pgSize)
  refuses := fun _ => false
  calls := 0

def sampleUse : Nat → Status (Use Nat)
  | 0 => .used (.pgdir 0)
  | i + 1 =>
    if i < 1024 then if sampleHung i then .used (.table 0 i) else .outside
    else if i = 1024 then .used (.user 0 0)
    else if i = 1025 then .used (.user 0 1)
    else if i = 1026 then .free
    else .outside

def sampleSpaceOwner (v : Nat) : Status (Use Nat) :=
  if v = sampleFrame ((v - sampleFrame 0) / pgSize) then sampleUse ((v - sampleFrame 0) / pgSize) else .outside

theorem sampleFrame_index (k : Nat) : (sampleFrame k - sampleFrame 0) / pgSize = k := by
  simp only [sampleFrame, pgSize]
  omega

theorem sampleFrame_valid {k : Nat} (small : k ≤ 1027) : Frame sampleImage (sampleFrame k) := by
  refine ⟨?_, ?_, ?_⟩ <;>
    simp only [sampleFrame, sampleImage, kernLink, kernBase, extMem, physTop, pgSize] <;>
    omega

theorem sampleSpace_page (k : Nat) : sampleSpace.page (sampleFrame k) = sampleBlock k := by
  simp only [sampleSpace, sampleFrame_index]

theorem sampleSpaceOwner_frame (k : Nat) : sampleSpaceOwner (sampleFrame k) = sampleUse k := by
  rw [sampleSpaceOwner, sampleFrame_index, if_pos rfl]

theorem sampleSpaceOwner_eq {v : Nat} {status : Status (Use Nat)} (inside : status ≠ .outside) :
    sampleSpaceOwner v = status ↔ ∃ k, v = sampleFrame k ∧ sampleUse k = status := by
  constructor
  · intro held
    unfold sampleSpaceOwner at held
    split at held
    next here => exact ⟨_, here, held⟩
    next => exact absurd held.symm inside
  · rintro ⟨k, rfl, held⟩
    rw [sampleSpaceOwner_frame, held]

theorem samplePde_lt (i : Nat) (known : i < nEntries) : samplePde i < 2 ^ 32 := by
  unfold samplePde
  split
  next =>
    have frame : Frame sampleImage (sampleFrame (i + 1)) := sampleFrame_valid (by simp only [nEntries] at known; omega)
    exact or_lt frame.v2p_aligned (by decide) (Nat.lt_trans frame.v2p_lt (by decide))
  next => decide

theorem sampleSpace_table (i : Nat) :
    table sampleSpace (sampleFrame 0) i = if sampleHung i then some (sampleFrame (i + 1)) else none := by
  by_cases known : i < nEntries
  swap
  · have none : ¬sampleHung i := by
      simp only [sampleHung, nEntries] at *
      omega
    rw [table, if_neg fun both => known both.1, if_neg none]
  have stored : word sampleSpace (sampleFrame 0) i = samplePde i := by
    rw [word, sampleSpace_page]
    exact getLe_wordsBlock (samplePde_lt i known)
  rw [table, stored, samplePde]
  split
  next hung =>
    have frame : Frame sampleImage (sampleFrame (i + 1)) := sampleFrame_valid (by simp only [nEntries] at known; omega)
    have valid : present (v2p (sampleFrame (i + 1)) ||| 7) = true := testBit_or_aligned frame.v2p_aligned (by decide)
    rw [if_pos ⟨known, valid⟩, pteAddr_or frame.v2p_aligned (by decide), frame.p2v_v2p]
  next => simp [present_zero]

theorem samplePte_lt (n : Nat) : samplePte n < 2 ^ 32 := by
  unfold samplePte
  split
  next => decide
  next =>
    split
    next => decide
    next => exact kernelEntry_lt ..

theorem sampleSpace_entry (n : Nat) :
    entry sampleSpace (sampleFrame 0) n = if sampleHung (n / nEntries) then samplePte n else 0 := by
  rw [entry, sampleSpace_table]
  by_cases hung : sampleHung (n / nEntries)
  · have known : n / nEntries < 1024 := by
      simp only [sampleHung, nEntries] at *
      omega
    have index : n / nEntries * 1024 + n % nEntries = n := Nat.div_add_mod' n nEntries
    rw [if_pos hung, if_pos hung]
    simp only [word, sampleSpace_page, sampleBlock, if_pos known]
    have whole := getLe_wordsBlock (f := fun j => samplePte (n / nEntries * 1024 + j)) (i := n % nEntries) (samplePte_lt _)
    exact whole.trans (congrArg samplePte index)
  · rw [if_neg hung, if_neg hung]

theorem sampleSpace_kernel (n : Nat) (high : userPages ≤ n) :
    entry sampleSpace (sampleFrame 0) n = kernelEntry sampleImage n := by
  have far : n ≠ 0 ∧ n ≠ 1 := by
    simp only [userPages, kernBase, pgSize] at high
    omega
  rw [sampleSpace_entry, samplePte, if_neg far.1, if_neg far.2]
  split
  next => rfl
  next other =>
    refine (kernelEntry_of_not fun kernel => other ?_).symm
    simp only [sampleHung, kernelPage, userPages, kernBase, physTop, devSpace, pgSize, nEntries] at *
    omega

theorem sampleSpace_mapped (n : Nat) : mapped sampleSpace (sampleFrame 0) n =
    if n = 0 then some (sampleFrame 1025) else if n = 1 then some (sampleFrame 1026) else none := by
  rw [mapped, sampleSpace_entry]
  by_cases low : n < userPages
  swap
  · have far : n ≠ 0 ∧ n ≠ 1 := by
      simp only [userPages, kernBase, pgSize] at low
      omega
    rw [if_neg fun both => low both.1, if_neg far.1, if_neg far.2]
  by_cases first : n = 0
  · subst first
    decide
  by_cases second : n = 1
  · subst second
    decide
  have zero : samplePte n = 0 := by
    rw [samplePte, if_neg first, if_neg second]
    exact kernelEntry_of_not (user_not_kernel low)
  simp [zero, first, second, present_zero]

theorem sampleUse_cases (k : Nat) : sampleUse k ≠ .outside → k ≤ 1027 := by
  intro managed
  cases k with
  | zero => exact Nat.zero_le _
  | succ i =>
    simp only [sampleUse] at managed
    by_contra beyond
    rw [if_neg (by omega), if_neg (by omega), if_neg (by omega), if_neg (by omega)] at managed
    exact managed rfl

theorem sampleUse_free (k : Nat) : sampleUse k = .free ↔ k = 1027 := by
  cases k with
  | zero => simp [sampleUse]
  | succ i =>
    simp only [sampleUse]
    grind

theorem sampleUse_dir (k : Nat) : sampleUse k = .used (.pgdir 0) ↔ k = 0 := by
  cases k with
  | zero => simp [sampleUse]
  | succ i =>
    simp only [sampleUse]
    grind

theorem sampleUse_table (k i : Nat) : sampleUse k = .used (.table 0 i) ↔ sampleHung i ∧ k = i + 1 := by
  cases k with
  | zero => simp [sampleUse]
  | succ j =>
    simp only [sampleUse, sampleHung]
    grind

theorem sampleUse_user (k n : Nat) : sampleUse k = .used (.user 0 n) ↔ n = 0 ∧ k = 1025 ∨ n = 1 ∧ k = 1026 := by
  cases k with
  | zero => simp [sampleUse]
  | succ j =>
    simp only [sampleUse]
    grind

theorem sampleSpace_good : Good sampleImage sampleSpace sampleSpaceOwner 0 (sampleFrame 0) := by
  refine ⟨⟨by decide, fun v => ?_, fun v managed => ?_⟩, fun v => ?_, fun i v => ?_, fun n v => ?_⟩
  · rw [sampleSpaceOwner_eq (by simp)]
    simp [sampleUse_free, sampleSpace]
  · obtain ⟨k, rfl, held⟩ := (sampleSpaceOwner_eq managed).mp rfl
    refine sampleFrame_valid (sampleUse_cases k ?_)
    rwa [held]
  · rw [sampleSpaceOwner_eq (by simp)]
    simp [sampleUse_dir]
  · rw [sampleSpaceOwner_eq (by simp), sampleSpace_table]
    by_cases hung : sampleHung i
    · simp [sampleUse_table, hung, eq_comm]
    · simp [sampleUse_table, hung]
  · rw [sampleSpaceOwner_eq (by simp), sampleSpace_mapped]
    by_cases first : n = 0
    · subst first
      simp [sampleUse_user, eq_comm]
    by_cases second : n = 1
    · subst second
      simp [sampleUse_user, eq_comm]
    · simp [sampleUse_user, first, second]

theorem sampleSpace_ready : Ready sampleImage sampleSpace sampleSpaceOwner 0 (sampleFrame 0) 1 := by
  refine ⟨⟨sampleSpace_good, fun v held => ?_, fun k => ?_⟩, sampleSpace_kernel, fun i high other => ?_, Nat.one_pos, ?_,
    ?_⟩
  · obtain ⟨k, rfl, use⟩ := (sampleSpaceOwner_eq (by simp)).mp held
    cases k with
    | zero => simp [sampleUse] at use
    | succ i =>
      simp only [sampleUse] at use
      grind
  · rw [sampleSpace_mapped, pagesOf_pages]
    by_cases first : k = 0
    · simp [first]
    by_cases second : k = 1
    · simp [second]
    · simp only [first, second, if_false]
      simp
      omega
  · rw [sampleSpace_table, if_neg fun hung => other ⟨i * nEntries, ?_, ?_⟩]
    · simp only [sampleHung, kernelPage, userPages, kernBase, physTop, devSpace, pgSize, nEntries] at *
      omega
    · exact (Nat.mul_div_cancel i (by decide)).symm
  · rw [sampleSpace_entry]
    decide
  · rw [sampleSpace_entry]
    decide

theorem sampleSpace_prepared : Prepared sampleImage sampleSpace sampleSpaceOwner 0 (sampleFrame 0) 1 [] [] := by
  refine ⟨sampleSpace_ready, fun a below => ?_, fun _ _ => rfl⟩
  rw [byteOf, sampleSpace_mapped, segmentByte_nil]
  by_cases first : a / pgSize = 0
  · rw [if_pos first, Option.map_some, sampleSpace_page]
    rfl
  · have second : a / pgSize = 1 := by
      simp only [pgSize] at *
      omega
    rw [if_neg first, if_pos second, Option.map_some, sampleSpace_page]
    rfl

end Sample

theorem setUpStack_sample_stops {s : List Byte} (length : s.length = 0x2FFFFFF) :
    ∃ m', (setUpStack (sampleFrame 0) ((1 + 1) * pgSize) [s]).run sampleSpace = (none, m') := by
  have hole : Hole (pushed ((1 + 1) * pgSize) s) := by
    rw [pushed, length]
    decide
  refine setUpStack_stops sampleSpace_ready (fun s' known => ?_) ⟨by decide, Or.inl hole⟩
  rw [List.mem_singleton.mp known, length]
  decide

end Xv6.Vm
