import Xv6.Shared.Interleaving
import Xv6.Fs.NetEffects

set_option autoImplicit false

namespace Xv6.Fs

open Threads

section Bytes

theorem chunksLoop_flatten {fuel : Nat} {bytes : List UInt8} (enough : bytes.length ≤ fuel) :
    (chunksLoop fuel bytes).flatten = bytes := by
  induction fuel generalizing bytes with
  | zero => simp_all [chunksLoop]
  | succ fuel ih =>
    unfold chunksLoop
    split
    next empty => simp [empty]
    next some =>
      have shorter : (bytes.drop writeMax).length ≤ fuel := by
        have := List.length_pos_iff.mpr some
        simp only [List.length_drop, show writeMax = 1536 from rfl]
        omega
      simp [ih shorter]

theorem chunks_flatten (bytes : List UInt8) : (chunks bytes).flatten = bytes := chunksLoop_flatten le_rfl

theorem length_overwrite {old bytes : List UInt8} {off : Nat} (within : off ≤ old.length) :
    (overwrite old off bytes).length = max old.length (off + bytes.length) := by
  simp only [overwrite, List.length_append, List.length_take, List.length_drop]
  omega

theorem overwrite_overwrite {old first second : List UInt8} {off : Nat} (within : off ≤ old.length) :
    overwrite (overwrite old off first) (off + first.length) second = overwrite old off (first ++ second) := by
  have front : (old.take off ++ first).length = off + first.length := by
    simp [within]
  have take : (overwrite old off first).take (off + first.length) = old.take off ++ first := by
    rw [overwrite, ← front, List.take_left']
    rfl
  have drop : (overwrite old off first).drop (off + first.length + second.length) =
      old.drop (off + (first.length + second.length)) := by
    rw [overwrite, ← front, ← List.drop_drop, List.drop_left' rfl, List.drop_drop, front, Nat.add_assoc]
  simp only [overwrite] at take drop ⊢
  rw [take, drop]
  simp [List.append_assoc]

end Bytes

section History

variable {P : Type} [DecidableEq P]

abbrev History (P : Type) := List (P × List UInt8)

def chunksOf (history : History P) (p : P) : List (List UInt8) :=
  (history.filter fun entry => decide (entry.1 = p)).map Prod.snd

def written (history : History P) : List UInt8 := history.flatMap Prod.snd

theorem chunksOf_append_self (history : History P) (p : P) (chunk : List UInt8) :
    chunksOf (history ++ [(p, chunk)]) p = chunksOf history p ++ [chunk] := by
  simp [chunksOf]

theorem chunksOf_append_ne (history : History P) {p q : P} (apart : q ≠ p) (chunk : List UInt8) :
    chunksOf (history ++ [(p, chunk)]) q = chunksOf history q := by
  simp [chunksOf, apart.symm]

omit [DecidableEq P] in
theorem written_append (history : History P) (p : P) (chunk : List UInt8) :
    written (history ++ [(p, chunk)]) = written history ++ chunk := by
  simp [written]

theorem length_written [Fintype P] (history : History P) :
    (written history).length = ∑ p, (chunksOf history p).flatten.length := by
  induction history using List.reverseRecOn with
  | nil => simp [written, chunksOf]
  | append_singleton history entry ih =>
    obtain ⟨p, chunk⟩ := entry
    have split (q : P) : (chunksOf (history ++ [(p, chunk)]) q).flatten.length =
        (chunksOf history q).flatten.length + if q = p then chunk.length else 0 := by
      by_cases same : q = p
      · subst same
        simp [chunksOf_append_self]
      · simp [chunksOf_append_ne history same, same]
    simp [written_append, ih, split, Finset.sum_add_distrib]

end History

section Discipline

variable {n : Nat}

/-- Processes that share the open file `f` of the regular inode `ip`: what each of them writes, and the
content and the offset before. -/
structure Sharing (n : Nat) where
  f : Nat
  ip : Nat
  writes : Fin n → List (List UInt8)
  old : List UInt8
  off : Nat
  within : off ≤ old.length
  fits : off + ∑ p, (writes p).flatten.length ≤ maxFile * bSize

def Sharing.chunks (sh : Sharing n) (p : Fin n) : List (List UInt8) := (sh.writes p).flatMap Fs.chunks

theorem Sharing.length_chunks (sh : Sharing n) (p : Fin n) :
    (sh.chunks p).flatten.length = (sh.writes p).flatten.length := by
  have each (writes : List (List UInt8)) : (writes.flatMap Fs.chunks).flatten = writes.flatten := by
    induction writes with
    | nil => rfl
    | cons bytes rest ih => simp [chunks_flatten, ih]
  rw [Sharing.chunks, each]

structure Progress (n : Nat) where
  history : History (Fin n)
  pending : Nat

abbrev Writers (n : Nat) := World State Nat (Fin n) (Progress n)

structure Sharing.Inv (sh : Sharing n) (w : Writers n) : Prop where
  known : sh.f < w.state.core.files.length
  writable : (fileAt w.state.core sh.f).writable = true
  isInode : (fileAt w.state.core sh.f).type = .inode
  names : (fileAt w.state.core sh.f).ip = sh.ip
  isFile : (w.state.core.inodes sh.ip).type = .file
  order : ∀ p, chunksOf w.ghost.history p <+: sh.chunks p
  content : (w.state.core.inodes sh.ip).data = overwrite sh.old sh.off (written w.ghost.history)
  advanced : (fileAt w.state.core sh.f).off + w.ghost.pending = sh.off + (written w.ghost.history).length
  settled : w.locks sh.ip = none → w.ghost.pending = 0

structure Sharing.Rely (sh : Sharing n) (p : Fin n) (w w' : Writers n) : Prop where
  mine : chunksOf w'.ghost.history p = chunksOf w.ghost.history p
  lock : w'.locks sh.ip = some p ↔ w.locks sh.ip = some p
  held : w.locks sh.ip = some p → w'.ghost = w.ghost

def Sharing.discipline (sh : Sharing n) : Discipline State Nat Via (Fin n) (Progress n) where
  inv := sh.Inv
  guar p w w' := ∀ q, q ≠ p → sh.Rely q w w'
  rely := sh.Rely
  wait _ _ _ _ := True
  guar_refl _ _ _ _ := ⟨rfl, Iff.rfl, fun _ => rfl⟩
  rely_refl _ _ := ⟨rfl, Iff.rfl, fun _ => rfl⟩
  rely_trans _ _ _ _ first second :=
    ⟨second.mine.trans first.mine, second.lock.trans first.lock,
      fun held => (second.held (first.lock.mpr held)).trans (first.held held)⟩
  rely_guar p _ _ _ apart _ _ steps := steps p apart

variable {sh : Sharing n} {p : Fin n}

theorem Sharing.Inv.short {w : Writers n} (inv : sh.Inv w) {chunk : List UInt8}
    (next : chunksOf w.ghost.history p ++ [chunk] <+: sh.chunks p) :
    sh.off + (written w.ghost.history).length + chunk.length ≤ maxFile * bSize := by
  have grown : chunksOf (w.ghost.history ++ [(p, chunk)]) p <+: sh.chunks p := by
    rwa [chunksOf_append_self]
  have each (q : Fin n) : (chunksOf (w.ghost.history ++ [(p, chunk)]) q).flatten.length ≤
      (sh.writes q).flatten.length := by
    rw [← sh.length_chunks]
    by_cases same : q = p
    · subst same
      exact grown.flatten.length_le
    · rw [chunksOf_append_ne _ same]
      exact (inv.order q).flatten.length_le
  have total := Finset.sum_le_sum fun q (_ : q ∈ Finset.univ) => each q
  rw [← length_written, written_append, List.length_append] at total
  have := sh.fits
  omega

def Sharing.Wrote (sh : Sharing n) (p : Fin n) (done : List (List UInt8)) (w : Writers n) : Prop :=
  chunksOf w.ghost.history p = done ∧ w.locks sh.ip ≠ some p

def Sharing.Holds (sh : Sharing n) (p : Fin n) (progress : Progress n) (w : Writers n) : Prop :=
  w.locks sh.ip = some p ∧ w.ghost = progress

theorem wrote_stays {done : List (List UInt8)} : sh.discipline.Stays p (sh.Wrote p done) :=
  fun _ _ wrote moved _ => ⟨moved.mine.trans wrote.1, fun held => wrote.2 (moved.lock.mp held)⟩

theorem holds_stays {progress : Progress n} : sh.discipline.Stays p (sh.Holds p progress) :=
  fun _ _ holds moved _ => ⟨moved.lock.mpr holds.1, (moved.held holds.1).trans holds.2⟩

end Discipline

section Writing

variable {n : Nat} {sh : Sharing n} {p : Fin n} {A : Type} {pre : Writers n → Prop} {done : List (List UInt8)}
  {history : History (Fin n)} {chunk : List UInt8}

theorem keeps_aside {f : State → Option (A × State)} (stays : sh.discipline.Stays p pre)
    (own : ∀ w s, pre w → pre ⟨s, w.locks, w.ghost⟩)
    (aside : ∀ s a s', f s = some (a, s') → s'.core.inodes sh.ip = s.core.inodes sh.ip ∧ s'.core.files = s.core.files) :
    sh.discipline.Keeps p pre (atomic f) fun _ => pre := by
  refine keeps_atomic stays fun w inv before a s value => ⟨w.ghost, ⟨?_, fun _ _ => ⟨rfl, Iff.rfl, fun _ => rfl⟩⟩,
    own w s before⟩
  obtain ⟨sameInode, sameFiles⟩ := aside w.state a s value
  have sameFile : fileAt s.core sh.f = fileAt w.state.core sh.f := by rw [fileAt, fileAt, sameFiles]
  exact ⟨sameFiles ▸ inv.known, sameFile ▸ inv.writable, sameFile ▸ inv.isInode, sameFile ▸ inv.names,
    sameInode ▸ inv.isFile, inv.order, sameInode ▸ inv.content, sameFile ▸ inv.advanced, inv.settled⟩

theorem keeps_asideChange {blocks : Core → List LogBlock} {f : Core → Option (A × Core)}
    (stays : sh.discipline.Stays p pre) (own : ∀ w s, pre w → pre ⟨s, w.locks, w.ghost⟩)
    (aside : ∀ c a c', f c = some (a, c') → c'.inodes sh.ip = c.inodes sh.ip ∧ c'.files = c.files) :
    sh.discipline.Keeps p pre (change blocks f) fun _ => pre := keeps_aside stays own fun s a s' value => by
    obtain ⟨result, found, same⟩ := Option.map_eq_some_iff.mp value
    cases same
    exact aside s.core result.1 result.2 found

theorem keeps_see {fact : A → Prop} {f : Core → A} (stays : sh.discipline.Stays p pre)
    (learn : ∀ w, sh.Inv w → pre w → fact (f w.state.core)) :
    sh.discipline.Keeps p pre (read f) fun a w => fact a ∧ pre w := by
  refine keeps_atomic stays fun w inv before a s value => ?_
  cases value
  exact ⟨w.ghost, ⟨inv, sh.discipline.guar_refl p w⟩, learn w inv before, before⟩

theorem keeps_begin : sh.discipline.Keeps p (sh.Wrote p done) beginOp fun _ => sh.Wrote p done :=
  keeps_await wrote_stays fun w inv before =>
    ⟨w.ghost, ⟨⟨inv.known, inv.writable, inv.isInode, inv.names, inv.isFile, inv.order, inv.content, inv.advanced,
      inv.settled⟩, fun _ _ => ⟨rfl, Iff.rfl, fun _ => rfl⟩⟩, before⟩

theorem keeps_end : sh.discipline.Keeps p (sh.Wrote p done) endOp fun _ => sh.Wrote p done :=
  keeps_aside wrote_stays (fun _ _ before => before) fun s a s' value => by
    cases value
    exact ⟨rfl, rfl⟩

theorem keeps_check {i : Nat} (stays : sh.discipline.Stays p pre) (own : ∀ w s, pre w → pre ⟨s, w.locks, w.ghost⟩) :
    sh.discipline.Keeps p pre (checkRef i) fun _ => pre := keeps_asideChange stays own fun c a c' value => by
    split at value
    next => cases value
    next =>
      cases value
      exact ⟨rfl, rfl⟩

theorem keeps_take : sh.discipline.Keeps p (sh.Wrote p done) (ilock sh.ip) fun _ w =>
      ∃ history, chunksOf history p = done ∧ sh.Holds p ⟨history, 0⟩ w := by
  have taken : sh.discipline.Keeps p (sh.Wrote p done) (acquire .ilock sh.ip) fun _ w =>
      ∃ history, chunksOf history p = done ∧ sh.Holds p ⟨history, 0⟩ w := by
    refine keeps_acquire wrote_stays (fun _ _ _ => trivial) fun w inv before free => ?_
    have idle := inv.settled free
    refine ⟨w.ghost, ⟨?_, fun q apart => ?_⟩, w.ghost.history, before.1, by simp, ?_⟩
    · exact ⟨inv.known, inv.writable, inv.isInode, inv.names, inv.isFile, inv.order, inv.content, inv.advanced,
        fun taken => by simp at taken⟩
    · exact ⟨rfl, by simp [free, apart.symm], fun held => by simp [free] at held⟩
    · rw [← idle]
  refine keeps_bind (keeps_check wrote_stays fun _ _ before => before) fun _ => keeps_bind taken fun _ => ?_
  refine keeps_exists fun history => keeps_fact fun mine => ?_
  refine keeps_post (keeps_asideChange holds_stays (fun _ _ before => before) fun c a c' value => ?_)
    fun _ _ holds => ⟨history, mine, holds⟩
  split at value
  next =>
    cases value
    exact ⟨rfl, rfl⟩
  split at value
  next => cases value
  next =>
    cases value
    exact ⟨rfl, rfl⟩

theorem keeps_give :
    sh.discipline.Keeps p (sh.Holds p ⟨history, 0⟩) (iunlock sh.ip) fun _ => sh.Wrote p (chunksOf history p) := by
  refine keeps_bind (keeps_check holds_stays fun _ _ before => before) fun _ => ?_
  refine keeps_release holds_stays fun w inv before held => ⟨w.ghost, ⟨?_, fun q apart => ?_⟩, ?_⟩
  · exact ⟨inv.known, inv.writable, inv.isInode, inv.names, inv.isFile, inv.order, inv.content, inv.advanced,
      fun _ => by rw [before.2]⟩
  · exact ⟨rfl, by simp [held, apart.symm], fun other => absurd (Option.some.inj (held.symm.trans other)) apart.symm⟩
  · exact ⟨by rw [before.2], by simp⟩

theorem keeps_store {blocks : List LogBlock} (next : chunksOf history p ++ [chunk] <+: sh.chunks p) :
    sh.discipline.Keeps p (sh.Holds p ⟨history, 0⟩) (change (fun _ => blocks) fun c =>
        (writeBytes c sh.ip (sh.off + (written history).length) chunk).map fun c => ((), c))
      fun _ => sh.Holds p ⟨history ++ [(p, chunk)], chunk.length⟩ := by
  refine keeps_atomic holds_stays fun w inv before a s value => ?_
  obtain ⟨_, stored, same⟩ := Option.map_eq_some_iff.mp value
  cases same
  obtain ⟨c, wrote, same⟩ := Option.map_eq_some_iff.mp stored
  cases same
  simp only [writeBytes] at wrote
  split at wrote
  next => cases wrote
  cases wrote
  have ghost : w.ghost.history = history := by rw [before.2]
  have content := inv.content
  have advanced := inv.advanced
  have order := inv.order
  rw [ghost] at content advanced order
  rw [show w.ghost.pending = 0 by rw [before.2]] at advanced
  refine ⟨⟨history ++ [(p, chunk)], chunk.length⟩, ⟨?_, fun q apart => ?_⟩, before.1, rfl⟩
  · refine ⟨inv.known, inv.writable, inv.isInode, inv.names, ?_, fun q => ?_, ?_, ?_, fun free => ?_⟩
    · simpa [Core.setInode] using inv.isFile
    · by_cases same : q = p
      · subst same
        simpa only [chunksOf_append_self] using next
      · simpa only [chunksOf_append_ne history same] using order q
    · simp only [Core.setInode, Function.update_self, content, written_append]
      exact overwrite_overwrite sh.within
    · simp only [written_append, List.length_append]
      change (fileAt w.state.core sh.f).off + _ = _
      omega
    · exact absurd (before.1.symm.trans free) (Option.some_ne_none p)
  · refine ⟨?_, Iff.rfl, fun held => absurd (Option.some.inj (before.1.symm.trans held)) apart.symm⟩
    simp only [ghost, chunksOf_append_ne history apart]

theorem keeps_writeShared (next : chunksOf history p ++ [chunk] <+: sh.chunks p) :
    sh.discipline.Keeps p (sh.Holds p ⟨history, 0⟩) (writei sh.ip (sh.off + (written history).length) chunk)
      fun r w => r = chunk.length ∧ sh.Holds p ⟨history ++ [(p, chunk)], chunk.length⟩ w := by
  have look : sh.discipline.Keeps p (sh.Holds p ⟨history, 0⟩) (read fun c => c.inodes sh.ip) fun ip w =>
      (ip.type = .file ∧ sh.off + (written history).length ≤ ip.data.length ∧
        sh.off + (written history).length + chunk.length ≤ maxFile * bSize) ∧ sh.Holds p ⟨history, 0⟩ w := by
    refine keeps_see holds_stays fun w inv before => ⟨inv.isFile, ?_, ?_⟩
    · rw [inv.content, length_overwrite sh.within, before.2]
      exact Nat.le_max_right ..
    · have ghost : w.ghost.history = history := by rw [before.2]
      have more : chunksOf w.ghost.history p ++ [chunk] <+: sh.chunks p := ghost ▸ next
      simpa only [ghost] using inv.short more
  refine keeps_bind look fun ip => keeps_fact fun ⟨isFile, inside, fits⟩ => ?_
  have small : (sh.off + (written history).length + chunk.length) % 2 ^ 32 =
      sh.off + (written history).length + chunk.length := Nat.mod_eq_of_lt (Nat.lt_of_le_of_lt fits (by decide))
  have size : ip.size = ip.data.length := by simp [Inode.size, isFile]
  have inRange : ¬(sh.off + (written history).length > ip.size ∨
      (sh.off + (written history).length + chunk.length) % 2 ^ 32 < sh.off + (written history).length) := by
    rw [small, size]
    omega
  rw [if_neg (by simp [isFile]), if_neg inRange, if_neg (by rw [small]; omega)]
  exact keeps_bind (keeps_store next) fun _ => keeps_ret fun _ _ holds => ⟨rfl, holds⟩

theorem keeps_advanceShared {k : Nat} :
    sh.discipline.Keeps p (sh.Holds p ⟨history, k⟩) (advance sh.f k) fun _ => sh.Holds p ⟨history, 0⟩ := by
  refine keeps_atomic holds_stays fun w inv before a s value => ?_
  cases value
  have ghost : w.ghost.history = history := by rw [before.2]
  have pending : w.ghost.pending = k := by rw [before.2]
  have file := @fileAt_setFile w.state.core sh.f inv.known
    { fileAt w.state.core sh.f with off := (fileAt w.state.core sh.f).off + k }
  refine ⟨⟨history, 0⟩, ⟨?_, fun q apart => ⟨by rw [ghost], Iff.rfl, fun held => ?_⟩⟩, before.1, rfl⟩
  · refine ⟨?_, ?_, ?_, ?_, inv.isFile, ghost ▸ inv.order, ?_, ?_, fun _ => rfl⟩
    · simpa [Core.setFile] using inv.known
    · simpa only [file] using inv.writable
    · simpa only [file] using inv.isInode
    · simpa only [file] using inv.names
    · rw [← ghost]
      exact inv.content
    · simp only [file, ← ghost, ← inv.advanced, pending, Nat.add_zero]
  · exact absurd (Option.some.inj (before.1.symm.trans held)) apart.symm

theorem keeps_chunk (next : done ++ [chunk] <+: sh.chunks p) :
    sh.discipline.Keeps p (sh.Wrote p done) (writeChunk sh.f sh.ip chunk) fun r w =>
      r = chunk.length ∧ sh.Wrote p (done ++ [chunk]) w := by
  refine keeps_bind keeps_begin fun _ => keeps_bind keeps_take fun _ => ?_
  refine keeps_exists fun history => keeps_fact fun mine => ?_
  subst mine
  have look : sh.discipline.Keeps p (sh.Holds p ⟨history, 0⟩) (read fun c => (fileAt c sh.f).off) fun off w =>
      off = sh.off + (written history).length ∧ sh.Holds p ⟨history, 0⟩ w := by
    refine keeps_see holds_stays fun w inv before => ?_
    have advanced := inv.advanced
    rw [before.2] at advanced
    exact advanced
  refine keeps_bind look fun off => keeps_fact fun here => ?_
  subst here
  refine keeps_bind (keeps_writeShared next) fun r => keeps_fact fun complete => ?_
  subst complete
  refine keeps_bind keeps_advanceShared fun _ => keeps_bind keeps_give fun _ => keeps_bind keeps_end fun _ => ?_
  rw [chunksOf_append_self]
  exact keeps_ret fun _ _ wrote => ⟨rfl, wrote⟩

theorem keeps_chunks {chunks rest : List (List UInt8)} (all : done ++ chunks ++ rest = sh.chunks p) :
    sh.discipline.Keeps p (sh.Wrote p done) (filewriteLoop sh.f sh.ip chunks) fun _ =>
      sh.Wrote p (done ++ chunks) := by
  induction chunks generalizing done with
  | nil =>
    rw [List.append_nil]
    exact keeps_ret fun _ _ wrote => wrote
  | cons chunk chunks ih =>
    have first : done ++ [chunk] <+: sh.chunks p := ⟨chunks ++ rest, by simp [← all]⟩
    refine keeps_bind (keeps_chunk first) fun r => keeps_fact fun complete => ?_
    subst complete
    rw [if_neg (by omega), if_neg (by simp)]
    have whole : done ++ [chunk] ++ chunks ++ rest = sh.chunks p := by simp [← all]
    have later := ih whole
    rwa [List.append_assoc] at later

theorem keeps_filewriteShared {rest : List (List UInt8)} {bytes : List UInt8}
    (all : done ++ chunks bytes ++ rest = sh.chunks p) :
    sh.discipline.Keeps p (sh.Wrote p done) (filewrite sh.f bytes) fun _ => sh.Wrote p (done ++ chunks bytes) := by
  have look : sh.discipline.Keeps p (sh.Wrote p done) (read fun c => fileAt c sh.f) fun file w =>
      (file.writable = true ∧ file.type = .inode ∧ file.ip = sh.ip) ∧ sh.Wrote p done w :=
    keeps_see wrote_stays fun w inv _ => ⟨inv.writable, inv.isInode, inv.names⟩
  refine keeps_bind look fun file => keeps_fact fun ⟨writable, isInode, names⟩ => ?_
  rw [if_neg (by simp [writable]), if_pos isInode, names]
  exact keeps_bind (keeps_chunks all) fun _ => keeps_ret fun _ _ wrote => wrote

end Writing

section Runs

variable {n : Nat} {sh : Sharing n}

def writeAll (f : Nat) : List (List UInt8) → Code Unit
  | [] => return ()
  | bytes :: rest => do
      let _ ← filewrite f bytes
      writeAll f rest

theorem keeps_writeAll {p : Fin n} {done : List (List UInt8)} {writes : List (List UInt8)}
    (all : done ++ writes.flatMap chunks = sh.chunks p) :
    sh.discipline.Keeps p (sh.Wrote p done) (writeAll sh.f writes) fun _ => sh.Wrote p (sh.chunks p) := by
  induction writes generalizing done with
  | nil =>
    refine keeps_ret fun _ _ wrote => ?_
    rwa [← all, List.flatMap_nil, List.append_nil]
  | cons bytes rest ih =>
    have first : done ++ chunks bytes ++ rest.flatMap chunks = sh.chunks p := by simp [← all]
    exact keeps_bind (keeps_filewriteShared first) fun _ => ih first

abbrev WriterMachine (n : Nat) := Config State Nat Via (Fin n) Unit

structure Sharing.Begins (sh : Sharing n) (c : WriterMachine n) : Prop where
  known : sh.f < c.state.core.files.length
  writable : (fileAt c.state.core sh.f).writable = true
  isInode : (fileAt c.state.core sh.f).type = .inode
  names : (fileAt c.state.core sh.f).ip = sh.ip
  isFile : (c.state.core.inodes sh.ip).type = .file
  content : (c.state.core.inodes sh.ip).data = sh.old
  offset : (fileAt c.state.core sh.f).off = sh.off
  unlocked : c.locks sh.ip = none
  code : ∀ p, c.code p = some (writeAll sh.f (sh.writes p))

def Finished (c : WriterMachine n) (p : Fin n) : Prop := c.code p = none ∨ c.code p = some (.ret ())

-- The writers make no other calls.
def noCalls (_ : Fin n) (_ : Code Unit) : Prop := False

theorem overwrite_nil (old : List UInt8) (off : Nat) : overwrite old off [] = old := by simp [overwrite]

theorem Sharing.Begins.disciplined {c : WriterMachine n} (begins : sh.Begins c) :
    c.Disciplined sh.discipline fun p => sh.Wrote p (sh.chunks p) := by
  have inv : sh.Inv ⟨c.state, c.locks, ⟨[], 0⟩⟩ :=
    ⟨begins.known, begins.writable, begins.isInode, begins.names, begins.isFile, fun _ => List.nil_prefix,
      begins.content.trans (overwrite_nil ..).symm, begins.offset, fun _ => rfl⟩
  refine ⟨⟨[], 0⟩, inv, fun p => ?_⟩
  rw [begins.code p]
  exact keeps_writeAll (List.nil_append _) _ inv ⟨rfl, by simp [begins.unlocked]⟩

theorem Sharing.Begins.reached {c c' : WriterMachine n} (begins : sh.Begins c)
    (reached : Threads.Reachable noCalls c c') : ∃ progress, sh.Inv ⟨c'.state, c'.locks, progress⟩ ∧
      ∀ p, Finished c' p → sh.Wrote p (sh.chunks p) ⟨c'.state, c'.locks, progress⟩ := by
  obtain ⟨progress, inv, threads⟩ :=
    reachable_disciplined (fun _ => wrote_stays) (fun _ _ => nofun) begins.disciplined reached
  refine ⟨progress, inv, fun p finished => ?_⟩
  have thread := threads p
  rcases finished with gone | returned
  · rw [gone] at thread
    exact thread
  · rw [returned] at thread
    exact thread

variable {w : Writers n}

theorem Sharing.Inv.chunk_short (inv : sh.Inv w) {entry : Fin n × List UInt8} (present : entry ∈ w.ghost.history) :
    entry.2.length ≤ 1536 := by
  have mine : entry.2 ∈ chunksOf w.ghost.history entry.1 :=
    List.mem_map.mpr ⟨entry, List.mem_filter.mpr ⟨present, by simp⟩, rfl⟩
  obtain ⟨bytes, _, chunk⟩ := List.mem_flatMap.mp ((inv.order entry.1).subset mine)
  exact chunksLoop_short chunk

theorem Sharing.Inv.off_le_size (inv : sh.Inv w) :
    (fileAt w.state.core sh.f).off ≤ (w.state.core.inodes sh.ip).size := by
  have advanced := inv.advanced
  rw [Inode.size, if_neg (by simp [inv.isFile]), inv.content, length_overwrite sh.within]
  omega

theorem Sharing.Inv.finished (inv : sh.Inv w) (all : ∀ p, sh.Wrote p (sh.chunks p) w) :
    (fileAt w.state.core sh.f).off = sh.off + ∑ p, (sh.writes p).flatten.length := by
  have free : w.locks sh.ip = none := by
    cases held : w.locks sh.ip with
    | none => rfl
    | some p => exact absurd held (all p).2
  have advanced := inv.advanced
  rw [inv.settled free, length_written] at advanced
  simp only [(all _).1, sh.length_chunks] at advanced
  exact advanced

def sharedInode (data : List UInt8) : Inode := { type := .file, major := 0, minor := 0, nlink := 1, slots := [], data }

def sharedState (data : List UInt8) : State where
  core :=
    { ninodes := 2
      inodes := fun _ => sharedInode data
      ref := fun _ => 2
      valid := fun _ => true
      used := 1
      freeBlocks := 8
      files := [{ type := .inode, ref := 2, readable := true, writable := true, ip := 1, off := 0 }]
      procs := [] }
  outstanding := 0
  logged := []

def sharing (data : List UInt8) (writes : Fin n → List (List UInt8))
    (fits : 0 + ∑ p, (writes p).flatten.length ≤ maxFile * bSize) : Sharing n :=
  { f := 0, ip := 1, writes, old := data, off := 0, within := Nat.zero_le _, fits }

def sharedMachine (data : List UInt8) (writes : Fin n → List (List UInt8)) : WriterMachine n :=
  { state := sharedState data, locks := fun _ => none, code := fun p => some (writeAll 0 (writes p)) }

theorem sharedMachine_begins (data : List UInt8) (writes : Fin n → List (List UInt8))
    (fits : 0 + ∑ p, (writes p).flatten.length ≤ maxFile * bSize) :
    (sharing data writes fits).Begins (sharedMachine data writes) :=
  ⟨Nat.zero_lt_one, rfl, rfl, rfl, rfl, rfl, rfl, rfl, fun _ => rfl⟩

local instance oneWriter : NeZero 1 := ⟨one_ne_zero⟩
local instance twoWriters : NeZero 2 := ⟨two_ne_zero⟩

def twoWrites : Fin 2 → List (List UInt8) := ![[[7], [8]], [[9]]]

def writtenFirst : WriterMachine 2 :=
  (sharedMachine [] twoWrites).runs 0 (filewrite 0 [7]) fun _ => writeAll 0 [[8]]

def writtenBetween : WriterMachine 2 := writtenFirst.runs 1 (filewrite 0 [9]) fun _ => writeAll 0 []

def writtenLast : WriterMachine 2 := writtenBetween.runs 0 (filewrite 0 [8]) fun _ => writeAll 0 []

theorem writtenFirst_code :
    writtenFirst.code = Function.update (sharedMachine [] twoWrites).code 0 (some (writeAll 0 [[8]])) :=
  Config.runs_code (by decide +kernel)

theorem writtenBetween_code : writtenBetween.code = Function.update writtenFirst.code 1 (some (writeAll 0 [])) :=
  Config.runs_code (by decide +kernel)

theorem writtenLast_code : writtenLast.code = Function.update writtenBetween.code 0 (some (writeAll 0 [])) :=
  Config.runs_code (by decide +kernel)

theorem writtenLast_reached : Threads.Reachable noCalls (sharedMachine [] twoWrites) writtenLast := by
  refine .trans (.trans (reachable_alone rfl) (reachable_alone ?_)) (reachable_alone ?_)
  · change writtenFirst.code 1 = _
    rw [writtenFirst_code]
    rfl
  · change writtenBetween.code 0 = _
    rw [writtenBetween_code, writtenFirst_code]
    rfl

theorem writtenLast_finished : ∀ p, Finished writtenLast p := by
  refine Fin.forall_fin_two.mpr ⟨Or.inr ?_, Or.inr ?_⟩
  all_goals
    rw [writtenLast_code, writtenBetween_code]
    rfl

theorem writtenLast_content :
    (writtenLast.state.core.inodes 1).data = [7, 9, 8] ∧ (fileAt writtenLast.state.core 0).off = 3 := by
  decide +kernel

def oneWrite : Fin 1 → List (List UInt8) := fun _ => [[9]]

def writtenOver : WriterMachine 1 :=
  (sharedMachine [1, 2, 3] oneWrite).runs 0 (filewrite 0 [9]) fun _ => writeAll 0 []

theorem writtenOver_code :
    writtenOver.code = Function.update (sharedMachine [1, 2, 3] oneWrite).code 0 (some (writeAll 0 [])) :=
  Config.runs_code (by decide +kernel)

theorem writtenOver_finished : ∀ p, Finished writtenOver p := by
  refine Fin.forall_fin_one.mpr (Or.inr ?_)
  rw [writtenOver_code]
  rfl

theorem writtenOver_content : (writtenOver.state.core.inodes 1).data = [9, 2, 3] := by decide +kernel

/-- Whatever the order in which the writers get the inode lock: the bytes from the initial offset on are
the chunks written so far, each writer's in its order, and nothing else changed. When all writers have
returned, these are all their chunks and the offset has advanced by their total length. -/
theorem shared_writes_kept {c c' : WriterMachine n} (begins : sh.Begins c)
    (reached : Threads.Reachable noCalls c c') :
    ∃ history : History (Fin n),
      (c'.state.core.inodes sh.ip).data = overwrite sh.old sh.off (written history) ∧
      (∀ p, chunksOf history p <+: sh.chunks p) ∧
      (∀ p, Finished c' p → chunksOf history p = sh.chunks p) ∧
      (∀ entry ∈ history, entry.2.length ≤ 1536) ∧
      (fileAt c'.state.core sh.f).off ≤ (c'.state.core.inodes sh.ip).size ∧
      ((∀ p, Finished c' p) →
        (fileAt c'.state.core sh.f).off = sh.off + (written history).length ∧
        (fileAt c'.state.core sh.f).off = sh.off + ∑ p, (sh.writes p).flatten.length) := by
  obtain ⟨progress, inv, finished⟩ := begins.reached reached
  refine ⟨progress.history, inv.content, inv.order, fun p done => (finished p done).1,
    fun entry present => inv.chunk_short present, inv.off_le_size, fun all => ?_⟩
  have wrote : ∀ p, sh.Wrote p (sh.chunks p) ⟨c'.state, c'.locks, progress⟩ := fun p => finished p (all p)
  have total := inv.finished wrote
  refine ⟨?_, total⟩
  have length := length_written progress.history
  simp only [(wrote _).1, sh.length_chunks] at length
  rw [length]
  exact total

theorem shared_writes_kept_between : ∃ fits : 0 + ∑ p, (twoWrites p).flatten.length ≤ maxFile * bSize,
      (sharing [] twoWrites fits).Begins (sharedMachine [] twoWrites) ∧
      Threads.Reachable noCalls (sharedMachine [] twoWrites) writtenLast ∧ (∀ p, Finished writtenLast p) ∧
      (writtenLast.state.core.inodes 1).data = [7, 9, 8] ∧ (fileAt writtenLast.state.core 0).off = 3 ∧
      ∃ history : History (Fin 2), (writtenLast.state.core.inodes 1).data = overwrite [] 0 (written history) ∧
        ∀ p, chunksOf history p = (sharing [] twoWrites fits).chunks p := by
  have fits : 0 + ∑ p, (twoWrites p).flatten.length ≤ maxFile * bSize := by decide
  have begins := sharedMachine_begins [] twoWrites fits
  obtain ⟨history, content, _, all, _⟩ := shared_writes_kept begins writtenLast_reached
  simp only [sharing] at content
  exact ⟨fits, begins, writtenLast_reached, writtenLast_finished, writtenLast_content.1, writtenLast_content.2, history,
    content, fun p => all p (writtenLast_finished p)⟩

/-- The old bytes after the last one written stay, so the file can end with bytes that nobody wrote. -/
theorem shared_write_leaves_tail :
    ∃ (sh : Sharing 1) (c c' : WriterMachine 1), sh.Begins c ∧ Threads.Reachable noCalls c c' ∧
      (∀ p, Finished c' p) ∧ ∀ history : History (Fin 1), (∀ p, chunksOf history p = sh.chunks p) →
        (c'.state.core.inodes sh.ip).data.drop sh.off ≠ written history := by
  have fits : 0 + ∑ p, (oneWrite p).flatten.length ≤ maxFile * bSize := by decide
  refine ⟨sharing [1, 2, 3] oneWrite fits, _, writtenOver, sharedMachine_begins _ _ fits, reachable_alone rfl,
    writtenOver_finished, fun history all same => ?_⟩
  have content : [9, 2, 3] = written history := writtenOver_content.symm.trans same
  have length := length_written history
  simp only [all, Sharing.length_chunks, ← content] at length
  exact absurd length (by simp [sharing, oneWrite])

end Runs

end Xv6.Fs
