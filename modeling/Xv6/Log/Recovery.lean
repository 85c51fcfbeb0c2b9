import Xv6.Log.Commit

set_option autoImplicit false

namespace Xv6.Log

open Halting RedoLog

-- Blocks outside the log area: the header is at `start`, the log blocks up to `start + size`.
def Home (start size blockno : Nat) : Prop :=
  blockno ≠ start ∧ ¬ (start < blockno ∧ blockno < start + size)

instance (start size blockno : Nat) : Decidable (Home start size blockno) :=
  inferInstanceAs (Decidable (_ ∧ ¬ (_ ∧ _)))

def installWrites (source : Disk) (start : Nat) : Nat → List Nat → List (Nat × Block)
  | _, [] => []
  | tail, home :: rest => (home, source (start + tail + 1)) :: installWrites source start (tail + 1) rest

def logWrites (source : Disk) (start : Nat) : Nat → List Nat → List (Nat × Block)
  | _, [] => []
  | tail, home :: rest => (start + tail + 1, source home) :: logWrites source start (tail + 1) rest

structure Loggable (start size tail : Nat) (lh : List Nat) : Prop where
  homes : ∀ blockno ∈ lh, Home start size blockno
  fits : tail + lh.length ≤ size - 1

namespace Loggable

variable {start size tail home : Nat} {rest : List Nat}

theorem next (ok : Loggable start size tail (home :: rest)) : Loggable start size (tail + 1) rest where
  homes := fun blockno listed => ok.homes blockno (List.mem_cons_of_mem home listed)
  fits := by
    have := ok.fits
    simp only [List.length_cons] at this
    omega

theorem slot_ne {lh : List Nat} (ok : Loggable start size tail lh) {blockno i : Nat}
    (listed : blockno ∈ lh) (bound : i < tail + lh.length) : start + i + 1 ≠ blockno := by
  intro same
  have home := ok.homes blockno listed
  have fits := ok.fits
  simp only [Home] at home
  omega

end Loggable

section Writes

variable {start size : Nat} {source : Disk} {tail : Nat} {lh : List Nat} {good : Disk × Nat → Prop}

theorem installWrites_congr {source' : Disk}
    (agree : ∀ i, i < tail + lh.length → source (start + i + 1) = source' (start + i + 1)) :
    installWrites source start tail lh = installWrites source' start tail lh := by
  induction lh generalizing tail with
  | nil => rfl
  | cons home rest ih =>
    simp only [List.length_cons] at agree
    rw [installWrites, installWrites, agree tail (by omega), ih fun i bound => agree i (by omega)]

theorem logWrites_congr {source' : Disk} (agree : ∀ blockno ∈ lh, source blockno = source' blockno) :
    logWrites source start tail lh = logWrites source' start tail lh := by
  induction lh generalizing tail with
  | nil => rfl
  | cons home rest ih =>
    obtain ⟨here, later⟩ := List.forall_mem_cons.mp agree
    rw [logWrites, logWrites, here, ih later]

theorem mem_installWrites {write : Nat × Block} (member : write ∈ installWrites source start tail lh) :
    write.1 ∈ lh := by
  induction lh generalizing tail with
  | nil => cases member
  | cons home rest ih =>
    rcases List.mem_cons.mp member with rfl | later
    · exact List.mem_cons_self
    · exact List.mem_cons_of_mem home (ih later)

theorem exists_installWrites {blockno : Nat} (listed : blockno ∈ lh) :
    ∃ write ∈ installWrites source start tail lh, write.1 = blockno := by
  induction lh generalizing tail with
  | nil => cases listed
  | cons home rest ih =>
    rcases List.mem_cons.mp listed with rfl | later
    · exact ⟨_, List.mem_cons_self, rfl⟩
    · obtain ⟨write, member, same⟩ := ih later
      exact ⟨write, List.mem_cons_of_mem _ member, same⟩

theorem mem_logWrites {write : Nat × Block} (member : write ∈ logWrites source start tail lh) :
    ∃ i, tail ≤ i ∧ i < tail + lh.length ∧ write.1 = start + i + 1 := by
  induction lh generalizing tail with
  | nil => cases member
  | cons home rest ih =>
    rcases List.mem_cons.mp member with rfl | later
    · exact ⟨tail, by simp⟩
    · obtain ⟨i, low, high, same⟩ := ih later
      exact ⟨i, by omega, by simp only [List.length_cons]; omega, same⟩

theorem installWrites_logWrites (disk source : Disk) (tail : Nat) (lh : List Nat) :
    installWrites (applyWrites disk (logWrites source start tail lh)) start tail lh =
      lh.map fun blockno => (blockno, source blockno) := by
  induction lh generalizing tail disk with
  | nil => rfl
  | cons home rest ih =>
    let next := Function.update disk (start + tail + 1) (source home)
    have split : applyWrites disk (logWrites source start tail (home :: rest)) =
        applyWrites next (logWrites source start (tail + 1) rest) := rfl
    have first : applyWrites next (logWrites source start (tail + 1) rest) (start + tail + 1) = source home := by
      rw [applyWrites_other]
      · simp [next]
      · intro write member
        obtain ⟨i, low, _, same⟩ := mem_logWrites member
        omega
    rw [split, installWrites, ih, first, List.map_cons]

theorem installLoop_spec {v : View} (ok : Loggable start size tail lh)
    (points : ∀ point ∈ (v.writeBlocks (installWrites v.contents start tail lh)).crashPoints, good point) :
    Triple (Shows v) (installLoop start tail lh)
      (fun _ m => Shows (v.writeBlocks (installWrites v.contents start tail lh)) m) (Safe good) := by
  induction lh generalizing tail v with
  | nil => exact triple_pure fun _ shown => shown
  | cons home rest ih =>
    have apart : start + tail + 1 ≠ home := ok.slot_ne List.mem_cons_self (by simp)
    have before (point : Disk × Nat) (old : point ∈ v.crashPoints) : good point :=
      points point ((v.mem_writeBlocks_crashPoints _).mpr (Or.inl old))
    have unread : installWrites (v.writeBlock (home, v.contents (start + tail + 1))).contents start
        (tail + 1) rest = installWrites v.contents start (tail + 1) rest := by
      apply installWrites_congr
      intro i bound
      rw [View.writeBlock_contents, applyWrites_other]
      intro write member
      rw [List.mem_singleton.mp member]
      exact (ok.slot_ne List.mem_cons_self (by simp only [List.length_cons]; omega)).symm
    refine triple_bind (installBlock_spec apart before) fun _ => ?_
    rw [installWrites, View.writeBlocks_cons, ← unread] at points ⊢
    exact ih ok.next points

theorem writeLogLoop_spec {v : View} (ok : Loggable start size tail lh)
    (points : ∀ point ∈ (v.writeBlocks (logWrites v.contents start tail lh)).crashPoints, good point) :
    Triple (Shows v) (writeLogLoop start tail lh)
      (fun _ m => Shows (v.writeBlocks (logWrites v.contents start tail lh)) m) (Safe good) := by
  induction lh generalizing tail v with
  | nil => exact triple_pure fun _ shown => shown
  | cons home rest ih =>
    have apart : home ≠ start + tail + 1 := (ok.slot_ne List.mem_cons_self (by simp)).symm
    have before (point : Disk × Nat) (old : point ∈ v.crashPoints) : good point :=
      points point ((v.mem_writeBlocks_crashPoints _).mpr (Or.inl old))
    have unread : logWrites (v.writeBlock (start + tail + 1, v.contents home)).contents start
        (tail + 1) rest = logWrites v.contents start (tail + 1) rest := by
      apply logWrites_congr
      intro blockno listed
      rw [View.writeBlock_contents, applyWrites_other]
      intro write member
      rw [List.mem_singleton.mp member]
      exact ok.slot_ne (List.mem_cons_of_mem home listed) (by simp)
    refine triple_bind (logBlock_spec apart before) fun _ => ?_
    rw [logWrites, View.writeBlocks_cons, ← unread] at points ⊢
    exact ih ok.next points

end Writes

def logged (start : Nat) (disk : Disk) : List (Nat × Block) :=
  installWrites disk start 0 (decodeHeader (disk start))

/-- What an undisturbed recovery would leave in each home block. -/
def recovered (start : Nat) (disk : Disk) : Disk := applyWrites disk (logged start disk)

abbrev WellLogged (start size : Nat) (disk : Disk) : Prop :=
  Loggable start size 0 (decodeHeader (disk start))

section Recovered

variable {start size : Nat} {disk : Disk}

theorem logged_congr {disk' : Disk} (header : disk' start = disk start)
    (slots : ∀ i, i < (decodeHeader (disk start)).length → disk' (start + i + 1) = disk (start + i + 1)) :
    logged start disk' = logged start disk := by
  rw [logged, logged, header]
  exact installWrites_congr fun i bound => slots i (by omega)

variable {block : Block} {front : List (Nat × Block)}

theorem headWrite_home {blockno : Nat} (home : Home start size blockno) :
    applyWrites disk [(start, block)] blockno = disk blockno := Function.update_of_ne home.1 _ _

theorem partInstall_header (ok : WellLogged start size disk) (part : front ⊆ logged start disk) :
    applyWrites disk front start = disk start :=
  applyWrites_other fun _ member => (ok.homes _ (mem_installWrites (part member))).1

theorem partInstall_recovered (ok : WellLogged start size disk) (part : front ⊆ logged start disk) :
    recovered start (applyWrites disk front) = recovered start disk := by
  have same : logged start (applyWrites disk front) = logged start disk := by
    apply logged_congr (partInstall_header ok part)
    intro i bound
    apply applyWrites_other
    intro write member
    exact (ok.slot_ne (mem_installWrites (part member)) (by omega)).symm
  rw [recovered, same, applyWrites_absorb disk part, recovered]

theorem clearHead_recovered {blockno : Nat} (home : Home start size blockno) :
    recovered start (applyWrites disk [(start, encodeHeader block [])]) blockno = disk blockno := by
  have header : applyWrites disk [(start, encodeHeader block [])] start = encodeHeader block [] := by
    simp [applyWrites]
  rw [recovered, logged, header, decode_encode (by simp) (by simp)]
  exact headWrite_home home

theorem clearHead_wellLogged : WellLogged start size (applyWrites disk [(start, encodeHeader block [])]) := by
  have header : applyWrites disk [(start, encodeHeader block [])] start = encodeHeader block [] := by
    simp [applyWrites]
  rw [WellLogged, header, decode_encode (by simp) (by simp)]
  exact ⟨by simp, by simp⟩

end Recovered

structure Settled (start size : Nat) (home : Disk) (v : View) : Prop where
  refs : ∀ blockno, v.refs blockno = 0
  pinned : ∀ blockno, ¬ v.pinned blockno
  startAt : v.log.start = start
  sizeAt : v.log.size = size
  lh : v.log.lh = []
  header : headerN (v.disk start) = 0
  home : ∀ blockno, Home start size blockno → v.disk blockno = home blockno

def finish : Kernel Unit := do
  installTrans
  setLh []
  writeHead

variable {good : Disk × Nat → Prop}

theorem finish_spec {v : View} {start size : Nat} (refs : ∀ blockno, v.refs blockno = 0)
    (pins : ∀ blockno, v.pinned blockno → blockno ∈ v.log.lh) (startAt : v.log.start = start)
    (sizeAt : v.log.size = size) (listed : v.log.lh = decodeHeader (v.disk start)) (ok : WellLogged start size v.disk)
    (points : ∀ point ∈ v.crashPoints, good point)
    (stable : ∀ disk, WellLogged start size disk → (∀ blockno, Home start size blockno →
      recovered start disk blockno = recovered start v.disk blockno) → good (disk, v.commits)) :
    Triple (Shows v) finish (fun _ m => ∃ v', Settled start size (recovered start v.disk) v' ∧
        v'.log = { v.log with lh := [] } ∧ v'.commits = v.commits ∧
        (∀ point ∈ v'.crashPoints, good point) ∧ Shows v' m)
      (Safe good) := by
  refine triple_assuming fun m shown => ?_
  obtain rfl := startAt
  set start := v.log.start
  have ok' : Loggable start size 0 v.log.lh := by
    rw [listed]
    exact ok
  set writes := installWrites v.contents start 0 v.log.lh
  have sameWrites : writes = logged start v.disk := by
    rw [logged, ← listed]
    apply installWrites_congr
    intro i bound
    apply shown.cache.clean _ (refs _)
    intro pin
    exact ok'.slot_ne (pins _ pin) bound rfl
  let installed := v.writeBlocks writes
  let final := (installed.withLh []).writeBlock (start, encodeHeader (installed.contents start) [])
  have installed_points (point : Disk × Nat) (member : point ∈ installed.crashPoints) : good point := by
    rcases (v.mem_writeBlocks_crashPoints _).mp member with old | ⟨front, _, part, rfl⟩
    · exact points point old
    · rw [sameWrites] at part
      refine stable _ ?_ fun blockno _ => by rw [partInstall_recovered ok part.subset]
      rw [WellLogged, partInstall_header ok part.subset]
      exact ok
  have installed_disk : installed.disk = recovered start v.disk := by
    rw [View.writeBlocks_disk, sameWrites, recovered]
  have final_disk : final.disk =
      applyWrites (recovered start v.disk) [(start, encodeHeader (installed.contents start) [])] := by
    rw [← installed_disk]
    exact View.writeBlock_disk _ _
  have final_home (blockno : Nat) (home : Home start size blockno) :
      final.disk blockno = recovered start v.disk blockno := by
    rw [final_disk, headWrite_home home]
  have final_points (point : Disk × Nat) (member : point ∈ final.crashPoints) : good point := by
    rw [View.writeBlock_crashPoints] at member
    rcases List.mem_append.mp member with old | last
    · exact installed_points point old
    · rw [List.mem_singleton.mp last]
      have commits : (installed.withLh []).commits = v.commits := View.writeBlocks_commits v writes
      rw [commits]
      refine stable _ clearHead_wellLogged fun blockno home => ?_
      rw [clearHead_recovered home, ← installed_disk]
      rfl
  have settled : Settled start size (recovered start v.disk) final := {
    refs := fun blockno => by simpa [final, View.withLh, installed] using refs blockno
    pinned := by
      intro blockno pin
      have remaining : installed.pinned blockno := ((installed.withLh []).writeBlocks_pinned
        [(start, encodeHeader (installed.contents start) [])] blockno).mp pin |>.2
      obtain ⟨unwritten, pinned⟩ := (v.writeBlocks_pinned writes blockno).mp remaining
      obtain ⟨write, member, same⟩ := exists_installWrites (pins blockno pinned)
      exact unwritten write member same
    startAt := by simp [final, View.withLh, installed, start]
    sizeAt := by simpa [final, View.withLh, installed] using sizeAt
    lh := by simp [final, View.withLh]
    header := by
      rw [final_disk]
      simp [applyWrites, headerN_encode]
    home := final_home }
  have installs : Triple (Shows v) installTrans (fun _ => Shows installed) (Safe good) := by
    refine triple_bind getLog_spec fun log => triple_fact fun same => ?_
    subst same
    exact installLoop_spec ok' installed_points
  refine triple_bind installs fun _ => triple_bind (setLh_spec []) fun _ => ?_
  refine triple_weaken (writeHead_spec (v := installed.withLh []) installed_points) (fun _ before => before) ?_
  intro _ m' after
  refine ⟨final, settled, ?_, View.writeBlocks_commits v writes, final_points, ?_⟩
  · simp [final, View.withLh, installed]
  · simpa [final, View.withLh, installed] using after

theorem readHead_spec {v : View} (refs : ∀ blockno, v.refs blockno = 0) (pinned : ∀ blockno, ¬ v.pinned blockno)
    (points : ∀ point ∈ v.crashPoints, good point) : Triple (Shows v) readHead
      (fun _ m => Shows (v.withLh (decodeHeader (v.disk v.log.start))) m) (Safe good) := by
  refine triple_assuming fun m shown => ?_
  have clean := shown.cache.clean v.log.start (refs _) (pinned _)
  refine triple_bind getLog_spec fun log => triple_fact fun same => ?_
  subst same
  refine triple_bind (bread_spec points) fun block => triple_fact fun ⟨_, same⟩ => ?_
  have back : ((v.take v.log.start).withLh (decodeHeader block)).drop v.log.start =
      v.withLh (decodeHeader (v.disk v.log.start)) := by
    simp [View.take, View.withLh, View.drop, same, clean]
  rw [← back]
  refine triple_bind (setLh_spec _) fun _ => brelse_spec ?_ ?_
  · simp [View.take, View.withLh]
  · simp [View.take, View.withLh, clean]

theorem recoverFromLog_spec {v : View} {start size : Nat} (refs : ∀ blockno, v.refs blockno = 0)
    (pinned : ∀ blockno, ¬ v.pinned blockno) (startAt : v.log.start = start) (sizeAt : v.log.size = size)
    (ok : WellLogged start size v.disk) (points : ∀ point ∈ v.crashPoints, good point)
    (stable : ∀ disk, WellLogged start size disk → (∀ blockno, Home start size blockno →
      recovered start disk blockno = recovered start v.disk blockno) → good (disk, v.commits)) :
    Triple (Shows v) recoverFromLog (fun _ m => ∃ v', Settled start size (recovered start v.disk) v' ∧
        v'.log = { v.log with lh := [] } ∧ v'.commits = v.commits ∧
        (∀ point ∈ v'.crashPoints, good point) ∧ Shows v' m)
      (Safe good) := by
  refine triple_bind (readHead_spec refs pinned points) fun _ => ?_
  rw [startAt]
  exact finish_spec (v := v.withLh (decodeHeader (v.disk start))) refs
    (fun blockno pin => absurd pin (pinned blockno)) startAt sizeAt rfl ok points stable

def bootView (start size : Nat) (disk : Disk) : View where
  disk
  contents := disk
  pinned := fun _ => False
  refs := fun _ => 0
  log := { start, size, outstanding := 0, committing := false, lh := [] }
  commits := 0
  crashPoints := [(disk, 0)]

-- The state when initlog calls recover_from_log: no buffer has been assigned yet.
def boot (start size : Nat) (disk : Disk) : Machine where
  disk
  cache := List.replicate nbuf
    { dev := 0, blockno := 0, valid := false, dirty := false, refcnt := 0, data := fun _ => 0 }
  log := { start, size, outstanding := 0, committing := false, lh := [] }
  commits := 0
  crashPoints := [(disk, 0)]

theorem boot_shows (start size : Nat) (disk : Disk) : Shows (bootView start size disk) (boot start size disk) := by
  have unassigned {buf : Buf} (member : buf ∈ (boot start size disk).cache) (blockno : Nat) :
      buf.holds blockno = false := by
    rw [List.eq_of_mem_replicate member]
    simp [Buf.holds, rootDev]
  refine ⟨rfl, rfl, rfl, rfl, ?_, ?_, fun _ _ => ⟨rfl, id⟩, fun _ _ _ => rfl⟩
  · refine List.pairwise_replicate.mpr (Or.inr ?_)
    simp [Buf.holds, rootDev]
  · intro buf member blockno holds
    simp [unassigned member] at holds

theorem boot_recovers {start size : Nat} {disk : Disk} (ok : WellLogged start size disk)
    (stable : ∀ disk', WellLogged start size disk' → (∀ blockno, Home start size blockno →
      recovered start disk' blockno = recovered start disk blockno) → good (disk', 0)) :
    Triple (fun m => m = boot start size disk) recoverFromLog
      (fun _ m => ∃ v, Settled start size (recovered start disk) v ∧
        v.log = { start, size, outstanding := 0, committing := false, lh := [] } ∧ v.commits = 0 ∧
        (∀ point ∈ v.crashPoints, good point) ∧ Shows v m)
      (Safe good) := by
  refine triple_weaken (recoverFromLog_spec (v := bootView start size disk) (fun _ => rfl) (fun _ => id) rfl
    rfl ok ?_ stable) ?_ fun _ _ after => after
  · simpa [bootView] using stable disk ok fun _ _ => rfl
  · rintro m rfl
    exact boot_shows start size disk

end Xv6.Log
