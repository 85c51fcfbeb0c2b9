import Xv6.Log.BufferCache
import Xv6.Shared.RedoLog

set_option autoImplicit false

namespace Xv6.Log

open Halting RedoLog

-- lh->n, a signed int.
def headerN (block : Block) : Int := (block 0).toInt

def decodeHeader (block : Block) : List Nat :=
  (List.range (headerN block).toNat).map fun i => (block (Fin.ofNat 128 (i + 1))).toNat

def encodeHeader (old : Block) (lh : List Nat) : Block := fun word =>
  if word.val = 0 then BitVec.ofNat 32 lh.length
  else
    match lh[word.val - 1]? with
    | some blockno => BitVec.ofNat 32 blockno
    | none => old word

def getLog : Kernel LogState := ⟨fun m => (some m.log, m)⟩

def modifyLog (f : LogState → LogState) : Kernel Unit :=
  modify fun m => { m with log := f m.log }

def setLh (lh : List Nat) : Kernel Unit := modifyLog fun log => { log with lh }

def installBlock (lblock home : Nat) : Kernel Unit := do
  let data ← bread lblock
  let _ ← bread home
  setData home data
  bwrite home
  brelse lblock
  brelse home

def installLoop (start : Nat) : Nat → List Nat → Kernel Unit
  | _, [] => pure ()
  | tail, home :: rest => do
      installBlock (start + tail + 1) home
      installLoop start (tail + 1) rest

def installTrans : Kernel Unit := do
  let log ← getLog
  installLoop log.start 0 log.lh

def readHead : Kernel Unit := do
  let log ← getLog
  let block ← bread log.start
  setLh (decodeHeader block)
  brelse log.start

def writeHead : Kernel Unit := do
  let log ← getLog
  let block ← bread log.start
  setData log.start (encodeHeader block log.lh)
  bwrite log.start
  brelse log.start

def recoverFromLog : Kernel Unit := do
  readHead
  installTrans
  setLh []
  writeHead

def mustSleep (log : LogState) : Bool :=
  log.committing || decide (log.lh.length + (log.outstanding + 1) * maxOpBlocks > logSize)

-- begin_op once it need not sleep.
def beginOp : Kernel Unit := modifyLog fun log => { log with outstanding := log.outstanding + 1 }

def logBlock (home lblock : Nat) : Kernel Unit := do
  let _ ← bread lblock
  let data ← bread home
  setData lblock data
  bwrite lblock
  brelse home
  brelse lblock

def writeLogLoop (start : Nat) : Nat → List Nat → Kernel Unit
  | _, [] => pure ()
  | tail, home :: rest => do
      logBlock home (start + tail + 1)
      writeLogLoop start (tail + 1) rest

def writeLog : Kernel Unit := do
  let log ← getLog
  writeLogLoop log.start 0 log.lh

def commit : Kernel Unit := do
  let log ← getLog
  if log.lh.length > 0 then do
    writeLog
    writeHead
    installTrans
    setLh []
    writeHead
  else pure ()

def countCommit : Kernel Unit :=
  modify fun m => { m with
    commits := m.commits + 1
    crashPoints := m.crashPoints ++ [(m.disk, m.commits + 1)] }

def endOp : Kernel Unit := do
  modifyLog fun log => { log with outstanding := log.outstanding - 1 }
  let log ← getLog
  if log.committing then panic
  else if log.outstanding = 0 then do
    modifyLog fun log => { log with committing := true }
    commit
    countCommit
    modifyLog fun log => { log with committing := false }
  else pure ()

def absorb (lh : List Nat) (blockno : Nat) : List Nat :=
  if blockno ∈ lh then lh else lh ++ [blockno]

theorem mem_absorb {lh : List Nat} {blockno b : Nat} : b ∈ absorb lh blockno ↔ b = blockno ∨ b ∈ lh := by
  unfold absorb
  split
  · grind
  · simp [or_comm]

theorem absorb_length (lh : List Nat) (blockno : Nat) : (absorb lh blockno).length ≤ lh.length + 1 := by
  unfold absorb
  split <;> simp

def logWrite (blockno : Nat) : Kernel Unit := do
  let log ← getLog
  if log.lh.length ≥ logSize ∨ log.lh.length ≥ log.size - 1 then panic
  else if log.outstanding < 1 then panic
  else do
    setLh (absorb log.lh blockno)
    markDirty blockno

theorem headerN_encode {old : Block} {lh : List Nat} (short : lh.length ≤ logSize) :
    headerN (encodeHeader old lh) = lh.length := by
  have small : lh.length ≤ 30 := short
  have value : (BitVec.ofNat 32 lh.length).toNat = lh.length := by
    rw [BitVec.toNat_ofNat]
    omega
  simp only [headerN, encodeHeader, Fin.val_zero, if_true]
  rw [BitVec.toInt_eq_toNat_of_lt (by omega), value]

theorem decode_encode {old : Block} {lh : List Nat} (short : lh.length ≤ logSize)
    (bound : ∀ blockno ∈ lh, blockno < fsSize) : decodeHeader (encodeHeader old lh) = lh := by
  apply List.ext_getElem
  · simp [decodeHeader, headerN_encode short]
  · intro i left right
    have slot : i + 1 < 128 := by
      have : logSize = 30 := rfl
      omega
    have small : lh[i] < 2 ^ 32 := by
      have := bound lh[i] (List.getElem_mem right)
      have : fsSize = 1000 := rfl
      omega
    have index : (Fin.ofNat 128 (i + 1)).val = i + 1 := Nat.mod_eq_of_lt slot
    have found : encodeHeader old lh (Fin.ofNat 128 (i + 1)) = BitVec.ofNat 32 lh[i] := by
      simp only [encodeHeader, index]
      rw [if_neg (by omega)]
      simp [right]
    simp only [decodeHeader, List.getElem_map, List.getElem_range]
    rw [found, BitVec.toNat_ofNat, Nat.mod_eq_of_lt small]

namespace View

def withLh (v : View) (lh : List Nat) : View := { v with log := { v.log with lh } }

def writeBlock (v : View) (write : Nat × Block) : View :=
  (v.assign write.1 write.2).write write.1

def writeBlocks (v : View) (writes : List (Nat × Block)) : View := writes.foldl writeBlock v

section Fields

variable (v : View) (write : Nat × Block) (writes : List (Nat × Block)) (lh : List Nat)

@[simp] theorem writeBlocks_nil : v.writeBlocks [] = v := rfl

@[simp] theorem writeBlocks_cons : v.writeBlocks (write :: writes) = (v.writeBlock write).writeBlocks writes := rfl

@[simp] theorem writeBlock_disk : (v.writeBlock write).disk = applyWrites v.disk [write] := by
  simp [writeBlock, View.write, assign, applyWrites]

@[simp] theorem writeBlock_contents : (v.writeBlock write).contents = applyWrites v.contents [write] := rfl

@[simp] theorem writeBlock_refs : (v.writeBlock write).refs = v.refs := rfl
@[simp] theorem writeBlock_log : (v.writeBlock write).log = v.log := rfl
@[simp] theorem writeBlock_commits : (v.writeBlock write).commits = v.commits := rfl

@[simp] theorem writeBlock_crashPoints :
    (v.writeBlock write).crashPoints = v.crashPoints ++ [(applyWrites v.disk [write], v.commits)] := by
  simp [writeBlock, View.write, assign, applyWrites]

@[simp] theorem writeBlocks_disk : (v.writeBlocks writes).disk = applyWrites v.disk writes := by
  induction writes generalizing v with
  | nil => rfl
  | cons write writes ih => rw [writeBlocks_cons, ih, writeBlock_disk, ← applyWrites_append]; rfl

@[simp] theorem writeBlocks_contents : (v.writeBlocks writes).contents = applyWrites v.contents writes := by
  induction writes generalizing v with
  | nil => rfl
  | cons write writes ih => rw [writeBlocks_cons, ih, writeBlock_contents, ← applyWrites_append]; rfl

theorem writeBlocks_pinned (b : Nat) :
    (v.writeBlocks writes).pinned b ↔ (∀ write ∈ writes, write.1 ≠ b) ∧ v.pinned b := by
  induction writes generalizing v with
  | nil => simp
  | cons write writes ih =>
    rw [writeBlocks_cons, ih]
    simp only [writeBlock, View.write, assign, List.mem_cons, forall_eq_or_imp, ne_comm]
    tauto

@[simp] theorem writeBlocks_refs : (v.writeBlocks writes).refs = v.refs := by
  induction writes generalizing v with
  | nil => rfl
  | cons write writes ih => rw [writeBlocks_cons, ih, writeBlock_refs]

@[simp] theorem writeBlocks_log : (v.writeBlocks writes).log = v.log := by
  induction writes generalizing v with
  | nil => rfl
  | cons write writes ih => rw [writeBlocks_cons, ih, writeBlock_log]

@[simp] theorem writeBlocks_commits : (v.writeBlocks writes).commits = v.commits := by
  induction writes generalizing v with
  | nil => rfl
  | cons write writes ih => rw [writeBlocks_cons, ih, writeBlock_commits]

theorem mem_writeBlocks_crashPoints {point : Disk × Nat} :
    point ∈ (v.writeBlocks writes).crashPoints ↔ point ∈ v.crashPoints ∨
      ∃ front, front ≠ [] ∧ front <+: writes ∧ point = (applyWrites v.disk front, v.commits) := by
  induction writes generalizing v with
  | nil => simp +contextual
  | cons write writes ih =>
    rw [writeBlocks_cons, ih]
    simp only [writeBlock_crashPoints, List.mem_append, List.mem_singleton, writeBlock_disk,
      writeBlock_commits, ← applyWrites_append, List.singleton_append]
    constructor
    · rintro ((old | rfl) | ⟨front, _, part, rfl⟩)
      · exact Or.inl old
      · exact Or.inr ⟨[write], by simp, by simp, rfl⟩
      · exact Or.inr ⟨write :: front, by simp, by simpa using part, rfl⟩
    · rintro (old | ⟨front, nonempty, part, rfl⟩)
      · exact Or.inl (Or.inl old)
      · cases front with
        | nil => exact absurd rfl nonempty
        | cons first front =>
          obtain ⟨rfl, shorter⟩ := List.cons_prefix_cons.mp part
          by_cases single : front = []
          · exact Or.inl (Or.inr (by rw [single]))
          · exact Or.inr ⟨front, single, shorter, rfl⟩

end Fields

theorem copy_eq {v : View} {source target : Nat} (apart : source ≠ target) :
    (((((v.take source).take target).assign target (v.contents source)).write target).drop source).drop
      target = v.writeBlock (target, v.contents source) := by
  have count : Function.update (Function.update (Function.update (Function.update v.refs source
      (v.refs source + 1)) target (v.refs target + 1)) source (v.refs source)) target (v.refs target) = v.refs := by
    funext b
    by_cases atTarget : b = target
    · simp [atTarget]
    · by_cases atSource : b = source <;> simp [atTarget, atSource, apart]
  simp [take, assign, write, drop, writeBlock, apart, apart.symm, count]

theorem take_comm {v : View} {a b : Nat} (apart : a ≠ b) : (v.take a).take b = (v.take b).take a := by
  simp [take, apart, apart.symm, Function.update_comm apart]

theorem rewrite_eq {v : View} {blockno : Nat} {data : Block} :
    (((v.take blockno).assign blockno data).write blockno).drop blockno = v.writeBlock (blockno, data) := by
  simp [take, assign, write, drop, writeBlock]

end View

section Blocks

variable {v : View} {good : Disk × Nat → Prop}

theorem copy_tail {source target : Nat} (apart : source ≠ target)
    (clean : v.refs source = 0 → ¬ v.pinned source → v.contents source = v.disk source) :
    Triple (Shows ((v.take source).take target))
      (do setData target (v.contents source); bwrite target; brelse source; brelse target)
      (fun _ m => Shows (v.writeBlock (target, v.contents source)) m) (Safe good) := by
  rw [← View.copy_eq apart]
  refine triple_bind (setData_spec (by simp [View.take]) _) fun _ => ?_
  refine triple_bind (bwrite_spec (by simp [View.take, View.assign])) fun _ => ?_
  refine triple_bind (brelse_spec ?_ ?_) fun _ => brelse_spec ?_ ?_
  · simp [View.take, View.assign, View.write, apart]
  · simpa [View.take, View.assign, View.write, apart] using clean
  · simp [View.take, View.assign, View.write, View.drop, apart.symm]
  · simp [View.take, View.assign, View.write, View.drop]

theorem installBlock_spec {lblock home : Nat} (apart : lblock ≠ home) (points : ∀ point ∈ v.crashPoints, good point) :
    Triple (Shows v) (installBlock lblock home)
      (fun _ m => Shows (v.writeBlock (home, v.contents lblock)) m) (Safe good) := by
  refine triple_assuming fun m shown => ?_
  refine triple_bind (bread_spec points) fun data => triple_fact fun ⟨_, same⟩ => ?_
  refine triple_bind (bread_spec points) fun _ => triple_fact fun _ => ?_
  subst same
  exact copy_tail apart (shown.cache.clean lblock)

theorem logBlock_spec {home lblock : Nat} (apart : home ≠ lblock) (points : ∀ point ∈ v.crashPoints, good point) :
    Triple (Shows v) (logBlock home lblock)
      (fun _ m => Shows (v.writeBlock (lblock, v.contents home)) m) (Safe good) := by
  refine triple_assuming fun m shown => ?_
  refine triple_bind (bread_spec points) fun _ => triple_fact fun _ => ?_
  refine triple_bind (bread_spec points) fun data => triple_fact fun ⟨_, same⟩ => ?_
  subst same
  rw [View.take_comm apart.symm]
  exact copy_tail apart (shown.cache.clean home)

theorem getLog_spec : Triple (Shows v) getLog (fun log m => log = v.log ∧ Shows v m) (Safe good) :=
  fun _ shown => ⟨shown.log, shown⟩

theorem modifyLog_spec (f : LogState → LogState) : Triple (Shows v) (modifyLog f)
    (fun _ m => Shows { v with log := f v.log } m) (Safe good) :=
  fun _ shown => ⟨shown.disk, congrArg f shown.log, shown.commits, shown.crashPoints,
    ⟨shown.cache.apart, fun buf member b holds =>
      have fits := shown.cache.cached buf member b holds
      ⟨fits.bound, fits.valid, fits.data, fits.dirty, fits.refcnt⟩, shown.cache.absent, shown.cache.clean⟩⟩

theorem setLh_spec (lh : List Nat) : Triple (Shows v) (setLh lh) (fun _ m => Shows (v.withLh lh) m) (Safe good) :=
  modifyLog_spec _

theorem writeHead_spec (points : ∀ point ∈ v.crashPoints, good point) : Triple (Shows v) writeHead
    (fun _ m => Shows (v.writeBlock (v.log.start, encodeHeader (v.contents v.log.start) v.log.lh)) m)
    (Safe good) := by
  refine triple_bind getLog_spec fun log => triple_fact fun same => ?_
  subst same
  refine triple_bind (bread_spec points) fun block => triple_fact fun ⟨_, same⟩ => ?_
  subst same
  rw [← View.rewrite_eq]
  refine triple_bind (setData_spec (by simp [View.take]) _) fun _ => ?_
  refine triple_bind (bwrite_spec (by simp [View.take, View.assign])) fun _ => brelse_spec ?_ ?_
  · simp [View.take, View.assign, View.write]
  · simp [View.take, View.assign, View.write]

theorem safe_panic {A : Type} {post : A → Machine → Prop} (points : ∀ point ∈ v.crashPoints, good point) :
    Triple (Shows v) (panic : Kernel A) post (Safe good) :=
  triple_panic fun _ shown point member => points point (shown.crashPoints ▸ member)

theorem logWrite_spec {blockno : Nat} (held : 0 < v.refs blockno) (points : ∀ point ∈ v.crashPoints, good point) :
    Triple (Shows v) (logWrite blockno) (fun _ m => (v.log.lh.length < logSize ∧ v.log.lh.length < v.log.size - 1) ∧
        Shows ((v.withLh (absorb v.log.lh blockno)).pin blockno) m) (Safe good) := by
  refine triple_bind getLog_spec fun log => triple_fact fun same => ?_
  subst same
  by_cases large : v.log.lh.length ≥ logSize ∨ v.log.lh.length ≥ v.log.size - 1
  · rw [if_pos large]
    exact safe_panic points
  rw [if_neg large]
  by_cases outside : v.log.outstanding < 1
  · rw [if_pos outside]
    exact safe_panic points
  rw [if_neg outside]
  refine triple_bind (setLh_spec _) fun _ => ?_
  refine triple_weaken (markDirty_spec (v := v.withLh (absorb v.log.lh blockno)) held)
    (fun _ shown => shown) fun _ m shown => ⟨?_, shown⟩
  omega

end Blocks

end Xv6.Log
