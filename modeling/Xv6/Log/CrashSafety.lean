import Xv6.Log.Recovery

set_option autoImplicit false

namespace Xv6.Log

open Halting RedoLog

inductive Op where
  | beginOp
  | read (blockno : Nat)
  | modify (blockno : Nat) (f : Block → Block)
  | endOp

-- What a file system call does between begin_op and end_op: read a buffer, or change one and log it.
def readBlock (blockno : Nat) : Kernel Unit := do
  let _ ← bread blockno
  brelse blockno

def modifyBlock (blockno : Nat) (f : Block → Block) : Kernel Unit := do
  let data ← bread blockno
  setData blockno (f data)
  logWrite blockno
  brelse blockno

def Op.code : Op → Kernel Unit
  | beginOp => Log.beginOp
  | read blockno => readBlock blockno
  | modify blockno f => modifyBlock blockno f
  | endOp => Log.endOp

def Op.enabled (log : LogState) : Op → Bool
  | beginOp => !mustSleep log
  | read _ => true
  | modify blockno _ => decide (0 < log.outstanding ∧ Home log.start log.size blockno)
  | endOp => decide (0 < log.outstanding)

structure System where
  machine : Machine
  halted : Bool

def System.ofRun : Option Unit × Machine → System
  | (some _, machine) => ⟨machine, false⟩
  | (none, machine) => ⟨machine, true⟩

def step (s : System) (op : Op) : Option System :=
  if s.halted then none
  else if op.enabled s.machine.log then some (System.ofRun (op.code.run s.machine))
  else none

def initlog (start size : Nat) (disk : Disk) : System :=
  System.ofRun (recoverFromLog.run (boot start size disk))

def run (start size : Nat) (disk : Disk) (ops : List Op) : Option System :=
  ops.foldlM step (initlog start size disk)

/-- What the transactions mean: each commit adds the home blocks as the operations so far left them. -/
structure Spec where
  current : Disk
  outstanding : Nat
  committed : List Disk

def Spec.step (spec : Spec) : Op → Spec
  | .beginOp => { spec with outstanding := spec.outstanding + 1 }
  | .read _ => spec
  | .modify blockno f => { spec with
      current := Function.update spec.current blockno (f (spec.current blockno)) }
  | .endOp =>
    if spec.outstanding = 1 then
      { spec with outstanding := 0, committed := spec.committed ++ [spec.current] }
    else { spec with outstanding := spec.outstanding - 1 }

def Spec.run (disk : Disk) (ops : List Op) : Spec :=
  ops.foldl Spec.step { current := disk, outstanding := 0, committed := [disk] }

inductive Crashed (start size : Nat) (disk : Disk) : Disk → Prop where
  | first : Crashed start size disk disk
  | again {disk' next : Disk} {commits : Nat} (earlier : Crashed start size disk disk')
      (point : (next, commits) ∈ (recoverFromLog.run (boot start size disk')).2.crashPoints) :
      Crashed start size disk next

theorem decodeHeader_empty {block : Block} (empty : headerN block = 0) : decodeHeader block = [] := by
  simp [decodeHeader, empty]

theorem recovered_empty {start : Nat} {disk : Disk} (empty : headerN (disk start) = 0) :
    recovered start disk = disk := by
  simp [recovered, logged, decodeHeader_empty empty, installWrites]

theorem wellLogged_empty {start size : Nat} {disk : Disk} (empty : headerN (disk start) = 0) :
    WellLogged start size disk := by
  rw [WellLogged, decodeHeader_empty empty]
  exact ⟨by simp, by simp⟩

theorem crashed_recovered {start size : Nat} {disk disk' : Disk} (ok : WellLogged start size disk)
    (crashed : Crashed start size disk disk') : WellLogged start size disk' ∧ ∀ blockno, Home start size blockno →
      recovered start disk' blockno = recovered start disk blockno := by
  induction crashed with
  | first => exact ⟨ok, fun _ _ => rfl⟩
  | @again disk' next commits earlier point ih =>
    obtain ⟨ok', same⟩ := ih
    let good := fun point : Disk × Nat => WellLogged start size point.1 ∧ ∀ blockno,
      Home start size blockno → recovered start point.1 blockno = recovered start disk blockno
    have triple : Triple _ recoverFromLog _ (Safe good) := boot_recovers ok'
      fun disk'' ok'' same' => ⟨ok'', fun b home => (same' b home).trans (same b home)⟩
    rcases value : recoverFromLog.run (boot start size disk') with ⟨_ | _, m⟩
    · rw [value] at point
      exact triple.stopped rfl value _ point
    · rw [value] at point
      obtain ⟨v, _, _, _, points, shown⟩ := triple.returned rfl value
      exact points _ (shown.crashPoints ▸ point)

structure Between (start size : Nat) (current committed : Disk) (v : View) : Prop where
  refs : ∀ blockno, v.refs blockno = 0
  pinned : ∀ blockno, v.pinned blockno ↔ blockno ∈ v.log.lh
  startAt : v.log.start = start
  sizeAt : v.log.size = size
  loggable : Loggable start size 0 v.log.lh
  short : v.log.lh.length ≤ logSize
  bound : ∀ blockno ∈ v.log.lh, blockno < fsSize
  header : headerN (v.disk start) = 0
  contents : ∀ blockno, Home start size blockno → v.contents blockno = current blockno
  disk : ∀ blockno, Home start size blockno → v.disk blockno = committed blockno

section Commit

variable {start size : Nat} {disk source : Disk} {lh : List Nat}

theorem partLog_same (ok : Loggable start size 0 lh) {front : List (Nat × Block)}
    (part : front ⊆ logWrites source start 0 lh) {blockno : Nat}
    (outside : blockno = start ∨ Home start size blockno) : applyWrites disk front blockno = disk blockno := by
  apply applyWrites_other
  intro write member
  obtain ⟨i, _, bound, same⟩ := mem_logWrites (part member)
  have fits := ok.fits
  simp only [Home] at outside
  omega

theorem partLog_recovered (empty : headerN (disk start) = 0) (ok : Loggable start size 0 lh)
    {front : List (Nat × Block)} (part : front ⊆ logWrites source start 0 lh) :
    WellLogged start size (applyWrites disk front) ∧ ∀ blockno, Home start size blockno →
      recovered start (applyWrites disk front) blockno = disk blockno := by
  have header : headerN (applyWrites disk front start) = 0 := by
    rw [partLog_same ok part (Or.inl rfl)]
    exact empty
  refine ⟨wellLogged_empty header, fun blockno home => ?_⟩
  rw [recovered_empty header, partLog_same ok part (Or.inr home)]

theorem headDone_recovered (ok : Loggable start size 0 lh) (short : lh.length ≤ logSize)
    (bound : ∀ blockno ∈ lh, blockno < fsSize) (old : Block) {disk' : Disk}
    (written : disk' = applyWrites (applyWrites disk (logWrites source start 0 lh)) [(start, encodeHeader old lh)]) :
    decodeHeader (disk' start) = lh ∧ ∀ blockno, Home start size blockno →
      (blockno ∉ lh → source blockno = disk blockno) → recovered start disk' blockno = source blockno := by
  have header : decodeHeader (disk' start) = lh := by
    rw [written]
    simpa [applyWrites] using decode_encode short bound
  have logged_eq : logged start disk' = lh.map fun blockno => (blockno, source blockno) := by
    rw [logged, header, ← installWrites_logWrites disk source 0 lh]
    apply installWrites_congr
    intro i _
    rw [written]
    exact Function.update_of_ne (by omega) _ _
  refine ⟨header, fun blockno home clean => ?_⟩
  rw [recovered, logged_eq]
  apply applyWrites_values
  · simp
  · intro unlisted
    have other : blockno ∉ lh := fun listed =>
      unlisted (blockno, source blockno) (List.mem_map.mpr ⟨blockno, listed, rfl⟩) rfl
    rw [written, headWrite_home home, partLog_same ok (List.Subset.refl _) (Or.inr home), clean other]

variable {current committed : Disk} {v : View} {good : Disk × Nat → Prop}

theorem Settled.congr {home home' : Disk} (settled : Settled start size home v)
    (same : ∀ blockno, Home start size blockno → home blockno = home' blockno) : Settled start size home' v :=
  { settled with home := fun blockno outside => (settled.home blockno outside).trans (same blockno outside) }

theorem Settled.between {home : Disk} {m : Machine} (settled : Settled start size home v) (shown : Shows v m) :
    Between start size home home v where
  refs := settled.refs
  pinned := fun blockno => by simp [settled.pinned, settled.lh]
  startAt := settled.startAt
  sizeAt := settled.sizeAt
  loggable := by
    rw [settled.lh]
    exact ⟨by simp, by simp⟩
  short := by simp [settled.lh]
  bound := by simp [settled.lh]
  header := settled.header
  contents := by
    intro blockno outside
    rw [shown.cache.clean blockno (settled.refs blockno) (settled.pinned blockno)]
    exact settled.home blockno outside
  disk := settled.home

theorem commit_spec (between : Between start size current committed v) (points : ∀ point ∈ v.crashPoints, good point)
    (before : ∀ disk, WellLogged start size disk → (∀ blockno, Home start size blockno →
      recovered start disk blockno = committed blockno) → good (disk, v.commits))
    (after : ∀ disk, WellLogged start size disk → (∀ blockno, Home start size blockno →
      recovered start disk blockno = current blockno) → good (disk, v.commits)) : Triple (Shows v) commit
      (fun _ m => ∃ v', Settled start size current v' ∧ v'.log = { v.log with lh := [] } ∧
        v'.commits = v.commits ∧ (∀ point ∈ v'.crashPoints, good point) ∧ Shows v' m)
      (Safe good) := by
  refine triple_assuming fun m shown => ?_
  refine triple_bind getLog_spec fun log => triple_fact fun same => ?_
  subst same
  obtain rfl := between.startAt
  set start := v.log.start
  have clean (blockno : Nat) (other : blockno ∉ v.log.lh) : v.contents blockno = v.disk blockno :=
    shown.cache.clean blockno (between.refs blockno) fun pin => other ((between.pinned blockno).mp pin)
  by_cases nonempty : v.log.lh.length > 0
  · rw [if_pos nonempty]
    let logDone := v.writeBlocks (logWrites v.contents start 0 v.log.lh)
    let headDone := logDone.writeBlock (start, encodeHeader (logDone.contents start) v.log.lh)
    have logDone_points (point : Disk × Nat) (member : point ∈ logDone.crashPoints) : good point := by
      rcases (v.mem_writeBlocks_crashPoints _).mp member with old | ⟨front, _, part, rfl⟩
      · exact points point old
      · obtain ⟨wellLogged, same⟩ := partLog_recovered between.header between.loggable part.subset
        exact before _ wellLogged fun blockno home => (same blockno home).trans (between.disk blockno home)
    have written : headDone.disk = applyWrites (applyWrites v.disk (logWrites v.contents start 0 v.log.lh))
        [(start, encodeHeader (logDone.contents start) v.log.lh)] := by
      rw [← View.writeBlocks_disk]
      exact View.writeBlock_disk _ _
    obtain ⟨header, logged_contents⟩ := headDone_recovered between.loggable between.short between.bound _ written
    have wellLogged : WellLogged start size headDone.disk := by
      rw [WellLogged, header]
      exact between.loggable
    have recovered_current (blockno : Nat) (home : Home start size blockno) :
        recovered start headDone.disk blockno = current blockno :=
      (logged_contents blockno home (clean blockno)).trans (between.contents blockno home)
    have headDone_commits : headDone.commits = v.commits := View.writeBlocks_commits v _
    have headDone_log : headDone.log = v.log := View.writeBlocks_log v _
    have headDone_points (point : Disk × Nat) (member : point ∈ headDone.crashPoints) : good point := by
      rw [View.writeBlock_crashPoints] at member
      rcases List.mem_append.mp member with old | last
      · exact logDone_points point old
      · rw [List.mem_singleton.mp last, ← View.writeBlock_disk, View.writeBlocks_commits]
        exact after _ wellLogged recovered_current
    have logs : Triple (Shows v) writeLog (fun _ => Shows logDone) (Safe good) := by
      refine triple_bind getLog_spec fun log => triple_fact fun same => ?_
      subst same
      exact writeLogLoop_spec between.loggable logDone_points
    have heads : Triple (Shows logDone) writeHead (fun _ => Shows headDone) (Safe good) := by
      have log : logDone.log = v.log := View.writeBlocks_log v _
      have spec := writeHead_spec logDone_points
      rw [log] at spec
      exact spec
    have headDone_pins (blockno : Nat) (pin : headDone.pinned blockno) : blockno ∈ headDone.log.lh := by
      rw [headDone_log, ← between.pinned]
      exact ((v.writeBlocks_pinned _ blockno).mp ((logDone.writeBlocks_pinned [_] blockno).mp pin).2).2
    refine triple_bind logs fun _ => triple_bind heads fun _ => ?_
    refine triple_weaken (finish_spec (by simpa [headDone, logDone] using between.refs) headDone_pins
      (congrArg LogState.start headDone_log) ((congrArg LogState.size headDone_log).trans between.sizeAt)
      (by rw [headDone_log, header]) wellLogged headDone_points ?_) (fun _ shown => shown) ?_
    · intro disk ok same
      rw [headDone_commits]
      exact after disk ok fun blockno home => (same blockno home).trans (recovered_current blockno home)
    · rintro _ m' ⟨v', settled, log, commits, points', shown'⟩
      exact ⟨v', settled.congr recovered_current, by rw [log, headDone_log], commits.trans headDone_commits,
        points', shown'⟩
  · rw [if_neg nonempty]
    have none : v.log.lh = [] := by simpa using nonempty
    refine triple_pure fun m' shown' => ⟨v, ?_, ?_, rfl, points, shown'⟩
    · exact {
        refs := between.refs
        pinned := fun blockno => by simp [between.pinned, none]
        startAt := rfl
        sizeAt := between.sizeAt
        lh := none
        header := between.header
        home := fun blockno home => by rw [← clean blockno (by simp [none]), between.contents blockno home] }
    · rw [← none]

end Commit

/-- A crash with this disk, after so many commits, loses at most the commit that was in progress. -/
def Atomic (start size : Nat) (committed : List Disk) (point : Disk × Nat) : Prop :=
  WellLogged start size point.1 ∧ ∃ k home, point.2 ≤ k ∧ k ≤ point.2 + 1 ∧ committed[k]? = some home ∧
    ∀ blockno, Home start size blockno → recovered start point.1 blockno = home blockno

structure Running (start size : Nat) (spec : Spec) (last : Disk) (v : View) : Prop where
  between : Between start size spec.current last v
  ready : v.log.committing = false
  outstanding : v.log.outstanding = spec.outstanding
  lastCommit : spec.committed[v.commits]? = some last
  length : spec.committed.length = v.commits + 1
  points : ∀ point ∈ v.crashPoints, Atomic start size spec.committed point

def Runs (start size : Nat) (spec : Spec) (m : Machine) : Prop :=
  ∃ v last, Running start size spec last v ∧ Shows v m

section Operations

variable {start size : Nat} {spec : Spec} {v : View} {last : Disk}

theorem Atomic.later {committed : List Disk} {point : Disk × Nat} (atomic : Atomic start size committed point)
    (home : Disk) : Atomic start size (committed ++ [home]) point := by
  obtain ⟨ok, k, state, low, high, found, same⟩ := atomic
  refine ⟨ok, k, state, low, high, ?_, same⟩
  rw [List.getElem?_append_left (List.getElem?_eq_some_iff.mp found).1]
  exact found

theorem beginOp_spec (running : Running start size spec last v) : Triple (Shows v) beginOp
    (fun _ => Runs start size (spec.step .beginOp)) (Safe (Atomic start size spec.committed)) := by
  refine triple_weaken (modifyLog_spec _) (fun _ shown => shown) fun _ m shown => ⟨_, last, ?_, shown⟩
  exact {
    between := { running.between with }
    ready := running.ready
    outstanding := congrArg (· + 1) running.outstanding
    lastCommit := running.lastCommit
    length := running.length
    points := running.points }

theorem readBlock_spec (running : Running start size spec last v) (blockno : Nat) :
    Triple (Shows v) (readBlock blockno) (fun _ => Runs start size (spec.step (.read blockno)))
      (Safe (Atomic start size spec.committed)) := by
  refine triple_assuming fun m shown => ?_
  refine triple_bind (bread_spec running.points) fun _ => triple_fact fun _ => ?_
  refine triple_weaken (brelse_spec ?_ ?_) (fun _ shown => shown) fun _ m' shown' => ⟨v, last, running, ?_⟩
  · simp [View.take]
  · simpa [View.take] using shown.cache.clean blockno
  · simpa [View.take, View.drop] using shown'

theorem Running.modify (running : Running start size spec last v) {blockno : Nat} (f : Block → Block)
    (home : Home start size blockno) (bound : blockno < fsSize)
    (room : v.log.lh.length < logSize ∧ v.log.lh.length < v.log.size - 1) :
    Running start size (spec.step (.modify blockno f)) last
      (((v.assign blockno (f (v.contents blockno))).withLh (absorb v.log.lh blockno)).pin blockno) where
  between := {
    refs := running.between.refs
    pinned := fun b => by simp [View.pin, View.withLh, View.assign, mem_absorb, running.between.pinned]
    startAt := running.between.startAt
    sizeAt := running.between.sizeAt
    loggable := by
      refine ⟨fun b listed => ?_, ?_⟩
      · rcases mem_absorb.mp listed with rfl | old
        · exact home
        · exact running.between.loggable.homes b old
      · have length := absorb_length v.log.lh blockno
        rw [running.between.sizeAt] at room
        simp only [View.pin, View.withLh]
        omega
    short := Nat.le_trans (absorb_length v.log.lh blockno) room.1
    bound := by
      intro b listed
      rcases mem_absorb.mp listed with rfl | old
      · exact bound
      · exact running.between.bound b old
    header := running.between.header
    contents := by
      intro b outside
      have same (b : Nat) (outside : Home start size b) := running.between.contents b outside
      by_cases here : b = blockno
      · simp [View.pin, View.withLh, View.assign, Spec.step, here, same blockno home]
      · simp [View.pin, View.withLh, View.assign, Spec.step, here, same b outside]
    disk := running.between.disk }
  ready := running.ready
  outstanding := running.outstanding
  lastCommit := running.lastCommit
  length := running.length
  points := running.points

theorem modifyBlock_spec (running : Running start size spec last v) {blockno : Nat} (f : Block → Block)
    (home : Home start size blockno) : Triple (Shows v) (modifyBlock blockno f)
      (fun _ => Runs start size (spec.step (.modify blockno f))) (Safe (Atomic start size spec.committed)) := by
  refine triple_bind (bread_spec running.points) fun data => triple_fact fun ⟨bound, same⟩ => ?_
  subst same
  refine triple_bind (setData_spec (by simp [View.take]) _) fun _ => ?_
  refine triple_bind (logWrite_spec (by simp [View.take, View.assign]) running.points) fun _ =>
    triple_fact fun room => ?_
  refine triple_weaken (brelse_spec ?_ ?_) (fun _ shown => shown) fun _ m shown =>
    ⟨_, last, running.modify f home bound room, ?_⟩
  · simp [View.take, View.assign, View.withLh, View.pin]
  · simp [View.pin]
  · simpa [View.take, View.assign, View.withLh, View.pin, View.drop] using shown

theorem countCommit_spec {good : Disk × Nat → Prop} : Triple (Shows v) countCommit (fun _ => Shows { v with
      commits := v.commits + 1
      crashPoints := v.crashPoints ++ [(v.disk, v.commits + 1)] }) (Safe good) := by
  intro m shown
  refine ⟨shown.disk, shown.log, congrArg (· + 1) shown.commits, ?_, ?_⟩
  · simp [shown.disk, shown.commits, shown.crashPoints]
  · refine ⟨shown.cache.apart, fun buf member b holds => ?_, shown.cache.absent, shown.cache.clean⟩
    exact { shown.cache.cached buf member b holds with }

theorem Running.committed {m : Machine} (running : Running start size spec last v)
    (alone : spec.outstanding = 1) {v' : View} (shown : Shows v' m) (settled : Settled start size spec.current v')
    (log : v'.log = { v.log with outstanding := 0, committing := false, lh := [] })
    (commits : v'.commits = v.commits + 1)
    (points : ∀ point ∈ v'.crashPoints, Atomic start size (spec.committed ++ [spec.current]) point) :
    Running start size (spec.step .endOp) spec.current v' := by
  have next : spec.step .endOp = { spec with outstanding := 0, committed := spec.committed ++ [spec.current] } := by
    simp [Spec.step, alone]
  rw [next]
  refine ⟨settled.between shown, by simp [log], by simp [log], ?_, ?_, points⟩
  · rw [commits, ← running.length]
    simp
  · simp [running.length, commits]

theorem endOp_spec (running : Running start size spec last v) (held : 0 < spec.outstanding) :
    Triple (Shows v) endOp (fun _ => Runs start size (spec.step .endOp))
      (Safe (Atomic start size (spec.step .endOp).committed)) := by
  refine triple_bind (modifyLog_spec _) fun _ => ?_
  refine triple_bind getLog_spec fun log => triple_fact fun same => ?_
  subst same
  rw [if_neg (by simp [running.ready])]
  by_cases alone : spec.outstanding = 1
  · have committed : (spec.step .endOp).committed = spec.committed ++ [spec.current] := by
      simp [Spec.step, alone]
    rw [if_pos (by simp [running.outstanding, alone]), committed]
    have points (point : Disk × Nat) (member : point ∈ v.crashPoints) :
        Atomic start size (spec.committed ++ [spec.current]) point := (running.points point member).later spec.current
    have current : (spec.committed ++ [spec.current])[v.commits + 1]? = some spec.current := by
      rw [← running.length]
      simp
    refine triple_bind (modifyLog_spec _) fun _ => ?_
    refine triple_bind (commit_spec { running.between with } points ?_ ?_) fun _ => ?_
    · intro disk ok same
      refine (Atomic.later ⟨ok, v.commits, last, ?_, ?_, running.lastCommit, same⟩ _)
      · simp
      · simp
    · intro disk ok same
      exact ⟨ok, v.commits + 1, spec.current, by simp, by simp, current, same⟩
    · refine triple_exists fun v₁ => ?_
      refine triple_fact fun settled => triple_fact fun log => triple_fact fun commits =>
        triple_fact fun points₁ => ?_
      refine triple_bind countCommit_spec fun _ => ?_
      refine triple_weaken (modifyLog_spec _) (fun _ shown => shown) fun _ m shown =>
        ⟨_, _, running.committed alone shown { settled with } ?_ (congrArg (· + 1) commits) ?_, shown⟩
      · simp [log, running.outstanding, alone]
      · intro point member
        rcases List.mem_append.mp member with old | final
        · exact points₁ point old
        · rw [List.mem_singleton.mp final, commits]
          refine ⟨wellLogged_empty settled.header, v.commits + 1, spec.current, by simp, by simp, current, ?_⟩
          rw [recovered_empty settled.header]
          exact settled.home
  · have next : spec.step .endOp = { spec with outstanding := spec.outstanding - 1 } := by
      simp [Spec.step, alone]
    have more : v.log.outstanding - 1 ≠ 0 := by
      rw [running.outstanding]
      omega
    rw [if_neg more, next]
    refine triple_pure fun m shown => ⟨_, last, ?_, shown⟩
    exact {
      between := { running.between with }
      ready := running.ready
      outstanding := congrArg (· - 1) running.outstanding
      lastCommit := running.lastCommit
      length := running.length
      points := running.points }

end Operations

section Runs

variable {start size : Nat}

structure Invariant (start size : Nat) (spec : Spec) (s : System) : Prop where
  safe : Safe (Atomic start size spec.committed) s.machine
  runs : s.halted = false → Runs start size spec s.machine

theorem ofRun_invariant {x : Kernel Unit} {pre : Machine → Prop} {m : Machine} {spec : Spec}
    (triple : Triple pre x (fun _ => Runs start size spec) (Safe (Atomic start size spec.committed)))
    (before : pre m) : Invariant start size spec (System.ofRun (x.run m)) := by
  rcases value : x.run m with ⟨_ | _, m'⟩
  · exact ⟨triple.stopped before value, by simp [System.ofRun]⟩
  · obtain ⟨v, last, running, shown⟩ := triple.returned before value
    exact ⟨fun point member => running.points point (shown.crashPoints ▸ member), fun _ => ⟨v, last, running, shown⟩⟩

theorem op_spec {spec : Spec} {last : Disk} {v : View} (running : Running start size spec last v) {op : Op}
    (enabled : op.enabled v.log = true) : Triple (Shows v) op.code (fun _ => Runs start size (spec.step op))
      (Safe (Atomic start size (spec.step op).committed)) := by
  cases op with
  | beginOp => exact beginOp_spec running
  | read blockno => exact readBlock_spec running blockno
  | modify blockno f =>
    simp only [Op.enabled, decide_eq_true_eq, running.between.startAt, running.between.sizeAt] at enabled
    exact modifyBlock_spec running f enabled.2
  | endOp =>
    simp only [Op.enabled, decide_eq_true_eq, running.outstanding] at enabled
    exact endOp_spec running enabled

theorem step_invariant {spec : Spec} {s s' : System} {op : Op} (stepped : step s op = some s')
    (invariant : Invariant start size spec s) : Invariant start size (spec.step op) s' := by
  unfold step at stepped
  split at stepped
  next => cases stepped
  next alive =>
    split at stepped
    next enabled =>
      obtain ⟨v, last, running, shown⟩ := invariant.runs (by simpa using alive)
      rw [← Option.some.inj stepped]
      exact ofRun_invariant (op_spec running (shown.log ▸ enabled)) shown
    next => cases stepped

theorem initlog_invariant {disk : Disk} (empty : headerN (disk start) = 0) :
    Invariant start size (Spec.run disk []) (initlog start size disk) := by
  refine ofRun_invariant (triple_weaken (boot_recovers (wellLogged_empty empty) ?_) (fun _ same => same) ?_) rfl
  · intro disk' ok same
    rw [recovered_empty empty] at same
    exact ⟨ok, 0, disk, Nat.le_refl 0, by simp, by simp [Spec.run], same⟩
  · rintro _ m ⟨v, settled, log, commits, points, shown⟩
    rw [recovered_empty empty] at settled
    exact ⟨v, disk, ⟨settled.between shown, by simp [log], by simp [log, Spec.run], by simp [Spec.run, commits],
      by simp [Spec.run, commits], points⟩, shown⟩

theorem run_invariant {disk : Disk} (empty : headerN (disk start) = 0) {ops : List Op} {s : System}
    (ran : run start size disk ops = some s) : Invariant start size (Spec.run disk ops) s := by
  have steps (ops : List Op) {spec : Spec} {first : System} (invariant : Invariant start size spec first)
      (ran : ops.foldlM step first = some s) : Invariant start size (ops.foldl Spec.step spec) s := by
    induction ops generalizing spec first with
    | nil =>
      cases ran
      exact invariant
    | cons op ops ih =>
      obtain ⟨next, stepped, rest⟩ := Option.bind_eq_some_iff.mp ran
      exact ih (step_invariant stepped invariant) rest
  exact steps ops (initlog_invariant empty) ran

/-- Crash atomicity: whatever run of transactions is cut by a crash, and however often recovery is cut
again, a recovery that completes leaves the home blocks of a committed prefix that lacks no returned commit,
and an empty header. -/
theorem crash_atomic {disk crashDisk last : Disk} {ops : List Op} {s : System} {commits : Nat} {m : Machine}
    (empty : headerN (disk start) = 0) (ran : run start size disk ops = some s)
    (point : (crashDisk, commits) ∈ s.machine.crashPoints) (crashed : Crashed start size crashDisk last)
    (complete : recoverFromLog.run (boot start size last) = (some (), m)) :
    headerN (m.disk start) = 0 ∧
      ∃ k home, commits ≤ k ∧ k ≤ commits + 1 ∧ (Spec.run disk ops).committed[k]? = some home ∧
        ∀ blockno, Home start size blockno → m.disk blockno = home blockno := by
  obtain ⟨ok, k, home, low, high, found, same⟩ := (run_invariant empty ran).safe _ point
  obtain ⟨ok', same'⟩ := crashed_recovered ok crashed
  have triple : Triple _ recoverFromLog _ (Safe fun _ => True) := boot_recovers ok' fun _ _ _ => trivial
  obtain ⟨v, settled, _, _, _, shown⟩ := triple.returned rfl complete
  rw [shown.disk]
  refine ⟨settled.header, k, home, low, high, found, fun blockno outside => ?_⟩
  rw [settled.home blockno outside, same' blockno outside, same blockno outside]

def blankDisk : Disk := fun _ _ => 0

def oneWrite : List Op := [.beginOp, .modify 40 fun _ _ => 7, .endOp]

def recoveryAt (i : Nat) : Option (Nat × Option Unit) := do
  let s ← run 2 5 blankDisk oneWrite
  let point ← s.machine.crashPoints[i]?
  some (point.2, (recoverFromLog.run (boot 2 5 point.1)).1)

-- The crash right after the header of the only transaction was written, before its home block.
theorem crash_atomic_after_head : ∃ s crashDisk m, run 2 5 blankDisk oneWrite = some s ∧
    (crashDisk, 0) ∈ s.machine.crashPoints ∧
    recoverFromLog.run (boot 2 5 crashDisk) = (some (), m) ∧ headerN (m.disk 2) = 0 ∧
    ∃ k home, 0 ≤ k ∧ k ≤ 0 + 1 ∧ (Spec.run blankDisk oneWrite).committed[k]? = some home ∧
      ∀ blockno, Home 2 5 blockno → m.disk blockno = home blockno := by
  have value : recoveryAt 3 = some (0, some ()) := by decide +kernel
  unfold recoveryAt at value
  obtain ⟨s, ran, found⟩ := Option.bind_eq_some_iff.mp value
  obtain ⟨⟨crashDisk, commits⟩, listed, result⟩ := Option.bind_eq_some_iff.mp found
  obtain ⟨rfl, returned⟩ := Prod.mk.inj (Option.some.inj result)
  have point : (crashDisk, 0) ∈ s.machine.crashPoints := List.mem_of_getElem? listed
  have complete : recoverFromLog.run (boot 2 5 crashDisk) =
      (some (), (recoverFromLog.run (boot 2 5 crashDisk)).2) := Prod.ext returned rfl
  exact ⟨s, crashDisk, _, ran, point, complete,
    crash_atomic (by decide) ran point Crashed.first complete⟩

end Runs

end Xv6.Log
