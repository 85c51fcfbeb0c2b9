import Xv6.Fs.Calls

set_option autoImplicit false

namespace Xv6.Fs

inductive Descends (c : Core) : Nat → Prop where
  | root : Descends c rootIno
  | entry {d x : Nat} (above : Descends c d) (used : x ≠ 0) (named : 0 < (c.inodes d).names x) : Descends c x

/-- The link count of an inode is the number of its names and of the directories whose `..` it is. A
directory out of the tree has no entries. -/
structure Counted (c : Core) : Prop where
  tree : Tree c
  exact : ∀ i, (c.inodes i).type ≠ .free → (c.inodes i).nlink = links c i + uplinks c i
  bare : ∀ d, ¬Attached c d → ∀ x, x ≠ 0 → (c.inodes d).names x = 0
  descends : ∀ d, Attached c d → Descends c d
  blank : ∀ i, (c.inodes i).type = .free → (c.inodes i).blocks = 0
  budget : blocksUsed c + c.freeBlocks ≤ fsSize

section Counted

variable {c e : Core} {d i dp x : Nat}

theorem Counted.uplinks_zero (counted : Counted c) (detached : ¬Attached c d) : uplinks c d = 0 := by
  refine Finset.sum_eq_zero fun y _ => ?_
  rw [uplink, if_neg]
  rintro ⟨⟨isDir, isRoot | named⟩, rfl⟩
  · subst isRoot
    rw [counted.tree.rootUp] at detached
    exact detached ⟨isDir, Or.inl rfl⟩
  · have placed := counted.tree.placed y isDir named
    rw [counted.bare _ detached y (counted.tree.dirBound isDir).1] at placed
    omega

theorem Counted.attached_iff (counted : Counted c) (isDir : (c.inodes d).type = .dir) :
    Attached c d ↔ (c.inodes d).nlink ≠ 0 := by
  have exact := counted.exact d (by simp [isDir])
  constructor
  · rintro ⟨_, rfl | named⟩
    · have := counted.tree.uplinks_pos ⟨counted.tree.rootDir, Or.inl rfl⟩
      rw [counted.tree.rootUp] at this
      omega
    · omega
  · intro linked
    by_contra detached
    have := counted.uplinks_zero detached
    have : links c d = 0 := by
      by_contra named
      exact detached ⟨isDir, Or.inr (Nat.pos_of_ne_zero named)⟩
    omega

theorem slots_le_blocks {ip : Inode} (isDir : ip.type = .dir) : ip.slots.length ≤ 32 * ip.blocks := by
  simp only [Inode.blocks, Inode.size, isDir, if_true, direntSize, blocksFor, bSize]
  split <;> omega

theorem Tree.names_uplink_le (tree : Tree c) (d : Nat) :
    (c.inodes d).names x + uplink c d x ≤ 32 * (c.inodes d).blocks := by
  by_cases isDir : (c.inodes d).type = .dir
  · obtain ⟨up, rest, slots, _⟩ := tree.shaped d isDir
    have room := slots_le_blocks isDir
    have counted : (c.inodes d).names x ≤ rest.length := by
      rw [Inode.names, if_pos isDir, slots]
      exact List.countP_le_length
    have one : uplink c d x ≤ 1 := by
      unfold uplink
      split <;> omega
    rw [slots] at room
    simp only [List.length_cons] at room
    omega
  · have none : uplink c d x = 0 := by simp [uplink, Attached, isDir]
    simp [Inode.names, isDir, none]

theorem Tree.links_le (tree : Tree c) : links c x + uplinks c x ≤ 32 * blocksUsed c := by
  unfold links uplinks blocksUsed
  rw [← Finset.sum_add_distrib, Finset.mul_sum]
  exact Finset.sum_le_sum fun d _ => tree.names_uplink_le d

theorem short_eq {n : Int} (low : 0 ≤ n) (high : n ≤ 32767) : short n = n := by
  unfold short
  rw [Int.bmod_eq_of_le] <;> omega

theorem Counted.nlink_range (counted : Counted c) (typed : (c.inodes i).type ≠ .free) :
    0 ≤ (c.inodes i).nlink ∧ (c.inodes i).nlink ≤ 32767 := by
  have exact := counted.exact i typed
  have le := counted.tree.links_le (x := i)
  have := counted.budget
  simp only [fsSize] at this
  omega

theorem blocksUsed_change (ninodes : e.ninodes = c.ninodes) (apart : dp ≠ i) (boundI : i < c.ninodes)
    (boundDp : dp < c.ninodes) (others : ∀ j, j ≠ i → j ≠ dp → e.inodes j = c.inodes j) :
    blocksUsed e + (c.inodes i).blocks + (c.inodes dp).blocks =
      blocksUsed c + (e.inodes i).blocks + (e.inodes dp).blocks := by
  unfold blocksUsed
  rw [ninodes]
  exact sum_change_two (f := fun d => (c.inodes d).blocks) (g := fun d => (e.inodes d).blocks) apart.symm
    boundI boundDp fun d awayI awayDp => by rw [others d awayI awayDp]

variable {name : Name}

theorem NewName.descends (new : NewName c e dp i name) (tree : Tree c) (below : Descends c d) : Descends e d := by
  induction below with
  | root => exact .root
  | @entry d x above used named ih =>
    refine .entry ih used ?_
    by_cases parent : d = dp
    · rw [parent] at named ⊢
      rw [new.names tree used]
      omega
    · have away : d ≠ i := fun same => new.notDir (same ▸ names_isDir named)
      rwa [new.others d away parent]

theorem NewName.counted (new : NewName c e dp i name) (counted : Counted c) (tree : Tree e)
    (linked : (c.inodes dp).nlink ≠ 0) (up : (e.inodes i).type = .dir → (e.inodes i).up = dp)
    (budget : e.freeBlocks + (e.inodes i).blocks + (e.inodes dp).blocks =
      c.freeBlocks + (c.inodes i).blocks + (c.inodes dp).blocks)
    (target : (e.inodes i).nlink = short (links c i + uplinks c i + 1)) (parent : (e.inodes dp).nlink =
      if (e.inodes i).type = .dir then short ((c.inodes dp).nlink + 1) else (c.inodes dp).nlink) : Counted e := by
  have attached := (counted.attached_iff new.isDir).mpr linked
  have used := (counted.tree.dirBound new.isDir).1
  have congr {d : Nat} (away : d ≠ i) : Attached e d ↔ Attached c d :=
    attached_congr (new.type away) (new.links_other counted.tree away)
  have budget' : blocksUsed e + e.freeBlocks ≤ fsSize := by
    have := blocksUsed_change new.ninodes new.apart new.bound.2 (counted.tree.dirBound new.isDir).2 new.others
    have := counted.budget
    omega
  have room (x : Nat) : links e x + uplinks e x ≤ 32767 := by
    have := tree.links_le (x := x)
    simp only [fsSize] at budget'
    omega
  refine ⟨tree, fun j typed => ?_, fun d detached x named => ?_, fun d above => ?_, fun j free => ?_, budget'⟩
  · have names := new.links_add counted.tree (tree.bound j typed).1
    have ups := new.uplinks_add counted.tree (x := j)
    have most := room j
    by_cases here : j = i
    · subst here
      have noLoop : ¬((e.inodes j).type = .dir ∧ (e.inodes j).up = j) := fun both =>
        new.apart ((up both.1).symm.trans both.2)
      rw [if_pos rfl] at names
      rw [if_neg noLoop] at ups
      rw [target, short_eq] <;> omega
    · rw [if_neg (Ne.symm here)] at names
      rw [new.type here] at typed
      have before := counted.exact j typed
      by_cases above : j = dp
      · subst above
        rw [parent]
        by_cases isDir : (e.inodes i).type = .dir
        · rw [if_pos ⟨isDir, up isDir⟩] at ups
          rw [if_pos isDir, short_eq] <;> omega
        · rw [if_neg (fun both => isDir both.1)] at ups
          rw [if_neg isDir]
          omega
      · have apart : ¬((e.inodes i).type = .dir ∧ (e.inodes i).up = j) := fun both =>
          above (both.2.symm.trans (up both.1))
        rw [if_neg apart] at ups
        rw [new.others j here above]
        omega
  · by_cases here : d = i
    · rw [here]
      exact new.bare x
    · have above : d ≠ dp := by
        rintro rfl
        exact detached ((congr here).mpr attached)
      rw [new.others d here above]
      exact counted.bare d (fun attached => detached ((congr here).mpr attached)) x named
  · by_cases here : d = i
    · subst here
      refine .entry (new.descends counted.tree (counted.descends dp attached)) new.bound.1 ?_
      rw [new.names counted.tree new.bound.1, if_pos rfl]
      omega
    · exact new.descends counted.tree (counted.descends d ((congr here).mp above))
  · have awayI : j ≠ i := fun same => new.typed (same ▸ free)
    have awayDp : j ≠ dp := fun same => by simp [same, new.stillDir] at free
    rw [new.others j awayI awayDp] at free ⊢
    exact counted.blank j free

theorem Made.counted {type : FileType} {major minor : Int} (creates : Creates c dp name type major minor i e)
    (kind : type ≠ .free) (counted : Counted c) (linked : (c.inodes dp).nlink ≠ 0) : Counted e := by
  have made := creates.made_of_tree counted.tree
  have new := made.newName creates kind
  have free := findFree_free creates.fresh
  refine new.counted counted (made.tree creates kind counted.tree) linked (fun isDir => made.up isDir) ?_ ?_ ?_
  · rw [counted.blank i free, Nat.add_zero]
    exact made.blocks
  · rw [counted.tree.unnamed i new.bound.1 free, counted.tree.uplinks_zero (by simp [free]), made.made]
    rfl
  · rw [made.sameType, made.parent]

theorem Linked.counted (linking : Links c i dp name e) (counted : Counted c) (linked : (c.inodes dp).nlink ≠ 0) :
    Counted e := by
  have table := linking.linked_of_tree counted.tree
  have new := table.newName linking counted.tree
  have notDir : (e.inodes i).type ≠ .dir := by
    rw [table.target]
    exact linking.notDir
  refine new.counted counted (table.tree linking counted.tree) linked (fun isDir => absurd isDir notDir) ?_ ?_ ?_
  · have same : (e.inodes i).blocks = (c.inodes i).blocks := by
      rw [table.target]
      rfl
    have := table.blocks
    omega
  · rw [table.target, ← counted.exact i linking.typed]
  · rw [if_neg notDir, table.parent]

theorem LostName.descends (lost : LostName c e dp i) (below : Descends c d) (away : d ≠ i) : Descends e d := by
  induction below with
  | root => exact .root
  | @entry d x above used named ih =>
    have awayD : d ≠ i := by
      rintro rfl
      rw [lost.bare x used] at named
      omega
    refine .entry (ih awayD) used ?_
    by_cases parent : d = dp
    · rw [parent] at named ⊢
      have := lost.names x used
      rw [if_neg (Ne.symm away)] at this
      omega
    · rwa [lost.others d awayD parent]

theorem Unlinked.counted {off : Nat} {d : Core} (unlinks : Unlinks c dp name i off d) (same : e.ninodes = c.ninodes)
    (table : Unlinked c dp i off e) (counted : Counted c) : Counted e := by
  have lost := table.lostName unlinks same counted.tree
  have tree := lost.tree counted.tree
  have above : Attached c dp := by
    by_contra detached
    have := lost.named
    rw [counted.bare dp detached i lost.used] at this
    omega
  have congr {d : Nat} (away : d ≠ i) : Attached e d ↔ Attached c d :=
    attached_congr (lost.type d) (lost.links_other counted.tree away)
  refine ⟨tree, fun j typed => ?_, fun d detached x named => ?_, fun d attached => ?_, fun j free => ?_, ?_⟩
  · rw [lost.type] at typed
    have names := lost.links_sub counted.tree (counted.tree.bound j typed).1
    have ups := lost.uplinks_sub counted.tree (x := j)
    have before := counted.exact j typed
    have range := counted.nlink_range typed
    by_cases here : j = i
    · subst here
      rw [if_pos rfl] at names
      rw [if_neg (fun both => lost.apart both.2)] at ups
      rw [table.target]
      dsimp only
      rw [short_eq] <;> omega
    · rw [if_neg (Ne.symm here)] at names
      by_cases parent : j = dp
      · subst parent
        rw [table.parent]
        dsimp only
        by_cases isDir : (c.inodes i).type = .dir
        · rw [if_pos ⟨isDir, rfl⟩] at ups
          rw [if_pos isDir, short_eq] <;> omega
        · rw [if_neg (fun both => isDir both.1)] at ups
          rw [if_neg isDir]
          omega
      · rw [if_neg (fun both => parent both.2.symm)] at ups
        rw [lost.others j here parent]
        omega
  · by_cases here : d = i
    · rw [here, lost.sameNames]
      exact lost.bare x named
    · have parent : d ≠ dp := by
        rintro rfl
        exact detached ((congr here).mpr above)
      rw [lost.others d here parent]
      exact counted.bare d (fun attached => detached ((congr here).mpr attached)) x named
  · have away : d ≠ i := by
      rintro rfl
      have isDir := attached.1
      rw [lost.type] at isDir
      obtain ⟨_, isRoot | named⟩ := attached
      · exact counted.tree.ne_root (counted.tree.links_pos lost.named) isRoot
      · rw [lost.detached counted.tree isDir] at named
        omega
    exact lost.descends (counted.descends d ((congr away).mp attached)) away
  · rw [lost.type] at free
    have awayI : j ≠ i := fun same => lost.typed (same ▸ free)
    have awayDp : j ≠ dp := fun same => by simp [same, lost.isDir] at free
    rw [lost.others j awayI awayDp]
    exact counted.blank j free
  · have := blocksUsed_change lost.ninodes lost.apart (counted.tree.bound i lost.typed).2
      (counted.tree.dirBound lost.isDir).2 lost.others
    have kept : (e.inodes i).blocks = (c.inodes i).blocks := by
      rw [table.target]
      rfl
    have := table.blocks
    have := counted.budget
    omega

theorem Counted.unneeded (counted : Counted c) (typed : (c.inodes i).type ≠ .free)
    (unlinked : (c.inodes i).nlink = 0) : Unneeded c i := by
  have := counted.exact i typed
  exact ⟨typed, by omega, by omega⟩

theorem Counted.ifree (counted : Counted c) (typed : (c.inodes i).type ≠ .free)
    (unlinked : (c.inodes i).nlink = 0) : Counted (c.ifree i) := by
  have unneeded := counted.unneeded typed unlinked
  have bound := (counted.tree.bound i typed).2
  have bare := counted.bare i (unneeded.not_attached counted.tree)
  have congr {d : Nat} (away : d ≠ i) : Attached (c.ifree i) d ↔ Attached c d :=
    attached_congr (by rw [ifree_inodes_other away]) (fun isDir => unneeded.links_same counted.tree isDir)
  refine ⟨unneeded.tree counted.tree, fun j typed => ?_, fun d detached x named => ?_, fun d attached => ?_,
    fun j free => ?_, ?_⟩
  · have away : j ≠ i := by
      rintro rfl
      simp at typed
    rw [ifree_inodes_other away] at typed ⊢
    have names := ifree_links (x := j) bound
    rw [bare j (counted.tree.bound j typed).1] at names
    rw [counted.exact j typed, unneeded.uplinks_same counted.tree]
    omega
  · by_cases here : d = i
    · rw [here, ifree_names]
    · rw [ifree_inodes_other here]
      exact counted.bare d (fun attached => detached ((congr here).mpr attached)) x named
  · have away : d ≠ i := by
      rintro rfl
      simp [Attached] at attached
    have below := counted.descends d ((congr away).mp attached)
    clear attached away
    induction below with
    | root => exact .root
    | @entry d x above used named ih =>
      have away : d ≠ i := by
        rintro rfl
        rw [bare x used] at named
        omega
      exact .entry ih used (by rwa [ifree_inodes_other away])
  · by_cases here : j = i
    · rw [here]
      simp [Inode.blocks, Inode.size, Core.ifree, blocksFor, bSize, nDirect]
    · rw [ifree_inodes_other here] at free ⊢
      exact counted.blank j free
  · have change := sum_change (f := fun d => (c.inodes d).blocks) (g := fun d => ((c.ifree i).inodes d).blocks)
      bound fun d away => by rw [ifree_inodes_other away]
    have gone : ((c.ifree i).inodes i).blocks = 0 := by
      simp [Inode.blocks, Inode.size, Core.ifree, blocksFor, bSize, nDirect]
    have back : (c.ifree i).freeBlocks = c.freeBlocks + (c.inodes i).blocks := rfl
    have := counted.budget
    unfold blocksUsed at this ⊢
    simp only [gone] at change
    rw [back]
    have same : (c.ifree i).ninodes = c.ninodes := rfl
    rw [same]
    omega

theorem SameDisk.counted (disk : SameDisk c e) (counted : Counted c) : Counted e := by
  refine ⟨disk.tree counted.tree, ?_, ?_, fun d attached => ?_, ?_, ?_⟩
  · simp only [disk.inodes, disk.links, disk.uplinks]
    exact counted.exact
  · simp only [disk.inodes, disk.attached]
    exact counted.bare
  · have below := counted.descends d (disk.attached.mp attached)
    clear attached
    induction below with
    | root => exact .root
    | entry _ used named ih => exact .entry ih used (by rwa [disk.inodes])
  · simp only [disk.inodes]
    exact counted.blank
  · simp only [blocksUsed, disk.ninodes, disk.inodes, disk.freeBlocks]
    exact counted.budget

/-- A call that makes no entry in a directory without links. -/
def ParentLinked (c : Core) (p : Nat) (call : Call) : Prop :=
  ∀ dp name, call.place c p = some (dp, name) → findSlot name (c.inodes dp).slots 0 = none →
    (c.inodes dp).nlink ≠ 0

theorem Edit.counted {p : Nat} {call : Call} (edit : Edit c p call dp i e) (linked : ParentLinked c p call)
    (counted : Counted c) : Counted e := by
  have refs := edit.refs
  cases edit with
  | make creates kind place => exact Made.counted creates kind counted (linked _ _ place creates.absent)
  | link links place => exact Linked.counted links counted (linked _ _ place links.absent)
  | unlink unlinks => exact unlinks.unlinked.counted unlinks refs.ninodes counted

theorem Net.counted {p : Nat} {call : Call} (net : Net c p call e) (linked : ParentLinked c p call)
    (counted : Counted c) (stable : Stable c) : Counted e := by
  have settled {d : Core} (before : Counted d) (settles : Settles d e) : Counted e :=
    settles.keeps (fun _ _ disk => disk.counted) (fun _ _ typed unlinked counted => counted.ifree typed unlinked)
      before
  rcases net.settles counted.tree stable with settles | ⟨dp, i, d, edit, settles⟩
  · exact settled counted settles
  · exact settled (edit.counted linked counted) settles

end Counted

section Reachable

inductive Reachable (c : Core) : Nat → Prop where
  | root : Reachable c rootIno
  | entry {d : Nat} {entry : Dirent} (above : Reachable c d) (isDir : (c.inodes d).type = .dir)
      (present : entry ∈ (c.inodes d).slots) (used : entry.inum ≠ 0) : Reachable c entry.inum

open Classical in
/-- The entries with this inode number and a name other than `.` in directories reachable from the root. -/
noncomputable def entriesNaming (c : Core) (i : Nat) : Nat :=
  ∑ d ∈ (Finset.range c.ninodes).filter fun d => Reachable c d ∧ (c.inodes d).type = .dir,
    (c.inodes d).slots.countP fun entry => decide (entry.inum = i ∧ entry.name ≠ dot)

structure ExactLinks (c : Core) : Prop where
  count : ∀ i, (c.inodes i).type ≠ .free → (c.inodes i).nlink = entriesNaming c i
  range : ∀ i, (c.inodes i).type ≠ .free → 0 ≤ (c.inodes i).nlink ∧ (c.inodes i).nlink ≤ 32767
  held : ∀ i, (c.inodes i).type ≠ .free → entriesNaming c i = 0 → 0 < c.ref i

variable {c : Core} {d i x : Nat}

theorem Counted.attached_up (counted : Counted c) (attached : Attached c d) : Attached c (c.inodes d).up := by
  by_contra detached
  have := counted.tree.uplinks_pos attached
  rw [counted.uplinks_zero detached] at this
  omega

theorem Counted.attached_of_reachable (counted : Counted c) (reachable : Reachable c x)
    (isDir : (c.inodes x).type = .dir) : Attached c x := by
  induction reachable with
  | root => exact ⟨isDir, Or.inl rfl⟩
  | @entry d entry above dir present used ih =>
    have attached := ih dir
    obtain ⟨up, rest, slots, upUsed, _⟩ := counted.tree.shaped d dir
    have upSame : (c.inodes d).up = up := by
      rw [Inode.up, slots]
      rfl
    rw [slots] at present
    rcases List.mem_cons.mp present with rfl | present
    · exact attached
    · rcases List.mem_cons.mp present with rfl | present
      · have := counted.attached_up attached
        rwa [upSame] at this
      · refine ⟨isDir, Or.inr (counted.tree.links_pos (d := d) ?_)⟩
        rw [Inode.names, if_pos dir, slots]
        exact naming_pos present

theorem reachable_of_descends (below : Descends c x) : Reachable c x := by
  induction below with
  | root => exact .root
  | @entry d x _ used named ih =>
    have isDir := names_isDir named
    rw [Inode.names, if_pos isDir] at named
    obtain ⟨entry, present, rfl⟩ := exists_of_naming_pos named
    exact .entry ih isDir (List.mem_of_mem_drop present) used

theorem Counted.reachable_iff (counted : Counted c) : Reachable c d ∧ (c.inodes d).type = .dir ↔ Attached c d :=
  ⟨fun both => counted.attached_of_reachable both.1 both.2,
    fun attached => ⟨reachable_of_descends (counted.descends d attached), attached.1⟩⟩

theorem Counted.entries (counted : Counted c) (named : x ≠ 0) (attached : Attached c d) :
    (c.inodes d).slots.countP (fun entry => decide (entry.inum = x ∧ entry.name ≠ dot)) =
      (c.inodes d).names x + uplink c d x := by
  obtain ⟨up, rest, slots, upUsed, proper⟩ := counted.tree.shaped d attached.1
  have upSame : (c.inodes d).up = up := by
    rw [Inode.up, slots]
    rfl
  have tail : rest.countP (fun entry => decide (entry.inum = x ∧ entry.name ≠ dot)) = naming x rest := by
    refine List.countP_congr fun entry present => ?_
    simp only [decide_eq_true_eq]
    refine ⟨And.left, fun same => ⟨same, (proper entry present ?_).1⟩⟩
    rw [same]
    exact named
  have notDot : dotdot ≠ dot := by decide
  rw [uplink, upSame, Inode.names, if_pos attached.1, slots, List.countP_cons, List.countP_cons, tail]
  simp [attached, notDot]

theorem Counted.entriesNaming_eq (counted : Counted c) (named : x ≠ 0) :
    entriesNaming c x = links c x + uplinks c x := by
  unfold entriesNaming links uplinks
  rw [Finset.sum_filter, ← Finset.sum_add_distrib]
  refine Finset.sum_congr rfl fun d _ => ?_
  by_cases attached : Attached c d
  · rw [if_pos (counted.reachable_iff.mpr attached), counted.entries named attached]
  · rw [if_neg (fun both => attached (counted.reachable_iff.mp both)), counted.bare d attached x named]
    simp [uplink, attached]

theorem Counted.exactLinks (counted : Counted c) (stable : Stable c) : ExactLinks c := by
  have count (i : Nat) (typed : (c.inodes i).type ≠ .free) : (c.inodes i).nlink = entriesNaming c i := by
    rw [counted.exact i typed, counted.entriesNaming_eq (counted.tree.bound i typed).1]
    omega
  refine ⟨count, fun i typed => counted.nlink_range typed, fun i typed unnamed => ?_⟩
  exact stable.kept i typed (by rw [count i typed, unnamed]; rfl)

end Reachable

section Images

def Proc.refersTo (proc : Proc) (i : Nat) : Bool := decide (proc.cwd = i)

def File.refersTo (file : File) (i : Nat) : Bool := decide (0 < file.ref ∧ file.type = .inode ∧ file.ip = i)

def Accounted (c : Core) : Prop :=
  ∀ i, c.ref i = c.procs.countP (fun proc => proc.refersTo i) + c.files.countP fun file => file.refersTo i

structure Consistent (c : Core) : Prop where
  stable : Stable c
  idle : IdleFiles c
  counted : Counted c
  accounted : Accounted c
  parents : ∀ d, (c.inodes d).type = .dir → (c.inodes (c.inodes d).up).type ≠ .free

def sample : Core where
  ninodes := 6
  inodes i :=
    if i = 1 then
      { freshInode .dir with
        nlink := 2
        slots := [{ inum := 1, name := dot }, { inum := 1, name := dotdot }, { inum := 2, name := ['a'] },
          { inum := 3, name := ['f'] }] }
    else if i = 2 then
      { freshInode .dir with
        nlink := 1
        slots := [{ inum := 2, name := dot }, { inum := 1, name := dotdot }] }
    else if i = 3 then { freshInode .file with nlink := 1, data := [104, 105] }
    else freshInode .free
  ref i := if i = 2 then 1 else 0
  valid i := decide (i = 2)
  used := 1
  freeBlocks := 900
  files := List.replicate nfile emptyFile
  procs := [{ cwd := 2, ofile := List.replicate nofile none }]

variable {i : Nat}

theorem sample_free (one : i ≠ 1) (two : i ≠ 2) (three : i ≠ 3) : sample.inodes i = freshInode .free := by
  simp [sample, one, two, three]

theorem sample_allocated (typed : (sample.inodes i).type ≠ .free) : i = 1 ∨ i = 2 ∨ i = 3 := by
  by_contra none
  simp only [not_or] at none
  rw [sample_free none.1 none.2.1 none.2.2] at typed
  exact typed rfl

theorem sample_blank (free : (sample.inodes i).type = .free) : sample.inodes i = freshInode .free := by
  refine sample_free ?_ ?_ ?_
  all_goals
    rintro rfl
    cases free

theorem sample_dir (isDir : (sample.inodes i).type = .dir) : i = 1 ∨ i = 2 := by
  have typed : (sample.inodes i).type ≠ .free := by simp [isDir]
  rcases sample_allocated typed with rfl | rfl | rfl
  · exact Or.inl rfl
  · exact Or.inr rfl
  · cases isDir

theorem sample_links (x : Nat) : links sample x = (if 3 = x then 1 else 0) + if 2 = x then 1 else 0 := by
  simp [links, Finset.sum_range_succ, sample, Inode.names, freshInode]

theorem sample_tree : Tree sample where
  small := by decide
  bound i typed := by rcases sample_allocated typed with rfl | rfl | rfl <;> decide
  shaped d isDir := by
    rcases sample_dir isDir with rfl | rfl
    · exact ⟨1, [{ inum := 2, name := ['a'] }, { inum := 3, name := ['f'] }], rfl, by decide, by decide⟩
    · exact ⟨1, [], rfl, by decide, by simp⟩
  rootDir := rfl
  rootUp := rfl
  rootUnnamed := by decide
  once d isDir := by rcases sample_dir isDir with rfl | rfl <;> decide
  placed d isDir := by rcases sample_dir isDir with rfl | rfl <;> decide
  unnamed i used free := by
    rw [sample_links, if_neg, if_neg]
    · rintro rfl
      cases free
    · rintro rfl
      cases free

theorem sample_counted : Counted sample where
  tree := sample_tree
  exact i typed := by rcases sample_allocated typed with rfl | rfl | rfl <;> decide
  bare d detached x _ := by
    by_cases isDir : (sample.inodes d).type = .dir
    · rcases sample_dir isDir with rfl | rfl <;> exact absurd (by decide) detached
    · simp [Inode.names, isDir]
  descends d attached := by
    rcases sample_dir attached.1 with rfl | rfl
    · exact .root
    · exact .entry .root (by decide) (by decide)
  blank i free := by
    rw [sample_blank free]
    decide
  budget := by decide

theorem sample_stable : Stable sample where
  fits i := by
    by_cases free : (sample.inodes i).type = .free
    · rw [sample_blank free]
      decide
    · rcases sample_allocated free with rfl | rfl | rfl <;> decide
  valid i := by
    by_cases two : i = 2
    · simp [two, sample]
    · simp [two, sample]
  typed i positive := by
    by_cases two : i = 2
    · simp [two, sample, freshInode]
    · simp [two, sample] at positive
  kept i typed := by rcases sample_allocated typed with rfl | rfl | rfl <;> decide

theorem sample_consistent : Consistent sample where
  stable := sample_stable
  idle file present _ := by
    rw [List.eq_of_mem_replicate present]
    rfl
  counted := sample_counted
  accounted i := by simp [sample, List.countP_replicate, Proc.refersTo, File.refersTo, emptyFile, eq_comm]
  parents d isDir := by rcases sample_dir isDir with rfl | rfl <;> decide

def sampleState : State := { core := sample, outstanding := 0, logged := [] }

end Images

section Runs

theorem link_counts_exact {s s' : State} (consistent : Consistent s.core)
    (ran : Reaches (fun c p call _ => ParentLinked c p call) s s') : ExactLinks s'.core := by
  have kept : Counted s'.core ∧ Stable s'.core ∧ IdleFiles s'.core := by
    induction ran with
    | start => exact ⟨consistent.counted, consistent.stable, consistent.idle⟩
    | step _ performed allowed ih =>
      obtain ⟨counted, stable, idle⟩ := ih
      have net := (perform_net stable idle performed).2
      exact ⟨net.counted allowed counted stable, net.stable counted.tree stable, net.idleFiles idle⟩
  exact kept.1.exactLinks kept.2.1

theorem link_counts_exact_after_mkdir :
    ∃ s', perform sampleState 0 (.mkdir (some ['b'])) = some s' ∧ ExactLinks s'.core := by
  have returns : (perform sampleState 0 (.mkdir (some ['b']))).isSome = true := by decide +kernel
  obtain ⟨s', performed⟩ := Option.isSome_iff_exists.mp returns
  have consistent : Consistent sampleState.core := sample_consistent
  refine ⟨s', performed, link_counts_exact consistent (.step .start performed fun dp name place _ => ?_)⟩
  have here : (Call.mkdir (some ['b'])).place sample 0 = some (2, ['b']) := by decide +kernel
  cases here.symm.trans place
  decide

def removeThenCreate : List (Nat × Call) :=
  [(0, .unlink (some ['/', 'a'])), (0, .open (some ['x']) (oCreate ||| oRdwr))]

theorem removeThenCreate_performed : ((performAll sampleState removeThenCreate).map fun s =>
      ((s.core.inodes 1).slots, (s.core.inodes 3).type, (s.core.inodes 4).type, (s.core.inodes 4).nlink)) =
    some ([{ inum := 1, name := dot }, { inum := 1, name := dotdot }, { inum := 0, name := [] },
      { inum := 3, name := ['f'] }], .file, .file, 1) := by
  decide +kernel

/-- The new file is named only in a directory that no path leads to. -/
theorem create_in_removed_directory :
    ∃ s s', Consistent s.core ∧ Reaches (fun _ _ _ _ => True) s s' ∧ ¬ExactLinks s'.core := by
  obtain ⟨s', performed, same⟩ := Option.map_eq_some_iff.mp removeThenCreate_performed
  simp only [Prod.mk.injEq] at same
  obtain ⟨slots, isFile, type, nlink⟩ := same
  refine ⟨sampleState, s', sample_consistent,
    Reaches.start.performAll (fun _ _ _ _ => trivial) performed, fun exact => ?_⟩
  have reached {d : Nat} (reachable : Reachable s'.core d) : d = 1 ∨ d = 3 := by
    induction reachable with
    | root => exact Or.inl rfl
    | entry _ isDir present used ih =>
      rcases ih with rfl | rfl
      · rw [slots] at present
        simp only [List.mem_cons, List.not_mem_nil, or_false] at present
        rcases present with rfl | rfl | rfl | rfl
        · exact Or.inl rfl
        · exact Or.inl rfl
        · exact absurd rfl used
        · exact Or.inr rfl
      · rw [isFile] at isDir
        cases isDir
  have unnamed : entriesNaming s'.core 4 = 0 := by
    classical
    refine Finset.sum_eq_zero fun d present => ?_
    obtain ⟨reachable, isDir⟩ := (Finset.mem_filter.mp present).2
    rcases reached reachable with rfl | rfl
    · rw [slots]
      decide
    · rw [isFile] at isDir
      cases isDir
  have counted := exact.count 4 (by simp [type])
  rw [unnamed, nlink] at counted
  cases counted

end Runs

end Xv6.Fs
