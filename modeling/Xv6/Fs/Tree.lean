import Xv6.Fs.Names

set_option autoImplicit false

namespace Xv6.Fs

/-- Every directory has at most one name, and it is in the directory that its `..` names. -/
structure Tree (c : Core) : Prop where
  small : c.ninodes ≤ 2 ^ 16
  bound : ∀ i, (c.inodes i).type ≠ .free → i ≠ 0 ∧ i < c.ninodes
  shaped : ∀ d, (c.inodes d).type = .dir → Shaped d (c.inodes d).slots
  rootDir : (c.inodes rootIno).type = .dir
  rootUp : (c.inodes rootIno).up = rootIno
  rootUnnamed : links c rootIno = 0
  once : ∀ d, (c.inodes d).type = .dir → links c d ≤ 1
  placed : ∀ d, (c.inodes d).type = .dir → 0 < links c d → 0 < (c.inodes (c.inodes d).up).names d
  unnamed : ∀ i, i ≠ 0 → (c.inodes i).type = .free → links c i = 0

section Names

variable {c : Core} {d i x : Nat}

theorem names_isDir {ip : Inode} (positive : 0 < ip.names x) : ip.type = .dir := by
  by_contra notDir
  simp [Inode.names, notDir] at positive

theorem names_le_links (bound : d < c.ninodes) : (c.inodes d).names x ≤ links c x :=
  le_sum (f := fun d => (c.inodes d).names x) bound

theorem Tree.dirBound (tree : Tree c) (isDir : (c.inodes d).type = .dir) : d ≠ 0 ∧ d < c.ninodes :=
  tree.bound d (by simp [isDir])

theorem Tree.links_pos (tree : Tree c) (positive : 0 < (c.inodes d).names x) : 0 < links c x :=
  Nat.lt_of_lt_of_le positive (names_le_links (tree.dirBound (names_isDir positive)).2)

theorem Tree.up_of_names (tree : Tree c) (isDir : (c.inodes x).type = .dir)
    (positive : 0 < (c.inodes d).names x) : (c.inodes x).up = d := by
  by_contra apart
  have placed := tree.placed x isDir (tree.links_pos positive)
  have both := add_le_sum (f := fun d => (c.inodes d).names x) apart (tree.dirBound (names_isDir placed)).2
    (tree.dirBound (names_isDir positive)).2
  have := tree.once x isDir
  unfold links at this
  omega

theorem Tree.ne_root (tree : Tree c) (positive : 0 < links c d) : d ≠ rootIno := by
  rintro rfl
  have := tree.rootUnnamed
  omega

theorem Tree.up_isDir (tree : Tree c) (attached : Attached c d) : (c.inodes (c.inodes d).up).type = .dir := by
  obtain ⟨isDir, rfl | named⟩ := attached
  · rw [tree.rootUp]
    exact tree.rootDir
  · exact names_isDir (tree.placed d isDir named)

theorem uplink_le_uplinks (bound : d < c.ninodes) : uplink c d x ≤ uplinks c x :=
  le_sum (f := fun d => uplink c d x) bound

theorem Tree.uplinks_pos (tree : Tree c) (attached : Attached c d) : 0 < uplinks c (c.inodes d).up := by
  have one : uplink c d (c.inodes d).up = 1 := by simp [uplink, attached]
  have := uplink_le_uplinks (c := c) (x := (c.inodes d).up) (tree.dirBound attached.1).2
  omega

theorem Tree.uplinks_zero (tree : Tree c) (notDir : (c.inodes x).type ≠ .dir) : uplinks c x = 0 := by
  refine Finset.sum_eq_zero fun d _ => ?_
  rw [uplink, if_neg]
  rintro ⟨attached, rfl⟩
  exact notDir (tree.up_isDir attached)

theorem isdirempty_names (empty : isdirempty (c.inodes i) = true) (named : x ≠ 0) : (c.inodes i).names x = 0 := by
  unfold Inode.names
  split
  next =>
    refine naming_eq_zero fun entry present => ?_
    have unused : entry.inum = 0 := by simpa using List.all_eq_true.mp empty entry present
    rw [unused]
    exact named.symm
  next => rfl

end Names

section NewName

variable {c e : Core} {dp i x : Nat} {name : Name}

/-- `dp` gets an entry for `i`, which is not a directory before and has no entries of its own. -/
structure NewName (c e : Core) (dp i : Nat) (name : Name) : Prop where
  ninodes : e.ninodes = c.ninodes
  apart : dp ≠ i
  bound : i ≠ 0 ∧ i < c.ninodes
  isDir : (c.inodes dp).type = .dir
  absent : findSlot name (c.inodes dp).slots 0 = none
  notDir : (c.inodes i).type ≠ .dir
  typed : (e.inodes i).type ≠ .free
  bare : ∀ x, (e.inodes i).names x = 0
  stillDir : (e.inodes dp).type = .dir
  slots : (e.inodes dp).slots = putSlot (c.inodes dp).slots (emptySlot (c.inodes dp).slots) { inum := i, name }
  others : ∀ j, j ≠ i → j ≠ dp → e.inodes j = c.inodes j

theorem NewName.shaped (new : NewName c e dp i name) (tree : Tree c) :
    Shaped dp (e.inodes dp).slots ∧ (e.inodes dp).up = (c.inodes dp).up := by
  obtain ⟨shaped, up, _⟩ := (tree.shaped dp new.isDir).add (i := i) (tree.dirBound new.isDir).1 new.absent
  rw [Inode.up, Inode.up, new.slots]
  exact ⟨shaped, up⟩

theorem NewName.names (new : NewName c e dp i name) (tree : Tree c) (named : x ≠ 0) :
    (e.inodes dp).names x = (c.inodes dp).names x + if i = x then 1 else 0 := by
  have rest := ((tree.shaped dp new.isDir).add (i := i) (tree.dirBound new.isDir).1 new.absent).2.2
  unfold Inode.names
  rw [if_pos new.stillDir, if_pos new.isDir, new.slots, rest, naming_putSlot_empty named]

theorem NewName.links_add (new : NewName c e dp i name) (tree : Tree c) (named : x ≠ 0) :
    links e x = links c x + if i = x then 1 else 0 := by
  have change := links_change (x := x) new.ninodes new.apart new.bound.2 (tree.dirBound new.isDir).2 new.others
  have before : (c.inodes i).names x = 0 := by simp [Inode.names, new.notDir]
  have after := new.bare x
  have parent := new.names tree named
  omega

theorem NewName.type (new : NewName c e dp i name) {d : Nat} (away : d ≠ i) :
    (e.inodes d).type = (c.inodes d).type := by
  by_cases here : d = dp
  · rw [here, new.stillDir, new.isDir]
  · rw [new.others d away here]

theorem NewName.up (new : NewName c e dp i name) (tree : Tree c) {d : Nat} (away : d ≠ i) :
    (e.inodes d).up = (c.inodes d).up := by
  by_cases here : d = dp
  · rw [here, (new.shaped tree).2]
  · rw [new.others d away here]

theorem NewName.links_other (new : NewName c e dp i name) (tree : Tree c) {d : Nat} (away : d ≠ i)
    (isDir : (c.inodes d).type = .dir) : links e d = links c d := by
  rw [new.links_add tree (tree.dirBound isDir).1, if_neg (Ne.symm away), Nat.add_zero]

theorem NewName.uplinks_add (new : NewName c e dp i name) (tree : Tree c) :
    uplinks e x = uplinks c x + if (e.inodes i).type = .dir ∧ (e.inodes i).up = x then 1 else 0 := by
  have change := uplinks_change (x := x) new.ninodes new.bound.2 (fun _ => new.type) (fun _ => new.up tree)
    (fun _ => new.links_other tree)
  have before : uplink c i x = 0 := by simp [uplink, Attached, new.notDir]
  have named : 0 < links e i := by
    rw [new.links_add tree new.bound.1, if_pos rfl]
    omega
  have after : uplink e i x = if (e.inodes i).type = .dir ∧ (e.inodes i).up = x then 1 else 0 := by
    simp [uplink, Attached, named]
  omega

theorem NewName.tree (new : NewName c e dp i name) (tree : Tree c) (made : (e.inodes i).type = .dir →
      Shaped i (e.inodes i).slots ∧ (e.inodes i).up = dp ∧ links c i = 0) : Tree e := by
  have notRoot : rootIno ≠ i := by
    rintro rfl
    exact new.notDir tree.rootDir
  refine ⟨?_, fun d typed => ?_, fun d isDir => ?_, ?_, ?_, ?_, fun d isDir => ?_, fun d isDir named => ?_,
    fun d used free => ?_⟩
  · rw [new.ninodes]
    exact tree.small
  · rw [new.ninodes]
    by_cases here : d = i
    · exact here ▸ new.bound
    · exact tree.bound d (new.type here ▸ typed)
  · by_cases here : d = i
    · subst here
      exact (made isDir).1
    · by_cases parent : d = dp
      · exact parent ▸ (new.shaped tree).1
      · rw [new.others d here parent] at isDir ⊢
        exact tree.shaped d isDir
  · rw [new.type notRoot]
    exact tree.rootDir
  · rw [new.up tree notRoot]
    exact tree.rootUp
  · rw [new.links_other tree notRoot tree.rootDir]
    exact tree.rootUnnamed
  · by_cases here : d = i
    · subst here
      rw [new.links_add tree new.bound.1, if_pos rfl, (made isDir).2.2]
    · rw [new.type here] at isDir
      rw [new.links_other tree here isDir]
      exact tree.once d isDir
  · by_cases here : d = i
    · subst here
      rw [(made isDir).2.1, new.names tree new.bound.1, if_pos rfl]
      omega
    · rw [new.type here] at isDir
      rw [new.links_other tree here isDir] at named
      have placed := tree.placed d isDir named
      rw [new.up tree here]
      have away : (c.inodes d).up ≠ i := fun same => new.notDir (same ▸ names_isDir placed)
      by_cases parent : (c.inodes d).up = dp
      · rw [parent] at placed ⊢
        rw [new.names tree (tree.dirBound isDir).1]
        omega
      · rwa [new.others _ away parent]
  · have away : d ≠ i := fun same => new.typed (same ▸ free)
    rw [new.links_add tree used, if_neg (Ne.symm away)]
    exact tree.unnamed d used (new.type away ▸ free)

variable {type : FileType} {major minor : Int}

theorem Made.newName (creates : Creates c dp name type major minor i e) (made : Made c dp name type major minor i e)
    (kind : type ≠ .free) : NewName c e dp i name where
  ninodes := (created_refs creates.value).ninodes
  apart := creates.apart
  bound := findFree_bound creates.fresh
  isDir := creates.isDir
  absent := creates.absent
  notDir := by simp [findFree_free creates.fresh]
  typed := by
    rw [made.made]
    exact kind
  bare x := by
    by_cases dir : type = .dir
    · simp [Inode.names, made.made, dir]
    · simp [Inode.names, made.made, dir, newInode, freshInode]
  stillDir := by
    rw [made.parent]
    exact creates.isDir
  slots := by rw [made.parent]
  others := made.others

theorem Made.sameType (made : Made c dp name type major minor i e) : (e.inodes i).type = type := by
  rw [made.made]
  rfl

theorem Made.up (made : Made c dp name type major minor i e) (isDir : (e.inodes i).type = .dir) :
    (e.inodes i).up = dp := by
  rw [made.sameType] at isDir
  rw [Inode.up, made.made, isDir]
  rfl

theorem Made.tree (creates : Creates c dp name type major minor i e) (made : Made c dp name type major minor i e)
    (kind : type ≠ .free) (tree : Tree c) : Tree e := by
  have new := made.newName creates kind
  refine new.tree tree fun isDir => ⟨?_, made.up isDir, tree.unnamed i new.bound.1 (findFree_free creates.fresh)⟩
  rw [made.sameType] at isDir
  rw [made.made, isDir]
  exact ⟨dp, [], rfl, (tree.dirBound creates.isDir).1, by simp⟩

theorem Linked.newName (linking : Links c i dp name e) (linked : Linked c i dp name e) (tree : Tree c) :
    NewName c e dp i name where
  ninodes := ((setInode_refs _).trans (writeSlot_refs linking.value)).ninodes
  apart := linking.apart
  bound := tree.bound i linking.typed
  isDir := linking.isDir
  absent := linking.absent
  notDir := linking.notDir
  typed := by
    rw [linked.target]
    exact linking.typed
  bare x := by
    rw [linked.target]
    unfold Inode.names
    rw [if_neg linking.notDir]
  stillDir := by
    rw [linked.parent]
    exact linking.isDir
  slots := by rw [linked.parent]
  others := linked.others

theorem Linked.tree (linking : Links c i dp name e) (linked : Linked c i dp name e) (tree : Tree c) : Tree e := by
  refine (linked.newName linking tree).tree tree fun isDir => ?_
  rw [linked.target] at isDir
  exact absurd isDir linking.notDir

end NewName

section LostName

variable {c e : Core} {dp i off x : Nat} {name : Name}

/-- `dp` loses its entry for `i`, which has no entries when it is a directory. -/
structure LostName (c e : Core) (dp i : Nat) : Prop where
  ninodes : e.ninodes = c.ninodes
  apart : dp ≠ i
  used : i ≠ 0
  typed : (c.inodes i).type ≠ .free
  isDir : (c.inodes dp).type = .dir
  bare : ∀ x, x ≠ 0 → (c.inodes i).names x = 0
  sameType : (e.inodes i).type = (c.inodes i).type
  sameSlots : (e.inodes i).slots = (c.inodes i).slots
  stillDir : (e.inodes dp).type = .dir
  shaped : Shaped dp (e.inodes dp).slots
  upSame : (e.inodes dp).up = (c.inodes dp).up
  names : ∀ x, x ≠ 0 → (e.inodes dp).names x + (if i = x then 1 else 0) = (c.inodes dp).names x
  others : ∀ j, j ≠ i → j ≠ dp → e.inodes j = c.inodes j

theorem Unlinked.lostName {d : Core} (unlinks : Unlinks c dp name i off d)
    (ninodes : e.ninodes = c.ninodes) (unlinked : Unlinked c dp i off e) (tree : Tree c) : LostName c e dp i := by
  obtain ⟨_, _, used, _⟩ := findSlot_some unlinks.found
  have cleared : Dirent.inum { inum := 0, name := [] } = 0 := rfl
  obtain ⟨shaped, up, n, present, rest⟩ := (tree.shaped dp unlinks.isDir).clear unlinks.notDot
    unlinks.notDotdot unlinks.found cleared
  have slots : (e.inodes dp).slots = putSlot (c.inodes dp).slots off { inum := 0, name := [] } := by
    rw [unlinked.parent]
  have stillDir : (e.inodes dp).type = .dir := by
    rw [unlinked.parent]
    exact unlinks.isDir
  refine ⟨ninodes, unlinks.apart, used, unlinks.typed, unlinks.isDir, fun x named => ?_, ?_, ?_, stillDir, ?_, ?_,
    fun x named => ?_, unlinked.others⟩
  · by_cases isDir : (c.inodes i).type = .dir
    · exact isdirempty_names (unlinks.empty isDir) named
    · simp [Inode.names, isDir]
  · rw [unlinked.target]
  · rw [unlinked.target]
  · rw [slots]
    exact shaped
  · rw [Inode.up, Inode.up, slots]
    exact up
  · unfold Inode.names
    rw [if_pos stillDir, if_pos unlinks.isDir, slots, rest]
    exact naming_putSlot_clear named present cleared

theorem LostName.sameNames (lost : LostName c e dp i) : (e.inodes i).names x = (c.inodes i).names x := by
  rw [Inode.names, Inode.names, lost.sameType, lost.sameSlots]

theorem LostName.links_sub (lost : LostName c e dp i) (tree : Tree c) (named : x ≠ 0) :
    links e x + (if i = x then 1 else 0) = links c x := by
  have change := links_change (x := x) lost.ninodes lost.apart (tree.bound i lost.typed).2
    (tree.dirBound lost.isDir).2 lost.others
  have same := lost.sameNames (x := x)
  have parent := lost.names x named
  omega

theorem LostName.type (lost : LostName c e dp i) (d : Nat) : (e.inodes d).type = (c.inodes d).type := by
  by_cases here : d = i
  · rw [here, lost.sameType]
  · by_cases parent : d = dp
    · rw [parent, lost.stillDir, lost.isDir]
    · rw [lost.others d here parent]

theorem LostName.up (lost : LostName c e dp i) (d : Nat) : (e.inodes d).up = (c.inodes d).up := by
  by_cases here : d = i
  · rw [here, Inode.up, Inode.up, lost.sameSlots]
  · by_cases parent : d = dp
    · rw [parent, lost.upSame]
    · rw [lost.others d here parent]

theorem LostName.links_other (lost : LostName c e dp i) (tree : Tree c) {d : Nat} (away : d ≠ i)
    (isDir : (c.inodes d).type = .dir) : links e d = links c d := by
  have := lost.links_sub tree (tree.dirBound isDir).1
  rwa [if_neg (Ne.symm away), Nat.add_zero] at this

theorem LostName.named (lost : LostName c e dp i) : 0 < (c.inodes dp).names i := by
  have := lost.names i lost.used
  rw [if_pos rfl] at this
  omega

theorem LostName.detached (lost : LostName c e dp i) (tree : Tree c) (isDir : (c.inodes i).type = .dir) :
    links e i = 0 := by
  have change := lost.links_sub tree lost.used
  have := tree.once i isDir
  rw [if_pos rfl] at change
  omega

theorem LostName.uplinks_sub (lost : LostName c e dp i) (tree : Tree c) :
    uplinks e x + (if (c.inodes i).type = .dir ∧ dp = x then 1 else 0) = uplinks c x := by
  have change := uplinks_change (x := x) lost.ninodes (tree.bound i lost.typed).2 (fun d _ => lost.type d)
    (fun d _ => lost.up d) (fun _ => lost.links_other tree)
  have named := tree.links_pos lost.named
  by_cases isDir : (c.inodes i).type = .dir
  · have notRoot := tree.ne_root named
    have before : uplink c i x = if dp = x then 1 else 0 := by
      simp [uplink, Attached, isDir, named, tree.up_of_names isDir lost.named]
    have after : uplink e i x = 0 := by simp [uplink, Attached, notRoot, lost.detached tree isDir]
    simp only [isDir, true_and]
    omega
  · have before : uplink c i x = 0 := by simp [uplink, Attached, isDir]
    have after : uplink e i x = 0 := by simp [uplink, Attached, lost.type, isDir]
    simp only [isDir, false_and, if_false]
    omega

theorem LostName.tree (lost : LostName c e dp i) (tree : Tree c) : Tree e := by
  have fewer (d : Nat) (used : d ≠ 0) : links e d ≤ links c d := by
    have := lost.links_sub tree used
    omega
  refine ⟨?_, fun d typed => ?_, fun d isDir => ?_, ?_, ?_, ?_, fun d isDir => ?_, fun d isDir named => ?_,
    fun d used free => ?_⟩
  · rw [lost.ninodes]
    exact tree.small
  · rw [lost.ninodes]
    exact tree.bound d (lost.type d ▸ typed)
  · rw [lost.type] at isDir
    by_cases here : d = i
    · rw [here, lost.sameSlots]
      exact tree.shaped i (here ▸ isDir)
    · by_cases parent : d = dp
      · exact parent ▸ lost.shaped
      · rw [lost.others d here parent]
        exact tree.shaped d isDir
  · rw [lost.type]
    exact tree.rootDir
  · rw [lost.up]
    exact tree.rootUp
  · have := fewer rootIno (by decide)
    have := tree.rootUnnamed
    omega
  · rw [lost.type] at isDir
    exact Nat.le_trans (fewer d (tree.dirBound isDir).1) (tree.once d isDir)
  · rw [lost.type] at isDir
    have away : d ≠ i := by
      rintro rfl
      rw [lost.detached tree isDir] at named
      omega
    rw [lost.links_other tree away isDir] at named
    have placed := tree.placed d isDir named
    rw [lost.up]
    by_cases here : (c.inodes d).up = i
    · rw [here] at placed ⊢
      rwa [lost.sameNames]
    · by_cases parent : (c.inodes d).up = dp
      · rw [parent] at placed ⊢
        have := lost.names d (tree.dirBound isDir).1
        rw [if_neg (Ne.symm away)] at this
        omega
      · rwa [lost.others _ here parent]
  · rw [lost.type] at free
    have := fewer d used
    have := tree.unnamed d used free
    omega

end LostName

section Freed

variable {c : Core} {i x : Nat}

@[simp] theorem ifree_type : ((c.ifree i).inodes i).type = .free := by simp [Core.ifree]

theorem ifree_names : ((c.ifree i).inodes i).names x = 0 := by simp [Inode.names]

theorem ifree_inodes_other {j : Nat} (away : j ≠ i) : (c.ifree i).inodes j = c.inodes j := by
  simp [Core.ifree, away]

theorem ifree_links (bound : i < c.ninodes) : links (c.ifree i) x + (c.inodes i).names x = links c x := by
  have change := sum_change (f := fun d => (c.inodes d).names x) (g := fun d => ((c.ifree i).inodes d).names x)
    bound fun d away => by rw [ifree_inodes_other away]
  have after : ((c.ifree i).inodes i).names x = 0 := ifree_names
  unfold links
  simp only [after] at change
  exact change

structure Unneeded (c : Core) (i : Nat) : Prop where
  typed : (c.inodes i).type ≠ .free
  unnamed : links c i = 0
  childless : uplinks c i = 0

theorem Unneeded.not_attached (unneeded : Unneeded c i) (tree : Tree c) : ¬ Attached c i := by
  rintro ⟨_, rfl | named⟩
  · have attached : Attached c rootIno := ⟨tree.rootDir, Or.inl rfl⟩
    have := tree.uplinks_pos attached
    rw [tree.rootUp] at this
    have := unneeded.childless
    omega
  · have := unneeded.unnamed
    omega

theorem Unneeded.names (unneeded : Unneeded c i) (tree : Tree c) (isDir : (c.inodes x).type = .dir) :
    (c.inodes i).names x = 0 := by
  by_contra some
  have positive := Nat.pos_of_ne_zero some
  have := tree.uplinks_pos ⟨isDir, Or.inr (tree.links_pos positive)⟩
  rw [tree.up_of_names isDir positive] at this
  have := unneeded.childless
  omega

theorem Unneeded.links_same (unneeded : Unneeded c i) (tree : Tree c) (isDir : (c.inodes x).type = .dir) :
    links (c.ifree i) x = links c x := by
  rw [← ifree_links (tree.bound i unneeded.typed).2, unneeded.names tree isDir, Nat.add_zero]

theorem Unneeded.uplinks_same (unneeded : Unneeded c i) (tree : Tree c) : uplinks (c.ifree i) x = uplinks c x := by
  have change := uplinks_change (c := c) (e := c.ifree i) (i := i) (x := x) rfl (tree.bound i unneeded.typed).2
    (fun d away => by rw [ifree_inodes_other away]) (fun d away => by rw [ifree_inodes_other away])
    (fun d _ isDir => unneeded.links_same tree isDir)
  have before : uplink c i x = 0 := by simp [uplink, unneeded.not_attached tree]
  have after : uplink (c.ifree i) i x = 0 := by simp [uplink, Attached]
  omega

theorem Unneeded.tree (unneeded : Unneeded c i) (tree : Tree c) : Tree (c.ifree i) := by
  have bound := (tree.bound i unneeded.typed).2
  have notRoot : rootIno ≠ i := by
    rintro rfl
    exact unneeded.not_attached tree ⟨tree.rootDir, Or.inl rfl⟩
  have before {d : Nat} (isDir : ((c.ifree i).inodes d).type = .dir) : d ≠ i ∧ (c.inodes d).type = .dir := by
    have away : d ≠ i := by
      rintro rfl
      simp at isDir
    exact ⟨away, by rwa [ifree_inodes_other away] at isDir⟩
  have fewer (d : Nat) : links (c.ifree i) d ≤ links c d := by
    have := ifree_links (x := d) bound
    omega
  refine ⟨tree.small, fun d typed => ?_, fun d isDir => ?_, ?_, ?_, ?_, fun d isDir => ?_, fun d isDir named => ?_,
    fun d used free => ?_⟩
  · by_cases here : d = i
    · exact here ▸ tree.bound i unneeded.typed
    · exact tree.bound d (by rwa [ifree_inodes_other here] at typed)
  · obtain ⟨away, isDir⟩ := before isDir
    rw [ifree_inodes_other away]
    exact tree.shaped d isDir
  · rw [ifree_inodes_other notRoot]
    exact tree.rootDir
  · rw [ifree_inodes_other notRoot]
    exact tree.rootUp
  · have := fewer rootIno
    have := tree.rootUnnamed
    omega
  · exact Nat.le_trans (fewer d) (tree.once d (before isDir).2)
  · obtain ⟨away, isDir⟩ := before isDir
    rw [unneeded.links_same tree isDir] at named
    have placed := tree.placed d isDir named
    rw [ifree_inodes_other away]
    have parent : (c.inodes d).up ≠ i := by
      intro same
      rw [same, unneeded.names tree isDir] at placed
      omega
    rwa [ifree_inodes_other parent]
  · by_cases here : d = i
    · have := fewer d
      have := unneeded.unnamed
      subst here
      omega
    · rw [ifree_inodes_other here] at free
      have := fewer d
      have := tree.unnamed d used free
      omega

end Freed

end Xv6.Fs
