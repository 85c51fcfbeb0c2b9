import Xv6.Dirs.Directory
import Xv6.Fs.State

set_option autoImplicit false

namespace Xv6.Dirs

open CString
open Fs (FileType)

def slash : UInt8 := 47

section Code

-- while(*path == '/') path++
def skipSlashes : List UInt8 → List UInt8
  | [] => []
  | c :: rest => if c = slash then skipSlashes rest else c :: rest

-- while(*path != '/' && *path != 0) path++
def skipElement : List UInt8 → List UInt8
  | [] => []
  | c :: rest => if c ≠ slash ∧ c ≠ 0 then skipElement rest else c :: rest

-- The path behind the element, and the buffer `name` with the element in it.
def skipelem (path name : List UInt8) : Option (List UInt8 × List UInt8) :=
  let s := skipSlashes path
  if s.headD 0 = 0 then none
  else
    let path := skipElement s
    let len := s.length - path.length
    let name := if len ≥ dirSiz then s.take dirSiz else s.take len ++ 0 :: name.drop (len + 1)
    some (skipSlashes path, name)

structure Inode where
  type : FileType
  content : List UInt8

-- The inode returned, if any, and the buffer; `none` is a panic.
def namexLoop (tree : Nat → Inode) (parent : Bool) :
    Nat → Nat → List UInt8 → List UInt8 → Option (Option Nat × List UInt8)
  | 0, _, _, _ => none
  | fuel + 1, ip, path, name =>
    match skipelem path name with
    | none => some (if parent then none else some ip, name)
    | some (path, name) =>
      -- ilock panics on an inode of type 0.
      if (tree ip).type = .free then none
      else if (tree ip).type ≠ .dir then some (none, name)
      else if parent = true ∧ path.headD 0 = 0 then some (some ip, name)
      else do
        match ← dirlookup (tree ip).content name with
        | none => some (none, name)
        | some (next, _) => namexLoop tree parent fuel next path name

def namex (tree : Nat → Inode) (cwd : Nat) (path : List UInt8) (parent : Bool) (name : List UInt8) :
    Option (Option Nat × List UInt8) :=
  namexLoop tree parent (path.length + 1) (if path.headD 0 = slash then rootIno else cwd) path name

-- `name` is what the stack holds where the array is.
def namei (tree : Nat → Inode) (cwd : Nat) (path name : List UInt8) : Option (Option Nat) :=
  (namex tree cwd path false name).map Prod.fst

def nameiparent (tree : Nat → Inode) (cwd : Nat) (path name : List UInt8) : Option (Option Nat × List UInt8) :=
  namex tree cwd path true name

end Code

section Components

/-- The non-empty components of a path, each cut to DIRSIZ bytes. -/
def components (path : List UInt8) : List (List UInt8) :=
  ((path.splitOn slash).filter (· ≠ [])).map (List.take dirSiz)

variable {s w rest path name : List UInt8}

theorem components_nil : components [] = [] := rfl

theorem components_append (first second : List UInt8) :
    components (first ++ slash :: second) = components first ++ components second := by
  rw [components, List.splitOn_append_cons_self, List.filter_append, List.map_append, components, components]

theorem components_slash (s : List UInt8) : components (slash :: s) = components s := components_append [] s

theorem components_word (nonempty : w ≠ []) (plain : slash ∉ w) : components w = [w.take dirSiz] := by
  rw [components, List.splitOn_eq_singleton plain]
  simp [nonempty]

theorem components_skipSlashes (s : List UInt8) : components (skipSlashes s) = components s := by
  induction s with
  | nil => rfl
  | cons c s ih =>
    rw [skipSlashes]
    split
    next here => rw [ih, here, components_slash]
    next => rfl

theorem text_skipSlashes (s : List UInt8) : text (skipSlashes s) = skipSlashes (text s) := by
  induction s with
  | nil => rfl
  | cons c s ih =>
    by_cases here : c = slash
    · subst here
      have byte : (slash :: s).headD 0 ≠ 0 := show slash ≠ 0 by decide
      rw [text_of_byte byte]
      simpa [skipSlashes] using ih
    · by_cases nul : c = 0
      · subst nul
        rfl
      · have byte : (c :: s).headD 0 ≠ 0 := nul
        rw [text_of_byte byte]
        simp [skipSlashes, here, text_of_byte byte]

theorem skipSlashes_headD (s : List UInt8) : (skipSlashes s).headD 0 ≠ slash := by
  induction s with
  | nil => decide
  | cons c s ih =>
    rw [skipSlashes]
    split
    next => exact ih
    next other => exact other

theorem length_skipSlashes (s : List UInt8) : (skipSlashes s).length ≤ s.length := by
  induction s with
  | nil => exact le_rfl
  | cons c s ih =>
    rw [skipSlashes]
    split
    · exact Nat.le_succ_of_le ih
    · exact le_rfl

-- The element is what is skipped; behind it there is a slash or the end.
theorem skipElement_spec (s : List UInt8) : ∃ w, s = w ++ skipElement s ∧ slash ∉ w ∧ (0 : UInt8) ∉ w ∧
      ((skipElement s).headD 0 = slash ∨ (skipElement s).headD 0 = 0) := by
  induction s with
  | nil => exact ⟨[], rfl, List.not_mem_nil, List.not_mem_nil, Or.inr rfl⟩
  | cons c s ih =>
    rw [skipElement]
    split
    next inner =>
      obtain ⟨w, split, plain, noNul, stop⟩ := ih
      exact ⟨c :: w, congrArg (c :: ·) split, List.not_mem_cons_of_ne_of_not_mem inner.1.symm plain,
        List.not_mem_cons_of_ne_of_not_mem inner.2.symm noNul, stop⟩
    next last =>
      refine ⟨[], rfl, List.not_mem_nil, List.not_mem_nil, ?_⟩
      rw [List.headD_cons]
      by_contra neither
      exact last ⟨fun same => neither (Or.inl same), fun same => neither (Or.inr same)⟩

theorem text_append (noNul : (0 : UInt8) ∉ w) : text (w ++ rest) = w ++ text rest := by
  induction w with
  | nil => rfl
  | cons c w ih =>
    obtain ⟨here, later⟩ := List.ne_and_not_mem_of_not_mem_cons noNul
    have byte : (c :: w ++ rest).headD 0 ≠ 0 := here.symm
    rw [text_of_byte byte]
    exact congrArg (c :: ·) (ih later)

theorem components_word_append (nonempty : w ≠ []) (plain : slash ∉ w)
    (stop : rest.headD 0 = slash ∨ rest.headD 0 = 0) :
    components (w ++ text rest) = w.take dirSiz :: components (text rest) := by
  rcases stop with more | last
  · have byte : rest.headD 0 ≠ 0 := by rw [more]; decide
    rw [text_of_byte byte, more, components_append, components_word nonempty plain, components_slash]
    rfl
  · rw [text_of_nul last, List.append_nil, components_word nonempty plain, components_nil]

theorem components_element (byte : s.headD 0 ≠ 0) (plain : s.headD 0 ≠ slash) :
    ∃ w, s = w ++ skipElement s ∧ w ≠ [] ∧ (0 : UInt8) ∉ w ∧
      components (text s) = w.take dirSiz :: components (text (skipElement s)) := by
  obtain ⟨w, split, noSlash, noNul, stop⟩ := skipElement_spec s
  have nonempty : w ≠ [] := by
    rintro rfl
    rw [List.nil_append] at split
    rw [← split] at stop
    exact stop.elim plain byte
  refine ⟨w, split, nonempty, noNul, ?_⟩
  have parts : text s = w ++ text (skipElement s) := by
    rw [← text_append noNul, ← split]
  rw [parts, components_word_append nonempty noSlash stop]

theorem skipelem_none (none : skipelem path name = none) : components (text path) = [] := by
  simp only [skipelem] at none
  split at none
  next last =>
    rw [← components_skipSlashes, ← text_skipSlashes, text_of_nul last]
    rfl
  next => cases none

theorem cut_long (noNul : (0 : UInt8) ∉ w) : cut (w.take dirSiz) = w.take dirSiz := by
  have plain : (0 : UInt8) ∉ w.take dirSiz := fun inside => noNul (List.mem_of_mem_take inside)
  rw [cut, text_eq_self plain, List.take_take, Nat.min_self]

theorem cut_short (noNul : (0 : UInt8) ∉ w) : cut (w ++ 0 :: rest) = w.take dirSiz := by
  rw [cut, text_append_nul noNul]

theorem skipelem_some {path' name' : List UInt8} (size : name.length = dirSiz)
    (found : skipelem path name = some (path', name')) :
    components (text path) = cut name' :: components (text path') ∧ name'.length = dirSiz ∧
      path'.length < path.length ∧ (path'.headD 0 = 0 ↔ components (text path') = []) := by
  simp only [skipelem] at found
  split at found
  next => cases found
  next more =>
    obtain ⟨rfl, rfl⟩ := Prod.mk.inj (Option.some.inj found)
    obtain ⟨w, split, nonempty, noNul, parts⟩ := components_element more (skipSlashes_headD path)
    have total : (skipSlashes path).length = w.length + (skipElement (skipSlashes path)).length := by
      rw [← List.length_append, ← split]
    have len : (skipSlashes path).length - (skipElement (skipSlashes path)).length = w.length := by omega
    have positive := List.length_pos_iff.mpr nonempty
    rw [len]
    refine ⟨?_, ?_, ?_, ?_⟩
    · rw [← components_skipSlashes, ← text_skipSlashes, parts, text_skipSlashes, components_skipSlashes]
      congr 1
      split
      next long =>
        rw [split, List.take_append_of_le_length long, cut_long noNul]
      next short =>
        rw [split, List.take_left, cut_short noNul]
    · split
      next long =>
        rw [List.length_take]
        omega
      next short =>
        rw [List.length_append, List.length_take, List.length_cons, List.length_drop]
        omega
    · have first := length_skipSlashes path
      have second := length_skipSlashes (skipElement (skipSlashes path))
      omega
    · constructor
      · intro last
        rw [text_of_nul last]
        rfl
      · intro none
        by_contra byte
        obtain ⟨w, -, -, -, parts⟩ := components_element byte (skipSlashes_headD _)
        rw [none] at parts
        cases parts

end Components

section Resolution

/-- Every live entry of a directory names an inode in use. -/
structure Consistent (tree : Nat → Inode) (cwd : Nat) : Prop where
  root : (tree rootIno).type ≠ .free
  cwd : (tree cwd).type ≠ .free
  formed : ∀ i, (tree i).type = .dir → Formed (tree i).content
  named : ∀ i j, (tree i).type = .dir → Live (tree i).content j →
    (tree (inumOf (direntAt (tree i).content j))).type ≠ .free

def resolve (tree : Nat → Inode) : Nat → List (List UInt8) → Option Nat
  | ip, [] => some ip
  | ip, name :: rest =>
    if (tree ip).type = .dir then
      match tableOf (tree ip).content name with
      | none => none
      | some next => resolve tree next rest
    else none

def start (path : List UInt8) (cwd : Nat) : Nat := if path.headD 0 = slash then rootIno else cwd

variable {tree : Nat → Inode} {cwd ip fuel : Nat} {path name : List UInt8}

theorem Consistent.lookup (consistent : Consistent tree cwd) (isDir : (tree ip).type = .dir) (name : List UInt8) :
    (dirlookup (tree ip).content name = some none ∧ tableOf (tree ip).content (cut name) = none) ∨
    ∃ next off, dirlookup (tree ip).content name = some (some (next, off)) ∧
      tableOf (tree ip).content (cut name) = some next ∧ (tree next).type ≠ .free := by
  have formed := consistent.formed ip isDir
  have table := formed.lookup_table name
  rcases formed.looksUp name with ⟨j, live, -, found⟩ | ⟨-, missing⟩
  · rw [found] at table
    exact Or.inr ⟨_, _, found, (Option.some.inj table).symm, consistent.named ip j isDir live⟩
  · rw [missing] at table
    exact Or.inl ⟨missing, (Option.some.inj table).symm⟩

theorem namexLoop_namei (consistent : Consistent tree cwd) (used : (tree ip).type ≠ .free)
    (size : name.length = dirSiz) (enough : path.length < fuel) :
    (namexLoop tree false fuel ip path name).map Prod.fst = some (resolve tree ip (components (text path))) := by
  induction fuel generalizing ip path name with
  | zero => exact absurd enough (Nat.not_lt_zero _)
  | succ fuel ih =>
    rw [namexLoop]
    cases element : skipelem path name with
    | none =>
      rw [skipelem_none element]
      rfl
    | some result =>
      obtain ⟨path', name'⟩ := result
      obtain ⟨parts, size', shorter, -⟩ := skipelem_some size element
      rw [parts, resolve]
      simp only [if_neg used]
      by_cases isDir : (tree ip).type = .dir
      · simp only [isDir, if_true, ne_eq, not_true, if_false, Bool.false_eq_true, false_and]
        rcases consistent.lookup isDir name' with ⟨missing, absent⟩ | ⟨next, off, found, mapped, used'⟩
        · rw [missing, absent]
          rfl
        · rw [found, mapped]
          exact ih used' size' (by omega)
      · simp [isDir]

def parentOf (tree : Nat → Inode) (ip : Nat) (names : List (List UInt8)) : Option Nat :=
  if names = [] then none
  else (resolve tree ip names.dropLast).filter fun dp => decide ((tree dp).type = .dir)

theorem parentOf_single (name : List UInt8) :
    parentOf tree ip [name] = if (tree ip).type = .dir then some ip else none := by
  by_cases isDir : (tree ip).type = .dir
  · simp [parentOf, resolve, isDir]
  · simp [parentOf, resolve, isDir]

theorem parentOf_cons (name : List UInt8) {names : List (List UInt8)} (more : names ≠ []) :
    parentOf tree ip (name :: names) = if (tree ip).type = .dir then match tableOf (tree ip).content name with
        | none => none
        | some next => parentOf tree next names
      else none := by
  rw [parentOf, if_neg (List.cons_ne_nil _ _), List.dropLast_cons_of_ne_nil more, resolve]
  by_cases isDir : (tree ip).type = .dir
  · rw [if_pos isDir, if_pos isDir]
    cases tableOf (tree ip).content name with
    | none => rfl
    | some next => simp only [parentOf, if_neg more]
  · rw [if_neg isDir, if_neg isDir]
    rfl

theorem namexLoop_parent (consistent : Consistent tree cwd) (used : (tree ip).type ≠ .free)
    (size : name.length = dirSiz) (enough : path.length < fuel) :
    ∃ out, namexLoop tree true fuel ip path name = some (parentOf tree ip (components (text path)), out) ∧
      ∀ dp last, parentOf tree ip (components (text path)) = some dp →
        (components (text path)).getLast? = some last → cut out = last := by
  induction fuel generalizing ip path name with
  | zero => exact absurd enough (Nat.not_lt_zero _)
  | succ fuel ih =>
    rw [namexLoop]
    cases element : skipelem path name with
    | none =>
      rw [skipelem_none element]
      exact ⟨name, rfl, fun dp last impossible => by cases impossible⟩
    | some result =>
      obtain ⟨path', name'⟩ := result
      obtain ⟨parts, size', shorter, ends⟩ := skipelem_some size element
      simp only [if_neg used]
      rw [parts]
      by_cases isDir : (tree ip).type = .dir
      · simp only [isDir, ne_eq, not_true, if_false, true_and]
        by_cases last : path'.headD 0 = 0
        · rw [if_pos last, ends.mp last, parentOf_single, if_pos isDir]
          refine ⟨name', rfl, fun dp word _ final => ?_⟩
          exact Option.some.inj final
        · have more : components (text path') ≠ [] := fun none => last (ends.mpr none)
          rw [if_neg last, parentOf_cons _ more, if_pos isDir, List.getLast?_cons_of_ne_nil more]
          rcases consistent.lookup isDir name' with ⟨missing, absent⟩ | ⟨next, off, found, mapped, used'⟩
          · rw [missing, absent]
            exact ⟨name', rfl, fun dp last impossible => by cases impossible⟩
          · rw [found, mapped]
            exact ih used' size' (by omega)
      · have nothing : parentOf tree ip (cut name' :: components (text path')) = none := by
          by_cases single : components (text path') = []
          · rw [single, parentOf_single, if_neg isDir]
          · rw [parentOf_cons _ single, if_neg isDir]
        rw [nothing]
        exact ⟨name', by simp [isDir], fun dp last impossible => by cases impossible⟩

theorem text_append_of_nul {first : List UInt8} (nul : (0 : UInt8) ∈ first) (second : List UInt8) :
    text (first ++ second) = text first := by
  obtain ⟨before, rest, rfl, noNul⟩ := List.eq_append_cons_of_mem nul
  rw [List.append_assoc, List.cons_append, text_append_nul noNul, text_append_nul noNul]

theorem components_repeated (first second : List UInt8) :
    components (text (first ++ slash :: slash :: second)) = components (text (first ++ slash :: second)) := by
  by_cases nul : (0 : UInt8) ∈ first
  · rw [text_append_of_nul nul, text_append_of_nul nul]
  · have byte (s : List UInt8) : text (slash :: s) = slash :: text s := text_of_byte (show slash ≠ 0 by decide)
    rw [text_append nul, text_append nul, byte, byte, components_append, components_append, components_slash]

theorem components_trailing (first : List UInt8) : components (text (first ++ [slash])) = components (text first) := by
  by_cases nul : (0 : UInt8) ∈ first
  · rw [text_append_of_nul nul]
  · have single : text [slash] = [slash] := by decide
    rw [text_append nul, single, components_append, components_nil, List.append_nil, text_eq_self nul]

theorem start_append {first : List UInt8} (nonempty : first ≠ []) (second : List UInt8) :
    start (first ++ second) cwd = start first cwd := by
  cases first with
  | nil => exact absurd rfl nonempty
  | cons c first => rfl

theorem start_repeated (first second : List UInt8) :
    start (first ++ slash :: slash :: second) cwd = start (first ++ slash :: second) cwd := by
  cases first with
  | nil => rfl
  | cons c first => rfl

theorem Consistent.start_used (consistent : Consistent tree cwd) (path : List UInt8) :
    (tree (start path cwd)).type ≠ .free := by
  rw [start]
  split
  · exact consistent.root
  · exact consistent.cwd

theorem namei_eq (consistent : Consistent tree cwd) (path : List UInt8) (size : name.length = dirSiz) :
    namei tree cwd path name = some (resolve tree (start path cwd) (components (text path))) :=
  namexLoop_namei consistent (consistent.start_used path) size (Nat.lt_succ_self _)

theorem nameiparent_eq (consistent : Consistent tree cwd) (path : List UInt8) (size : name.length = dirSiz) :
    ∃ out, nameiparent tree cwd path name = some (parentOf tree (start path cwd) (components (text path)), out) ∧
      ∀ dp last, parentOf tree (start path cwd) (components (text path)) = some dp →
        (components (text path)).getLast? = some last → cut out = last :=
  namexLoop_parent consistent (consistent.start_used path) size (Nat.lt_succ_self _)

def SamePath (tree : Nat → Inode) (cwd : Nat) (path path' name : List UInt8) : Prop :=
  namei tree cwd path name = namei tree cwd path' name ∧
    (nameiparent tree cwd path name).map Prod.fst = (nameiparent tree cwd path' name).map Prod.fst

theorem samePath (consistent : Consistent tree cwd) (size : name.length = dirSiz) {path path' : List UInt8}
    (begin : start path cwd = start path' cwd) (same : components (text path) = components (text path')) :
    SamePath tree cwd path path' name := by
  obtain ⟨out, parent, -⟩ := nameiparent_eq consistent path size
  obtain ⟨out', parent', -⟩ := nameiparent_eq consistent path' size
  constructor
  · rw [namei_eq consistent path size, namei_eq consistent path' size, begin, same]
  · rw [parent, parent', begin, same]
    rfl

theorem path_resolution (tree : Nat → Inode) (cwd : Nat) (consistent : Consistent tree cwd) (path name : List UInt8)
    (size : name.length = dirSiz) :
    namei tree cwd path name = some (resolve tree (start path cwd) (components (text path))) ∧
      (∃ out, nameiparent tree cwd path name = some (parentOf tree (start path cwd) (components (text path)), out) ∧
        ∀ dp last, parentOf tree (start path cwd) (components (text path)) = some dp →
          (components (text path)).getLast? = some last → cut out = last) ∧
      (∀ first second, path = first ++ slash :: second →
        SamePath tree cwd (first ++ slash :: slash :: second) path name) ∧
      (path ≠ [] → SamePath tree cwd (path ++ [slash]) path name) := by
  refine ⟨namei_eq consistent path size, nameiparent_eq consistent path size, ?_, fun nonempty => ?_⟩
  · rintro first second rfl
    exact samePath consistent size (start_repeated first second) (components_repeated first second)
  · exact samePath consistent size (start_append nonempty _) (components_trailing path)

def sampleTree (i : Nat) : Inode :=
  if i = rootIno then ⟨.dir, dirent [46] 1 ++ dirent [46, 46] 1 ++ dirent [97] 2⟩
  else if i = 2 then ⟨.file, []⟩
  else ⟨.free, []⟩

theorem sampleTree_consistent : Consistent sampleTree rootIno := by
  have root : sampleTree rootIno = ⟨.dir, dirent [46] 1 ++ dirent [46, 46] 1 ++ dirent [97] 2⟩ := rfl
  have only (i : Nat) (isDir : (sampleTree i).type = .dir) : i = rootIno := by
    unfold sampleTree at isDir
    split at isDir
    next here => exact here
    next => split at isDir <;> cases isDir
  have holds : Holds (sampleTree rootIno).content [dirent [46] 1, dirent [46, 46] 1, dirent [97] 2] :=
    ⟨by decide, by decide, by decide⟩
  refine ⟨by decide, by decide, fun i isDir => ?_, fun i j isDir live => ?_⟩
  · obtain rfl := only i isDir
    exact holds.formed (show List.Nodup _ by decide)
  · obtain rfl := only i isDir
    have few : j < 3 := by
      have size := holds.length
      have := live.1
      simp only [direntSize, List.length_cons, List.length_nil] at size this
      omega
    interval_cases j <;> decide

theorem path_resolution_slashes : namei sampleTree rootIno [slash, slash, 97, slash] (List.replicate dirSiz 0) =
      some (resolve sampleTree rootIno [[97]]) :=
  (path_resolution sampleTree rootIno sampleTree_consistent [slash, slash, 97, slash] (List.replicate dirSiz 0)
    List.length_replicate).1

end Resolution

end Xv6.Dirs
