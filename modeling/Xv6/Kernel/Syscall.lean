import Xv6.Kernel.MessageQueue
import Xv6.Kernel.Param
import Xv6.Shared.Footprint

set_option autoImplicit false

namespace Xv6.Syscall

open Footprint

abbrev Addr := BitVec 32

def kernBase : Addr := 0x80000000

/-- What a read or a write meets: what the file is, and what the other processes and the devices do meanwhile. -/
inductive Kind where
  | none
  | badDevice
  -- whether a reader is killed before there is something, nread and nwrite then, and how much fits before a writer fails
  | pipe (killed : Bool) (nread nwrite : BitVec 32) (room : Nat)
  -- ip->size and f->off when each piece is written or read
  | inode (sizeOff : Nat → BitVec 32 × BitVec 32)
  -- the characters up to the one for which a reader is killed
  | console (typed : List UInt8)

structure File where
  readable : Bool
  writable : Bool
  kind : Kind

structure Proc where
  sz : Addr
  below : sz < kernBase
  esp : Addr
  mem : Addr → UInt8
  ofile : Nat → Option File

abbrev Access (A : Type) := Call Addr A

def span (addr : Addr) (n : Nat) : List Addr := (List.range n).map fun k => addr + BitVec.ofNat 32 k

def word (mem : Addr → UInt8) (addr : Addr) : BitVec 32 :=
  (mem (addr + 3)).toBitVec ++ (mem (addr + 2)).toBitVec ++ (mem (addr + 1)).toBitVec ++ (mem addr).toBitVec

-- A failed call returns -1 or panics.
def fetchint (p : Proc) (addr : Addr) : Access (BitVec 32) :=
  if addr ≥ p.sz ∨ addr + 4 > p.sz then fail
  else do
    touch (span addr 4)
    pure (word p.mem addr)

-- The result is the address of the NUL; there are `left` bytes up to ep.
def fetchstrLoop (mem : Addr → UInt8) (ep : Addr) : Nat → Addr → Access Addr
  | 0, _ => fail
  | left + 1, s =>
    if s < ep then do
      touch [s]
      if mem s = 0 then pure s else fetchstrLoop mem ep left (s + 1)
    else fail

def fetchstr (p : Proc) (addr : Addr) : Access (Addr × BitVec 32) :=
  if addr ≥ p.sz then fail
  else do
    let s ← fetchstrLoop p.mem p.sz (p.sz - addr).toNat addr
    pure (addr, s - addr)

def argint (p : Proc) (n : BitVec 32) : Access (BitVec 32) := fetchint p (p.esp + 4 + 4 * n)

def argptr (p : Proc) (n size : BitVec 32) : Access Addr := do
  let i ← argint p n
  if size.toInt < 0 ∨ i ≥ p.sz ∨ i + size > p.sz then fail else pure i

def argstr (p : Proc) (n : BitVec 32) : Access (Addr × BitVec 32) := do
  let addr ← argint p n
  fetchstr p addr

def argfd (p : Proc) (n : BitVec 32) : Access File := do
  let fd ← argint p n
  if fd.toInt < 0 ∨ fd.toInt ≥ nofile then fail
  else
    match p.ofile fd.toNat with
    | none => fail
    | some f => pure f

section Transfers

-- In the loops the first argument counts down from n.

def pipereadLoop (addr : Addr) (nwrite : BitVec 32) : Nat → Nat → BitVec 32 → Access Int
  | 0, i, _ => pure i
  | left + 1, i, nread =>
    if nread = nwrite then pure i
    else do
      touch [addr + BitVec.ofNat 32 i]
      pipereadLoop addr nwrite left (i + 1) (nread + 1)

def pipewriteLoop (addr : Addr) : Nat → Nat → Nat → Access Int
  | 0, i, _ => pure i
  | _ + 1, _, 0 => pure (-1)
  | left + 1, i, room + 1 => do
    touch [addr + BitVec.ofNat 32 i]
    pipewriteLoop addr left (i + 1) room

def controlD : UInt8 := 4

def newline : UInt8 := 10

def consolereadLoop (target : Nat) (dst : Addr) : Nat → Nat → List UInt8 → Access Int
  | 0, _, _ => pure target
  | _ + 1, _, [] => pure (-1)
  | left + 1, i, c :: typed =>
    if c = controlD then pure i
    else do
      touch [dst + BitVec.ofNat 32 i]
      if c = newline then pure (i + 1) else consolereadLoop target dst left (i + 1) typed

def consolewrite (buf : Addr) (n : Nat) : Access Int := do
  touch (span buf n)
  pure n

-- The loops of readi and writei, which move at most one block at a time.
def blocksLoop (addr : Addr) : Nat → Nat → Nat → Nat → Access Unit
  | 0, _, _, _ => pure ()
  | fuel + 1, tot, off, n =>
    if tot < n then do
      let m := min (n - tot) (bSize - off % bSize)
      touch (span (addr + BitVec.ofNat 32 tot) m)
      blocksLoop addr fuel (tot + m) (off + m) n
    else pure ()

def readi (size off : BitVec 32) (dst : Addr) (n : Nat) : Access Int :=
  if off > size ∨ off + BitVec.ofNat 32 n < off then pure (-1)
  else do
    let count := if off + BitVec.ofNat 32 n > size then (size - off).toNat else n
    blocksLoop dst count 0 off.toNat count
    pure count

def writei (size off : BitVec 32) (src : Addr) (n : Nat) : Access Int :=
  if off > size ∨ off + BitVec.ofNat 32 n < off then pure (-1)
  else if (off + BitVec.ofNat 32 n).toNat > maxFile * bSize then pure (-1)
  else do
    blocksLoop src n 0 off.toNat n
    pure n

def fileread (f : File) (addr : Addr) (n : Nat) : Access Int :=
  if f.readable = false then pure (-1)
  else
    match f.kind with
    | .none => fail
    | .badDevice => pure (-1)
    | .pipe killed nread nwrite _ => if killed then pure (-1) else pipereadLoop addr nwrite n 0 nread
    | .inode sizeOff => readi (sizeOff 0).1 (sizeOff 0).2 addr n
    | .console typed => consolereadLoop n addr n 0 typed

def maxChunk : Nat := (maxOpBlocks - 1 - 1 - 2) / 2 * 512

def filewriteLoop (write : Nat → Addr → Nat → Access Int) (addr : Addr) (n : Nat) : Nat → Nat → Nat → Access Int
  | 0, _, _ => fail
  | fuel + 1, piece, i =>
    if i < n then do
      let n1 := min (n - i) maxChunk
      let r ← write piece (addr + BitVec.ofNat 32 i) n1
      if r < 0 then pure (-1)
      else if r ≠ n1 then fail
      else filewriteLoop write addr n fuel (piece + 1) (i + n1)
    else pure n

def filewrite (f : File) (addr : Addr) (n : Nat) : Access Int :=
  if f.writable = false then pure (-1)
  else
    match f.kind with
    | .none => fail
    | .pipe _ _ _ room => pipewriteLoop addr n 0 room
    | .badDevice => filewriteLoop (fun _ _ _ => pure (-1)) addr n (n + 1) 0 0
    | .inode sizeOff =>
      filewriteLoop (fun piece src n1 => writei (sizeOff piece).1 (sizeOff piece).2 src n1) addr n (n + 1) 0 0
    | .console _ => filewriteLoop (fun _ src n1 => consolewrite src n1) addr n (n + 1) 0 0

end Transfers

def sysRead (p : Proc) : Access Int := do
  let f ← argfd p 0
  let n ← argint p 2
  let addr ← argptr p 1 n
  fileread f addr n.toNat

def sysWrite (p : Proc) : Access Int := do
  let f ← argfd p 0
  let n ← argint p 2
  let addr ← argptr p 1 n
  filewrite f addr n.toNat

open MessageQueue

-- How many bytes safestrcpy moves in its loop; `n` is the value before `--n > 0`.
def safestrcpyMoves (t : Nat → UInt8) : Nat → Nat → Nat
  | n + 2, i => if t i = 0 then i + 1 else safestrcpyMoves t (n + 1) (i + 1)
  | _, i => i

def buffer (p : Proc) (msg : Addr) : Chars := ⟨(span msg msgSize).map p.mem, by simp [span]⟩

def sysSend (p : Proc) (msgq : Msgq) : Access (Int × Msgq) := do
  let type ← argint p 0
  let msg ← argptr p 1 (BitVec.ofNat 32 msgSize)
  if msgq.count = maxMessages then pure (-1, msgq)
  else
    touch (span msg (safestrcpyMoves (fun k => p.mem (msg + BitVec.ofNat 32 k)) msgSize 0))
    pure (MessageQueue.sysSend (some (type, buffer p msg)) msgq)

-- safestrcpy writes the NUL after what it moved.
def sysRecv (p : Proc) (msgq : Msgq) : Access (Int × Msgq × Option Chars) := do
  let type ← argint p 0
  let msg ← argptr p 1 (BitVec.ofNat 32 msgSize)
  match findLoop msgq type msgq.count 0 with
  | none => pure ()
  | some index =>
    touch (span msg (safestrcpyMoves (fun k => (msgq.messages index).data.bytes.getD k 0) msgSize 0 + 1))
  pure (MessageQueue.sysRecv (some (type, buffer p msg)) msgq)

variable {p : Proc}

def Fits (sz addr : Addr) (n : Nat) : Prop := addr.toNat + n ≤ sz.toNat

theorem Proc.sz_lt (p : Proc) : p.sz.toNat < 2 ^ 31 := p.below

theorem Fits.below {sz addr : Addr} {n k : Nat} (fits : Fits sz addr n) (inside : k < n) :
    addr + BitVec.ofNat 32 k < sz := by
  have := sz.isLt
  unfold Fits at fits
  rw [BitVec.lt_def, BitVec.toNat_add, BitVec.toNat_ofNat]
  omega

theorem Fits.advance {sz addr : Addr} {n k m : Nat} (fits : Fits sz addr n) (inside : k + m ≤ n) :
    Fits sz (addr + BitVec.ofNat 32 k) m := by
  have := sz.isLt
  unfold Fits at fits ⊢
  rw [BitVec.toNat_add, BitVec.toNat_ofNat]
  omega

theorem Fits.span {sz addr : Addr} {n m : Nat} (fits : Fits sz addr n) (inside : m ≤ n) :
    ∀ a ∈ span addr m, a < sz := by
  intro a member
  obtain ⟨k, low, rfl⟩ := List.mem_map.mp member
  exact fits.below ((List.mem_range.mp low).trans_le inside)

theorem fetchint_fits {addr : Addr} {value : BitVec 32} (fetched : (fetchint p addr).result = some value) :
    Fits p.sz addr 4 := by
  unfold fetchint at fetched
  split_ifs at fetched with outside
  · cases fetched
  · have below := p.sz_lt
    have four : (4 : Addr).toNat = 4 := rfl
    simp only [not_or, ge_iff_le, gt_iff_lt, BitVec.le_def, BitVec.lt_def, BitVec.toNat_add, four] at outside
    unfold Fits
    omega

theorem fetchint_within (addr : Addr) : Within (· < p.sz) (fetchint p addr) := by
  by_cases outside : addr ≥ p.sz ∨ addr + 4 > p.sz
  · rw [fetchint, if_pos outside]
    exact within_fail
  · have fetched : (fetchint p addr).result = some (word p.mem addr) := by
      rw [fetchint, if_neg outside]
      rfl
    rw [fetchint, if_neg outside]
    exact within_touch ((fetchint_fits fetched).span le_rfl) (within_pure _)

theorem argint_within (n : BitVec 32) : Within (· < p.sz) (argint p n) := fetchint_within _

theorem argptr_fits {n size ptr : BitVec 32} (found : (argptr p n size).result = some ptr) :
    0 ≤ size.toInt ∧ Fits p.sz ptr size.toNat := by
  rw [argptr, result_bind, Option.bind_eq_some_iff] at found
  obtain ⟨i, _, passed⟩ := found
  split_ifs at passed with outside
  · cases passed
  · cases passed
    have below := p.sz_lt
    have := size.isLt
    simp only [not_or, Int.not_lt, ge_iff_le, gt_iff_lt, BitVec.le_def, BitVec.lt_def, BitVec.toNat_add] at outside
    obtain ⟨nonneg, inside, ends⟩ := outside
    refine ⟨nonneg, ?_⟩
    rw [BitVec.toInt_eq_toNat_cond] at nonneg
    split_ifs at nonneg with small
    · unfold Fits
      omega
    · omega

theorem argptr_within (n size : BitVec 32) : Within (· < p.sz) (argptr p n size) := by
  refine within_bind (argint_within n) fun i _ => ?_
  split_ifs
  · exact within_fail
  · exact within_pure i

theorem argfd_within (n : BitVec 32) : Within (· < p.sz) (argfd p n) := by
  refine within_bind (argint_within n) fun fd _ => ?_
  split_ifs
  · exact within_fail
  · cases p.ofile fd.toNat with
    | none => exact within_fail
    | some f => exact within_pure f

structure StringAt (mem : Addr → UInt8) (ep addr s : Addr) : Prop where
  after : addr ≤ s
  inside : s < ep
  nul : mem s = 0
  text : ∀ a, addr ≤ a → a < s → mem a ≠ 0

theorem succ_toNat {s ep : Addr} (inside : s < ep) : (s + 1).toNat = s.toNat + 1 := by
  have := ep.isLt
  simp only [BitVec.lt_def] at inside
  rw [BitVec.toNat_add, show (1 : Addr).toNat = 1 from rfl]
  omega

theorem fetchstrLoop_spec (mem : Addr → UInt8) (ep : Addr) (left : Nat) (s : Addr) :
    Within (· < ep) (fetchstrLoop mem ep left s) ∧
      ∀ e, (fetchstrLoop mem ep left s).result = some e → StringAt mem ep s e := by
  induction left generalizing s with
  | zero => exact ⟨within_fail, fun e found => by cases found⟩
  | succ left ih =>
    rw [fetchstrLoop]
    by_cases inside : s < ep
    · rw [if_pos inside]
      by_cases nul : mem s = 0
      · rw [if_pos nul]
        refine ⟨within_touch (by simpa using inside) (within_pure s), fun e found => ?_⟩
        cases found
        exact ⟨BitVec.le_refl s, inside, nul, fun a start stop => absurd stop (BitVec.not_lt.mpr start)⟩
      · rw [if_neg nul]
        obtain ⟨within, rest⟩ := ih (s + 1)
        refine ⟨within_touch (by simpa using inside) within, fun e found => ?_⟩
        obtain ⟨after, below, zero, text⟩ := rest e found
        have next := succ_toNat inside
        refine ⟨?_, below, zero, fun a start stop => ?_⟩
        · rw [BitVec.le_def] at after ⊢
          omega
        · by_cases first : a = s
          · rw [first]
            exact nul
          · refine text a ?_ stop
            have apart : a.toNat ≠ s.toNat := fun same => first (BitVec.eq_of_toNat_eq same)
            rw [BitVec.le_def] at start ⊢
            omega
    · rw [if_neg inside]
      exact ⟨within_fail, fun e found => by cases found⟩

theorem fetchstr_within (addr : Addr) : Within (· < p.sz) (fetchstr p addr) := by
  unfold fetchstr
  split_ifs
  · exact within_fail
  · exact within_bind (fetchstrLoop_spec _ _ _ _).1 fun _ _ => within_pure _

theorem argstr_string {n ptr len : BitVec 32} (found : (argstr p n).result = some (ptr, len)) :
    StringAt p.mem p.sz ptr (ptr + len) := by
  rw [argstr, result_bind, Option.bind_eq_some_iff] at found
  obtain ⟨addr, _, passed⟩ := found
  unfold fetchstr at passed
  split_ifs at passed with outside
  · cases passed
  · rw [result_bind, Option.bind_eq_some_iff] at passed
    obtain ⟨s, scanned, same⟩ := passed
    cases same
    rw [BitVec.add_comm, BitVec.sub_add_cancel]
    exact (fetchstrLoop_spec _ _ _ _).2 s scanned

theorem argstr_within (n : BitVec 32) : Within (· < p.sz) (argstr p n) :=
  within_bind (argint_within n) fun addr _ => fetchstr_within addr

section Transfers

variable {sz addr : Addr} {n : Nat}

theorem pipereadLoop_within (fits : Fits sz addr n) (nwrite nread : BitVec 32) (left i : Nat) (room : i + left ≤ n) :
    Within (· < sz) (pipereadLoop addr nwrite left i nread) := by
  induction left generalizing i nread with
  | zero => exact within_pure _
  | succ left ih =>
    rw [pipereadLoop]
    split_ifs
    · exact within_pure _
    · exact within_touch (by simpa using fits.below (by omega)) (ih _ _ (by omega))

theorem pipewriteLoop_within (fits : Fits sz addr n) (left i room : Nat) (inside : i + left ≤ n) :
    Within (· < sz) (pipewriteLoop addr left i room) := by
  induction left generalizing i room with
  | zero => exact within_pure _
  | succ left ih =>
    cases room with
    | zero => exact within_pure _
    | succ room => exact within_touch (by simpa using fits.below (by omega)) (ih _ _ (by omega))

theorem consolereadLoop_within (fits : Fits sz addr n) (target left i : Nat) (typed : List UInt8)
    (inside : i + left ≤ n) : Within (· < sz) (consolereadLoop target addr left i typed) := by
  induction left generalizing i typed with
  | zero => exact within_pure _
  | succ left ih =>
    cases typed with
    | nil => exact within_pure _
    | cons c typed =>
      rw [consolereadLoop]
      split_ifs
      · exact within_pure _
      · exact within_touch (by simpa using fits.below (by omega)) (within_pure _)
      · exact within_touch (by simpa using fits.below (by omega)) (ih _ _ (by omega))

theorem consolewrite_within (fits : Fits sz addr n) : Within (· < sz) (consolewrite addr n) :=
  within_touch (fits.span le_rfl) (within_pure _)

theorem blocksLoop_within (fits : Fits sz addr n) (fuel tot off count : Nat) (inside : count ≤ n) :
    Within (· < sz) (blocksLoop addr fuel tot off count) := by
  induction fuel generalizing tot off with
  | zero => exact within_pure _
  | succ fuel ih =>
    rw [blocksLoop]
    split_ifs with more
    · refine within_touch (Fits.span (fits.advance (m := count - tot) (by omega)) ?_) (ih _ _)
      exact Nat.min_le_left _ _
    · exact within_pure _

theorem readi_within (fits : Fits sz addr n) (small : n < 2 ^ 32) (size off : BitVec 32) :
    Within (· < sz) (readi size off addr n) := by
  rw [readi]
  by_cases bad : off > size ∨ off + BitVec.ofNat 32 n < off
  · rw [if_pos bad]
    exact within_pure _
  · rw [if_neg bad]
    refine within_bind (blocksLoop_within fits _ _ _ _ ?_) fun _ _ => within_pure _
    split_ifs with past
    · -- What is left of the file is less than n.
      simp only [not_or, gt_iff_lt, BitVec.lt_def, BitVec.toNat_add, BitVec.toNat_ofNat] at bad past
      have := off.isLt
      have := size.isLt
      rw [BitVec.toNat_sub]
      omega
    · exact le_rfl

theorem writei_within (fits : Fits sz addr n) (size off : BitVec 32) : Within (· < sz) (writei size off addr n) := by
  rw [writei]
  split_ifs
  · exact within_pure _
  · exact within_pure _
  · exact within_bind (blocksLoop_within fits _ _ _ _ le_rfl) fun _ _ => within_pure _

theorem fileread_within (fits : Fits sz addr n) (small : n < 2 ^ 32) (f : File) :
    Within (· < sz) (fileread f addr n) := by
  rw [fileread]
  split_ifs
  · exact within_pure _
  cases f.kind with
  | none => exact within_fail
  | badDevice => exact within_pure _
  | pipe killed nread nwrite room =>
    dsimp only
    split_ifs
    · exact within_pure _
    · exact pipereadLoop_within fits _ _ _ _ (by omega)
  | inode sizeOff => exact readi_within fits small _ _
  | console typed => exact consolereadLoop_within fits _ _ _ _ (by omega)

theorem filewriteLoop_within {write : Nat → Addr → Nat → Access Int} (fits : Fits sz addr n)
    (piecewise : ∀ piece a m, Fits sz a m → Within (· < sz) (write piece a m)) (fuel piece i : Nat) :
    Within (· < sz) (filewriteLoop write addr n fuel piece i) := by
  induction fuel generalizing piece i with
  | zero => exact within_fail
  | succ fuel ih =>
    rw [filewriteLoop]
    split_ifs with more
    · refine within_bind (piecewise _ _ _ (fits.advance ?_)) fun r _ => ?_
      · have := Nat.min_le_left (n - i) maxChunk
        omega
      · split_ifs
        · exact within_pure _
        · exact within_fail
        · exact ih _ _
    · exact within_pure _

theorem filewrite_within (fits : Fits sz addr n) (f : File) : Within (· < sz) (filewrite f addr n) := by
  rw [filewrite]
  split_ifs
  · exact within_pure _
  cases f.kind with
  | none => exact within_fail
  | badDevice => exact filewriteLoop_within fits (fun _ _ _ _ => within_pure _) _ _ _
  | pipe killed nread nwrite room => exact pipewriteLoop_within fits _ _ _ (by omega)
  | inode sizeOff => exact filewriteLoop_within fits (fun _ _ _ fits => writei_within fits _ _) _ _ _
  | console typed => exact filewriteLoop_within fits (fun _ _ _ fits => consolewrite_within fits) _ _ _

end Transfers

theorem safestrcpyMoves_lt (t : Nat → UInt8) (n i : Nat) : safestrcpyMoves t (n + 1) i ≤ i + n := by
  induction n generalizing i with
  | zero => exact le_rfl
  | succ n ih =>
    rw [safestrcpyMoves]
    split_ifs
    · omega
    · have := ih (i + 1)
      omega

theorem sysRead_within : Within (· < p.sz) (sysRead p) :=
  within_bind (argfd_within 0) fun f _ => within_bind (argint_within 2) fun n _ =>
    within_bind (argptr_within 1 n) fun _ found => fileread_within (argptr_fits found).2 n.isLt f

theorem sysWrite_within : Within (· < p.sz) (sysWrite p) :=
  within_bind (argfd_within 0) fun f _ => within_bind (argint_within 2) fun n _ =>
    within_bind (argptr_within 1 n) fun _ found => filewrite_within (argptr_fits found).2 f

theorem sysSend_within (msgq : Msgq) : Within (· < p.sz) (sysSend p msgq) := by
  refine within_bind (argint_within 0) fun type _ => within_bind (argptr_within 1 _) fun msg found => ?_
  split_ifs
  · exact within_pure _
  · refine within_touch ((argptr_fits found).2.span ?_) (within_pure _)
    exact (safestrcpyMoves_lt _ 31 0).trans (by decide)

theorem sysRecv_within (msgq : Msgq) : Within (· < p.sz) (sysRecv p msgq) := by
  refine within_bind (argint_within 0) fun type _ => within_bind (argptr_within 1 _) fun msg found => ?_
  cases findLoop msgq type msgq.count 0 with
  | none => exact within_pure _
  | some index =>
    refine within_touch ((argptr_fits found).2.span ?_) (within_pure _)
    exact Nat.succ_le_succ (safestrcpyMoves_lt _ 31 0)

structure Confined (p : Proc) : Prop where
  fetchint : ∀ addr value, (fetchint p addr).result = some value → ∀ a ∈ span addr 4, a < p.sz
  argptr : ∀ n size ptr, (argptr p n size).result = some ptr → ∀ a ∈ span ptr size.toNat, a < p.sz
  argstr : ∀ n ptr len, (argstr p n).result = some (ptr, len) → StringAt p.mem p.sz ptr (ptr + len)
  negative : ∀ n size, size.toInt < 0 → (Syscall.argptr p n size).result = none
  scans : ∀ n, Within (· < p.sz) (Syscall.argint p n) ∧ Within (· < p.sz) (Syscall.argstr p n)
  read : Within (· < p.sz) (sysRead p)
  write : Within (· < p.sz) (sysWrite p)
  send : ∀ msgq, Within (· < p.sz) (sysSend p msgq)
  recv : ∀ msgq, Within (· < p.sz) (sysRecv p msgq)

theorem arguments_confined (p : Proc) : Confined p where
  fetchint _ _ fetched := (fetchint_fits fetched).span le_rfl
  argptr _ _ _ found := (argptr_fits found).2.span le_rfl
  argstr _ _ _ found := argstr_string found
  negative n size below := by
    cases result : (argptr p n size).result with
    | none => rfl
    | some ptr => exact absurd (argptr_fits result).1 (Int.not_le.mpr below)
  scans n := ⟨argint_within n, argstr_within n⟩
  read := sysRead_within
  write := sysWrite_within
  send := sysSend_within
  recv := sysRecv_within

end Xv6.Syscall
