import Xv6.Kernel.Content
import Xv6.Kernel.CString
import Xv6.Vm.Code

set_option autoImplicit false

namespace Xv6.Vm

open Halting Bytes

def maxArg : Nat := 32

/-! elf.h -/

def elfMagic : Nat := 0x464C457F
def elfProgLoad : Nat := 1

structure Elfhdr where
  entry : Nat
  phoff : Nat
  phnum : Nat

structure Proghdr where
  type : Nat
  off : Nat
  vaddr : Nat
  filesz : Nat
  memsz : Nat

def elfhdrSize : Nat := 52
def proghdrSize : Nat := 32

def le (bytes : List Byte) (off n : Nat) : Nat := getLe (fun i => bytes.getD i 0) off n

def elfhdr (bytes : List Byte) : Elfhdr where
  entry := le bytes 24 4
  phoff := le bytes 28 4
  phnum := le bytes 44 2

def proghdr (bytes : List Byte) : Proghdr where
  type := le bytes 0 4
  off := le bytes 4 4
  vaddr := le bytes 8 4
  filesz := le bytes 16 4
  memsz := le bytes 20 4

section Load

variable (image : Image) (pgdir : Nat) (content : List Byte)

def blit (blk : Block) (off : Nat) (bytes : List Byte) : Block := memmove blk off bytes.length fun t => bytes.getD t 0

-- One round of the loop of loaduvm; the panic is "address should exist". A short read leaves what it has read.
def loadPage (addr offset sz i : Nat) : Kernel Bool := do
  match ← walkpgdir pgdir ((addr + i) % 2 ^ 32) false with
  | none => panic
  | some (pgtab, k) => do
      let pte ← loadWord pgtab k
      let pa := p2v (pteAddr pte)
      let n := if sz - i < pgSize then sz - i else pgSize
      match Content.readi content ((offset + i) % 2 ^ 32) n with
      | none => pure false
      | some bytes => do
          modify fun m => m.write pa (blit (m.page pa) 0 bytes)
          pure (decide (bytes.length = n))

-- The loop of loaduvm, with `n` pages left from `i` on.
def loadPages (addr offset sz : Nat) : Nat → Nat → Kernel Bool
  | 0, _ => pure true
  | n + 1, i => do
      if ← loadPage pgdir content addr offset sz i then loadPages addr offset sz n (nextPage i) else pure false

def loaduvm (addr offset sz : Nat) : Kernel Bool :=
  if addr % pgSize ≠ 0 then panic else loadPages pgdir content addr offset sz ((sz + pgSize - 1) / pgSize) 0

-- What exec does for one program header; none is "goto bad".
def loadSegment (ph : Proghdr) (sz : Nat) : Kernel (Option Nat) :=
  if ph.type ≠ elfProgLoad then pure (some sz)
  else if ph.memsz < ph.filesz then pure none
  else if (ph.vaddr + ph.memsz) % 2 ^ 32 < ph.vaddr then pure none
  else do
    let sz ← allocuvm image pgdir sz ((ph.vaddr + ph.memsz) % 2 ^ 32)
    if sz = 0 then pure none
    else if ph.vaddr % pgSize ≠ 0 then pure none
    else do
      if ← loaduvm pgdir content ph.vaddr ph.off ph.filesz then pure (some sz) else pure none

def loadHeader (off sz : Nat) : Kernel (Option Nat) :=
  match Content.readi content off proghdrSize with
  | none => pure none
  | some bytes =>
    if bytes.length ≠ proghdrSize then pure none else loadSegment image pgdir content (proghdr bytes) sz

-- The load loop of exec, with `n` program headers left from `off` on.
def loadLoop : Nat → Nat → Nat → Kernel (Option Nat)
  | 0, _, sz => pure (some sz)
  | n + 1, off, sz => do
      match ← loadHeader image pgdir content off sz with
      | none => pure none
      | some sz => loadLoop n ((off + proghdrSize) % 2 ^ 32) sz

def load (elf : Elfhdr) : Kernel (Option Nat) := loadLoop image pgdir content elf.phnum elf.phoff 0

end Load

section Stack

variable (image : Image) (pgdir : Nat)

def clearpteu (uva : Nat) : Kernel Unit := do
  match ← walkpgdir pgdir uva false with
  | none => panic
  | some (pgtab, i) => do
      let pte ← loadWord pgtab i
      storeWord pgtab i (pte &&& (2 ^ 32 - 1 - pteU))

-- The guard page and the stack page; the result is the size with them.
def stackPages (sz : Nat) : Kernel (Option Nat) := do
  let sz ← allocuvm image pgdir (pgRoundUp sz) ((pgRoundUp sz + 2 * pgSize) % 2 ^ 32)
  if sz = 0 then pure none
  else do
    clearpteu pgdir (sz - 2 * pgSize)
    pure (some sz)

-- Where walkpgdir returns 0 the source reads through the null pointer: here it stops.
def uva2ka (uva : Nat) : Kernel (Option Nat) := do
  match ← walkpgdir pgdir uva false with
  | none => panic
  | some (pgtab, i) => do
      let pte ← loadWord pgtab i
      if present pte = false then pure none
      else if user pte = false then pure none
      else pure (some (p2v (pteAddr pte)))

-- One round of the loop of copyout copies up to the end of the page of `va`.
def copyoutPage (va : Nat) (buf : List Byte) : Kernel Bool := do
  let va0 := pgRoundDown va
  match ← uva2ka pgdir va0 with
  | none => pure false
  | some pa0 => do
      modify fun m => m.write pa0 (blit (m.page pa0) (va - va0) (buf.take (pgSize - (va - va0))))
      pure true

-- Each round copies one byte or more.
def copyoutLoop : Nat → Nat → List Byte → Kernel Bool
  | 0, _, _ => pure true
  | fuel + 1, va, buf =>
    if buf.length > 0 then do
      if ← copyoutPage pgdir va buf then
        copyoutLoop fuel (nextPage (pgRoundDown va)) (buf.drop (pgSize - (va - pgRoundDown va)))
      else pure false
    else pure true

def copyout (va : Nat) (buf : List Byte) : Kernel Bool := copyoutLoop pgdir buf.length va buf

-- a - b of unsigned integers
def minus (a b : Nat) : Nat := (a + (2 ^ 32 - b % 2 ^ 32)) % 2 ^ 32

-- sp = (sp - (strlen(s) + 1)) & ~3
def pushed (sp : Nat) (s : List Byte) : Nat := minus sp (s.length + 1) / 4 * 4

-- The loop that pushes the argument strings, with the pointers that it puts into ustack.
def pushArgs : Nat → Nat → List (List Byte) → Kernel (Option (Nat × List Nat))
  | _, sp, [] => pure (some (sp, []))
  | argc, sp, s :: rest =>
    if argc ≥ maxArg then pure none
    else do
      if ← copyout pgdir (pushed sp s) (s ++ [0]) then do
        match ← pushArgs (argc + 1) (pushed sp s) rest with
        | none => pure none
        | some (last, ptrs) => pure (some (last, pushed sp s :: ptrs))
      else pure none

def ustack (sp : Nat) (ptrs : List Nat) : List Nat :=
  0xffffffff :: ptrs.length :: minus sp ((ptrs.length + 1) * 4) :: ptrs ++ [0]

def wordBytes (w : Nat) : List Byte := (List.range 4).map (leByte w)

-- The strings and ustack; the result is the new stack pointer.
def setUpStack (sz : Nat) (argv : List (List Byte)) : Kernel (Option Nat) := do
  match ← pushArgs pgdir 0 sz argv with
  | none => pure none
  | some (sp, ptrs) => do
      let esp := minus sp ((3 + ptrs.length + 1) * 4)
      if ← copyout pgdir esp ((ustack sp ptrs).flatMap wordBytes) then pure (some esp) else pure none

end Stack

structure Proc where
  pgdir : Nat
  sz : Nat
  eip : Nat
  esp : Nat
  name : List UInt8
deriving DecidableEq

-- The part of the path behind its last slash.
def lastElement : List UInt8 → List UInt8 → List UInt8
  | last, [] => last
  | last, c :: s => lastElement (if c = 47 then s else last) s

section Exec

variable (image : Image)

-- The steps of exec up to the strings: the new page directory with its size.
def prepare (pgdir : Nat) (content : List Byte) (elf : Elfhdr) : Kernel (Option Nat) := do
  match ← load image pgdir content elf with
  | none => pure none
  | some sz => stackPages image pgdir sz

def build (pgdir : Nat) (content : List Byte) (elf : Elfhdr) (argv : List (List Byte)) :
    Kernel (Option (Nat × Nat)) := do
  match ← prepare image pgdir content elf with
  | none => pure none
  | some sz => do
      match ← setUpStack pgdir sz argv with
      | none => pure none
      | some esp => pure (some (sz, esp))

def checkHeader (content : List Byte) : Option Elfhdr :=
  match Content.readi content 0 elfhdrSize with
  | none => none
  | some bytes =>
    if bytes.length ≠ elfhdrSize then none else if le bytes 0 4 ≠ elfMagic then none else some (elfhdr bytes)

-- `file` is the content of the inode that namei finds.
def exec (file : Option (List Byte)) (path : List UInt8) (argv : List (List Byte)) (curproc : Proc) :
    Kernel (Int × Proc) :=
  match file with
  | none => pure (-1, curproc)
  | some content =>
    match checkHeader content with
    | none => pure (-1, curproc)
    | some elf => do
        match ← setupkvm image with
        | none => pure (-1, curproc)
        | some pgdir => do
            match ← build image pgdir content elf argv with
            | none => do
                freevm image pgdir
                pure (-1, curproc)
            | some (sz, esp) => do
                freevm image curproc.pgdir
                let name := CString.safestrcpy curproc.name (lastElement path path ++ [0]) 16
                pure (0, { pgdir, sz, eip := elf.entry, esp, name })

end Exec

end Xv6.Vm
