import Xv6.Vm.Memory

set_option autoImplicit false

namespace Xv6.Vm

open Halting Bytes

def pdx (va : Nat) : Nat := va / 2 ^ 22 % nEntries
def ptx (va : Nat) : Nat := va / 2 ^ 12 % nEntries

def pteP : Nat := 1
def pteW : Nat := 2
def pteU : Nat := 4

-- The tests of PTE_P and PTE_U.
def present (pte : Nat) : Bool := pte.testBit 0
def user (pte : Nat) : Bool := pte.testBit 2

def pteAddr (pte : Nat) : Nat := pte / 2 ^ 12 * 2 ^ 12
def pteFlags (pte : Nat) : Nat := pte % 2 ^ 12

-- The entry that walkpgdir points to, as a page and an index in it.
def walkpgdir (pgdir va : Nat) (alloc : Bool) : Kernel (Option (Nat × Nat)) := do
  let pde ← loadWord pgdir (pdx va)
  if present pde then pure (some (p2v (pteAddr pde), ptx va))
  else if alloc then do
    match ← kalloc with
    | none => pure none
    | some pgtab => do
        setPage pgtab fun _ => 0
        storeWord pgdir (pdx va) (v2p pgtab ||| pteP ||| pteW ||| pteU)
        pure (some (pgtab, ptx va))
  else pure none

-- a += PGSIZE
def nextPage (a : Nat) : Nat := (a + pgSize) % 2 ^ 32

-- One round of the loop of mappages; the panic is "remap".
def mapPage (pgdir perm a pa : Nat) : Kernel Bool := do
  match ← walkpgdir pgdir a true with
  | none => pure false
  | some (pgtab, i) => do
      let pte ← loadWord pgtab i
      if present pte then panic
      else do
        storeWord pgtab i (pa ||| perm ||| pteP)
        pure true

def mapLoop (pgdir perm : Nat) : Nat → Nat → Nat → Kernel Bool
  | 0, _, _ => pure true
  | n + 1, a, pa => do
      if ← mapPage pgdir perm a pa then mapLoop pgdir perm n (nextPage a) (nextPage pa)
      else pure false

-- The loop of mappages ends at `last`, which it reaches after going once around the address space at most.
def mappages (pgdir va size pa perm : Nat) : Kernel Bool :=
  let a := pgRoundDown va
  let last := pgRoundDown ((va + size + (2 ^ 32 - 1)) % 2 ^ 32)
  mapLoop pgdir perm ((last + (2 ^ 32 - a)) % 2 ^ 32 / pgSize + 1) a pa

section Deallocate

variable (image : Image)

-- One round of the loop of deallocuvm, with the address of the next. A missing page table is skipped at once.
def deallocPage (pgdir a : Nat) : Kernel Nat := do
  match ← walkpgdir pgdir a false with
  | none => pure ((pdx a + 1) * 2 ^ 22 % 2 ^ 32)
  | some (pgtab, i) => do
      let pte ← loadWord pgtab i
      if present pte then
        if pteAddr pte = 0 then panic
        else do
          kfree image (p2v (pteAddr pte))
          storeWord pgtab i 0
          pure (nextPage a)
      else pure (nextPage a)

-- The fuel bounds the rounds.
def deallocLoop (pgdir oldsz : Nat) : Nat → Nat → Kernel Unit
  | 0, _ => pure ()
  | fuel + 1, a =>
    if a < oldsz then do
      let next ← deallocPage image pgdir a
      deallocLoop pgdir oldsz fuel next
    else pure ()

def deallocuvm (pgdir oldsz newsz : Nat) : Kernel Nat :=
  if newsz ≥ oldsz then pure oldsz
  else do
    deallocLoop image pgdir oldsz ((oldsz + pgSize - 1) / pgSize) (pgRoundUp newsz)
    pure newsz

def freeTable (pgdir i : Nat) : Kernel Unit := do
  let pde ← loadWord pgdir i
  if present pde then kfree image (p2v (pteAddr pde)) else pure ()

def freeTables (pgdir : Nat) : List Nat → Kernel Unit
  | [] => pure ()
  | i :: rest => do
      freeTable image pgdir i
      freeTables pgdir rest

def freevm (pgdir : Nat) : Kernel Unit := do
  let _ ← deallocuvm image pgdir kernBase 0
  freeTables image pgdir (List.range nEntries)
  kfree image pgdir

end Deallocate

section Allocate

variable (image : Image)

structure Kmap where
  virt : Nat
  physStart : Nat
  physEnd : Nat
  perm : Nat

def kmap : List Kmap :=
  [{ virt := kernBase, physStart := 0, physEnd := extMem, perm := pteW },
    { virt := kernLink, physStart := v2p kernLink, physEnd := v2p image.data, perm := 0 },
    { virt := image.data, physStart := v2p image.data, physEnd := physTop, perm := pteW },
    { virt := devSpace, physStart := devSpace, physEnd := 0, perm := pteW }]

def mapKernel (pgdir : Nat) (k : Kmap) : Kernel Bool :=
  mappages pgdir k.virt ((k.physEnd + (2 ^ 32 - k.physStart)) % 2 ^ 32) k.physStart k.perm

def kmapLoop (map : Kmap → Kernel Bool) : List Kmap → Kernel Bool
  | [] => pure true
  | k :: rest => do
      if ← map k then kmapLoop map rest else pure false

def setupkvm : Kernel (Option Nat) := do
  match ← kalloc with
  | none => pure none
  | some pgdir => do
      setPage pgdir fun _ => 0
      if p2v physTop > devSpace then panic
      else do
        if ← kmapLoop (mapKernel pgdir) (kmap image) then pure (some pgdir)
        else do
          freevm image pgdir
          pure none

-- One round of the loop of allocuvm; false after its clean-up.
def allocPage (pgdir oldsz newsz a : Nat) : Kernel Bool := do
  match ← kalloc with
  | none => do
      let _ ← deallocuvm image pgdir newsz oldsz
      pure false
  | some mem => do
      setPage mem fun _ => 0
      if ← mappages pgdir a pgSize (v2p mem) (pteW ||| pteU) then pure true
      else do
        let _ ← deallocuvm image pgdir newsz oldsz
        kfree image mem
        pure false

-- The loop of allocuvm, with `n` pages left from `a` on.
def allocLoop (pgdir oldsz newsz : Nat) : Nat → Nat → Kernel Bool
  | 0, _ => pure true
  | n + 1, a => do
      if ← allocPage image pgdir oldsz newsz a then allocLoop pgdir oldsz newsz n (nextPage a) else pure false

def allocuvm (pgdir oldsz newsz : Nat) : Kernel Nat :=
  if newsz ≥ kernBase then pure 0
  else if newsz < oldsz then pure oldsz
  else do
    if ← allocLoop image pgdir oldsz newsz ((newsz + pgSize - 1 - pgRoundUp oldsz) / pgSize) (pgRoundUp oldsz)
    then pure newsz
    else pure 0

-- One round of the loop of copyuvm; false is "goto bad".
def copyPage (pgdir d i : Nat) : Kernel Bool := do
  match ← walkpgdir pgdir i false with
  | none => panic
  | some (pgtab, k) => do
      let pte ← loadWord pgtab k
      if present pte then do
        match ← kalloc with
        | none => pure false
        | some mem => do
            let m ← get
            setPage mem (m.page (p2v (pteAddr pte)))
            if ← mappages d i pgSize (v2p mem) (pteFlags pte) then pure true
            else do
              kfree image mem
              pure false
      else panic

-- The loop of copyuvm, with `n` pages left from `i` on.
def copyLoop (pgdir d : Nat) : Nat → Nat → Kernel Bool
  | 0, _ => pure true
  | n + 1, i => do
      if ← copyPage image pgdir d i then copyLoop pgdir d n (nextPage i) else pure false

def copyuvm (pgdir sz : Nat) : Kernel (Option Nat) := do
  match ← setupkvm image with
  | none => pure none
  | some d => do
      if ← copyLoop image pgdir d ((sz + pgSize - 1) / pgSize) 0 then pure (some d)
      else do
        freevm image d
        pure none

end Allocate

end Xv6.Vm
