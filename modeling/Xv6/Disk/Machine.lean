import Xv6.Kernel.Param
import Xv6.Shared.LinkedQueue
import Xv6.Shared.Runs

set_option autoImplicit false

namespace Xv6.Disk

open LinkedQueue

abbrev Data := Fin bSize → BitVec 8

def sectorSize : Nat := 512

structure Buf (P : Type) where
  -- B_VALID and B_DIRTY of flags
  valid : Bool
  dirty : Bool
  dev : Nat
  blockno : Nat
  -- The holder of the sleep-lock.
  lock : Option P
  data : Data

structure Registers where
  count : Nat
  sector0 : Nat
  sector8 : Nat
  sector16 : Nat
  select : Nat

structure Command where
  registers : Registers
  write : Bool
  data : Data

/-- The disk controller: it carries a command out and then raises one interrupt for it. -/
inductive Device where
  | idle
  | active (command : Command)
  | done (command : Command) (data : Data)

structure State (P : Type) (n : Nat) where
  bufs : Fin n → Buf P
  -- idequeue and the qnext of each buf
  queue : Queue (Fin n)
  device : Device
  disk : Nat → Nat → Data
  /-- The buffers for which an iderw has been called and has not returned. -/
  waiting : Fin n → Bool
  requests : List (Fin n)
  starts : List (Fin n)
  finished : List (Fin n)

def encode (dev blockno : Nat) : Registers :=
  let sectorPerBlock := bSize / sectorSize
  let sector := blockno * sectorPerBlock
  { count := sectorPerBlock
    sector0 := sector % 2 ^ 8
    sector8 := sector / 2 ^ 8 % 2 ^ 8
    sector16 := sector / 2 ^ 16 % 2 ^ 8
    select := 0xe0 + dev % 2 * 2 ^ 4 + sector / 2 ^ 24 % 2 ^ 4 }

def Registers.drive (registers : Registers) : Nat := registers.select / 2 ^ 4 % 2

def Registers.sector (registers : Registers) : Nat :=
  registers.sector0 + registers.sector8 * 2 ^ 8 + registers.sector16 * 2 ^ 16 + registers.select % 2 ^ 4 * 2 ^ 24

variable {P : Type} [DecidableEq P] {n : Nat}

def State.setBuf (s : State P n) (b : Fin n) (buf : Buf P) : State P n :=
  { s with bufs := Function.update s.bufs b buf }

def State.enqueue (s : State P n) (queue : Queue (Fin n)) (b : Fin n) : State P n :=
  { s with
    queue
    waiting := Function.update s.waiting b true
    requests := s.requests ++ [b] }

-- A block number beyond FSSIZE stops the kernel; one sector makes a block.
def idestart (b : Fin n) (s : State P n) : Option (State P n) :=
  if (s.bufs b).blockno ≥ fsSize then none
  else some { s with
    device := .active
      { registers := encode (s.bufs b).dev (s.bufs b).blockno
        write := (s.bufs b).dirty
        data := (s.bufs b).data }
    starts := s.starts ++ [b] }

def Buf.finish (buf : Buf P) (data : Data) : Buf P :=
  { buf with valid := true, dirty := false, data := if buf.dirty then buf.data else data }

def State.dequeue (s : State P n) (b : Fin n) (data : Data) : State P n :=
  { s.setBuf b ((s.bufs b).finish data) with
    queue := { s.queue with head := s.queue.next b }
    device := .idle
    finished := s.finished ++ [b] }

def ideintr (s : State P n) : Option (State P n) :=
  match s.device with
  | .done _ data =>
    match s.queue.head with
    | none => some { s with device := .idle }
    | some b =>
      match s.queue.next b with
      | none => some (s.dequeue b data)
      | some next => idestart next (s.dequeue b data)
  | _ => none

-- iderw up to its first sleep: a caller that has to wait gives idelock up there.
def iderw (havedisk1 : Bool) (p : P) (b : Fin n) (s : State P n) : Option (State P n) :=
  if (s.bufs b).lock ≠ some p then none
  else if (s.bufs b).valid ∧ ¬(s.bufs b).dirty then none
  else if (s.bufs b).dev ≠ 0 ∧ ¬havedisk1 then none
  else do
    -- No list of bufs is longer than their number.
    let queue ← s.queue.append (n + 1) b
    if queue.head = some b then idestart b (s.enqueue queue b) else some (s.enqueue queue b)

-- The controller writes or reads the sector and raises the interrupt.
def execute (s : State P n) : Option (State P n) :=
  match s.device with
  | .active command =>
    let drive := command.registers.drive
    let sector := command.registers.sector
    if command.write then
      some { s with
        device := .done command command.data
        disk := Function.update s.disk drive (Function.update (s.disk drive) sector command.data) }
    else some { s with device := .done command (s.disk drive sector) }
  | _ => none

/-- What a buffer may hold when it is handed to iderw. -/
structure Contents where
  valid : Bool
  dirty : Bool
  dev : Nat
  blockno : Nat
  data : Data

def Buf.fill (buf : Buf P) (contents : Contents) : Buf P :=
  { contents with lock := buf.lock }

inductive Action (P : Type) (n : Nat) where
  | acquiresleep (p : P) (b : Fin n)
  | releasesleep (p : P) (b : Fin n)
  -- The buffer cache and the holder of a buffer change it outside iderw.
  | fill (b : Fin n) (contents : Contents)
  | iderw (p : P) (b : Fin n)
  | execute
  | ideintr
  -- The test of the while loop of iderw fails and the call returns.
  | finish (b : Fin n)

def step (havedisk1 : Bool) : Action P n → State P n → Option (State P n)
  | .acquiresleep p b, s =>
    if (s.bufs b).lock = none then some (s.setBuf b { s.bufs b with lock := some p }) else none
  | .releasesleep p b, s =>
    if (s.bufs b).lock = some p ∧ s.waiting b = false then some (s.setBuf b { s.bufs b with lock := none })
    else none
  | .fill b contents, s => if s.waiting b = false then some (s.setBuf b ((s.bufs b).fill contents)) else none
  | .iderw p b, s => if s.waiting b = false then iderw havedisk1 p b s else none
  | .execute, s => execute s
  | .ideintr, s => ideintr s
  | .finish b, s =>
    if s.waiting b ∧ (s.bufs b).valid ∧ ¬(s.bufs b).dirty then
      some { s with waiting := Function.update s.waiting b false }
    else none

def Allowed (s : State P n) : Action P n → Prop
  | .iderw _ b => (s.bufs b).dev = 1 ∧ (s.bufs b).blockno < fsSize
  | _ => True

structure Booted (s : State P n) : Prop where
  queue : s.queue.head = none
  device : s.device = .idle
  waiting : ∀ b, s.waiting b = false
  requests : s.requests = []
  starts : s.starts = []
  finished : s.finished = []

/-! memide.c -/

/-- The buffers and the memory disk, which holds the image of FSSIZE blocks. -/
structure Memory (P : Type) (n : Nat) where
  bufs : Fin n → Buf P
  memdisk : Nat → Data

def disksize : Nat := fsSize

def Memory.setBuf (m : Memory P n) (b : Fin n) (buf : Buf P) : Memory P n :=
  { m with bufs := Function.update m.bufs b buf }

def transfer (b : Fin n) (m : Memory P n) : Memory P n :=
  let buf := m.bufs b
  if buf.dirty then
    { m.setBuf b { buf with dirty := false, valid := true } with
      memdisk := Function.update m.memdisk buf.blockno buf.data }
  else m.setBuf b { buf with data := m.memdisk buf.blockno, valid := true }

def memIderw (p : P) (b : Fin n) (m : Memory P n) : Option (Memory P n) :=
  if (m.bufs b).lock ≠ some p then none
  else if (m.bufs b).valid ∧ ¬(m.bufs b).dirty then none
  else if (m.bufs b).dev ≠ 1 then none
  else if (m.bufs b).blockno ≥ disksize then none
  else some (transfer b m)

-- ideintr of memide.c does nothing.
def memStep : Action P n → Memory P n → Option (Memory P n)
  | .acquiresleep p b, m =>
    if (m.bufs b).lock = none then some (m.setBuf b { m.bufs b with lock := some p }) else none
  | .releasesleep p b, m =>
    if (m.bufs b).lock = some p then some (m.setBuf b { m.bufs b with lock := none }) else none
  | .fill b contents, m => some (m.setBuf b ((m.bufs b).fill contents))
  | .iderw p b, m => memIderw p b m
  | .execute, m => some m
  | .ideintr, m => some m
  | .finish _, m => some m

def State.memory (s : State P n) : Memory P n := { bufs := s.bufs, memdisk := s.disk 1 }

end Xv6.Disk
