import Xv6.Shared.RingBuffer
import Xv6.Shared.Runs
import Xv6.Console.Discipline

set_option autoImplicit false

namespace Xv6.Console

structure Input where
  buf : Nat → UInt8
  r : BitVec 32
  w : BitVec 32
  e : BitVec 32

namespace Input

def char (input : Input) (i : BitVec 32) : UInt8 := input.buf (i.toNat % inputBuf)

def setR (input : Input) (r : BitVec 32) : Input := { input with r }
def setW (input : Input) (w : BitVec 32) : Input := { input with w }
def setE (input : Input) (e : BitVec 32) : Input := { input with e }

def store (input : Input) (c : UInt8) : Input :=
  { input with buf := Function.update input.buf (input.e.toNat % inputBuf) c, e := input.e + 1 }

-- The loop of ^U.
def killLine : Nat → Input → Input
  | 0, input => input
  | fuel + 1, input =>
    if input.e ≠ input.w ∧ input.char (input.e - 1) ≠ newline then killLine fuel (input.setE (input.e - 1)) else input

def insert (input : Input) (c : UInt8) : Input :=
  let stored := input.store c
  if c = newline ∨ c = control 'D' ∨ stored.e = stored.r + BitVec.ofNat 32 inputBuf then stored.setW stored.e
  else stored

-- The switch of consoleintr. 'C' raises a signal in the running process.
def key (input : Input) (c : UInt8) : Input :=
  if c = control 'P' then input
  else if c = control 'U' then killLine (input.e - input.w).toNat input
  else if c = control 'H' ∨ c = delete then
    if input.e ≠ input.w then input.setE (input.e - 1) else input
  else if c = 'C'.toUInt8 then input
  else if c ≠ 0 ∧ (input.e - input.r).toNat < inputBuf then input.insert (asTyped c)
  else input

end Input

/-- A call of consoleread(target): how much it still wants, and what it has stored at dst. -/
structure Reader where
  target : Int
  n : Nat
  dst : List UInt8

structure State (P : Type) where
  input : Input
  readers : P → Option Reader
  killed : P → Bool
  history : History P

inductive Action (P : Type) where
  | intr (batch : List UInt8)
  | call (p : P) (n : Int)
  | resume (p : P)
  | kill (p : P)

section Step

variable {P : Type} [DecidableEq P]

def State.setInput (s : State P) (input : Input) : State P := { s with input }

def State.note (s : State P) (event : Event P) : State P := { s with history := event :: s.history }

def State.sleep (s : State P) (p : P) (reader : Reader) : State P :=
  { s with readers := Function.update s.readers p (some reader) }

def State.leave (s : State P) (p : P) : State P := { s with readers := Function.update s.readers p none }

def consoleintr : List UInt8 → State P → State P
  | [], s => s
  | c :: batch, s => consoleintr batch ((s.setInput (s.input.key c)).note (.typed c))

def consoleread (p : P) (target : Int) : Nat → List UInt8 → State P → State P
  | 0, dst, s => (s.note (.returned p dst)).leave p
  | n + 1, dst, s =>
    if s.input.r = s.input.w then
      if s.killed p then (s.note (.failed p)).leave p else s.sleep p { target, n := n + 1, dst }
    else
      let c := s.input.char s.input.r
      let taken := s.input.setR (s.input.r + 1)
      if c = control 'D' then
        if (n + 1 : Int) < target then
          ((s.setInput (taken.setR (taken.r - 1))).note (.returned p dst)).leave p
        else ((s.setInput taken).note (.ended p)).leave p
      else
        let took := (s.setInput taken).note (.took p c)
        if c = newline then (took.note (.returned p (dst ++ [c]))).leave p
        else consoleread p target n (dst ++ [c]) took

-- Every sleeper may wake up at any time.
def step : Action P → State P → Option (State P)
  | .intr batch, s => some (consoleintr batch s)
  | .call p n, s =>
    if (s.readers p).isSome then none
    else some ((s.note (.call p n)).sleep p { target := n, n := n.toNat, dst := [] })
  | .resume p, s => (s.readers p).map fun reader => consoleread p reader.target reader.n reader.dst s
  | .kill p, s => some { s with killed := Function.update s.killed p true }

def boot : State P :=
  { input := { buf := fun _ => 0, r := 0, w := 0, e := 0 }
    readers := fun _ => none
    killed := fun _ => false
    history := [] }

def Action.plain : Action P → Bool
  | .intr batch => decide ('C'.toUInt8 ∉ batch)
  | .kill _ => false
  | .call _ _ => true
  | .resume _ => true

def allowed (_ : State P) (action : Action P) : Prop := action.plain = true

abbrev Reachable (s : State P) : Prop := Runs.Reachable step allowed (fun s => s = boot) s

end Step

end Xv6.Console
