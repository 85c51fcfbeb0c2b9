import Xv6.Console.Machine
import Xv6.Processes.Table
import Xv6.Shared.Halting

set_option autoImplicit false

namespace Xv6.Console.Locking

open Halting

inductive Spinlock where
  | cons
  | ptable
  deriving DecidableEq

/-- What consoleintr works on, with the spinlocks that this CPU holds. `inputR` is the address of input.r. -/
structure Cpu (n : Nat) where
  input : Input
  inputR : Nat
  table : Processes.Table n
  name : Fin n → String
  myproc : Option (Fin n)
  holding : Spinlock → Bool
  screen : List Nat

variable {n : Nat}

def Cpu.setInput (s : Cpu n) (input : Input) : Cpu n := { s with input }

def Cpu.setTable (s : Cpu n) (table : Processes.Table n) : Cpu n := { s with table }

def Cpu.setHolding (s : Cpu n) (lk : Spinlock) (held : Bool) : Cpu n :=
  { s with holding := Function.update s.holding lk held }

-- A lock that another CPU holds is waited for.
def acquire (lk : Spinlock) : Halt (Cpu n) Unit := do
  let s ← Halting.get
  if s.holding lk then Halting.panic else Halting.modify fun s => s.setHolding lk true

def release (lk : Spinlock) : Halt (Cpu n) Unit := do
  let s ← Halting.get
  if s.holding lk then Halting.modify fun s => s.setHolding lk false else Halting.panic

def backspace : Nat := 0x100

-- uartputc and cgaputc take no lock.
def consputc (c : Nat) : Halt (Cpu n) Unit := Halting.modify fun s => { s with screen := s.screen ++ [c] }

def cprintf (text : String) : Halt (Cpu n) Unit := do
  let s ← Halting.get
  if s.table.locking then acquire .cons
  text.toList.forM fun c => consputc c.toNat
  if s.table.locking then release .cons

def wakeup (chan : Processes.Chan n) : Halt (Cpu n) Unit := do
  acquire .ptable
  Halting.modify fun s => s.setTable (s.table.wakeup1 chan)
  release .ptable

def states : Processes.ProcState → String
  | .unused => "UNUSED"
  | .embryo => "EMBRYO"
  | .sleeping => "SLEEPING"
  | .runnable => "RUNNABLE"
  | .running => "RUNNING"
  | .zombie => "ZOMBIE"

def procdump : Halt (Cpu n) PUnit :=
  (List.finRange n).forM fun p => do
    let s ← Halting.get
    let proc := s.table.procs p
    let ppid := (proc.parent.map fun parent => (s.table.procs parent).pid).getD 0
    if proc.state = .unused then pure ()
    else cprintf (toString proc.pid ++ "\t" ++ toString ppid ++ "\t" ++ states proc.state ++ "\t" ++ s.name p ++ "\n")

def Completes (stored : Input) (c : UInt8) : Prop :=
  c = newline ∨ c = control 'D' ∨ stored.e = stored.r + BitVec.ofNat 32 inputBuf

instance (stored : Input) (c : UInt8) : Decidable (Completes stored c) :=
  inferInstanceAs (Decidable (_ ∨ _ ∨ _))

def key (c : UInt8) : Halt (Cpu n) Bool := do
  let s ← Halting.get
  if c = control 'P' then pure true
  else if c = control 'U' then
    let killed := Input.killLine (s.input.e - s.input.w).toNat s.input
    Halting.modify fun s => s.setInput killed
    (List.replicate (s.input.e - killed.e).toNat backspace).forM consputc
    pure false
  else if c = control 'H' ∨ c = delete then
    if s.input.e ≠ s.input.w then
      Halting.modify fun s => s.setInput (s.input.setE (s.input.e - 1))
      consputc backspace
      pure false
    else pure false
  else if c = 'C'.toUInt8 then
    cprintf "Shift+C detected\n"
    match s.myproc with
    | some p => Halting.modify fun s => s.setTable (s.table.raise p Processes.sigint)
    | none => pure ()
    pure false
  else if c ≠ 0 ∧ (s.input.e - s.input.r).toNat < inputBuf then
    let stored := s.input.store (asTyped c)
    Halting.modify fun s => s.setInput stored
    consputc (asTyped c).toNat
    if Completes stored (asTyped c) then
      Halting.modify fun s => s.setInput (stored.setW stored.e)
      wakeup (.other s.inputR)
      pure false
    else pure false
  else pure false

-- The loop over what getc returns, with the value of doprocdump.
def keys : List UInt8 → Bool → Halt (Cpu n) Bool
  | [], doprocdump => pure doprocdump
  | c :: chars, doprocdump => do
    let dump ← key c
    keys chars (doprocdump || dump)

def consoleintr (chars : List UInt8) : Halt (Cpu n) PUnit := do
  acquire .cons
  let doprocdump ← keys chars false
  release .cons
  if doprocdump then procdump else pure ()

def wakes (input : Input) (c : UInt8) : Bool :=
  c ∉ [control 'P', control 'U', control 'H', delete, 'C'.toUInt8, 0] && decide ((input.e - input.r).toNat < inputBuf) &&
    decide (Completes (input.store (asTyped c)) (asTyped c))

def silent : Input → List UInt8 → Bool
  | _, [] => true
  | input, c :: chars => !wakes input c && silent (input.key c) chars

structure SameLocks (s next : Cpu n) : Prop where
  holding : next.holding = s.holding
  locking : next.table.locking = s.table.locking

variable {next : Cpu n} {lk : Spinlock}

theorem SameLocks.trans {s last : Cpu n} (first : SameLocks s next) (later : SameLocks next last) :
    SameLocks s last := ⟨later.holding.trans first.holding, later.locking.trans first.locking⟩

structure Untouched (s next : Cpu n) : Prop extends SameLocks s next where
  input : next.input = s.input

theorem Untouched.refl (s : Cpu n) : Untouched s s := ⟨⟨rfl, rfl⟩, rfl⟩

theorem Untouched.trans {s last : Cpu n} (first : Untouched s next) (later : Untouched next last) :
    Untouched s last := ⟨first.toSameLocks.trans later.toSameLocks, later.input.trans first.input⟩

variable {s : Cpu n}

theorem acquire_run (free : s.holding lk = false) : (acquire lk).run s = (some (), s.setHolding lk true) := by
  rw [acquire, run_bind_some (run_get s), free]
  rfl

theorem acquire_panics (held : s.holding lk = true) : (acquire lk).run s = (none, s) := by
  rw [acquire, run_bind_some (run_get s), held]
  rfl

theorem release_run (held : s.holding lk = true) : (release lk).run s = (some (), s.setHolding lk false) := by
  rw [release, run_bind_some (run_get s), held]
  rfl

-- Taking a free lock and giving it back changes nothing.
theorem released (free : s.holding lk = false) (same : next.holding = (s.setHolding lk true).holding) :
    (next.setHolding lk false).holding = s.holding := by
  simp [Cpu.setHolding, same, ← free]

theorem consputcs_untouched {I : Type} (items : List I) (code : I → Nat) :
    Returns (items.forM fun i => consputc (code i)) s fun _ next => Untouched s next :=
  returns_forM (Untouched.refl s) fun _ _ same => ⟨(), _, rfl, ⟨⟨same.holding, same.locking⟩, same.input⟩⟩

theorem cprintf_untouched (locking : s.table.locking = true) (free : s.holding .cons = false) (text : String) :
    Returns (cprintf text) s fun _ next => Untouched s next := by
  refine returns_step (run_get s) ?_
  rw [locking]
  refine returns_step (acquire_run free) (returns_bind (consputcs_untouched _ _) fun _ next same => ?_)
  have held : next.holding .cons = true := by
    rw [same.holding]
    simp [Cpu.setHolding]
  exact ⟨(), _, release_run held, ⟨⟨released free same.holding, same.locking⟩, same.input⟩⟩

theorem cprintf_panics (locking : s.table.locking = true) (held : s.holding .cons = true) (text : String) :
    (cprintf text).run s = (none, s) := by
  rw [cprintf, run_bind_some (run_get s), locking]
  exact run_bind_none (acquire_panics held)

theorem wakeup_untouched (chan : Processes.Chan n) (free : s.holding .ptable = false) :
    Returns (wakeup chan) s fun _ next => Untouched s next := by
  refine returns_step (acquire_run free) (returns_step (run_modify _ _) ⟨(), _, release_run ?_, ⟨⟨?_, rfl⟩, rfl⟩⟩)
  · simp [Cpu.setHolding, Cpu.setTable]
  · exact released free rfl

theorem wakeup_panics (chan : Processes.Chan n) (held : s.holding .ptable = true) : (wakeup chan).run s = (none, s) :=
  run_bind_none (acquire_panics held)

theorem procdump_untouched (locking : s.table.locking = true) (free : s.holding .cons = false) :
    Returns procdump s fun _ next => Untouched s next := by
  refine returns_forM (Untouched.refl s) fun p between same => returns_step (run_get between) ?_
  dsimp only
  split
  · exact returns_pure same
  · refine returns_post (cprintf_untouched (same.locking.trans locking) ?_ _) fun _ _ later => same.trans later
    rw [same.holding, free]

structure Handled (s next : Cpu n) (c : UInt8) : Prop extends SameLocks s next where
  input : next.input = s.input.key c

def Safe (s : Cpu n) (c : UInt8) : Prop :=
  c ≠ 'C'.toUInt8 ∧ (s.holding .ptable = true → wakes s.input c = false)

theorem key_ends (c : UInt8) (locking : s.table.locking = true) (held : s.holding .cons = true) :
    Ends (key c) s (fun _ next => Safe s c ∧ Handled s next c) fun _ => ¬Safe s c := by
  refine ends_get ?_
  by_cases dump : c = control 'P'
  · rw [if_pos dump]
    subst dump
    exact ends_pure ⟨⟨by decide, fun _ => rfl⟩, ⟨rfl, rfl⟩, rfl⟩
  rw [if_neg dump]
  by_cases kill : c = control 'U'
  · rw [if_pos kill]
    subst kill
    refine ends_modify (ends_bind (ends_returns (consputcs_untouched _ id)) fun _ next same => ends_pure ?_)
    exact ⟨⟨by decide, fun _ => rfl⟩, ⟨same.holding, same.locking⟩, same.input⟩
  rw [if_neg kill]
  by_cases erase : c = control 'H' ∨ c = delete
  · have safe : Safe s c := by
      rcases erase with rfl | rfl
      · exact ⟨by decide, fun _ => rfl⟩
      · exact ⟨by decide, fun _ => rfl⟩
    have result : s.input.key c = if s.input.e ≠ s.input.w then s.input.setE (s.input.e - 1) else s.input := by
      rw [Input.key, if_neg dump, if_neg kill, if_pos erase]
    rw [if_pos erase]
    by_cases some : s.input.e ≠ s.input.w
    · rw [if_pos some] at result ⊢
      exact ends_modify (ends_modify (ends_pure ⟨safe, ⟨rfl, rfl⟩, result.symm⟩))
    · rw [if_neg some] at result ⊢
      exact ends_pure ⟨safe, ⟨rfl, rfl⟩, result.symm⟩
  rw [if_neg erase]
  by_cases interrupt : c = 'C'.toUInt8
  · rw [if_pos interrupt]
    exact ends_bind_stops (cprintf_panics locking held _) fun safe => safe.1 interrupt
  rw [if_neg interrupt]
  have plain : s.input.key c = if c ≠ 0 ∧ (s.input.e - s.input.r).toNat < inputBuf then s.input.insert (asTyped c)
      else s.input := by
    rw [Input.key, if_neg dump, if_neg kill, if_neg erase, if_neg interrupt]
  by_cases room : c ≠ 0 ∧ (s.input.e - s.input.r).toNat < inputBuf
  · rw [if_pos room] at plain ⊢
    refine ends_modify (ends_modify ?_)
    by_cases completes : Completes (s.input.store (asTyped c)) (asTyped c)
    · have wake : wakes s.input c = true := by
        simp_all [wakes]
      rw [if_pos completes]
      refine ends_modify ?_
      by_cases free : s.holding .ptable = false
      · refine ends_bind (ends_returns (wakeup_untouched _ free)) fun _ next same => ends_pure ?_
        refine ⟨⟨interrupt, fun taken => ?_⟩, ⟨same.holding, same.locking⟩, ?_⟩
        · rw [free] at taken
          cases taken
        · rw [same.input, plain, Input.insert]
          exact (if_pos completes).symm
      · rw [Bool.not_eq_false] at free
        refine ends_bind_stops (wakeup_panics _ free) fun safe => ?_
        rw [safe.2 free] at wake
        cases wake
    · rw [if_neg completes]
      refine ends_pure ⟨⟨interrupt, fun _ => by simp [wakes, completes]⟩, ⟨rfl, rfl⟩, ?_⟩
      rw [plain, Input.insert]
      exact (if_neg completes).symm
  · rw [if_neg room] at plain ⊢
    refine ends_pure ⟨⟨interrupt, fun _ => ?_⟩, ⟨rfl, rfl⟩, plain.symm⟩
    rw [not_and_or, not_not] at room
    rcases room with rfl | full
    · rfl
    · rw [wakes, decide_eq_false full, Bool.and_false, Bool.false_and]

def SafeRun (s : Cpu n) (chars : List UInt8) : Prop :=
  'C'.toUInt8 ∉ chars ∧ (s.holding .ptable = true → silent s.input chars = true)

theorem safeRun_cons {c : UInt8} {chars : List UInt8} (handled : Handled s next c) :
    SafeRun s (c :: chars) ↔ Safe s c ∧ SafeRun next chars := by
  rw [SafeRun, SafeRun, Safe, handled.holding, handled.input, silent, List.mem_cons]
  grind

theorem keys_ends (chars : List UInt8) (doprocdump : Bool) (locking : s.table.locking = true)
    (held : s.holding .cons = true) :
    Ends (keys chars doprocdump) s (fun _ next => SafeRun s chars ∧ SameLocks s next) fun _ => ¬SafeRun s chars := by
  induction chars generalizing s doprocdump with
  | nil => exact ends_pure ⟨⟨by simp, fun _ => rfl⟩, rfl, rfl⟩
  | cons c chars ih =>
    refine ends_bind (ends_stop (key_ends c locking held) fun _ risky safe => ?_) fun dump next handled => ?_
    · exact risky ⟨fun same => safe.1 (same ▸ List.mem_cons_self), fun taken => by simp_all [silent, SafeRun]⟩
    · obtain ⟨safe, handled⟩ := handled
      rw [safeRun_cons handled]
      refine ends_stop (ends_post (ih _ (handled.locking.trans locking) ?_) fun _ last after => ?_) fun _ bad both => ?_
      · rw [handled.holding, held]
      · exact ⟨⟨safe, after.1⟩, handled.toSameLocks.trans after.2⟩
      · exact bad both.2

theorem consoleintr_ends (chars : List UInt8) (locking : s.table.locking = true) (free : s.holding .cons = false) :
    Ends (consoleintr chars) s (fun _ last => SafeRun s chars ∧ last.holding .cons = false) fun _ => ¬SafeRun s chars := by
  have taken : (s.setHolding .cons true).holding .cons = true := by simp [Cpu.setHolding]
  have same : SafeRun (s.setHolding .cons true) chars ↔ SafeRun s chars := by
    simp [SafeRun, Cpu.setHolding]
  have first : Returns (acquire .cons) s fun _ next => next = s.setHolding .cons true := ⟨(), _, acquire_run free, rfl⟩
  refine ends_bind (ends_returns first) fun _ next locked => ?_
  subst locked
  rw [← same]
  refine ends_bind (keys_ends chars false locking taken) fun doprocdump next after => ends_returns ?_
  have held : next.holding .cons = true := by rw [after.2.holding, taken]
  refine returns_step (release_run held) ?_
  have given : (next.setHolding .cons false).holding .cons = false := by simp [Cpu.setHolding]
  split
  · refine returns_post (procdump_untouched (after.2.locking.trans locking) given) fun _ last later => ?_
    exact ⟨after.1, by rw [later.holding, given]⟩
  · exact returns_pure ⟨after.1, given⟩

/-- The interrupt ends, with cons.lock free, exactly if no character is 'C' and wakeup, where it is called, finds
ptable.lock free. -/
theorem consoleintr_finishes_iff (chars : List UInt8) (locking : s.table.locking = true)
    (free : s.holding .cons = false) :
    (∃ last, (consoleintr chars).run s = (some (), last) ∧ last.holding .cons = false) ↔
      'C'.toUInt8 ∉ chars ∧ (s.holding .ptable = true → silent s.input chars = true) := by
  have ends := consoleintr_ends chars locking free
  unfold Ends at ends
  rcases value : (consoleintr chars).run s with ⟨_ | _, last⟩
  · rw [value] at ends
    exact ⟨fun ⟨_, returns, _⟩ => by simp at returns, fun safe => absurd safe ends⟩
  · rw [value] at ends
    exact ⟨fun _ => ends.1, fun _ => ⟨last, rfl, ends.2⟩⟩

local instance oneProcess : NeZero 1 := ⟨one_ne_zero⟩

def idle : Cpu 1 where
  input := { buf := fun _ => 0, r := 0, w := 0, e := 0 }
  inputR := 0
  table :=
    { procs := fun _ =>
        { sz := Processes.pgSize, kstack := 0, state := .running, pid := 1, parent := none, chan := none,
          killed := false, signalHandlers := fun _ => 0, pendingSignals := 0, image := 1, registeredBy := fun _ => 1 }
      initproc := some 0, nextpid := 2, images := 2, exited := [], reaped := [], called := [], locking := true,
      received := [] }
  name := fun _ => "sh"
  myproc := some 0
  holding := fun _ => false
  screen := []

theorem consoleintr_finishes_newline : (idle.table.locking = true ∧ idle.holding .cons = false) ∧
      ∃ last, (consoleintr [newline]).run idle = (some (), last) ∧ last.holding .cons = false :=
  ⟨⟨rfl, rfl⟩, (consoleintr_finishes_iff [newline] rfl rfl).mpr
    ⟨by decide, fun held => absurd held (by decide)⟩⟩

/-- The key 'C' makes cprintf acquire cons.lock again. -/
theorem consoleintr_shift_c_panics : idle.table.locking = true ∧ idle.holding .cons = false ∧
      ¬∃ last, (consoleintr ['C'.toUInt8]).run idle = (some (), last) := by
  refine ⟨rfl, rfl, ?_⟩
  rintro ⟨last, returns⟩
  have ends := consoleintr_ends ['C'.toUInt8] (s := idle) rfl rfl
  rw [Ends, returns] at ends
  exact ends.1.1 (List.mem_singleton.mpr rfl)

end Xv6.Console.Locking
