import Mathlib

set_option autoImplicit false

namespace Xv6.Console

def inputBuf : Nat := 128

def control (x : Char) : UInt8 := UInt8.ofNat (x.toNat - '@'.toNat)

def newline : UInt8 := 10
def carriageReturn : UInt8 := 13
def delete : UInt8 := 0x7f

/-! What the line discipline promises, over the history of what was typed and of what the readers got. -/

inductive Event (P : Type) where
  | typed (c : UInt8)
  | call (p : P) (n : Int)
  | took (p : P) (c : UInt8)
  | returned (p : P) (bytes : List UInt8)
  | ended (p : P)
  | failed (p : P)
deriving DecidableEq

-- The newest event comes first.
abbrev History (P : Type) := List (Event P)

section Spec

variable {P : Type}

/-- The characters taken out of the input: bytes for a reader, and each ^D by the read that it ends. -/
def stream : History P → List UInt8
  | [] => []
  | .took _ c :: older => stream older ++ [c]
  | .ended _ :: older => stream older ++ [control 'D']
  | .typed _ :: older => stream older
  | .call _ _ :: older => stream older
  | .returned _ _ :: older => stream older
  | .failed _ :: older => stream older

def consumed (history : History P) : Nat := (stream history).length

/-- The edited input: what no later key can change, and the line that is still edited. -/
structure Text where
  committed : List UInt8
  line : List UInt8
deriving DecidableEq

def Text.waiting (text : Text) (consumed : Nat) : Nat := text.committed.length - consumed + text.line.length

def asTyped (c : UInt8) : UInt8 := if c = carriageReturn then newline else c

def Text.insert (text : Text) (consumed : Nat) (c : UInt8) : Text :=
  if c = newline ∨ c = control 'D' ∨ text.waiting consumed + 1 = inputBuf then
    { committed := text.committed ++ text.line ++ [c], line := [] }
  else { text with line := text.line ++ [c] }

def Text.type (text : Text) (consumed : Nat) (c : UInt8) : Text :=
  if c = control 'P' ∨ c = 0 then text
  else if c = control 'U' then { text with line := [] }
  else if c = control 'H' ∨ c = delete then { text with line := text.line.dropLast }
  else if text.waiting consumed < inputBuf then text.insert consumed (asTyped c)
  else text

def edited : History P → Text
  | [] => { committed := [], line := [] }
  | .typed c :: older => (edited older).type (consumed older) c
  | .call _ _ :: older => edited older
  | .took _ _ :: older => edited older
  | .returned _ _ :: older => edited older
  | .ended _ :: older => edited older
  | .failed _ :: older => edited older

def upcoming (history : History P) : Option UInt8 := (edited history).committed[consumed history]?

variable [DecidableEq P]

def inCall (p : P) : History P → Option (Int × List UInt8)
  | [] => none
  | .typed _ :: older => inCall p older
  | .call q n :: older => if q = p then some (n, []) else inCall p older
  | .took q c :: older =>
    if q = p then (inCall p older).map fun call => (call.1, call.2 ++ [c]) else inCall p older
  | .returned q _ :: older => if q = p then none else inCall p older
  | .ended q :: older => if q = p then none else inCall p older
  | .failed q :: older => if q = p then none else inCall p older

/-- A read takes the next character while it has less than it asked for, no newline and meets no ^D. It
returns what it took, or 0 for the ^D that it takes out; a ^D met after some bytes stays. -/
def Event.Fits (older : History P) : Event P → Prop
  | .typed _ => True
  | .call p _ => inCall p older = none
  | .took p c => ∃ n got, inCall p older = some (n, got) ∧ got.length < n ∧ newline ∉ got ∧ c ≠ control 'D' ∧
      upcoming older = some c
  | .returned p bytes => ∃ n, inCall p older = some (n, bytes) ∧
      (newline ∈ bytes ∨ n ≤ bytes.length ∨ bytes ≠ [] ∧ upcoming older = some (control 'D'))
  | .ended p => ∃ n, inCall p older = some (n, []) ∧ 0 < n ∧ upcoming older = some (control 'D')
  | .failed _ => False

def Legal : History P → Prop
  | [] => True
  | event :: older => event.Fits older ∧ Legal older

end Spec

section Text

theorem Text.insert_committed (text : Text) (k : Nat) (c : UInt8) :
    text.committed <+: (text.insert k c).committed := by
  unfold Text.insert
  split
  next => exact ⟨text.line ++ [c], by simp⟩
  next => exact List.prefix_rfl

theorem Text.type_committed (text : Text) (k : Nat) (c : UInt8) : text.committed <+: (text.type k c).committed := by
  unfold Text.type
  split
  next => exact List.prefix_rfl
  split
  next => exact List.prefix_rfl
  split
  next => exact List.prefix_rfl
  split
  next => exact text.insert_committed k (asTyped c)
  next => exact List.prefix_rfl

variable {P : Type}

theorem edited_cons (event : Event P) (older : History P) :
    (edited older).committed <+: (edited (event :: older)).committed := by
  cases event with
  | typed c => exact (edited older).type_committed (consumed older) c
  | call | took | returned | ended | failed => exact List.prefix_rfl

theorem edited_committed (newer older : History P) :
    (edited older).committed <+: (edited (newer ++ older)).committed := by
  induction newer with
  | nil => exact List.prefix_rfl
  | cons event newer ih => exact ih.trans (edited_cons event (newer ++ older))

def Event.consumes : Event P → Bool
  | .took _ _ => true
  | .ended _ => true
  | _ => false

theorem stream_quiet {event : Event P} (quiet : event.consumes = false) (older : History P) :
    stream (event :: older) = stream older := by
  cases event with
  | took | ended => cases quiet
  | typed | call | returned | failed => rfl

theorem consumed_quiet {newer : History P} (quiet : ∀ event ∈ newer, event.consumes = false) (older : History P) :
    consumed (newer ++ older) = consumed older := by
  induction newer with
  | nil => rfl
  | cons event newer ih =>
    have rest := ih fun event listed => quiet event (List.mem_cons_of_mem _ listed)
    rw [← rest, consumed, List.cons_append, stream_quiet (quiet event List.mem_cons_self)]
    rfl

variable [DecidableEq P]

theorem Legal.stream_prefix {history : History P} (legal : Legal history) :
    stream history <+: (edited history).committed := by
  have extend {older : History P} {c : UInt8} (before : stream older <+: (edited older).committed)
      (here : upcoming older = some c) : stream older ++ [c] <+: (edited older).committed := by
    obtain ⟨rest, all⟩ := before
    rw [upcoming, ← all, consumed, List.getElem?_append_right (Nat.le_refl _), Nat.sub_self] at here
    obtain ⟨tail, rfl⟩ : ∃ tail, rest = c :: tail := by
      cases rest with
      | nil => simp at here
      | cons head tail => exact ⟨tail, by simp at here; simp [here]⟩
    exact ⟨tail, by simp [← all]⟩
  induction history with
  | nil => exact List.nil_prefix
  | cons event older ih =>
    have before := ih legal.2
    cases event with
    | typed c => exact before.trans (edited_cons _ older)
    | call p n => exact before
    | took p c =>
      obtain ⟨n, got, _, _, _, _, here⟩ := legal.1
      exact extend before here
    | returned p bytes => exact before
    | ended p =>
      obtain ⟨n, _, _, here⟩ := legal.1
      exact extend before here
    | failed p => exact legal.1.elim

theorem Legal.of_append {newer older : History P} (legal : Legal (newer ++ older)) : Legal older := by
  induction newer with
  | nil => exact legal
  | cons event newer ih => exact ih legal.2

theorem Legal.ends_next {later newer older : History P} {event : Event P}
    (legal : Legal (later ++ event :: newer ++ older)) (quiet : ∀ event ∈ newer, event.consumes = false)
    (kept : upcoming older = some (control 'D')) (consumes : event.consumes = true) : ∃ q, event = .ended q := by
  rw [List.append_assoc] at legal
  have fits : event.Fits (newer ++ older) := legal.of_append.1
  have same : upcoming (newer ++ older) = some (control 'D') := by
    rw [upcoming, consumed_quiet quiet]
    obtain ⟨rest, all⟩ := edited_committed newer older
    rw [upcoming] at kept
    rw [← all, List.getElem?_append_left (List.getElem?_eq_some_iff.mp kept).1, kept]
  cases event with
  | took p c =>
    obtain ⟨n, got, _, _, _, other, here⟩ := fits
    exact absurd (Option.some.inj (here.symm.trans same)) other
  | ended q => exact ⟨q, rfl⟩
  | typed | call | returned | failed => cases consumes

end Text

end Xv6.Console
