import Xv6.Console.Machine

set_option autoImplicit false

namespace Xv6.Console

section Ring

def Input.ring (input : Input) : RingBuffer 32 inputBuf UInt8 := { head := input.r, tail := input.e, slots := input.buf }

/-- The ring holds the edited input from the `k`-th character on, and `w` stands at the end of what is
committed. -/
structure Holds (input : Input) (text : Text) (k : Nat) : Prop where
  passed : k ≤ text.committed.length
  mark : input.w = input.r + BitVec.ofNat 32 (text.committed.length - k)
  content : input.ring.content = text.committed.drop k ++ text.line
  room : text.waiting k ≤ inputBuf
  plain : newline ∉ text.line

variable {input : Input} {text : Text} {k : Nat}

theorem Holds.count (holds : Holds input text k) : input.ring.count = text.waiting k := by
  rw [← RingBuffer.length_content, holds.content]
  simp [Text.waiting]

theorem Holds.e_eq (holds : Holds input text k) : input.e = input.r + BitVec.ofNat 32 (text.waiting k) := by
  rw [← holds.count]
  exact input.ring.tail_eq

theorem Holds.e_sub_r (holds : Holds input text k) : (input.e - input.r).toNat = text.waiting k := holds.count

theorem Holds.w_sub_r (holds : Holds input text k) : (input.w - input.r).toNat = text.committed.length - k := by
  have small := holds.room
  rw [holds.mark, BitVec.add_comm, BitVec.add_sub_cancel, BitVec.toNat_ofNat]
  simp only [Text.waiting, inputBuf] at small
  exact Nat.mod_eq_of_lt (by omega)

theorem Holds.e_sub_w (holds : Holds input text k) : (input.e - input.w).toNat = text.line.length := by
  have small := holds.room
  simp only [Text.waiting, inputBuf] at small
  have e := holds.e_eq
  rw [Text.waiting, BitVec.ofNat_add, ← BitVec.add_assoc, ← holds.mark] at e
  rw [e, BitVec.add_comm, BitVec.add_sub_cancel, BitVec.toNat_ofNat]
  exact Nat.mod_eq_of_lt (by omega)

theorem Holds.e_eq_w_iff (holds : Holds input text k) : input.e = input.w ↔ text.line = [] := by
  have zero := RingBuffer.count_eq_zero_iff (c := inputBuf) ⟨input.w, input.e, input.buf⟩
  rw [← List.length_eq_zero_iff, ← holds.e_sub_w, eq_comm]
  exact zero.symm

theorem Holds.r_eq_w_iff (holds : Holds input text k) : input.r = input.w ↔ text.committed.length = k := by
  have zero : (input.w - input.r).toNat = 0 ↔ input.r = input.w :=
    RingBuffer.count_eq_zero_iff (c := inputBuf) ⟨input.r, input.w, input.buf⟩
  have := holds.passed
  rw [← zero, holds.w_sub_r]
  omega

theorem Holds.erase (holds : Holds input text k) (some : text.line ≠ []) :
    input.char (input.e - 1) = text.line.getLast some ∧
      Holds (input.setE (input.e - 1)) { text with line := text.line.dropLast } k := by
  have positive : 0 < input.ring.count := by
    have := List.length_pos_iff.mpr some
    rw [holds.count, Text.waiting]
    omega
  have parts := holds.content
  rw [input.ring.content_unpush positive, ← List.dropLast_append_getLast some, ← List.append_assoc] at parts
  obtain ⟨rest, last⟩ := List.append_inj' parts rfl
  refine ⟨List.singleton_inj.mp last, holds.passed, holds.mark, rest, ?_, fun listed => ?_⟩
  · have := holds.room
    simp only [Text.waiting, List.length_dropLast] at this ⊢
    omega
  · exact holds.plain ((List.dropLast_sublist _).subset listed)

theorem Holds.killLine {fuel : Nat} (holds : Holds input text k) (enough : text.line.length ≤ fuel) :
    Holds (input.killLine fuel) { text with line := [] } k := by
  induction fuel generalizing input text with
  | zero =>
    have empty : text.line = [] := List.length_eq_zero_iff.mp (Nat.le_zero.mp enough)
    rw [← empty]
    exact holds
  | succ fuel ih =>
    by_cases empty : text.line = []
    · rw [Input.killLine, if_neg (by simp [holds.e_eq_w_iff, empty]), ← empty]
      exact holds
    · obtain ⟨last, erased⟩ := holds.erase empty
      have other : input.char (input.e - 1) ≠ newline := by
        rw [last]
        exact fun same => holds.plain (same ▸ List.getLast_mem empty)
      rw [Input.killLine, if_pos ⟨fun same => empty (holds.e_eq_w_iff.mp same), other⟩]
      have shorter : text.line.dropLast.length ≤ fuel := by
        rw [List.length_dropLast]
        omega
      exact @ih _ { text with line := text.line.dropLast } erased shorter

theorem Holds.insert (holds : Holds input text k) (free : text.waiting k < inputBuf) (c : UInt8) :
    Holds (input.insert c) (text.insert k c) k := by
  have content : (input.store c).ring.content = text.committed.drop k ++ text.line ++ [c] := by
    rw [← holds.content]
    exact RingBuffer.content_push (by decide) input.ring c (by rwa [holds.count]) (by decide)
  have passed := holds.passed
  have grown : (input.store c).e = input.r + BitVec.ofNat 32 (text.waiting k + 1) := by
    change input.e + 1 = _
    rw [holds.e_eq, BitVec.add_assoc, show (1 : BitVec 32) = BitVec.ofNat 32 1 from rfl, ← BitVec.ofNat_add]
  have full : (input.store c).e = (input.store c).r + BitVec.ofNat 32 inputBuf ↔ text.waiting k + 1 = inputBuf := by
    change _ = input.r + BitVec.ofNat 32 inputBuf ↔ _
    rw [grown, BitVec.add_right_inj, ← BitVec.toNat_inj, BitVec.toNat_ofNat, BitVec.toNat_ofNat]
    simp only [inputBuf] at free ⊢
    omega
  unfold Input.insert Text.insert
  simp only [full]
  split
  next =>
    refine ⟨?_, ?_, ?_, ?_, List.not_mem_nil⟩
    · change k ≤ (text.committed ++ text.line ++ [c]).length
      simp only [List.length_append]
      omega
    · have length : text.waiting k + 1 = (text.committed ++ text.line ++ [c]).length - k := by
        simp only [Text.waiting, List.length_append, List.length_singleton]
        omega
      rw [length] at grown
      exact grown
    · refine content.trans ?_
      rw [List.drop_append_of_le_length (by simp only [List.length_append]; omega),
        List.drop_append_of_le_length passed, List.append_nil]
    · simp only [Text.waiting, List.length_append, List.length_singleton, List.length_nil] at free ⊢
      omega
  next other =>
    refine ⟨passed, holds.mark, ?_, ?_, ?_⟩
    · rw [← List.append_assoc]
      exact content
    · simp only [Text.waiting, List.length_append, List.length_singleton] at free ⊢
      omega
    · simp only [List.mem_append, List.mem_singleton, not_or]
      exact ⟨holds.plain, fun same => other (Or.inl same.symm)⟩

theorem Holds.key (holds : Holds input text k) {c : UInt8} (plain : c ≠ 'C'.toUInt8) :
    Holds (input.key c) (text.type k c) k := by
  unfold Input.key Text.type
  by_cases list : c = control 'P'
  · simpa [list] using holds
  by_cases kill : c = control 'U'
  · subst kill
    simp only [list, false_or, if_false, if_true, show control 'U' ≠ 0 by decide]
    exact holds.killLine holds.e_sub_w.ge
  by_cases back : c = control 'H' ∨ c = delete
  · have some : c ≠ 0 := by rcases back with rfl | rfl <;> decide
    simp only [list, kill, back, some, or_self, if_false, if_true]
    by_cases empty : text.line = []
    · rw [if_neg (by simp [holds.e_eq_w_iff, empty]), empty, List.dropLast_nil, ← empty]
      exact holds
    · rw [if_pos fun same => empty (holds.e_eq_w_iff.mp same)]
      exact (holds.erase empty).2
  simp only [list, kill, back, plain, false_or, if_false, holds.e_sub_r]
  by_cases zero : c = 0
  · simpa [zero] using holds
  by_cases free : text.waiting k < inputBuf
  · simpa [zero, free] using holds.insert free (asTyped c)
  · simpa [zero, free] using holds

theorem Holds.take (holds : Holds input text k) (nonempty : input.r ≠ input.w) :
    text.committed[k]? = some (input.char input.r) ∧ Holds (input.setR (input.r + 1)) text (k + 1) := by
  have passed := holds.passed
  have more : k < text.committed.length := by
    have apart : text.committed.length ≠ k := fun same => nonempty (holds.r_eq_w_iff.mpr same)
    omega
  have positive : 0 < input.ring.count := by
    rw [holds.count, Text.waiting]
    omega
  have content := holds.content
  rw [input.ring.content_pop positive, List.drop_eq_getElem_cons more, List.cons_append] at content
  obtain ⟨first, rest⟩ := List.cons.inj content
  refine ⟨?_, more, ?_, rest, ?_, holds.plain⟩
  · rw [List.getElem?_eq_getElem more, ← first]
    rfl
  · change input.w = input.r + 1 + _
    rw [holds.mark, BitVec.add_assoc, show (1 : BitVec 32) = BitVec.ofNat 32 1 from rfl, ← BitVec.ofNat_add]
    congr 2
    omega
  · have := holds.room
    simp only [Text.waiting] at this ⊢
    omega

end Ring

section Readers

variable {P : Type} [DecidableEq P]

def Reader.Waits (reader : Reader) : Prop :=
  reader.n + reader.dst.length = reader.target.toNat ∧ newline ∉ reader.dst

structure Follows (input : Input) (history : History P) (readers : P → Option Reader) : Prop where
  legal : Legal history
  holds : Holds input (edited history) (consumed history)
  calls : ∀ p, inCall p history = (readers p).map fun reader => (reader.target, reader.dst)
  waits : ∀ p reader, readers p = some reader → reader.Waits

variable {input : Input} {history : History P} {readers : P → Option Reader} {p : P}

theorem Follows.typed (follows : Follows input history readers) {c : UInt8} (plain : c ≠ 'C'.toUInt8) :
    Follows (input.key c) (.typed c :: history) readers :=
  ⟨⟨trivial, follows.legal⟩, follows.holds.key plain, follows.calls, follows.waits⟩

theorem update_waits {reader : Option Reader} (follows : Follows input history readers)
    (waits : ∀ r, reader = some r → r.Waits) (q : P) (r : Reader)
    (here : Function.update readers p reader q = some r) : r.Waits := by
  by_cases same : q = p
  · subst same
    exact waits r (by simpa using here)
  · exact follows.waits q r (by simpa [same] using here)

theorem Follows.call (follows : Follows input history readers) (idle : readers p = none) (n : Int) :
    Follows input (.call p n :: history)
      (Function.update readers p (some { target := n, n := n.toNat, dst := [] })) := by
  refine ⟨⟨?_, follows.legal⟩, follows.holds, fun q => ?_, update_waits follows fun r same => ?_⟩
  · change inCall p history = none
    simp [follows.calls, idle]
  · by_cases same : p = q
    · subst same
      simp [inCall]
    · simp [inCall, same, Ne.symm same, follows.calls]
  · cases same
    exact ⟨rfl, List.not_mem_nil⟩

theorem Follows.returned (follows : Follows input history readers) {reader : Reader} (here : readers p = some reader)
    (done : newline ∈ reader.dst ∨ reader.target ≤ reader.dst.length ∨
      reader.dst ≠ [] ∧ upcoming history = some (control 'D')) :
    Follows input (.returned p reader.dst :: history) (Function.update readers p none) := by
  refine ⟨⟨⟨reader.target, ?_, done⟩, follows.legal⟩, follows.holds, fun q => ?_, update_waits follows nofun⟩
  · simp [follows.calls, here]
  · by_cases same : p = q
    · subst same
      simp [inCall]
    · simp [inCall, same, Ne.symm same, follows.calls]

theorem Follows.ended (follows : Follows input history readers) {reader : Reader} (here : readers p = some reader)
    (wants : 0 < reader.target) (empty : reader.dst = []) (nonempty : input.r ≠ input.w)
    (eof : input.char input.r = control 'D') :
    Follows (input.setR (input.r + 1)) (.ended p :: history) (Function.update readers p none) := by
  obtain ⟨next, taken⟩ := follows.holds.take nonempty
  have one : consumed (.ended p :: history) = consumed history + 1 := by simp [consumed, stream]
  refine ⟨⟨⟨reader.target, ?_, wants, next.trans (congrArg some eof)⟩, follows.legal⟩, one ▸ taken, fun q => ?_,
    update_waits follows (by rintro _ ⟨⟩)⟩
  · simp [follows.calls, here, empty]
  · by_cases same : p = q
    · subst same
      simp [inCall]
    · simp [inCall, same, Ne.symm same, follows.calls]

section Taking

variable {reader : Reader} {n : Nat}

theorem Follows.fits_took (follows : Follows input history readers) (here : readers p = some reader)
    (wants : reader.n = n + 1) (nonempty : input.r ≠ input.w) (byte : input.char input.r ≠ control 'D') :
    (Event.took p (input.char input.r)).Fits history := by
  obtain ⟨length, plain⟩ := follows.waits p reader here
  refine ⟨reader.target, reader.dst, by simp [follows.calls, here], ?_, plain, byte, (follows.holds.take nonempty).1⟩
  omega

theorem Follows.calls_took (follows : Follows input history readers) (here : readers p = some reader) (c : UInt8)
    (q : P) : inCall q (.took p c :: history) =
      (Function.update readers p (some { reader with n := n, dst := reader.dst ++ [c] }) q).map fun reader =>
        (reader.target, reader.dst) := by
  by_cases same : p = q
  · subst same
    simp [inCall, follows.calls, here]
  · simp [inCall, same, Ne.symm same, follows.calls]

theorem Follows.holds_took (follows : Follows input history readers) (nonempty : input.r ≠ input.w) (c : UInt8) :
    Holds (input.setR (input.r + 1)) (edited (.took p c :: history)) (consumed (.took p c :: history)) := by
  have one : consumed (.took p c :: history) = consumed history + 1 := by simp [consumed, stream]
  exact one ▸ (follows.holds.take nonempty).2

theorem Follows.took (follows : Follows input history readers) (here : readers p = some reader)
    (wants : reader.n = n + 1) (nonempty : input.r ≠ input.w) (byte : input.char input.r ≠ control 'D')
    (within : input.char input.r ≠ newline) :
    Follows (input.setR (input.r + 1)) (.took p (input.char input.r) :: history) (Function.update readers p
        (some { reader with n := n, dst := reader.dst ++ [input.char input.r] })) := by
  obtain ⟨length, plain⟩ := follows.waits p reader here
  refine ⟨⟨follows.fits_took here wants nonempty byte, follows.legal⟩, follows.holds_took nonempty _,
    follows.calls_took here _, update_waits follows fun r same => ?_⟩
  cases same
  refine ⟨?_, ?_⟩
  · simp only [List.length_append, List.length_singleton]
    omega
  · simp [plain, within.symm]

theorem Follows.tookLine (follows : Follows input history readers) (here : readers p = some reader)
    (wants : reader.n = n + 1) (nonempty : input.r ≠ input.w) (line : input.char input.r = newline) :
    Follows (input.setR (input.r + 1))
      (.returned p (reader.dst ++ [input.char input.r]) :: .took p (input.char input.r) :: history)
      (Function.update readers p none) := by
  have byte : input.char input.r ≠ control 'D' := by
    rw [line]
    decide
  have calls := fun q => follows.calls_took (n := n) here (input.char input.r) q
  refine ⟨⟨⟨reader.target, ?_, Or.inl ?_⟩, follows.fits_took here wants nonempty byte, follows.legal⟩,
    follows.holds_took (p := p) nonempty _, fun q => ?_, update_waits follows nofun⟩
  · simp [calls]
  · simp [line]
  · by_cases same : p = q
    · subst same
      simp [inCall]
    · rw [inCall, if_neg same, calls]
      simp [Ne.symm same]

end Taking

theorem consoleread_follows {target : Int} {n : Nat} {dst : List UInt8} {s : State P} (alive : s.killed p = false)
    (follows : Follows s.input s.history (Function.update s.readers p (some { target, n, dst }))) :
    Follows (consoleread p target n dst s).input (consoleread p target n dst s).history
      (consoleread p target n dst s).readers ∧ (consoleread p target n dst s).killed = s.killed := by
  have here {reader : Reader} {readers : P → Option Reader} :
      Function.update readers p (some reader) p = some reader := Function.update_self ..
  induction n generalizing dst s with
  | zero =>
    obtain ⟨length, _⟩ := follows.waits p _ here
    have all : target ≤ dst.length := by
      simp only at length
      omega
    have done := follows.returned here (Or.inr (Or.inl all))
    rw [Function.update_idem] at done
    exact ⟨done, rfl⟩
  | succ n ih =>
    unfold consoleread
    by_cases empty : s.input.r = s.input.w
    · rw [if_pos empty, if_neg (by simp [alive])]
      exact ⟨follows, rfl⟩
    rw [if_neg empty]
    by_cases eof : s.input.char s.input.r = control 'D'
    · simp only [eof, if_true]
      obtain ⟨length, plain⟩ := follows.waits p _ here
      simp only at length
      split
      next less =>
        have kept : upcoming s.history = some (control 'D') := eof ▸ (follows.holds.take empty).1
        have got : dst ≠ [] := by
          rintro rfl
          simp at length
          omega
        have done := follows.returned here (Or.inr (Or.inr ⟨got, kept⟩))
        rw [Function.update_idem] at done
        have same : (s.input.setR (s.input.r + 1)).setR ((s.input.setR (s.input.r + 1)).r - 1) = s.input := by
          simp [Input.setR]
        rw [same]
        exact ⟨done, rfl⟩
      next all =>
        have none : dst = [] := by
          apply List.length_eq_zero_iff.mp
          omega
        have wants : 0 < target := by omega
        have done := follows.ended here wants none empty eof
        rw [Function.update_idem] at done
        exact ⟨done, rfl⟩
    · simp only [eof, if_false]
      by_cases line : s.input.char s.input.r = newline
      · have done := follows.tookLine here rfl empty line
        rw [Function.update_idem] at done
        rw [if_pos line]
        exact ⟨done, rfl⟩
      · have more := follows.took here rfl empty eof line
        rw [Function.update_idem] at more
        rw [if_neg line]
        exact ih alive more

theorem consoleintr_follows {batch : List UInt8} {s : State P} (follows : Follows s.input s.history s.readers)
    (plain : 'C'.toUInt8 ∉ batch) :
    Follows (consoleintr batch s).input (consoleintr batch s).history (consoleintr batch s).readers ∧
      (consoleintr batch s).killed = s.killed := by
  induction batch generalizing s with
  | nil => exact ⟨follows, rfl⟩
  | cons c batch ih =>
    simp only [List.mem_cons, not_or] at plain
    exact ih (follows.typed (Ne.symm plain.1)) plain.2

end Readers

section Runs

variable {P : Type} [DecidableEq P]

def Sound (s : State P) : Prop := Follows s.input s.history s.readers ∧ ∀ p, s.killed p = false

theorem boot_sound : Sound (boot : State P) := by
  have empty : (boot : State P).input.ring.content = [] := by
    rw [← List.length_eq_zero_iff, RingBuffer.length_content]
    exact (RingBuffer.count_eq_zero_iff _).mpr rfl
  exact ⟨⟨trivial, ⟨Nat.le_refl _, rfl, empty, Nat.zero_le _, List.not_mem_nil⟩, fun _ => rfl, nofun⟩, fun _ => rfl⟩

theorem step_sound {s s' : State P} {action : Action P} (sound : Sound s) (may : allowed s action)
    (next : step action s = some s') : Sound s' := by
  obtain ⟨follows, alive⟩ := sound
  cases action with
  | intr batch =>
    cases next
    obtain ⟨after, same⟩ := consoleintr_follows follows (of_decide_eq_true may)
    exact ⟨after, same ▸ alive⟩
  | call p n =>
    by_cases busy : (s.readers p).isSome = true
    · simp [step, busy] at next
    · simp only [step, busy] at next
      cases next
      exact ⟨follows.call (by simpa using busy) n, alive⟩
  | resume p =>
    obtain ⟨reader, here, same⟩ := Option.map_eq_some_iff.mp next
    subst same
    have sleeping : Function.update s.readers p (some reader) = s.readers := Function.update_eq_self_iff.mpr here.symm
    obtain ⟨after, same⟩ := consoleread_follows (alive p) (sleeping.symm ▸ follows)
    exact ⟨after, same ▸ alive⟩
  | kill p => cases may

theorem Reachable.sound {s : State P} (reached : Reachable s) : Sound s :=
  Runs.Reachable.invariant reached Sound (fun _ same => same ▸ boot_sound) fun _ _ _ sound may next =>
    step_sound sound may next

/-- In every state of every run, with 32-bit indices that may have wrapped: the indices are in order, the
ring holds the edited input from the first character that no reader has taken, the readers took the edited
input in order, and every call ended where it should. A ^D met after some bytes is the next character
taken, by a read that returns 0. -/
theorem console_discipline {s : State P} (reached : Reachable s) :
    (s.input.w - s.input.r).toNat ≤ (s.input.e - s.input.r).toNat ∧
    (s.input.e - s.input.r).toNat ≤ inputBuf ∧
    s.input.ring.content = (edited s.history).committed.drop (consumed s.history) ++ (edited s.history).line ∧
    (∀ newer older, s.history = newer ++ older → (edited older).committed <+: (edited s.history).committed) ∧
    stream s.history = (edited s.history).committed.take (consumed s.history) ∧
    Legal s.history ∧
    ∀ later event newer p bytes older, s.history = later ++ event :: newer ++ .returned p bytes :: older →
      upcoming older = some (control 'D') → event.consumes = true →
      (∀ other ∈ newer, other.consumes = false) → ∃ q, event = .ended q := by
  have follows := reached.sound.1
  have holds := follows.holds
  refine ⟨?_, ?_, holds.content, fun newer older same => same ▸ edited_committed newer older, ?_, follows.legal, ?_⟩
  · rw [holds.w_sub_r, holds.e_sub_r]
    exact Nat.le_add_right ..
  · rw [holds.e_sub_r]
    exact holds.room
  · exact List.prefix_iff_eq_take.mp follows.legal.stream_prefix
  · intro later event newer p bytes older same kept consumes quiet
    have legal : Legal (later ++ event :: newer ++ .returned p bytes :: older) := same ▸ follows.legal
    exact legal.ends_next quiet kept consumes

def sampleKeys : List (Action Nat) :=
  [.intr [97, 98, 8, 99], .call 0 4, .resume 0, .intr [13], .resume 0, .intr [100, 4], .call 1 4, .resume 1,
    .call 0 4, .resume 0]

def sampleEvents : History Nat :=
  [.ended 0, .call 0 4, .returned 1 [100], .took 1 100, .call 1 4, .typed 4, .typed 100, .returned 0 [97, 99, 10],
    .took 0 10, .took 0 99, .took 0 97, .typed 13, .call 0 4, .typed 99, .typed 8, .typed 98, .typed 97]

theorem sampleKeys_run : (Runs.run step sampleKeys (boot : State Nat)).map State.history = some sampleEvents := by
  decide +kernel

theorem reachable_of_keys {actions : List (Action Nat)} {events : History Nat}
    (plain : ∀ action ∈ actions, action.plain = true)
    (runs : (Runs.run step actions (boot : State Nat)).map State.history = some events) :
    ∃ s : State Nat, Reachable s ∧ s.history = events := by
  obtain ⟨s, reached, same⟩ := Option.map_eq_some_iff.mp runs
  exact ⟨s, Runs.reachable_along (.start rfl) actions (Runs.along_of_forall actions (fun action listed _ => plain action listed) boot)
    reached, same⟩

theorem console_discipline_twoReaders :
    ∃ s : State Nat, Reachable s ∧ s.history = sampleEvents ∧ stream s.history = [97, 99, 10, 100, 4] ∧
      (s.input.w - s.input.r).toNat ≤ (s.input.e - s.input.r).toNat ∧ Legal s.history := by
  obtain ⟨s, reached, same⟩ := reachable_of_keys (by decide) sampleKeys_run
  have holds := console_discipline reached
  exact ⟨s, reached, same, by rw [same]; decide, holds.1, holds.2.2.2.2.2.1⟩

/-- A NUL is dropped though the ring is empty: the read gets only the newline typed after it. -/
theorem nul_dropped : ∃ s : State Nat, Reachable s ∧
      s.history = [.returned 0 [10], .took 0 10, .call 0 5, .typed 10, .typed 0] :=
  @reachable_of_keys [.intr [0, 10], .call 0 5, .resume 0] _ (by decide) (by decide +kernel)

end Runs

end Xv6.Console
