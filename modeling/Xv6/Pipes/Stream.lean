import Xv6.Pipes.Locks

set_option autoImplicit false

namespace Xv6.Pipes

@[simp] theorem close_ring (pipe : Pipe) (writable : Bool) : (pipe.close writable).ring = pipe.ring := by
  cases writable <;> rfl

theorem full_iff (pipe : Pipe) : pipe.full = true ↔ pipe.ring.count = pipeSize := by
  rw [RingBuffer.count_eq_iff _ (by decide)]
  exact beq_iff_eq

theorem empty_iff (pipe : Pipe) : pipe.empty = true ↔ pipe.ring.count = 0 := by
  rw [RingBuffer.count_eq_zero_iff]
  exact beq_iff_eq

variable {pipe : Pipe}

theorem room_of_not_full (bounded : pipe.ring.count ≤ pipeSize) (room : pipe.full = false) :
    pipe.ring.count < pipeSize := by
  have := mt (full_iff pipe).mpr (by simp [room])
  omega

theorem some_of_not_empty (some : pipe.empty = false) : 0 < pipe.ring.count := by
  have := mt (empty_iff pipe).mpr (by simp [some])
  omega

theorem content_store {byte : Byte} (room : pipe.ring.count < pipeSize) :
    (pipe.store byte).ring.content = pipe.ring.content ++ [byte] :=
  RingBuffer.content_push (by decide) pipe.ring byte room (by decide)

theorem count_store {byte : Byte} (room : pipe.ring.count < pipeSize) :
    (pipe.store byte).ring.count = pipe.ring.count + 1 :=
  RingBuffer.count_push pipe.ring byte (by have : pipeSize = 512 := rfl; omega)

theorem content_take (some : 0 < pipe.ring.count) : pipe.ring.content = pipe.next :: pipe.take.ring.content :=
  RingBuffer.content_pop pipe.ring some

theorem count_take (some : 0 < pipe.ring.count) : pipe.take.ring.count + 1 = pipe.ring.count :=
  RingBuffer.count_pop pipe.ring some

def Effect.onPipe (pipe : Pipe) : Effect → Pipe
  | .store byte => pipe.store byte
  | .take => pipe.take
  | .close writable => pipe.close writable
  | _ => pipe

def Effect.stores : Effect → List Byte
  | .store byte => [byte]
  | _ => []

def Effect.takes (pipe : Pipe) : Effect → List Byte
  | .take => [pipe.next]
  | _ => []

def movedBy {P : Type} [DecidableEq P] (entries : List (Entry P)) (p : P) (call : Nat) : List Byte :=
  (entries.filter fun entry => entry.proc = p ∧ entry.call = call).map Entry.byte

def CallFacts (pipe : Pipe) (stored handed : List Byte) : Pc → Prop
  | .idle | .pipeclose .. => True
  | .pipewrite n addr i point => stored = (List.range i).map addr ∧ i ≤ n.toNat ∧
      match point with
      | .acquire | .loop => True
      | .full | .wakeup | .sleep _ => (i : Int) < n
      | .wakeupLast => i = n.toNat
      | .unlock ret => ret = n → i = n.toNat
  | .piperead n addr point => handed = addr ∧
      match point with
      | .acquire | .empty | .killed | .sleep _ => addr = []
      | .copy => addr = [] → pipe.empty = false ∨ pipe.writeopen = false
      | .wakeupLast => 0 < n → addr = [] → pipe.empty = true ∧ pipe.writeopen = false
      | .unlock ret => ret = -1 ∧ addr = [] ∨
          ret = addr.length ∧ (0 < n → addr = [] → pipe.empty = true ∧ pipe.writeopen = false)

section Statements

variable {pipe : Pipe} {killed : Bool} {pc pc' : Pc} {effect : Effect} {stored handed : List Byte}

theorem next_ring (next : Next pipe killed pc effect pc') (bounded : pipe.ring.count ≤ pipeSize) :
    (effect.onPipe pipe).ring.count ≤ pipeSize ∧
      pipe.ring.content ++ effect.stores = effect.takes pipe ++ (effect.onPipe pipe).ring.content := by
  cases next with
  | writeStore _ room =>
    have free := room_of_not_full bounded room
    simp only [Effect.onPipe, Effect.stores, Effect.takes, content_store free, count_store free]
    exact ⟨free, rfl⟩
  | readTake _ nonempty =>
    have some := some_of_not_empty nonempty
    have fewer := count_take some
    simp only [Effect.onPipe, Effect.stores, Effect.takes, List.append_nil]
    exact ⟨by omega, content_take some⟩
  | _ => simpa [Effect.onPipe, Effect.stores, Effect.takes] using bounded

theorem next_facts (next : Next pipe killed pc effect pc') (facts : CallFacts pipe stored handed pc) :
    CallFacts (effect.onPipe pipe) (stored ++ effect.stores) (handed ++ effect.takes pipe) pc' := by
  cases next with
  | writeStore more room =>
    obtain ⟨rfl, _, _⟩ := facts
    exact ⟨by simp [Effect.stores, List.range_succ], by omega, trivial⟩
  | readTake more nonempty =>
    obtain ⟨rfl, _⟩ := facts
    exact ⟨rfl, by simp⟩
  | writeReturn | readReturn | closeAcquire | close | closeWakeup | closeTest | closeReturn | closeRelease
  | closeFree => trivial
  | writeAcquire | writeRelock | writeFull more _ =>
    simp only [Effect.stores, List.append_nil]
    exact ⟨facts.1, facts.2.1, by trivial⟩
  | writeAll all =>
    obtain ⟨same, short, _⟩ := facts
    simp only [Effect.stores, List.append_nil]
    exact ⟨same, short, by omega⟩
  | writeFail hopeless =>
    obtain ⟨same, short, more⟩ := facts
    simp only [Effect.stores, List.append_nil]
    exact ⟨same, short, by omega⟩
  | writeWakeupLast =>
    obtain ⟨same, short, all⟩ := facts
    simp only [Effect.stores, List.append_nil]
    exact ⟨same, short, fun _ => all⟩
  | writeWait | writeWakeup | writePtable | writeRelease | writeFall =>
    simp only [Effect.stores, List.append_nil]
    exact facts
  | readReady ready =>
    simp only [Effect.takes, List.append_nil]
    exact ⟨facts.1, fun _ => ready⟩
  | readFail =>
    simp only [Effect.takes, List.append_nil]
    exact ⟨facts.1, .inl ⟨rfl, facts.2⟩⟩
  | readAll all =>
    obtain ⟨same, ready⟩ := facts
    simp only [Effect.takes, List.append_nil]
    refine ⟨same, fun positive none => ?_⟩
    have drained : pipe.empty = true := all.resolve_left (by simp [none, positive])
    exact ⟨drained, (ready none).resolve_left (by simp [drained])⟩
  | readWakeupLast =>
    simp only [Effect.takes, List.append_nil]
    exact ⟨facts.1, .inr ⟨rfl, facts.2⟩⟩
  | readAcquire | readEmpty | readWait | readPtable | readRelease | readFall | readRelock =>
    simp only [Effect.takes, List.append_nil]
    exact facts

theorem facts_unlocked (pipe' : Pipe) (facts : CallFacts pipe stored handed pc) (unlocked : pc.locked = false) :
    CallFacts pipe' stored handed pc := by
  rcases pc with _ | ⟨n, addr, i, point⟩ | ⟨n, addr, point⟩ | ⟨writable, point⟩
  · trivial
  · exact facts
  · cases point <;> first | exact facts | cases unlocked
  · trivial

theorem onPipe_of_unlocked (next : Next pipe killed pc effect pc') (unlocked : pc.locked = false) :
    effect.onPipe pipe = pipe := by
  cases next <;> first | rfl | cases unlocked

end Statements

variable {P : Type} [DecidableEq P] {s s' : State P}

theorem perform_streams {p : P} {effect : Effect} (performed : perform p s effect = some s') :
    s'.pipe = effect.onPipe s.pipe ∧
      s'.stored = s.stored ++ effect.stores.map (fun byte => ⟨p, (s.procs p).calls, byte⟩) ∧
      s'.handed = s.handed ++ (effect.takes s.pipe).map fun byte => ⟨p, (s.procs p).calls, byte⟩ := by
  cases effect with
  | acquire | acquirePtable | wakeup =>
    simp only [perform, Runs.guarded] at performed
    rw [← performed.2]
    simp [Effect.onPipe, Effect.stores, Effect.takes]
  | stay | release | store | take | close | free | fall =>
    cases performed
    simp [Effect.onPipe, Effect.stores, Effect.takes]

@[simp] theorem movedBy_append (first second : List (Entry P)) (p : P) (call : Nat) :
    movedBy (first ++ second) p call = movedBy first p call ++ movedBy second p call := by
  simp [movedBy]

theorem movedBy_own (p : P) (call : Nat) (bytes : List Byte) :
    movedBy (bytes.map fun byte => (⟨p, call, byte⟩ : Entry P)) p call = bytes := by
  induction bytes with
  | nil => rfl
  | cons byte rest ih => simpa [movedBy] using ih

theorem movedBy_other {p q : P} (different : q ≠ p) (call call' : Nat) (bytes : List Byte) :
    movedBy (bytes.map fun byte => (⟨p, call, byte⟩ : Entry P)) q call' = [] := by
  simp [movedBy, List.filter_map, Function.comp_def, different.symm]

theorem movedBy_later {entries : List (Entry P)} {p : P} {call : Nat}
    (dated : ∀ entry ∈ entries, entry.proc = p → entry.call < call) : movedBy entries p call = [] := by
  simp only [movedBy, List.map_eq_nil_iff, List.filter_eq_nil_iff, decide_eq_true_eq, not_and]
  intro entry listed same equal
  have := dated entry listed same
  omega

structure Stream (s : State P) : Prop where
  bounded : s.pipe.ring.count ≤ pipeSize
  split : s.stored.map Entry.byte = s.handed.map Entry.byte ++ s.pipe.ring.content
  dated : ∀ entry ∈ s.stored ++ s.handed, entry.call ≤ (s.procs entry.proc).calls
  calls : ∀ p, CallFacts s.pipe (movedBy s.stored p (s.procs p).calls) (movedBy s.handed p (s.procs p).calls)
    (s.procs p).pc

theorem goto_calls (s : State P) (p q : P) (pc : Pc) : ((s.goto p pc).procs q).calls = (s.procs q).calls := by
  by_cases same : q = p
  · subst same
    simp
  · simp [same]

theorem statement_stream {p : P} (locks : Locks s) (stream : Stream s) (next : statement p s = some s') :
    Stream s' := by
  obtain ⟨effect, pc, between, moves, performed, rfl⟩ := statement_eq_some next
  obtain ⟨pipe, stored, handed⟩ := perform_streams performed
  have frame := perform_pc performed
  obtain ⟨bounded, shifted⟩ := next_ring moves stream.bounded
  have bytes (moved : List Byte) :
      (moved.map fun byte => (⟨p, (s.procs p).calls, byte⟩ : Entry P)).map Entry.byte = moved := by
    simp [Function.comp_def]
  refine ⟨?_, ?_, ?_, ?_⟩
  · change between.pipe.ring.count ≤ pipeSize
    rwa [pipe]
  · change between.stored.map Entry.byte = between.handed.map Entry.byte ++ between.pipe.ring.content
    rw [stored, handed, pipe, List.map_append, List.map_append, bytes, bytes, stream.split, List.append_assoc,
      shifted, List.append_assoc]
  · intro entry listed
    rw [goto_calls, (frame entry.proc).2]
    change entry ∈ between.stored ++ between.handed at listed
    rw [stored, handed] at listed
    simp only [List.mem_append, List.mem_map] at listed
    rcases listed with (old | ⟨byte, _, rfl⟩) | old | ⟨byte, _, rfl⟩
    · exact stream.dated entry (List.mem_append_left _ old)
    · exact Nat.le_refl _
    · exact stream.dated entry (List.mem_append_right _ old)
    · exact Nat.le_refl _
  · intro q
    rw [goto_calls, (frame q).2]
    change CallFacts between.pipe (movedBy between.stored q _) (movedBy between.handed q _) _
    rw [pipe, stored, handed, movedBy_append, movedBy_append]
    by_cases same : q = p
    · subst same
      rw [movedBy_own, movedBy_own, goto_procs_self]
      exact next_facts moves (stream.calls q)
    · rw [movedBy_other same, movedBy_other same, List.append_nil, List.append_nil, goto_procs_ne _ _ same,
        (frame q).1]
      by_cases mine : (s.procs p).pc.locked = true
      · -- The lock is held by `p`, so `q` is at a point where nothing is said about the ring.
        exact facts_unlocked _ (stream.calls q) (locks.unlocked same mine)
      · rw [onPipe_of_unlocked moves (by simpa using mine)]
        exact stream.calls q

theorem entry_facts (pipe : Pipe) (c : Call) : CallFacts pipe [] [] c.entry := by
  cases c with
  | pipewrite n addr => exact ⟨rfl, Nat.zero_le _, trivial⟩
  | piperead n => exact ⟨rfl, rfl⟩
  | pipeclose writable => trivial

theorem resume_facts {stored handed : List Byte} {pc : Pc} (facts : CallFacts pipe stored handed pc) :
    CallFacts pipe stored handed pc.resume := by
  unfold Pc.resume
  split <;> exact facts

theorem Stream.update (stream : Stream s) (p : P) (proc : Proc) (calls : (s.procs p).calls ≤ proc.calls)
    (facts : CallFacts s.pipe (movedBy s.stored p proc.calls) (movedBy s.handed p proc.calls) proc.pc) :
    Stream { s with procs := Function.update s.procs p proc } := by
  refine ⟨stream.bounded, stream.split, fun entry listed => ?_, fun q => ?_⟩
  · have before := stream.dated entry listed
    by_cases same : entry.proc = p
    · rw [same] at before
      simpa [same] using Nat.le_trans before calls
    · simpa [same] using before
  · by_cases same : q = p
    · subst same
      simpa using facts
    · simpa [same] using stream.calls q

theorem step_stream {a : Action P} (locks : Locks s) (stream : Stream s) (next : step a s = some s') : Stream s' := by
  cases a with
  | call p c =>
    simp only [step, Option.ite_none_right_eq_some] at next
    obtain ⟨idle, rfl⟩ := call_eq_some next.2
    have unused (entries : List (Entry P)) (part : ∀ entry ∈ entries, entry ∈ s.stored ++ s.handed) :
        movedBy entries p ((s.procs p).calls + 1) = [] := by
      refine movedBy_later fun entry listed same => ?_
      have := stream.dated entry (part entry listed)
      rw [same] at this
      omega
    refine stream.update p _ (Nat.le_succ _) ?_
    rw [unused s.stored fun _ => List.mem_append_left _, unused s.handed fun _ => List.mem_append_right _]
    exact entry_facts s.pipe c
  | statement p =>
    simp only [step, Option.ite_none_right_eq_some] at next
    exact statement_stream locks stream next.2
  | kill p =>
    simp only [step, kill, Runs.guarded] at next
    rw [← next.2]
    exact stream.update p _ (Nat.le_refl _) (stream.calls p)
  | dispatch p =>
    simp only [step, dispatch, Runs.guarded] at next
    rw [← next.2]
    exact stream.update p _ (Nat.le_refl _) (resume_facts (stream.calls p))
  | preempt p =>
    simp only [step, preempt, Runs.guarded] at next
    rw [← next.2]
    exact stream.update p _ (Nat.le_refl _) (stream.calls p)

theorem allocated_stream (fresh : Allocated s) : Stream s := by
  have none : s.pipe.ring.count = 0 := by
    rw [RingBuffer.count_eq_zero_iff]
    exact fresh.nread.trans fresh.nwrite.symm
  refine ⟨by omega, ?_, ?_, fun p => ?_⟩
  · simp [fresh.stored, fresh.handed, RingBuffer.content, none]
  · simp [fresh.stored, fresh.handed]
  · rw [(fresh.idle p).1]
    trivial

abbrev Reached (s : State P) : Prop := Runs.Reachable step (fun _ _ => True) Allocated s

theorem reached_stream (reached : Reached s) : Stream s := by
  have both := reached.invariant (fun s => Locks s ∧ Stream s)
    (fun _ fresh => ⟨allocated_locks fresh, allocated_stream fresh⟩)
    fun _ _ _ inv _ next => ⟨step_locks inv.1 next, step_stream inv.1 inv.2 next⟩
  exact both.2

/-- Stream integrity: the counters never part by more than the ring, what was read is the beginning of
what was written, the ring holds the rest, a full write stored its bytes in order, and a read of
nothing means that the write end is closed and the pipe drained. -/
theorem pipe_stream (s : State P) (reached : Reached s) : (s.pipe.nwrite - s.pipe.nread).toNat ≤ pipeSize ∧
    s.stored.map Entry.byte = s.handed.map Entry.byte ++
      (List.range (s.pipe.nwrite - s.pipe.nread).toNat).map (fun k =>
        s.pipe.data ((s.pipe.nread + BitVec.ofNat 32 k).toNat % pipeSize)) ∧
    (∀ p n addr i, (s.procs p).pc = .pipewrite n addr i (.unlock n) →
      movedBy s.stored p (s.procs p).calls = (List.range n.toNat).map addr) ∧
    (∀ p n addr ret, (s.procs p).pc = .piperead n addr (.unlock ret) → ret ≠ -1 →
      movedBy s.handed p (s.procs p).calls = addr ∧ ret = addr.length) ∧
    ∀ p n addr, (s.procs p).pc = .piperead n addr (.unlock 0) → 0 < n →
      s.pipe.writeopen = false ∧ s.stored.map Entry.byte = s.handed.map Entry.byte := by
  have stream := reached_stream reached
  refine ⟨stream.bounded, stream.split, ?_, ?_, ?_⟩
  · intro p n addr i here
    have facts := stream.calls p
    rw [here] at facts
    rw [facts.1, facts.2.2 rfl]
  · intro p n addr ret here ended
    have facts := stream.calls p
    rw [here] at facts
    rcases facts.2 with ⟨failed, _⟩ | ⟨count, _⟩
    · exact absurd failed ended
    · exact ⟨facts.1, count⟩
  · intro p n addr here positive
    have facts := stream.calls p
    rw [here] at facts
    rcases facts.2 with ⟨failed, _⟩ | ⟨count, drained⟩
    · cases failed
    · have none : addr = [] := List.eq_nil_of_length_eq_zero (by omega)
      obtain ⟨empty, closed⟩ := drained positive none
      refine ⟨closed, ?_⟩
      rw [stream.split, RingBuffer.content, (empty_iff s.pipe).mp empty]
      simp

theorem pipe_stream_after_write :
    ∃ s : State Unit, Runs.run step [.call () (.pipewrite 1 fun _ => 7), .statement (), .statement (), .statement (),
        .statement ()] (newPipe Unit) = some s ∧
      (s.procs ()).pc = .pipewrite 1 (fun _ => 7) 1 (.unlock 1) ∧ movedBy s.stored () 1 = [7] := by
  refine ⟨_, rfl, rfl, ?_⟩
  exact (pipe_stream _ (Runs.reachable_run (.start (newPipe_allocated Unit)) [.call () (.pipewrite 1 fun _ => 7),
    .statement (), .statement (), .statement (), .statement ()] rfl)).2.2.1 () 1 _ 1 rfl

end Xv6.Pipes
