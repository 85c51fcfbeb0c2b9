import Xv6.Disk.Machine

set_option autoImplicit false

namespace Xv6.Disk

open LinkedQueue

section Registers

variable {blockno : Nat}

theorem encode_drive (blockno : Nat) : (encode 1 blockno).drive = 1 := by
  simp only [encode, Registers.drive]
  omega

theorem encode_sector (bound : blockno < fsSize) : (encode 1 blockno).sector = blockno := by
  have small : blockno < 1000 := bound
  simp only [encode, Registers.sector, bSize, sectorSize]
  omega

end Registers

variable {P : Type} {n : Nat} {s s' : State P n} {m : Memory P n} {b c : Fin n} {queue : List (Fin n)}

section Replay

theorem setBuf_ne (m : Memory P n) (other : c ≠ b) (buf : Buf P) : (m.setBuf b buf).bufs c = m.bufs c :=
  Function.update_of_ne other ..

/-- The queued requests, carried out by the memory disk one after the other. -/
def replay (queue : List (Fin n)) (m : Memory P n) : Memory P n := queue.foldl (fun m b => transfer b m) m

theorem replay_snoc (queue : List (Fin n)) (b : Fin n) (m : Memory P n) :
    replay (queue ++ [b]) m = transfer b (replay queue m) := by
  simp [replay]

theorem transfer_other (other : c ≠ b) (m : Memory P n) : (transfer b m).bufs c = m.bufs c := by
  by_cases dirty : (m.bufs b).dirty = true
  · simp [transfer, dirty, Memory.setBuf, other]
  · simp [transfer, dirty, Memory.setBuf, other]

theorem transfer_setBuf (other : c ≠ b) (m : Memory P n) (buf : Buf P) :
    transfer b (m.setBuf c buf) = (transfer b m).setBuf c buf := by
  have same : (m.setBuf c buf).bufs b = m.bufs b := setBuf_ne m (Ne.symm other) buf
  simp only [transfer, same]
  split
  · simp only [Memory.setBuf, Function.update_comm other]
  · simp only [Memory.setBuf, Function.update_comm other]

theorem replay_other (absent : c ∉ queue) (m : Memory P n) : (replay queue m).bufs c = m.bufs c := by
  induction queue generalizing m with
  | nil => rfl
  | cons b rest ih =>
    have later := ih (fun member => absent (List.mem_cons_of_mem b member)) (transfer b m)
    exact later.trans (transfer_other (List.ne_of_not_mem_cons absent) m)

theorem replay_setBuf (absent : c ∉ queue) (m : Memory P n) (buf : Buf P) :
    replay queue (m.setBuf c buf) = (replay queue m).setBuf c buf := by
  induction queue generalizing m with
  | nil => rfl
  | cons b rest ih =>
    have later := ih (fun member => absent (List.mem_cons_of_mem b member)) (transfer b m)
    have first : transfer b (m.setBuf c buf) = (transfer b m).setBuf c buf :=
      transfer_setBuf (List.ne_of_not_mem_cons absent) m buf
    show replay rest (transfer b (m.setBuf c buf)) = _
    rw [first, later]
    rfl

end Replay

def Buf.command (buf : Buf P) : Command where
  registers := encode buf.dev buf.blockno
  write := buf.dirty
  data := buf.data

/-- The controller is at work on the first request, or has done it: a sector written, or read. -/
def Serves (s : State P n) : List (Fin n) → Prop
  | [] => s.device = .idle
  | b :: _ => s.device = .active (s.bufs b).command ∨ ∃ data, s.device = .done (s.bufs b).command data ∧
      s.disk 1 (s.bufs b).blockno = if (s.bufs b).dirty then (s.bufs b).data else data

structure Request (buf : Buf P) : Prop where
  dev : buf.dev = 1
  blockno : buf.blockno < fsSize
  locked : buf.lock ≠ none
  work : ¬(buf.valid = true ∧ ¬buf.dirty = true)

structure Inv (s : State P n) (queue : List (Fin n)) : Prop where
  holds : s.queue.Holds queue
  nodup : queue.Nodup
  waits : ∀ b ∈ queue, s.waiting b = true
  request : ∀ b ∈ queue, Request (s.bufs b)
  locked : ∀ b, s.waiting b = true → (s.bufs b).lock ≠ none
  returns : ∀ b, s.waiting b = true → b ∈ queue ∨ (s.bufs b).valid = true ∧ (s.bufs b).dirty = false
  serves : Serves s queue
  requests : s.requests = s.finished ++ queue
  starts : s.starts = s.finished ++ queue.head?.toList

theorem Inv.idle (inv : Inv s queue) (free : s.waiting b = false) : b ∉ queue := by
  intro member
  rw [inv.waits b member] at free
  cases free

theorem queue_short (nodup : queue.Nodup) : queue.length < n + 1 := by
  have bound := nodup.length_le_card
  rw [Fintype.card_fin] at bound
  omega

theorem Inv.setBuf (inv : Inv s queue) {buf : Buf P} (free : s.waiting b = false) : Inv (s.setBuf b buf) queue := by
  have absent := inv.idle free
  have same (c : Fin n) (other : c ≠ b) : (s.setBuf b buf).bufs c = s.bufs c := Function.update_of_ne other ..
  have queued (c : Fin n) (member : c ∈ queue) : (s.setBuf b buf).bufs c = s.bufs c :=
    same c fun self => absent (self ▸ member)
  have calls (c : Fin n) (waits : s.waiting c = true) : (s.setBuf b buf).bufs c = s.bufs c :=
    same c fun self => by rw [self, free] at waits; cases waits
  refine ⟨inv.holds, inv.nodup, inv.waits, ?_, ?_, ?_, ?_, inv.requests, inv.starts⟩
  · exact fun c member => by rw [queued c member]; exact inv.request c member
  · exact fun c waits => by rw [calls c waits]; exact inv.locked c waits
  · exact fun c waits => by rw [calls c waits]; exact inv.returns c waits
  · cases queue with
    | nil => exact inv.serves
    | cons first rest =>
      have serves := inv.serves
      simp only [Serves, queued first List.mem_cons_self] at serves ⊢
      exact serves

theorem idestart_some (bound : (s.bufs b).blockno < fsSize) :
    idestart b s = some { s with device := .active (s.bufs b).command, starts := s.starts ++ [b] } := by
  rw [idestart, if_neg (by omega)]
  rfl

theorem Inv.enqueue (inv : Inv s queue) {q : Queue (Fin n)} (free : s.waiting b = false) (request : Request (s.bufs b))
    (holds : q.Holds (queue ++ [b])) :
    ∃ s', (if q.head = some b then idestart b (s.enqueue q b) else some (s.enqueue q b)) = some s' ∧
      Inv s' (queue ++ [b]) ∧ s'.memory = s.memory := by
  have absent := inv.idle free
  have waiting (c : Fin n) (waits : Function.update s.waiting b true c = true) : c = b ∨ s.waiting c = true := by
    by_cases self : c = b
    · exact .inl self
    · rw [Function.update_of_ne self] at waits
      exact .inr waits
  have nodup : (queue ++ [b]).Nodup := by
    rw [List.nodup_append_comm]
    exact List.nodup_cons.mpr ⟨absent, inv.nodup⟩
  have waits (c : Fin n) (member : c ∈ queue ++ [b]) : Function.update s.waiting b true c = true := by
    by_cases self : c = b
    · rw [self, Function.update_self]
    · rw [Function.update_of_ne self]
      rcases List.mem_append.mp member with old | new
      · exact inv.waits c old
      · exact absurd (List.mem_singleton.mp new) self
  have requests (c : Fin n) (member : c ∈ queue ++ [b]) : Request (s.bufs c) := by
    rcases List.mem_append.mp member with old | new
    · exact inv.request c old
    · rw [List.mem_singleton.mp new]
      exact request
  have locked (c : Fin n) (calls : Function.update s.waiting b true c = true) : (s.bufs c).lock ≠ none := by
    rcases waiting c calls with rfl | old
    · exact request.locked
    · exact inv.locked c old
  have returns (c : Fin n) (calls : Function.update s.waiting b true c = true) :
      c ∈ queue ++ [b] ∨ (s.bufs c).valid = true ∧ (s.bufs c).dirty = false := by
    rcases waiting c calls with rfl | old
    · exact .inl (by simp)
    · exact (inv.returns c old).imp_left fun member => List.mem_append_left _ member
  have history : s.requests ++ [b] = s.finished ++ (queue ++ [b]) := by rw [inv.requests, List.append_assoc]
  cases queue with
  | nil =>
    have first : q.head = some b := holds.head_eq
    rw [if_pos first]
    refine ⟨_, idestart_some request.blockno, ?_, rfl⟩
    refine ⟨holds, nodup, waits, requests, locked, returns, .inl rfl, history, ?_⟩
    show s.starts ++ [b] = s.finished ++ [b]
    rw [inv.starts]
    simp
  | cons first rest =>
    have other : first ≠ b := fun self => absent (self ▸ List.mem_cons_self)
    rw [if_neg (by rw [holds.head_eq]; simpa using other)]
    exact ⟨_, rfl, ⟨holds, nodup, waits, requests, locked, returns, inv.serves, history, inv.starts⟩, rfl⟩

theorem Inv.execute (inv : Inv s queue) (next : Disk.execute s = some s') :
    Inv s' queue ∧ replay queue s'.memory = replay queue s.memory := by
  cases queue with
  | nil =>
    have idle : s.device = .idle := inv.serves
    simp [Disk.execute, idle] at next
  | cons b rest =>
    have request := inv.request b List.mem_cons_self
    rcases inv.serves with active | ⟨data, done, -⟩
    · have drive : (s.bufs b).command.registers.drive = 1 := by
        rw [Buf.command, request.dev]
        exact encode_drive _
      have sector : (s.bufs b).command.registers.sector = (s.bufs b).blockno := by
        rw [Buf.command, request.dev]
        exact encode_sector request.blockno
      simp only [Disk.execute, active, drive, sector] at next
      by_cases dirty : (s.bufs b).dirty = true
      · simp only [Buf.command, dirty, if_true, Option.some.injEq] at next
        subst next
        refine ⟨⟨inv.holds, inv.nodup, inv.waits, inv.request, inv.locked, inv.returns, .inr ⟨(s.bufs b).data, ?_, ?_⟩,
          inv.requests, inv.starts⟩, ?_⟩
        · simp [Buf.command, dirty]
        · simp
        · -- The sector is written once more with the same data.
          simp only [replay, List.foldl_cons]
          congr 1
          simp [transfer, State.memory, dirty, Memory.setBuf]
      · simp only [Buf.command, dirty, Bool.false_eq_true, if_false, Option.some.injEq] at next
        subst next
        refine ⟨⟨inv.holds, inv.nodup, inv.waits, inv.request, inv.locked, inv.returns,
          .inr ⟨s.disk 1 (s.bufs b).blockno, ?_, ?_⟩, inv.requests, inv.starts⟩, rfl⟩
        · simp [Buf.command, dirty]
        · simp [dirty]
    · simp [Disk.execute, done] at next

theorem dequeue_memory {data : Data}
    (served : s.disk 1 (s.bufs b).blockno = if (s.bufs b).dirty then (s.bufs b).data else data) :
    (s.dequeue b data).memory = transfer b s.memory := by
  by_cases dirty : (s.bufs b).dirty = true
  · rw [if_pos dirty] at served
    have written : Function.update (s.disk 1) (s.bufs b).blockno (s.bufs b).data = s.disk 1 := by
      rw [← served, Function.update_eq_self]
    simp [transfer, State.memory, State.dequeue, State.setBuf, Memory.setBuf, Buf.finish, dirty, written]
  · rw [if_neg dirty] at served
    simp [transfer, State.memory, State.dequeue, State.setBuf, Memory.setBuf, Buf.finish, dirty, served]

theorem Inv.ideintr (inv : Inv s (b :: queue)) {data : Data} {command : Command} (done : s.device = .done command data) :
    ∃ s', Disk.ideintr s = some s' ∧ Inv s' queue ∧ s'.memory = transfer b s.memory := by
  have request := inv.request b List.mem_cons_self
  have served : s.disk 1 (s.bufs b).blockno = if (s.bufs b).dirty then (s.bufs b).data else data := by
    rcases inv.serves with active | ⟨data', done', value⟩
    · rw [active] at done
      cases done
    · rw [done'] at done
      cases done
      exact value
  have memory := dequeue_memory served
  have absent : b ∉ queue := (List.nodup_cons.mp inv.nodup).1
  have self : (s.dequeue b data).bufs b = (s.bufs b).finish data := Function.update_self ..
  have other (c : Fin n) (ne : c ≠ b) : (s.dequeue b data).bufs c = s.bufs c := Function.update_of_ne ne ..
  have queued (c : Fin n) (member : c ∈ queue) : (s.dequeue b data).bufs c = s.bufs c :=
    other c fun same => absent (same ▸ member)
  have requests (c : Fin n) (member : c ∈ queue) : Request ((s.dequeue b data).bufs c) := by
    rw [queued c member]
    exact inv.request c (List.mem_cons_of_mem b member)
  have locked (c : Fin n) (calls : s.waiting c = true) : ((s.dequeue b data).bufs c).lock ≠ none := by
    by_cases same : c = b
    · rw [same, self]
      exact request.locked
    · rw [other c same]
      exact inv.locked c calls
  have returns (c : Fin n) (calls : s.waiting c = true) :
      c ∈ queue ∨ ((s.dequeue b data).bufs c).valid = true ∧ ((s.dequeue b data).bufs c).dirty = false := by
    by_cases same : c = b
    · rw [same, self]
      exact .inr ⟨rfl, rfl⟩
    · rw [other c same]
      exact (inv.returns c calls).imp_left fun member => (List.mem_cons.mp member).resolve_left same
  have history : s.requests = (s.finished ++ [b]) ++ queue := by rw [inv.requests, List.append_assoc]; rfl
  have started : s.starts = s.finished ++ [b] := inv.starts
  have head : s.queue.head = some b := inv.holds.head_eq
  have waits (c : Fin n) (member : c ∈ queue) : s.waiting c = true := inv.waits c (List.mem_cons_of_mem b member)
  have holds : (s.dequeue b data).queue.Holds queue := inv.holds.pop
  have next : s.queue.next b = queue.head? := holds.head_eq
  simp only [Disk.ideintr, done, head, next]
  cases queue with
  | nil =>
    refine ⟨_, rfl, ⟨holds, inv.nodup.tail, waits, requests, locked, returns, rfl, history, ?_⟩, memory⟩
    show s.starts = s.finished ++ [b] ++ []
    rw [started, List.append_nil]
  | cons c rest =>
    refine ⟨_, idestart_some (requests c List.mem_cons_self).blockno, ?_, memory⟩
    refine ⟨holds, inv.nodup.tail, waits, requests, locked, returns, .inl rfl, history, ?_⟩
    show s.starts ++ [c] = _
    rw [started]
    rfl

def Agree (s : State P n) (m : Memory P n) : Prop := ∃ queue, Inv s queue ∧ m = replay queue s.memory

variable [DecidableEq P] {havedisk1 : Bool} {p : P}

theorem iderw_accepts (inv : Inv s queue) (free : s.waiting b = false) (mine : (s.bufs b).lock = some p)
    (work : ¬((s.bufs b).valid = true ∧ ¬(s.bufs b).dirty = true)) (present : (s.bufs b).dev ≠ 0 → havedisk1 = true)
    (dev : (s.bufs b).dev = 1) (bound : (s.bufs b).blockno < fsSize) :
    ∃ s', iderw havedisk1 p b s = some s' ∧ Inv s' (queue ++ [b]) ∧ s'.memory = s.memory := by
  obtain ⟨q, appended, holds⟩ := append_holds inv.holds inv.nodup (inv.idle free) (queue_short inv.nodup)
  obtain ⟨s', started, next, memory⟩ := inv.enqueue free ⟨dev, bound, by rw [mine]; nofun, work⟩ holds
  refine ⟨s', ?_, next, memory⟩
  rw [iderw, if_neg (by simp [mine]), if_neg work, if_neg fun absent => absent.2 (present absent.1)]
  simpa [appended] using started

theorem Agree.step {a : Action P n} (agree : Agree s m) (may : Allowed s a) (next : step havedisk1 a s = some s') :
    ∃ m', memStep a m = some m' ∧ Agree s' m' := by
  obtain ⟨queue, inv, rfl⟩ := agree
  -- Outside an iderw call the buffer is the same on both sides.
  have rewrites {b : Fin n} {buf : Buf P} (free : s.waiting b = false) :
      Agree (s.setBuf b buf) ((replay queue s.memory).setBuf b buf) :=
    ⟨queue, inv.setBuf free, by rw [← replay_setBuf (inv.idle free)]; rfl⟩
  have same {b : Fin n} (free : s.waiting b = false) : (replay queue s.memory).bufs b = s.bufs b :=
    replay_other (inv.idle free) s.memory
  cases a with
  | acquiresleep p b =>
    simp only [Disk.step, Runs.guarded] at next
    obtain ⟨unlocked, rfl⟩ := next
    have free : s.waiting b = false := by
      by_contra calls
      exact inv.locked b (by simpa using calls) unlocked
    exact ⟨_, by rw [memStep, same free, if_pos unlocked], rewrites free⟩
  | releasesleep p b =>
    simp only [Disk.step, Runs.guarded] at next
    obtain ⟨⟨mine, free⟩, rfl⟩ := next
    exact ⟨_, by rw [memStep, same free, if_pos mine], rewrites free⟩
  | fill b contents =>
    simp only [Disk.step, Runs.guarded] at next
    obtain ⟨free, rfl⟩ := next
    exact ⟨_, by rw [memStep, same free], rewrites free⟩
  | iderw p b =>
    simp only [Disk.step, Option.ite_none_right_eq_some] at next
    obtain ⟨free, next⟩ := next
    by_cases mine : (s.bufs b).lock = some p
    · by_cases work : (s.bufs b).valid = true ∧ ¬(s.bufs b).dirty = true
      · rw [iderw, if_neg (by simp [mine]), if_pos work] at next
        cases next
      · by_cases absent : (s.bufs b).dev ≠ 0 ∧ ¬havedisk1 = true
        · rw [iderw, if_neg (by simp [mine]), if_neg work, if_pos absent] at next
          cases next
        · obtain ⟨s₁, value, later, memory⟩ :=
            iderw_accepts inv free mine work (fun other => by_contra fun missing => absent ⟨other, missing⟩) may.1 may.2
          cases next.symm.trans value
          refine ⟨transfer b (replay queue s.memory), ?_, queue ++ [b], later, ?_⟩
          · rw [memStep, memIderw, same free, if_neg (by simp [mine]), if_neg work, if_neg (by simp [may.1]),
              if_neg (by have := may.2; unfold disksize; omega)]
          · rw [replay_snoc, memory]
    · rw [iderw, if_pos mine] at next
      cases next
  | execute =>
    obtain ⟨later, memory⟩ := inv.execute next
    exact ⟨_, rfl, queue, later, memory.symm⟩
  | ideintr =>
    cases device : s.device with
    | idle | active command => simp [Disk.step, Disk.ideintr, device] at next
    | done command data =>
      cases queue with
      | nil =>
        have idle : s.device = .idle := inv.serves
        rw [idle] at device
        cases device
      | cons b rest =>
        obtain ⟨s₁, value, later, memory⟩ := inv.ideintr device
        cases next.symm.trans value
        exact ⟨_, rfl, rest, later, by rw [memory]; rfl⟩
  | finish b =>
    simp only [Disk.step, Runs.guarded] at next
    obtain ⟨⟨calls, valid, clean⟩, rfl⟩ := next
    have absent : b ∉ queue := fun member => (inv.request b member).work ⟨valid, clean⟩
    have others (c : Fin n) (calls : Function.update s.waiting b false c = true) : s.waiting c = true := by
      by_cases self : c = b
      · rw [self, Function.update_self] at calls
        cases calls
      · rwa [Function.update_of_ne self] at calls
    refine ⟨_, rfl, queue, ⟨inv.holds, inv.nodup, ?_, inv.request, ?_, ?_, inv.serves, inv.requests, inv.starts⟩, rfl⟩
    · intro c member
      have other : c ≠ b := fun self => absent (self ▸ member)
      exact (Function.update_of_ne other ..).trans (inv.waits c member)
    · exact fun c calls => inv.locked c (others c calls)
    · exact fun c calls => inv.returns c (others c calls)

theorem Agree.run (actions : List (Action P n)) (agree : Agree s m)
    (along : Runs.Along (Disk.step havedisk1) Allowed actions s)
    (runs : Runs.run (Disk.step havedisk1) actions s = some s') :
    ∃ m', Runs.run memStep actions m = some m' ∧ Agree s' m' := by
  induction actions generalizing s m with
  | nil =>
    cases runs
    exact ⟨m, rfl, agree⟩
  | cons a rest ih =>
    obtain ⟨s₁, first, later⟩ := Option.bind_eq_some_iff.mp runs
    obtain ⟨m₁, memFirst, agree₁⟩ := agree.step along.1 first
    obtain ⟨m', memLater, agree'⟩ := ih agree₁ (along.2 s₁ first) later
    refine ⟨m', ?_, agree'⟩
    rw [Runs.run, memFirst]
    exact memLater

omit [DecidableEq P] in
theorem Booted.inv (booted : Booted s) : Inv s [] where
  holds := booted.queue
  nodup := List.nodup_nil
  waits := nofun
  request := nofun
  locked b calls := by rw [booted.waiting b] at calls; cases calls
  returns b calls := by rw [booted.waiting b] at calls; cases calls
  serves := booted.device
  requests := by simp [booted.requests, booted.finished]
  starts := by simp [booted.starts, booted.finished]

structure InOrder (havedisk1 : Bool) (s : State P n) (queue : List (Fin n)) : Prop where
  holds : s.queue.Holds queue
  requests : s.requests = s.finished ++ queue
  starts : s.starts = s.finished ++ queue.head?.toList
  busy : s.device = .idle ↔ queue = []
  returns : ∀ b, s.waiting b = true → b ∈ queue ∨ (s.bufs b).valid = true ∧ (s.bufs b).dirty = false
  accepts : ∀ p b, s.waiting b = false → (s.bufs b).lock = some p → ¬((s.bufs b).valid = true ∧ (s.bufs b).dirty = false) →
    havedisk1 = true → (s.bufs b).dev = 1 → (s.bufs b).blockno < fsSize → (step havedisk1 (.iderw p b) s).isSome
  completes : ∀ command data, s.device = .done command data → (step havedisk1 .ideintr s).isSome

theorem Inv.inOrder (inv : Inv s queue) : InOrder havedisk1 s queue where
  holds := inv.holds
  requests := inv.requests
  starts := inv.starts
  busy := by
    have serves := inv.serves
    cases queue with
    | nil => simpa [Serves] using serves
    | cons b rest =>
      rcases serves with active | ⟨data, done, -⟩
      · simp [active]
      · simp [done]
  returns := inv.returns
  accepts p b free mine work present dev bound := by
    obtain ⟨s', value, -⟩ := iderw_accepts inv free mine (by simpa using work) (fun _ => present) dev bound
    simp [step, free, value]
  completes command data done := by
    cases queue with
    | nil =>
      have idle : s.device = .idle := inv.serves
      rw [idle] at done
      cases done
    | cons b rest =>
      obtain ⟨s', value, -⟩ := inv.ideintr done
      simp [step, value]

/-- The disk driver against the memory disk, over every run of calls, interrupts and changes of free buffers. -/
theorem ide_agrees {start : State P n} (booted : Booted start) {actions : List (Action P n)}
    (along : Runs.Along (step havedisk1) Allowed actions start)
    (runs : Runs.run (step havedisk1) actions start = some s) :
    ∃ queue, InOrder havedisk1 s queue ∧ ∃ m, Runs.run memStep actions start.memory = some m ∧
      (queue = [] → m.bufs = s.bufs ∧ m.memdisk = s.disk 1) := by
  obtain ⟨m, memRuns, queue, inv, rfl⟩ := Agree.run actions ⟨[], booted.inv, rfl⟩ along runs
  refine ⟨queue, inv.inOrder, _, memRuns, ?_⟩
  rintro rfl
  exact ⟨rfl, rfl⟩

def zeros : Data := fun _ => 0

def newBuf : Buf Unit where
  valid := false
  dirty := false
  dev := 1
  blockno := 0
  lock := none
  data := zeros

def idleDisk : State Unit 2 where
  bufs _ := newBuf
  queue := ⟨none, fun _ => none⟩
  device := .idle
  disk _ _ := zeros
  waiting _ := false
  requests := []
  starts := []
  finished := []

def writeThenRead : List (Action Unit 2) :=
  [.acquiresleep () 0, .fill 0 ⟨false, true, 1, 5, fun _ => 7⟩, .iderw () 0,
    .acquiresleep () 1, .fill 1 ⟨false, false, 1, 5, zeros⟩, .iderw () 1,
    .execute, .ideintr, .execute, .ideintr, .finish 0, .finish 1]

def allowedTest (s : State Unit 2) : Action Unit 2 → Bool
  | .iderw _ b => decide ((s.bufs b).dev = 1 ∧ (s.bufs b).blockno < fsSize)
  | _ => true

theorem allowed_of_test (s : State Unit 2) (a : Action Unit 2) (passes : allowedTest s a = true) : Allowed s a := by
  cases a with
  | iderw p b => simpa [allowedTest, Allowed] using passes
  | _ => trivial

theorem ide_agrees_writeThenRead : ∃ s m, Runs.run (step true) writeThenRead idleDisk = some s ∧
    Runs.run memStep writeThenRead idleDisk.memory = some m ∧ s.finished = [0, 1] ∧
    m.bufs = s.bufs ∧ m.memdisk = s.disk 1 := by
  have ends : (Runs.run (step true) writeThenRead idleDisk).map (fun s => (s.finished, s.requests)) =
      some ([0, 1], [0, 1]) := by decide
  obtain ⟨s, runs, facts⟩ := Option.map_eq_some_iff.mp ends
  simp only [Prod.mk.injEq] at facts
  have along : Runs.Along (step true) Allowed writeThenRead idleDisk :=
    Runs.along_of_checks allowedTest allowed_of_test writeThenRead idleDisk (by decide)
  obtain ⟨queue, inOrder, m, memRuns, agree⟩ :=
    ide_agrees ⟨rfl, rfl, fun _ => rfl, rfl, rfl, rfl⟩ along runs
  have empty : queue = [] := by
    have served := inOrder.requests
    rw [facts.1, facts.2] at served
    simpa using served
  exact ⟨s, m, runs, memRuns, facts.1, agree empty⟩

end Xv6.Disk
