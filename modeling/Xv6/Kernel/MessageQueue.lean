import Xv6.Kernel.CString

set_option autoImplicit false

namespace Xv6.MessageQueue

open CString

def maxMessages : Nat := 64
def msgSize : Nat := 32

structure Chars where
  bytes : List UInt8
  size : bytes.length = msgSize
  deriving DecidableEq

structure Message where
  type : BitVec 32
  data : Chars

structure Msgq where
  messages : Nat → Message
  head : Nat
  tail : Nat
  count : Nat

def msgqueueInit (msgq : Msgq) : Msgq :=
  { msgq with head := 0, tail := 0, count := 0 }

def copyChars (dst src : Chars) : Chars :=
  ⟨safestrcpy dst.bytes src.bytes msgSize, by simp [dst.size]⟩

-- `none` stands for a failure of argint or argptr, before the lock is taken.
def sysSend (args : Option (BitVec 32 × Chars)) (msgq : Msgq) : Int × Msgq :=
  match args with
  | none => (-1, msgq)
  | some (type, msg) =>
    if msgq.count = maxMessages then (-1, msgq) else
      (0, { msgq with
        messages := Function.update msgq.messages msgq.tail
          ⟨type, copyChars (msgq.messages msgq.tail).data msg⟩
        tail := (msgq.tail + 1) % maxMessages
        count := msgq.count + 1 })

def findLoop (msgq : Msgq) (type : BitVec 32) : Nat → Nat → Option Nat
  | 0, _ => none
  | remaining + 1, i =>
    let index := (msgq.head + i) % maxMessages
    if (msgq.messages index).type = type then some index
    else findLoop msgq type remaining (i + 1)

-- The body of the loop `for (j = index; j != tail; j = (j + 1) % MAX_MESSAGES)`.
def shiftLoop (tail : Nat) : Nat → Nat → (Nat → Message) → Nat → Message
  | 0, _, messages => messages
  | fuel + 1, j, messages =>
    if j = tail then messages else
      shiftLoop tail fuel ((j + 1) % maxMessages)
        (Function.update messages j (messages ((j + 1) % maxMessages)))

def removeAt (msgq : Msgq) (index : Nat) : Msgq :=
  { msgq with
    messages := shiftLoop msgq.tail maxMessages index msgq.messages
    -- tail - 1 + MAX_MESSAGES
    tail := (msgq.tail + (maxMessages - 1)) % maxMessages
    count := msgq.count - 1 }

-- The third component is the buffer of the caller after the call.
def sysRecv (args : Option (BitVec 32 × Chars)) (msgq : Msgq) : Int × Msgq × Option Chars :=
  match args with
  | none => (-1, msgq, none)
  | some (type, msg) =>
    match findLoop msgq type msgq.count 0 with
    | none => (-1, msgq, some msg)
    | some index =>
      (0, removeAt msgq index, some (copyChars msg (msgq.messages index).data))

inductive Call where
  | send (args : Option (BitVec 32 × Chars))
  | recv (args : Option (BitVec 32 × Chars))

abbrev Reply := Int × Option (List UInt8)

def step (msgq : Msgq) : Call → Reply × Msgq
  | .send args => let result := sysSend args msgq; ((result.1, none), result.2)
  | .recv args =>
    let result := sysRecv args msgq
    ((result.1, if result.1 = 0 then result.2.2.map (fun msg => text msg.bytes) else none), result.2.1)

def run (msgq : Msgq) (calls : List Call) : Msgq :=
  calls.foldl (fun state call => (step state call).2) msgq

abbrev Entry := BitVec 32 × List UInt8

def specStep (entries : List Entry) : Call → Reply × List Entry
  | .send none | .recv none => ((-1, none), entries)
  | .send (some (type, msg)) =>
    if entries.length = maxMessages then ((-1, none), entries)
    else ((0, none), entries ++ [(type, (text msg.bytes).take (msgSize - 1))])
  | .recv (some (type, _)) =>
    match entries.findIdx? (fun entry => entry.1 = type) with
    | none => ((-1, none), entries)
    | some i => ((0, entries[i]?.map Prod.snd), entries.eraseIdx i)

def specRun (entries : List Entry) (calls : List Call) : List Entry :=
  calls.foldl (fun state call => (specStep state call).2) entries

def Message.entry (message : Message) : Entry := (message.type, text message.data.bytes)

def contents (msgq : Msgq) : List Entry :=
  (List.range msgq.count).map fun i => (msgq.messages ((msgq.head + i) % maxMessages)).entry

/-- The head never moves, so the live messages are the slots below `count`. -/
structure Wf (msgq : Msgq) : Prop where
  head : msgq.head = 0
  tail : msgq.tail = msgq.count % maxMessages
  count : msgq.count ≤ maxMessages
  nul : ∀ i, i < msgq.count → (text (msgq.messages i).data.bytes).length < msgSize

theorem init_wf (msgq : Msgq) : Wf (msgqueueInit msgq) where
  head := rfl
  tail := rfl
  count := by simp [msgqueueInit]
  nul := by simp [msgqueueInit]

theorem contents_init (msgq : Msgq) : contents (msgqueueInit msgq) = [] := by
  simp [contents, msgqueueInit]

@[simp] theorem contents_length (msgq : Msgq) : (contents msgq).length = msgq.count := by
  simp [contents]

variable {msgq : Msgq}

theorem contents_eq (wf : Wf msgq) :
    contents msgq = (List.range msgq.count).map fun i => (msgq.messages i).entry := by
  apply List.map_congr_left
  intro i member
  have bound := List.mem_range.mp member
  have := wf.count
  rw [wf.head, Nat.zero_add, Nat.mod_eq_of_lt (by omega)]

theorem text_copyChars (dst src : Chars) : text (copyChars dst src).bytes = (text src.bytes).take (msgSize - 1) :=
  text_safestrcpy dst.bytes src.bytes msgSize (by decide) (Nat.le_of_eq dst.size.symm)
    (by rw [src.size]; omega)

theorem text_copyChars_length (dst src : Chars) : (text (copyChars dst src).bytes).length < msgSize := by
  rw [text_copyChars, List.length_take]
  have : msgSize - 1 < msgSize := by decide
  omega

theorem text_copyChars_short (dst src : Chars) (short : (text src.bytes).length < msgSize) :
    text (copyChars dst src).bytes = text src.bytes := by
  rw [text_copyChars, List.take_of_length_le (by omega)]

@[simp] theorem shiftLoop_at_tail (tail fuel : Nat) (messages : Nat → Message) :
    shiftLoop tail fuel tail messages = messages := by
  cases fuel <;> simp [shiftLoop]

-- `stop` is the position after the last live slot, before the wrap: tail = stop % MAX_MESSAGES.
theorem shiftLoop_eq (fuel n j stop : Nat) (messages : Nat → Message)
    (distance : j + n = stop) (bound : stop ≤ maxMessages) (wrapped : stop = maxMessages → 0 < j) :
    shiftLoop (stop % maxMessages) (n + fuel) (j % maxMessages) messages =
      fun k => if j ≤ k ∧ k < stop then messages ((k + 1) % maxMessages) else messages k := by
  induction n generalizing j messages with
  | zero =>
    have last : j = stop := by omega
    subst last
    simp only [shiftLoop_at_tail]
    funext k
    rw [if_neg (by omega)]
  | succ n ih =>
    have inside : j % maxMessages = j := Nat.mod_eq_of_lt (by omega)
    have running : j ≠ stop % maxMessages := by
      unfold maxMessages at *
      omega
    rw [show n + 1 + fuel = (n + fuel) + 1 by omega, shiftLoop, inside, if_neg running,
      ih (j + 1) _ (by omega) (by omega)]
    funext k
    by_cases first : k = j
    · subst first
      rw [if_neg (by omega), if_pos (by omega), Function.update_self]
    · have source : k < stop → j < k → (k + 1) % maxMessages ≠ j := by
        unfold maxMessages at *
        omega
      by_cases shifted : j ≤ k ∧ k < stop
      · rw [if_pos (by omega), if_pos shifted, Function.update_of_ne (source (by omega) (by omega))]
      · rw [if_neg (by omega), if_neg shifted, Function.update_of_ne first]

theorem findLoop_eq (wf : Wf msgq) (type : BitVec 32) (n i : Nat) (bound : i + n ≤ maxMessages) :
    findLoop msgq type n i = (((List.range' i n).map fun k => (msgq.messages k).entry).findIdx?
        (fun entry => entry.1 = type)).map (· + i) := by
  induction n generalizing i with
  | zero => simp [findLoop]
  | succ n ih =>
    have index : (msgq.head + i) % maxMessages = i := by
      rw [wf.head, Nat.zero_add, Nat.mod_eq_of_lt (by omega)]
    by_cases found : (msgq.messages i).type = type
    · simp [findLoop, index, found, List.range'_succ, List.findIdx?_cons, Message.entry]
    · simp only [findLoop, index, found, if_false, ih (i + 1) (by omega), List.range'_succ,
        List.map_cons, List.findIdx?_cons, Message.entry, decide_false]
      have shift (k : Nat) : k + (i + 1) = i + (k + 1) := by omega
      simp [Function.comp_def, Nat.add_comm, shift]

theorem findLoop_contents (wf : Wf msgq) (type : BitVec 32) :
    findLoop msgq type msgq.count 0 = (contents msgq).findIdx? (fun entry => entry.1 = type) := by
  rw [findLoop_eq wf type msgq.count 0 (by simpa using wf.count), contents_eq wf, List.range_eq_range']
  simp

theorem map_range_eraseIdx {A : Type} (f : Nat → A) (n i : Nat) : ((List.range (n + 1)).map f).eraseIdx i =
      if i ≤ n then (List.range n).map (fun k => if i ≤ k then f (k + 1) else f k)
      else (List.range (n + 1)).map f := by
  split
  next inside =>
    apply List.ext_getElem
    · simp [List.length_eraseIdx, Nat.lt_succ_of_le inside]
    · intro k left right
      by_cases before : k < i
      · simp [List.getElem_eraseIdx, before, Nat.not_le.mpr before]
      · simp [List.getElem_eraseIdx, before, Nat.not_lt.mp before]
  next outside =>
    exact List.eraseIdx_of_length_le (by simp; omega)

/-- The queue is not full, the oldest message has another type, or all messages are one pair. -/
def Guarded (msgq : Msgq) : Call → Prop
  | .send _ | .recv none => True
  | .recv (some (type, _)) =>
    msgq.count = maxMessages → (msgq.messages msgq.head).type = type →
      ∀ i < maxMessages, (msgq.messages i).entry = (msgq.messages msgq.head).entry

def Refines (msgq : Msgq) (call : Call) : Prop :=
  ((step msgq call).1, contents (step msgq call).2) = specStep (contents msgq) call

theorem send_wf (wf : Wf msgq) (args : Option (BitVec 32 × Chars)) : Wf (sysSend args msgq).2 := by
  rcases args with _ | ⟨type, msg⟩
  · exact wf
  · by_cases full : msgq.count = maxMessages
    · simpa [sysSend, full] using wf
    · have bound : msgq.count < maxMessages := Nat.lt_of_le_of_ne wf.count full
      have last : msgq.tail = msgq.count := by rw [wf.tail, Nat.mod_eq_of_lt bound]
      simp only [sysSend, full, if_false]
      refine ⟨wf.head, by simp [last], bound, ?_⟩
      intro i live
      by_cases new : i = msgq.tail
      · subst new
        simpa using text_copyChars_length _ _
      · simpa [new] using wf.nul i (by simp only at live; omega)

theorem contents_send (wf : Wf msgq) (type : BitVec 32) (msg : Chars) (free : msgq.count ≠ maxMessages) :
    contents (sysSend (some (type, msg)) msgq).2 =
      contents msgq ++ [(type, (text msg.bytes).take (msgSize - 1))] := by
  have bound : msgq.count < maxMessages := Nat.lt_of_le_of_ne wf.count free
  have last : msgq.tail = msgq.count := by rw [wf.tail, Nat.mod_eq_of_lt bound]
  rw [contents_eq (send_wf wf _), contents_eq wf]
  simp only [sysSend, free, if_false, List.range_succ, List.map_append, List.map_cons, List.map_nil, last]
  congr 1
  · apply List.map_congr_left
    intro i member
    rw [Function.update_of_ne (Nat.ne_of_lt (List.mem_range.mp member))]
  · simp [Message.entry, text_copyChars]

theorem send_refines (wf : Wf msgq) (args : Option (BitVec 32 × Chars)) : Refines msgq (.send args) := by
  rcases args with _ | ⟨type, msg⟩
  · rfl
  · by_cases full : msgq.count = maxMessages
    · simp [Refines, step, sysSend, specStep, full]
    · have value : (sysSend (some (type, msg)) msgq).1 = 0 := by simp [sysSend, full]
      simp only [Refines, step, contents_send wf type msg full, value]
      simp [specStep, full]

-- The shift does not start when the queue is full and the oldest message is to go.
theorem removeAt_messages (wf : Wf msgq) (index k : Nat) (live : index < msgq.count) (inside : k < msgq.count - 1) :
    (removeAt msgq index).messages k =
      if ¬(msgq.count = maxMessages ∧ index = 0) ∧ index ≤ k then msgq.messages (k + 1) else msgq.messages k := by
  have small := wf.count
  simp only [removeAt]
  by_cases stuck : msgq.count = maxMessages ∧ index = 0
  · have same : msgq.tail = index := by rw [wf.tail, stuck.1, stuck.2]; rfl
    rw [same, shiftLoop_at_tail, if_neg (fun moving => moving.1 stuck)]
  · have shifted := shiftLoop_eq (maxMessages - (msgq.count - index)) (msgq.count - index) index msgq.count
      msgq.messages (by omega) small (by omega)
    rw [Nat.mod_eq_of_lt (show index < maxMessages by omega), ← wf.tail,
      show msgq.count - index + (maxMessages - (msgq.count - index)) = maxMessages by omega] at shifted
    rw [shifted]
    by_cases after : index ≤ k
    · simp [stuck, after, show k < msgq.count by omega, Nat.mod_eq_of_lt (show k + 1 < maxMessages by omega)]
    · simp [after]

theorem removeAt_wf (wf : Wf msgq) (index : Nat) (live : index < msgq.count) : Wf (removeAt msgq index) := by
  have small := wf.count
  refine ⟨wf.head, ?_, by simp only [removeAt]; omega, ?_⟩
  · simp only [removeAt, wf.tail]
    unfold maxMessages at *
    omega
  · intro i inside
    rw [removeAt_messages wf index i live inside]
    simp only [removeAt] at inside
    split
    · exact wf.nul (i + 1) (by omega)
    · exact wf.nul i (by omega)

theorem contents_removeAt (wf : Wf msgq) (index : Nat) (live : index < msgq.count) : contents (removeAt msgq index) =
      if msgq.count = maxMessages ∧ index = 0 then (contents msgq).dropLast else (contents msgq).eraseIdx index := by
  obtain ⟨n, count⟩ : ∃ n, msgq.count = n + 1 := ⟨msgq.count - 1, by omega⟩
  have kept : contents (removeAt msgq index) = (List.range n).map (fun k =>
      if ¬(msgq.count = maxMessages ∧ index = 0) ∧ index ≤ k then (msgq.messages (k + 1)).entry
      else (msgq.messages k).entry) := by
    have left : (removeAt msgq index).count = n := by simp [removeAt, count]
    rw [contents_eq (removeAt_wf wf index live), left]
    apply List.map_congr_left
    intro k member
    rw [removeAt_messages wf index k live (by have := List.mem_range.mp member; omega), apply_ite Message.entry]
  rw [kept, contents_eq wf, count]
  by_cases stuck : n + 1 = maxMessages ∧ index = 0
  · rw [if_pos stuck, List.range_succ, List.map_append, List.map_singleton, List.dropLast_concat]
    apply List.map_congr_left
    intro k _
    rw [if_neg (fun moving => moving.1 stuck)]
  · rw [if_neg stuck, map_range_eraseIdx, if_pos (by omega)]
    simp only [stuck, not_false_iff, true_and]

theorem find_live {type : BitVec 32} {index : Nat}
    (found : (contents msgq).findIdx? (fun entry => entry.1 = type) = some index) :
    index < msgq.count ∧ ∃ entry, (contents msgq)[index]? = some entry ∧ entry.1 = type ∧
      ∀ earlier < index, ∀ other, (contents msgq)[earlier]? = some other → other.1 ≠ type := by
  obtain ⟨bound, same, first⟩ := List.findIdx?_eq_some_iff_getElem.mp found
  refine ⟨by simpa using bound, _, List.getElem?_eq_getElem bound, by simpa using same, ?_⟩
  intro earlier before other present
  obtain ⟨inside, rfl⟩ := List.getElem?_eq_some_iff.mp present
  simpa using first earlier before

theorem contents_get (wf : Wf msgq) (i : Nat) (live : i < msgq.count) :
    (contents msgq)[i]? = some (msgq.messages i).entry := by
  rw [contents_eq wf]
  simp [live]

theorem recv_reply (wf : Wf msgq) (type : BitVec 32) (msg : Chars) (index : Nat)
    (found : (contents msgq).findIdx? (fun entry => entry.1 = type) = some index) :
    step msgq (.recv (some (type, msg))) = ((0, (contents msgq)[index]?.map Prod.snd), removeAt msgq index) := by
  have live := (find_live found).1
  rw [contents_get wf index live]
  simp [step, sysRecv, findLoop_contents wf, found, text_copyChars_short _ _ (wf.nul index live), Message.entry]

theorem constant_of_shift {A : Type} (f : Nat → A) (n : Nat) :
    (List.range n).map f = (List.range n).map (fun k => f (k + 1)) ↔ ∀ i < n + 1, f i = f 0 := by
  constructor
  · intro same i
    induction i with
    | zero => intro _; rfl
    | succ i ih =>
      intro bound
      have pointwise := List.map_inj_left.mp same i (List.mem_range.mpr (by omega))
      rw [← pointwise, ih (by omega)]
  · intro constant
    apply List.map_congr_left
    intro k member
    have bound := List.mem_range.mp member
    rw [constant k (by omega), constant (k + 1) (by omega)]

theorem recv_refines_iff (wf : Wf msgq) (args : Option (BitVec 32 × Chars)) :
    Refines msgq (.recv args) ↔ Guarded msgq (.recv args) := by
  rcases args with _ | ⟨type, msg⟩
  · exact ⟨fun _ => trivial, fun _ => rfl⟩
  cases found : (contents msgq).findIdx? (fun entry => entry.1 = type) with
  | none =>
    have absent := List.findIdx?_eq_none_iff.mp found
    have refines : Refines msgq (.recv (some (type, msg))) := by
      simp [Refines, step, sysRecv, findLoop_contents wf, found, specStep]
    refine ⟨fun _ full oldest => ?_, fun _ => refines⟩
    have present := contents_get wf 0 (by rw [full]; decide)
    rw [wf.head] at oldest
    exact absurd oldest (of_decide_eq_false (absent _ (List.mem_of_getElem? present)))
  | some index =>
    obtain ⟨live, _, _, _, first⟩ := find_live found
    have result : Refines msgq (.recv (some (type, msg))) ↔
        contents (removeAt msgq index) = (contents msgq).eraseIdx index := by
      simp [Refines, recv_reply wf type msg index found, specStep, found]
    rw [result, contents_removeAt wf index live]
    by_cases stuck : msgq.count = maxMessages ∧ index = 0
    · obtain ⟨full, rfl⟩ := stuck
      obtain ⟨entry, present, same, _⟩ := (find_live found).2
      rw [contents_get wf 0 live] at present
      cases present
      have oldest : (msgq.messages msgq.head).type = type := by rw [wf.head]; exact same
      obtain ⟨n, count⟩ : ∃ n, msgq.count = n + 1 := ⟨msgq.count - 1, by omega⟩
      have guarded : Guarded msgq (.recv (some (type, msg))) ↔
          ∀ i < n + 1, (msgq.messages i).entry = (msgq.messages 0).entry := by
        rw [← count, full]
        exact ⟨fun guard => wf.head ▸ guard full oldest, fun same _ _ => by rwa [wf.head]⟩
      rw [guarded, ← constant_of_shift, if_pos ⟨full, rfl⟩, contents_eq wf, count,
        map_range_eraseIdx, if_pos (Nat.zero_le n)]
      simp [List.range_succ]
    · rw [if_neg stuck]
      refine ⟨fun _ full oldest => ?_, fun _ => rfl⟩
      have later : 0 < index := Nat.pos_of_ne_zero fun zero => stuck ⟨full, zero⟩
      rw [wf.head] at oldest
      exact absurd oldest (first 0 later _ (contents_get wf 0 (by omega)))

theorem step_refines_iff (wf : Wf msgq) (call : Call) : Refines msgq call ↔ Guarded msgq call := by
  cases call with
  | send args => exact ⟨fun _ => trivial, fun _ => send_refines wf args⟩
  | recv args => exact recv_refines_iff wf args

theorem step_wf (wf : Wf msgq) (call : Call) : Wf (step msgq call).2 := by
  rcases call with args | _ | ⟨type, msg⟩
  · exact send_wf wf args
  · exact wf
  · cases found : (contents msgq).findIdx? (fun entry => entry.1 = type) with
    | none => simpa [step, sysRecv, findLoop_contents wf, found] using wf
    | some index =>
      rw [recv_reply wf type msg index found]
      exact removeAt_wf wf index (find_live found).1

def Simulates (msgq : Msgq) (entries : List Entry) : List Call → Prop
  | [] => contents msgq = entries
  | call :: rest =>
    contents msgq = entries ∧ (step msgq call).1 = (specStep entries call).1 ∧
      Simulates (step msgq call).2 (specStep entries call).2 rest

def AllGuarded (msgq : Msgq) : List Call → Prop
  | [] => True
  | call :: rest => Guarded msgq call ∧ AllGuarded (step msgq call).2 rest

theorem simulates_iff (wf : Wf msgq) (calls : List Call) :
    Simulates msgq (contents msgq) calls ↔ AllGuarded msgq calls := by
  induction calls generalizing msgq with
  | nil => simp [Simulates, AllGuarded]
  | cons call rest ih =>
    have tail := ih (step_wf wf call)
    rw [AllGuarded, ← step_refines_iff wf call, ← tail]
    constructor
    · intro ⟨_, reply, later⟩
      have next : contents (step msgq call).2 = (specStep (contents msgq) call).2 := by
        cases rest with
        | nil => exact later
        | cons _ _ => exact later.1
      exact ⟨Prod.ext reply next, next ▸ later⟩
    · intro ⟨refines, later⟩
      refine ⟨rfl, congrArg Prod.fst refines, ?_⟩
      rw [← congrArg Prod.snd refines]
      exact later

/-- From `msgqueue_init` the ring behaves as the ordered list exactly along the runs in which no
receive asks a full queue for the type of its oldest message, unless all messages are equal. -/
theorem queue_refines_iff (msgq : Msgq) (calls : List Call) :
    Simulates (msgqueueInit msgq) [] calls ↔ AllGuarded (msgqueueInit msgq) calls := by
  have refines := simulates_iff (init_wf msgq) calls
  rwa [contents_init] at refines

theorem allGuarded_append (msgq : Msgq) (calls : List Call) (call : Call) :
    AllGuarded msgq (calls ++ [call]) ↔ AllGuarded msgq calls ∧ Guarded (run msgq calls) call := by
  induction calls generalizing msgq with
  | nil => simp [AllGuarded, run]
  | cons first rest ih => simp [AllGuarded, ih, run, and_assoc]

def zeroChars : Chars := ⟨List.replicate msgSize 0, by decide⟩

def bootMsgq : Msgq := ⟨fun _ => ⟨0, zeroChars⟩, 0, 0, 0⟩

def fillCalls : List Call :=
  (List.range maxMessages).map fun i => .send (some (BitVec.ofNat 32 i, zeroChars))

/-- After 64 sends of the types 0 to 63, a receive of type 0 removes the message of type 63. -/
theorem full_queue_drops_newest :
    ¬ Simulates (msgqueueInit bootMsgq) [] (fillCalls ++ [.recv (some (0, zeroChars))]) := by
  rw [← contents_init bootMsgq, simulates_iff (init_wf bootMsgq), allGuarded_append]
  intro ⟨_, guarded⟩
  have same := guarded (by decide +kernel) (by decide +kernel) 1 (by decide)
  exact absurd (congrArg Prod.fst same) (by decide +kernel)

end Xv6.MessageQueue
