import Xv6.Processes.Table

set_option autoImplicit false

namespace Xv6.Processes

variable {n : Nat}

namespace Table

-- The delivery of all pending signals in trap.
def trapDelivery (t : Table n) (p : Fin n) : Table n :=
  if (t.procs p).pendingSignals ≠ 0 then (List.finRange 32).foldl (fun t signal => t.deliver p signal) t else t

-- The same in scheduler, for a runnable process.
def schedulerDelivery (t : Table n) (p : Fin n) : Table n :=
  if (t.procs p).pendingSignals ≠ 0 then
    (List.finRange 32).foldl (fun t (signal : Fin 32) =>
      if (t.procs p).pendingSignals.getLsbD signal then t.schedulerDeliver p signal else t) t
  else t

-- What the two have in common: whether a called handler is reset, and which signals kill without one.
def deliverWith (reset : Bool) (fatal : Fin 32 → Bool) (p : Fin n) (t : Table n) (signal : Fin 32) : Table n :=
  if (t.procs p).pendingSignals.getLsbD signal then
    let t' := t.clearSignal p signal
    if (t.procs p).signalHandlers signal ≠ 0 then
      { t'.modify p (fun proc => { proc with
          signalHandlers := if reset then Function.update proc.signalHandlers signal 0 else proc.signalHandlers }) with
        called := t.called ++ [(t.procs p).signalHandlers signal] }
    else if fatal signal then t'.markKilled p
    else t'
  else t

end Table

open Table

structure SameDelivery (t t' : Table n) (p : Fin n) : Prop where
  called : t.called = t'.called
  pendingSignals : (t.procs p).pendingSignals = (t'.procs p).pendingSignals
  signalHandlers : (t.procs p).signalHandlers = (t'.procs p).signalHandlers
  killed : (t.procs p).killed = (t'.procs p).killed

structure Delivered (reset : Bool) (fatal : Fin 32 → Bool) (signals : List (Fin 32)) (t t' : Table n) (p : Fin n) :
    Prop where
  pending : ∀ s : Fin 32, (t'.procs p).pendingSignals.getLsbD s =
    ((t.procs p).pendingSignals.getLsbD s && decide (s ∉ signals))
  handlers : ∀ s, (t'.procs p).signalHandlers s =
    if reset ∧ s ∈ signals ∧ (t.procs p).pendingSignals.getLsbD s then 0 else (t.procs p).signalHandlers s
  killed : (t'.procs p).killed = true ↔ (t.procs p).killed = true ∨
    ∃ s ∈ signals, (t.procs p).pendingSignals.getLsbD s = true ∧ (t.procs p).signalHandlers s = 0 ∧ fatal s = true
  called : t'.called = t.called ++ (signals.filter fun s : Fin 32 =>
    (t.procs p).pendingSignals.getLsbD s && decide ((t.procs p).signalHandlers s ≠ 0)).map (t.procs p).signalHandlers

variable {reset : Bool} {fatal : Fin 32 → Bool} {t t' : Table n} {p : Fin n}

theorem deliverWith_delivered (signal : Fin 32) :
    Delivered reset fatal [signal] t (t.deliverWith reset fatal p signal) p := by
  have bits (s : Fin 32) : ((t.clearSignal p signal).procs p).pendingSignals.getLsbD s =
      ((t.procs p).pendingSignals.getLsbD s && decide (s ∉ [signal])) := by
    rw [clearSignal_pending]
    simp only [List.mem_singleton, ne_eq, Fin.val_inj]
  have kept : ((t.clearSignal p signal).procs p).signalHandlers = (t.procs p).signalHandlers := by
    simp [clearSignal]
  have alive : ((t.clearSignal p signal).procs p).killed = (t.procs p).killed := by
    simp [clearSignal]
  have silent (f : Proc n → Proc n) : ((t.clearSignal p signal).modify p f).called = t.called := rfl
  have still : (t.clearSignal p signal).called = t.called := rfl
  by_cases pending : (t.procs p).pendingSignals.getLsbD signal = true
  · by_cases handler : (t.procs p).signalHandlers signal = 0
    · by_cases kills : fatal signal = true
      · constructor <;>
          simp [deliverWith, pending, handler, kills, markKilled, bits, kept, silent, -BitVec.getLsbD_eq_getElem]
      · constructor <;>
          simp [deliverWith, pending, handler, kills, bits, kept, alive, still, -BitVec.getLsbD_eq_getElem]
    · cases reset <;> constructor <;>
        simp [deliverWith, pending, handler, bits, kept, alive, Function.update_apply, -BitVec.getLsbD_eq_getElem]
      grind
  · constructor <;> simp [deliverWith, pending, -BitVec.getLsbD_eq_getElem]
    grind

theorem Delivered.trans {signal : Fin 32} {rest : List (Fin 32)} {u : Table n} (fresh : signal ∉ rest)
    (first : Delivered reset fatal [signal] t t' p) (later : Delivered reset fatal rest t' u p) :
    Delivered reset fatal (signal :: rest) t u p := by
  have apart {s : Fin 32} (member : s ∈ rest) : s ≠ signal := fun same => fresh (same ▸ member)
  -- The first turn leaves the other signals and their handlers alone.
  have other {s : Fin 32} (member : s ∈ rest) :
      (t'.procs p).pendingSignals.getLsbD s = (t.procs p).pendingSignals.getLsbD s ∧
        (t'.procs p).signalHandlers s = (t.procs p).signalHandlers s := by
    rw [first.pending, first.handlers]
    simp [apart member]
  constructor
  · intro s
    rw [later.pending, first.pending]
    by_cases here : s = signal <;> by_cases there : s ∈ rest <;> simp [here, there]
  · intro s
    by_cases there : s ∈ rest
    · rw [later.handlers, (other there).1, (other there).2]
      simp [there]
    · rw [later.handlers, first.handlers]
      simp [there]
  · rw [later.killed, first.killed, or_assoc]
    refine or_congr_right ?_
    simp only [List.mem_cons, exists_eq_or_imp, List.not_mem_nil, or_false, exists_eq_left]
    refine or_congr_right (exists_congr fun s => and_congr_right fun member => ?_)
    rw [(other member).1, (other member).2]
  · have same : rest.filter (fun s : Fin 32 =>
          (t'.procs p).pendingSignals.getLsbD s && decide ((t'.procs p).signalHandlers s ≠ 0)) =
        rest.filter fun s : Fin 32 => (t.procs p).pendingSignals.getLsbD s && decide ((t.procs p).signalHandlers s ≠ 0) :=
      List.filter_congr fun s member => by rw [(other member).1, (other member).2]
    rw [later.called, first.called, same, List.append_assoc, ← List.singleton_append (l := rest), List.filter_append,
      List.map_append]
    congr 2
    exact List.map_congr_left fun s member => (other (List.mem_filter.mp member).1).2

theorem foldl_delivered {signals : List (Fin 32)} (once : signals.Nodup) :
    Delivered reset fatal signals t (signals.foldl (deliverWith reset fatal p) t) p := by
  induction signals generalizing t with
  | nil => constructor <;> simp
  | cons signal rest ih =>
    rw [List.nodup_cons] at once
    exact (deliverWith_delivered signal).trans once.1 (ih once.2)

theorem deliver_eq (t : Table n) (signal : Fin 32) :
    t.deliver p signal = t.deliverWith true (fun s => decide (s = sigint ∨ s = sigfpe)) p signal := by
  simp [deliver, deliverWith]

theorem schedulerDeliver_eq (t : Table n) (signal : Fin 32) :
    (if (t.procs p).pendingSignals.getLsbD signal then t.schedulerDeliver p signal else t) =
      t.deliverWith false (fun s => decide (s = sigint)) p signal := by
  have same : { (t.clearSignal p signal).modify p (fun proc => { proc with signalHandlers := proc.signalHandlers }) with
      called := t.called ++ [(t.procs p).signalHandlers signal] } =
      { t.clearSignal p signal with called := t.called ++ [(t.procs p).signalHandlers signal] } := by
    simp [Table.modify]
  simp only [schedulerDeliver, deliverWith, Bool.false_eq_true, if_false, same, decide_eq_true_eq]

theorem trapDelivery_delivered :
    Delivered true (fun s => decide (s = sigint ∨ s = sigfpe)) (List.finRange 32) t (t.trapDelivery p) p := by
  unfold trapDelivery
  split_ifs with some
  · simp only [deliver_eq]
    exact foldl_delivered (List.nodup_finRange 32)
  · rw [not_not] at some
    constructor <;> simp [some]

theorem schedulerDelivery_delivered :
    Delivered false (fun s => decide (s = sigint)) (List.finRange 32) t (t.schedulerDelivery p) p := by
  unfold schedulerDelivery
  split_ifs with some
  · simp only [schedulerDeliver_eq]
    exact foldl_delivered (List.nodup_finRange 32)
  · rw [not_not] at some
    constructor <;> simp [some]

theorem Delivered.consumed (delivered : Delivered reset fatal (List.finRange 32) t t' p) :
    (t'.procs p).pendingSignals = 0 := by
  refine BitVec.eq_of_getLsbD_eq fun i bound => ?_
  rw [delivered.pending ⟨i, bound⟩]
  simp

/-- The two deliveries agree exactly if no pending signal has a handler, and a pending SIGFPE finds the process killed
already or SIGINT pending as well. -/
theorem deliveries_agree_iff (t : Table n) (p : Fin n) : SameDelivery (t.trapDelivery p) (t.schedulerDelivery p) p ↔
      (∀ s : Fin 32, (t.procs p).pendingSignals.getLsbD s = true → (t.procs p).signalHandlers s = 0) ∧
        ((t.procs p).pendingSignals.getLsbD sigfpe = true →
          (t.procs p).killed = true ∨ (t.procs p).pendingSignals.getLsbD sigint = true) := by
  have trap := trapDelivery_delivered (t := t) (p := p)
  have scheduler := schedulerDelivery_delivered (t := t) (p := p)
  constructor
  · intro same
    have handlers (s : Fin 32) (pending : (t.procs p).pendingSignals.getLsbD s = true) :
        (t.procs p).signalHandlers s = 0 := by
      have equal := congrFun same.signalHandlers s
      rw [trap.handlers, scheduler.handlers, if_pos ⟨rfl, List.mem_finRange s, pending⟩, if_neg (by simp)] at equal
      exact equal.symm
    refine ⟨handlers, fun pending => ?_⟩
    have dead := trap.killed.mpr (.inr ⟨sigfpe, List.mem_finRange _, pending, handlers _ pending, by simp⟩)
    rw [same.killed, scheduler.killed] at dead
    rcases dead with was | ⟨s, _, set, _, interrupt⟩
    · exact .inl was
    · rw [of_decide_eq_true interrupt] at set
      exact .inr set
  · rintro ⟨handlers, fpe⟩
    refine ⟨trap.called.trans scheduler.called.symm, trap.consumed.trans scheduler.consumed.symm, funext fun s => ?_,
      Bool.eq_iff_iff.mpr (trap.killed.trans (Iff.trans ?_ scheduler.killed.symm))⟩
    · rw [trap.handlers, scheduler.handlers]
      by_cases pending : (t.procs p).pendingSignals.getLsbD s = true
      · simp [handlers s pending]
      · rw [if_neg fun both => pending both.2.2, if_neg (by simp)]
    · constructor
      · rintro (was | ⟨s, member, pending, none, kind⟩)
        · exact .inl was
        · rcases of_decide_eq_true kind with rfl | rfl
          · exact .inr ⟨sigint, member, pending, none, by simp⟩
          · exact (fpe pending).imp_right fun set => ⟨sigint, List.mem_finRange _, set, handlers _ set, by simp⟩
      · rintro (was | ⟨s, member, pending, none, kind⟩)
        · exact .inl was
        · exact .inr ⟨s, member, pending, none, by simp [of_decide_eq_true kind]⟩

def caughtInterrupt : Table 1 where
  procs := fun _ =>
    { sz := pgSize, kstack := 0, state := .running, pid := 1, parent := none, chan := none, killed := false,
      signalHandlers := fun s => if s = sigint then 64 else 0, pendingSignals := BitVec.twoPow 32 2, image := 1,
      registeredBy := fun _ => 1 }
  initproc := some 0
  nextpid := 2
  images := 2
  exited := []
  reaped := []
  called := []
  locking := true
  received := []

/-- trap resets the handler that it calls, scheduler leaves it registered. -/
theorem delivered_handler_differs :
    ¬SameDelivery (caughtInterrupt.trapDelivery 0) (caughtInterrupt.schedulerDelivery 0) 0 := by
  intro same
  have reset : ((caughtInterrupt.trapDelivery 0).procs 0).signalHandlers sigint = 0 := by decide +kernel
  have kept : ((caughtInterrupt.schedulerDelivery 0).procs 0).signalHandlers sigint = 64 := by decide +kernel
  rw [same.signalHandlers, kept] at reset
  exact absurd reset (by decide)

end Xv6.Processes
