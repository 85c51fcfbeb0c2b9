import Mathlib

set_option autoImplicit false

namespace Ledger

variable {A B U : Type}

/-- What an item is: none of those in the ledger, free, or in some use. -/
inductive Status (U : Type) where
  | outside
  | free
  | used (u : U)
deriving DecidableEq

/-- Every item has one status, and the free list has the free items, each of them once. -/
structure Account (valid : A → Prop) (free : List A) (owner : A → Status U) : Prop where
  nodup : free.Nodup
  listed : ∀ a, owner a = .free ↔ a ∈ free
  valid : ∀ a, owner a ≠ .outside → valid a

/-- Steps that touch free items and items in the uses `touched`. -/
structure Acts (touched : U → Prop) (cell : A → B) (owner : A → Status U) (cell' : A → B) (owner' : A → Status U) :
    Prop where
  keeps : ∀ a u, ¬touched u → owner a = .used u → owner' a = .used u ∧ cell' a = cell a
  only : ∀ a u, ¬touched u → owner' a = .used u → owner a = .used u
  outside : ∀ a, owner' a = .outside ↔ owner a = .outside

def Status.Within (touched : U → Prop) : Status U → Prop
  | outside => False
  | free => True
  | used u => touched u

section Account

variable [DecidableEq A] {valid : A → Prop} {free : List A} {owner : A → Status U} {a : A}

theorem Account.take {rest : List A} (account : Account valid (a :: rest) owner) (u : U) :
    Account valid rest (Function.update owner a (.used u)) := by
  obtain ⟨fresh, nodup⟩ := List.nodup_cons.mp account.nodup
  refine ⟨nodup, fun b => ?_, fun b managed => ?_⟩
  · by_cases same : b = a
    · subst same
      simp [fresh]
    · simp [same, account.listed]
  · by_cases same : b = a
    · subst same
      exact account.valid b (by simp [(account.listed b).mpr])
    · exact account.valid b (by simpa [same] using managed)

theorem Account.give {u : U} (account : Account valid free owner) (held : owner a = .used u) :
    Account valid (a :: free) (Function.update owner a .free) := by
  have fresh : a ∉ free := fun listed => by
    have free := (account.listed a).mpr listed
    simp [held] at free
  refine ⟨List.nodup_cons.mpr ⟨fresh, account.nodup⟩, fun b => ?_, fun b managed => ?_⟩
  · by_cases same : b = a
    · subst same
      simp
    · simp [same, account.listed]
  · by_cases same : b = a
    · subst same
      exact account.valid b (by simp [held])
    · exact account.valid b (by simpa [same] using managed)

theorem Account.pass {u : U} (account : Account valid free owner) (held : owner a = .used u) (v : U) :
    Account valid free (Function.update owner a (.used v)) := by
  refine ⟨account.nodup, fun b => ?_, fun b managed => ?_⟩
  · by_cases same : b = a
    · subst same
      simp [← account.listed, held]
    · simp [same, account.listed]
  · by_cases same : b = a
    · subst same
      exact account.valid b (by simp [held])
    · exact account.valid b (by simpa [same] using managed)

end Account

section Acts

variable {touched : U → Prop} {cell cell' cell'' : A → B} {owner owner' owner'' : A → Status U}

theorem Acts.refl (touched : U → Prop) (cell : A → B) (owner : A → Status U) : Acts touched cell owner cell owner :=
  ⟨fun _ _ _ held => ⟨held, rfl⟩, fun _ _ _ held => held, fun _ => Iff.rfl⟩

theorem Acts.trans (first : Acts touched cell owner cell' owner') (second : Acts touched cell' owner' cell'' owner'') :
    Acts touched cell owner cell'' owner'' := by
  refine ⟨fun a u fixed held => ?_, fun a u fixed held => first.only a u fixed (second.only a u fixed held),
    fun a => (second.outside a).trans (first.outside a)⟩
  obtain ⟨held', same⟩ := first.keeps a u fixed held
  obtain ⟨held'', same'⟩ := second.keeps a u fixed held'
  exact ⟨held'', same'.trans same⟩

theorem Acts.mono {wider : U → Prop} (acts : Acts touched cell owner cell' owner')
    (included : ∀ u, touched u → wider u) : Acts wider cell owner cell' owner' :=
  ⟨fun a u fixed => acts.keeps a u fun t => fixed (included u t),
    fun a u fixed => acts.only a u fun t => fixed (included u t), acts.outside⟩

theorem Acts.free_iff (acts : Acts touched cell owner cell' owner') (before : ∀ a u, owner a = .used u → ¬touched u)
    (after : ∀ a u, owner' a = .used u → ¬touched u) (a : A) : owner' a = .free ↔ owner a = .free := by
  constructor
  · intro free
    cases now : owner a with
    | outside =>
      rw [(acts.outside a).mpr now] at free
      cases free
    | free => rfl
    | used u =>
      rw [(acts.keeps a u (before a u now) now).1] at free
      cases free
  · intro free
    cases later : owner' a with
    | outside =>
      rw [(acts.outside a).mp later] at free
      cases free
    | free => rfl
    | used u =>
      rw [acts.only a u (after a u later) later] at free
      cases free

theorem Acts.was_free {a : A} {u : U} (acts : Acts touched cell owner cell' owner')
    (before : ∀ a u, owner a = .used u → ¬touched u) (within : touched u) (held : owner' a = .used u) :
    owner a = .free := by
  cases now : owner a with
  | outside =>
    rw [(acts.outside a).mpr now] at held
    cases held
  | free => rfl
  | used w =>
    rw [(acts.keeps a w (before a w now) now).1] at held
    cases held
    exact absurd within (before a u now)

-- Of the uses touched, the `kept` ones go on and no others.
theorem Acts.freed_iff {kept : U → Prop} (acts : Acts touched cell owner cell' owner')
    (still : ∀ a u, touched u → (owner' a = .used u ↔ kept u ∧ owner a = .used u)) (a : A) :
    owner' a = .free ↔ owner a = .free ∨ ∃ u, touched u ∧ ¬kept u ∧ owner a = .used u := by
  constructor
  · intro free
    cases now : owner a with
    | outside =>
      rw [(acts.outside a).mpr now] at free
      cases free
    | free => exact .inl rfl
    | used u =>
      by_cases within : touched u
      · refine .inr ⟨u, within, fun keep => ?_, rfl⟩
        rw [(still a u within).mpr ⟨keep, now⟩] at free
        cases free
      · rw [(acts.keeps a u within now).1] at free
        cases free
  · intro before
    cases later : owner' a with
    | outside => simp [(acts.outside a).mp later] at before
    | free => rfl
    | used w =>
      have same : owner a = .used w := by
        by_cases within : touched w
        · exact ((still a w within).mp later).2
        · exact acts.only a w within later
      rw [same] at before
      rcases before with free | ⟨u, within, gone, held⟩
      · cases free
      · cases held
        exact absurd ((still a w within).mp later).1 gone

variable [DecidableEq A] {a : A}

theorem acts_write (within : (owner a).Within touched) (b : B) :
    Acts touched cell owner (Function.update cell a b) owner := by
  refine ⟨fun c u fixed held => ⟨held, Function.update_of_ne ?_ _ _⟩, fun _ _ _ held => held, fun _ => Iff.rfl⟩
  rintro rfl
  rw [held] at within
  exact fixed within

theorem acts_pass {status : Status U} (within : (owner a).Within touched) (still : status.Within touched) :
    Acts touched cell owner cell (Function.update owner a status) := by
  refine ⟨fun c u fixed held => ⟨?_, rfl⟩, fun c u fixed held => ?_, fun c => ?_⟩
  · rw [Function.update_of_ne _ _ _, held]
    rintro rfl
    rw [held] at within
    exact fixed within
  · by_cases same : c = a
    · subst same
      rw [Function.update_self] at held
      subst held
      exact absurd still fixed
    · rwa [Function.update_of_ne same] at held
  · by_cases same : c = a
    · subst same
      rw [Function.update_self]
      constructor
      · rintro rfl
        exact still.elim
      · intro out
        rw [out] at within
        exact within.elim
    · rw [Function.update_of_ne same]

end Acts

end Ledger
