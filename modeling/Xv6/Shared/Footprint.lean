import Mathlib

set_option autoImplicit false

namespace Footprint

-- A call that may fail, with the addresses that it touches.
structure Call (Addr A : Type) where
  result : Option A
  touched : List Addr

variable {Addr A B : Type}

def fail : Call Addr A := ⟨none, []⟩

def touch (addrs : List Addr) : Call Addr Unit := ⟨some (), addrs⟩

instance : Monad (Call Addr) where
  pure a := ⟨some a, []⟩
  bind x f :=
    match x.result with
    | none => ⟨none, x.touched⟩
    | some a => ⟨(f a).result, x.touched ++ (f a).touched⟩

@[simp] theorem result_pure (a : A) : (pure a : Call Addr A).result = some a := rfl

@[simp] theorem result_fail : (fail : Call Addr A).result = none := rfl

theorem result_bind (x : Call Addr A) (f : A → Call Addr B) :
    (x >>= f).result = x.result.bind fun a => (f a).result := by
  obtain ⟨_ | a, touched⟩ := x <;> rfl

/-- Every address that the call touches passes. -/
def Within (ok : Addr → Prop) (x : Call Addr A) : Prop := ∀ a ∈ x.touched, ok a

variable {ok : Addr → Prop}

theorem within_pure (a : A) : Within ok (pure a : Call Addr A) := fun _ member => by cases member

theorem within_fail : Within ok (fail : Call Addr A) := fun _ member => by cases member

theorem within_bind {x : Call Addr A} {f : A → Call Addr B} (first : Within ok x)
    (rest : ∀ a, x.result = some a → Within ok (f a)) : Within ok (x >>= f) := by
  obtain ⟨_ | a, touched⟩ := x
  · exact first
  · intro addr member
    rcases List.mem_append.mp member with before | after
    · exact first addr before
    · exact rest a rfl addr after

theorem within_touch {addrs : List Addr} {f : Unit → Call Addr B} (all : ∀ a ∈ addrs, ok a)
    (rest : Within ok (f ())) : Within ok (touch addrs >>= f) := within_bind all fun _ _ => rest

end Footprint
