import Routing.Error

/-!
# Traced computations

Building and matching report what they do as they go. A `Traced` computation carries the notes taken so far beside
its outcome, also when it fails. `outcome_bind` states that the outcome of a sequence does not depend on notes.
-/

namespace Routing

/-- A remark on the work, with the verbosity from which on it is wanted. -/
structure Note where
  level : Nat
  text : Text
  deriving DecidableEq, Repr

/-- A result or an error, and the notes taken on the way to it. -/
structure Traced (α : Type) where
  notes : List Note := []
  outcome : Except RouteError α

namespace Traced

variable {α β : Type}

instance : Monad Traced where
  pure a := { outcome := .ok a }
  bind x f :=
    match x.outcome with
    | .error e => { notes := x.notes, outcome := .error e }
    | .ok a =>
      let y := f a
      { notes := x.notes ++ y.notes, outcome := y.outcome }

/-- Takes a note. -/
def note (level : Nat) (text : Text) : Traced Unit := { notes := [⟨level, text⟩], outcome := .ok () }

/-- Fails. -/
def fail (e : RouteError) : Traced α := { outcome := .error e }

/-- A computation that takes no notes. -/
def ofExcept (x : Except RouteError α) : Traced α := { outcome := x }

instance : MonadLift (Except RouteError) Traced := ⟨ofExcept⟩

/-- The outcome of a computation as a value, so that what follows can look at it. -/
def caught (x : Traced α) : Traced (Except RouteError α) := { notes := x.notes, outcome := .ok x.outcome }

/-- The texts of the notes that a verbosity lets through. -/
def shownNotes (verbosity : Nat) (x : Traced α) : List Text :=
  (x.notes.filter (·.level ≤ verbosity)).map (·.text)

theorem outcome_bind (x : Traced α) (f : α → Traced β) :
    (x >>= f).outcome = x.outcome >>= fun a => (f a).outcome := by
  obtain ⟨notes, outcome⟩ := x
  cases outcome <;> rfl

@[simp] theorem outcome_pure (a : α) : (pure a : Traced α).outcome = .ok a := rfl

@[simp] theorem outcome_ofExcept (x : Except RouteError α) : (ofExcept x).outcome = x := rfl

end Traced

end Routing
