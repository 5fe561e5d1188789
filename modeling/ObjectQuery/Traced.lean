/-!
# Computations that leave a trace

A traced computation ends with a result or an error, and in either case
leaves the events that happened on the way, in order. An error ends the
computation but keeps the events before it.

The trace is for those who want to know what was done. The outcome does not
depend on it: `outcome_bind` and its companions turn any statement about
outcomes into one about `Except` alone.

## Main results

* `outcome_pure`, `outcome_bind`, `outcome_emit`, `outcome_throw` — taking
  the outcome commutes with every way of building a computation.
-/

namespace ObjectQuery

/-- A computation of an `α` that may end in an error `ε` and leaves events
`ω`. -/
structure Traced (ω ε α : Type) where
  /-- What happened, in order. -/
  events : List ω
  /-- How it ended. -/
  outcome : Except ε α

namespace Traced

variable {ω ε α β : Type}

/-- Goes on with the result of a computation. -/
def andThen (x : Traced ω ε α) (f : α → Traced ω ε β) : Traced ω ε β :=
  match x.outcome with
  | .error e => ⟨x.events, .error e⟩
  | .ok a =>
    let y := f a
    ⟨x.events ++ y.events, y.outcome⟩

instance : Monad (Traced ω ε) where
  pure a := ⟨[], .ok a⟩
  bind := andThen

instance : MonadExcept ε (Traced ω ε) where
  throw e := ⟨[], .error e⟩
  tryCatch x handle :=
    match x.outcome with
    | .error e => ⟨x.events ++ (handle e).events, (handle e).outcome⟩
    | .ok a => ⟨x.events, .ok a⟩

/-- Lets an event happen. -/
def emit (event : ω) : Traced ω ε Unit :=
  ⟨[event], .ok ()⟩

/-- A computation without events. -/
def ofExcept (outcome : Except ε α) : Traced ω ε α :=
  ⟨[], outcome⟩

/-- The same computation with other names for its events and errors. -/
def relabel {ω' ε' : Type} (event : ω → ω') (error : ε → ε') (x : Traced ω ε α) :
    Traced ω' ε' α :=
  ⟨x.events.map event, x.outcome.mapError error⟩

@[simp] theorem outcome_pure (a : α) : (pure a : Traced ω ε α).outcome = .ok a := rfl

@[simp] theorem outcome_bind (x : Traced ω ε α) (f : α → Traced ω ε β) :
    (x >>= f).outcome = x.outcome >>= fun a => (f a).outcome := by
  show (x.andThen f).outcome = _
  unfold andThen
  cases h : x.outcome <;> rfl

@[simp] theorem outcome_emit (event : ω) : (emit event : Traced ω ε Unit).outcome = .ok () := rfl

@[simp] theorem outcome_throw (e : ε) : (throw e : Traced ω ε α).outcome = .error e := rfl

@[simp] theorem outcome_ofExcept (x : Except ε α) : (ofExcept x : Traced ω ε α).outcome = x := rfl

@[simp] theorem outcome_relabel {ω' ε' : Type} (event : ω → ω') (error : ε → ε')
    (x : Traced ω ε α) : (x.relabel event error).outcome = x.outcome.mapError error := rfl

end Traced

end ObjectQuery
