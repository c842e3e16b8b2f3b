import PersistentCollections.Event

/-!
# Folds that can stop

A step function answers `yield` with the next accumulator to go on, or `done` with the final one.
It runs in a monad of the caller's choice, so a fold also fixes which applications of the step
function take place, and in which order. `visitList` is the fold over a list; the folds over the
collections are built on it.
-/

namespace PersistentCollections

variable {m : Type → Type} {α β : Type}

/-- The accumulator, whether the fold was stopped or not. -/
def finalValue : ForInStep β → β
  | .done b | .yield b => b

/-- Fold over a list, and tell whether the step function stopped the fold. -/
def visitList [Monad m] (f : β → α → m (ForInStep β)) : List α → β → m (ForInStep β)
  | [], b => pure (.yield b)
  | x :: xs, b => do
    match ← f b x with
    | .done b => return .done b
    | .yield b => visitList f xs b

/-- Use an outcome inside a computation that may fail. -/
def liftResult [Monad m] (r : Result α) : ExceptT Error m α := ExceptT.mk (pure r)

end PersistentCollections
