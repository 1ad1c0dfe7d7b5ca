import ResourceIndex.Fault
import ResourceIndex.Log

set_option autoImplicit false

/-! # Outcomes

What an operation leaves behind, whether or not a fault cuts it short: the state as it then is,
the answer or the fault, and the events logged on the way.
-/

namespace ResourceIndex

/-- The state after an operation, its answer and its events in the order they were logged. -/
structure Outcome (σ α : Type) where
  state : σ
  answer : Except Fault α
  events : List Event := []

end ResourceIndex
