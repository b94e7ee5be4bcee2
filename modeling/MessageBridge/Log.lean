/-!
# Bounded logs

The brokers keep a record of what passed through them, up to a capacity. A log
of capacity zero keeps nothing.
-/

namespace MessageBridge.Log

/-- The last entries of a list, as many as a capacity allows, in order. -/
def latest {α : Type} (capacity : Nat) (entries : List α) : List α :=
  entries.drop (entries.length - capacity)

/-- Add an entry at the end; the oldest entries go when there are too many. -/
def push {α : Type} (capacity : Nat) (log : List α) (entry : α) : List α :=
  latest capacity (log ++ [entry])

end MessageBridge.Log
