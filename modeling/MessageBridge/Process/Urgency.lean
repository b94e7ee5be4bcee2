/-!
# Tasks that want to go on

Tasks run one at a time. A task that can go on is queued behind those that could
before it; `Urgency` orders those that can go on from the same moment.
-/

namespace MessageBridge

/-- What a task has been told about stopping. -/
inductive StopSignal where
  | none
  /-- It is to stop. -/
  | requested
  /-- Nobody is left who could tell it to stop. -/
  | abandoned
  deriving DecidableEq, Repr, Inhabited

/-- Whether the signal has come, one way or the other. -/
def StopSignal.isGiven (s : StopSignal) : Bool :=
  s ≠ .none

/-- Which of several tasks that can go on at the same moment goes on first: the
one with the least rank, and among equals the one with the least order. -/
structure Urgency where
  rank : Nat
  order : Nat
  deriving DecidableEq, Repr

namespace Urgency

/-- A sleep is over since the clock moved on. Who fell asleep first goes on first. -/
def awake (since : Nat) : Urgency :=
  ⟨0, since⟩

/-- A delivery can be taken. The deliveries go in the order of their tags. -/
def delivery (tag : Nat) : Urgency :=
  ⟨1, tag⟩

/-- An arrival was announced. Who began to wait first goes on first. -/
def arrival (since : Nat) : Urgency :=
  ⟨2, since⟩

/-- The task was told to stop. -/
def stopping : Urgency :=
  ⟨3, 0⟩

def le (a b : Urgency) : Bool :=
  a.rank < b.rank || (a.rank = b.rank && a.order ≤ b.order)

end Urgency

end MessageBridge
