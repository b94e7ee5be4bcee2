import MessageBridge.Amazon.Service
import MessageBridge.Metrics
import MessageBridge.Rabbit.Broker

/-!
# Everything the two directions share

Both brokers, the counters and the clock. The clock stands still while anything
is done; only waiting makes time pass.

Whatever may have to wait is an activity that is worked on in turns. A turn takes
the state of the activity and the brokers, and comes either to a result or to a
state in which the activity sleeps. Between two turns anything may happen to the
brokers.
-/

namespace MessageBridge

structure Brokers where
  rabbit : Rabbit.Broker := {}
  amazon : Amazon.Service := {}
  metrics : Metrics := []
  now : Instant := 0
  deriving Inhabited

namespace Brokers

variable {α : Type}

/-- Do something to the rabbit broker. -/
def onRabbit (b : Brokers) (f : Rabbit.Broker → α × Rabbit.Broker) : α × Brokers :=
  let (a, rabbit) := f b.rabbit
  (a, { b with rabbit })

/-- Do something to the Amazon service. -/
def onAmazon (b : Brokers) (f : Amazon.Service → α × Amazon.Service) : α × Brokers :=
  let (a, amazon) := f b.amazon
  (a, { b with amazon })

/-- Count an event. -/
def record (b : Brokers) (m : Metric) : Brokers :=
  { b with metrics := b.metrics.raise m 1 }

end Brokers

/-- When an activity that sleeps wants its next turn. -/
structure Sleep where
  /-- At this moment at the latest. -/
  wake : Instant
  /-- As soon as an arrival is announced, if it waits for one; the number says how
  many have been announced so far. -/
  heard : Option Nat
  deriving DecidableEq, Repr, Inhabited

namespace Sleep

/-- Sleep for so many milliseconds. -/
def lasting (b : Brokers) (millis : Nat) : Sleep :=
  ⟨b.now + millis, none⟩

/-- Whether the sleep is over. -/
def isOver (s : Sleep) (b : Brokers) : Bool :=
  s.wake ≤ b.now || s.heard.any (· ≠ b.amazon.arrivals)

end Sleep

/-- What a turn of an activity comes to. -/
inductive Turn (σ α : Type) where
  | done (result : α)
  | asleep (sleep : Sleep) (next : σ)

end MessageBridge
