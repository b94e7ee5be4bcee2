import MessageBridge.Forward.Endpoint
import MessageBridge.Forward.RetryPolicy

/-!
# Deliveries on the way

A consumer takes the deliveries of an endpoint's queue through their attempts and
settles them: a forwarded delivery is acknowledged, any other one is rejected and
so goes to the dead letters. The handling of a delivery is an activity that
sleeps between two attempts. Settling comes last, so a delivery that is being
handled is still unsettled.
-/

namespace MessageBridge

/-- How a consumer handles deliveries. -/
structure Consumer where
  endpoint : Endpoint
  policy : RetryPolicy
  retryEnabled : Bool
  /-- How many deliveries may be on the way at once. -/
  concurrency : Nat
  deriving Inhabited

/-- What becomes of a delivery. -/
inductive Outcome where
  | acked
  | deadLettered
  /-- The broker refused to settle it. -/
  | unsettled
  deriving DecidableEq, Repr, Inhabited

namespace Consumer

/-- The name under which a consumer counts. -/
def id (c : Consumer) : String :=
  c.endpoint.id

/-- Make attempts at a delivery, from the one with the given number on. The
activity sleeps on the number of the next attempt; when there is no delay, the
next attempt follows at once. -/
def deliver (c : Consumer) (d : Rabbit.Delivery) (attempt : Nat) (b : Brokers) :
    Turn Nat (Except Failure Unit) × Brokers :=
  match c.endpoint.attempt d b with
  | (.ok (), b) => (.done (.ok ()), b)
  | (.error failure, b) =>
    if failure.isRejection then (.done (.error failure), b)
    else if h : c.retryEnabled ∧ c.policy.shouldRetry attempt then
      let b := b.record (.retried c.id)
      let millis := (c.policy.delay attempt).millisUp
      if millis = 0 then c.deliver d (attempt + 1) b
      else (.asleep (.lasting b millis) (attempt + 1), b)
    else (.done (.error failure), b)
termination_by c.policy.maxAttempts - attempt
decreasing_by
  have : attempt < c.policy.maxAttempts := by simpa [RetryPolicy.shouldRetry] using h.2
  omega

/-- Settle a delivery after its last attempt. -/
def settle (c : Consumer) (d : Rabbit.Delivery) (result : Except Failure Unit) (b : Brokers) :
    Outcome × Brokers :=
  let (settled, outcome, b) :=
    match result with
    | .ok () =>
      let (settled, b) := b.onRabbit (·.ack d.tag)
      (settled, Outcome.acked, b)
    | .error failure =>
      let (settled, b) := (b.record (.deadLettered c.id failure.label)).onRabbit
        (·.reject d.tag false)
      (settled, Outcome.deadLettered, b)
  match settled with
  | .ok () => (outcome, b)
  | .error failure => (.unsettled, b.record (.settleFailed c.id failure.label))

end Consumer

/-- A delivery on the way. -/
structure Handling where
  delivery : Rabbit.Delivery
  /-- The number of the next attempt, from one. -/
  attempt : Nat
  deriving Inhabited

namespace Handling

/-- Begin to handle a delivery. -/
def start (c : Consumer) (d : Rabbit.Delivery) (b : Brokers) : Handling × Brokers :=
  (⟨d, 1⟩, b.record (.received c.id))

/-- Go on with a delivery. -/
def turn (c : Consumer) (h : Handling) (b : Brokers) : Turn Handling Outcome × Brokers :=
  match c.deliver h.delivery h.attempt b with
  | (.asleep sleep attempt, b) => (.asleep sleep { h with attempt }, b)
  | (.done result, b) =>
    let (outcome, b) := c.settle h.delivery result (b.record (.sendLatency c.id))
    (.done outcome, b)

end Handling

end MessageBridge
