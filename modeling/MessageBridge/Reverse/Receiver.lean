import MessageBridge.Brokers
import MessageBridge.Settings.Basic

/-!
# Receiving from a queue

A receiver looks for visible messages in one Amazon queue. When there are none it
waits, up to a deadline, and looks again whenever an arrival is announced. That
a received message has become visible again is not announced, so it also looks
again every 25 milliseconds.
-/

namespace MessageBridge

structure Receiver where
  queueName : String
  url : String
  /-- How long to wait for a message. -/
  waitTime : Duration
  maxMessages : Nat
  deriving Inhabited

namespace Receiver

/-- How long to wait, in milliseconds, before looking again. -/
def tick : Nat := 25

/-- The receiver for a queue that exists. -/
def resolve (queue : String) (s : PollerSettings) (b : Brokers) : Except Failure Receiver :=
  (b.amazon.resolve queue).map fun url => ⟨queue, url, s.waitTime, s.maxMessages⟩

/-- The deadline of a receive that begins now. -/
def deadline (r : Receiver) (b : Brokers) : Instant :=
  b.now + r.waitTime.millisUp

/-- Look for messages. The activity sleeps on its deadline. -/
def turn (r : Receiver) (deadline : Instant) (b : Brokers) :
    Turn Instant (Except Failure (List Amazon.Message)) × Brokers :=
  let (found, b) := b.onAmazon (·.look b.now r.url r.maxMessages)
  if found matches .ok [] ∧ b.now < deadline then
    (.asleep ⟨min deadline (b.now + tick), some b.amazon.arrivals⟩ deadline, b)
  else (.done found, b)

/-- Delete a message that has been dealt with. -/
def delete (r : Receiver) (m : Amazon.Message) (b : Brokers) : Except Failure Unit × Brokers :=
  b.onAmazon (·.deleteMessage r.url m.receipt)

/-- Make a message visible again at once. -/
def release (r : Receiver) (m : Amazon.Message) (b : Brokers) : Except Failure Unit × Brokers :=
  b.onAmazon (·.changeVisibility b.now r.url m.receipt 0)

end Receiver

end MessageBridge
