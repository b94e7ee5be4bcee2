import MessageBridge.Bridge.Basic
import MessageBridge.Envelope
import MessageBridge.Reverse.Receiver

/-!
# One run of a reverse bridge

A run receives a batch of messages and takes them to rabbit one by one: convert,
publish, delete. A message is deleted only after rabbit has accepted it. The
first message that fails is made visible again and ends the run; those behind it
stay invisible until their timeout, and those before it are done.
-/

namespace MessageBridge

structure Dispatcher where
  receiver : Receiver
  destination : RabbitDestination
  /-- Whether payloads are stamped with an idempotency key. -/
  stamped : Bool
  deriving Inhabited

namespace Dispatcher

/-- The name under which a dispatcher counts. -/
def queueName (d : Dispatcher) : String :=
  d.receiver.queueName

/-- Make a dispatcher ready, declaring the exchange it publishes to if asked. -/
def prepare (queue : String) (destination : RabbitDestination) (s : PollerSettings)
    (declare : Bool) (b : Brokers) : Except Failure Dispatcher × Brokers :=
  match Receiver.resolve queue s b with
  | .error failure => (.error failure, b)
  | .ok receiver =>
    let dispatcher := ⟨receiver, destination, s.idempotencyKey.isSome⟩
    if declare then
      match b.onRabbit (·.declarePair destination.exchange) with
      | (.error failure, b) => (.error failure, b)
      | (.ok _, b) => (.ok dispatcher, b)
    else (.ok dispatcher, b)

/-- The text to publish for a message. -/
def convert (d : Dispatcher) (m : Amazon.Message) : Except Failure String :=
  (Envelope.convert m.body m.id d.destination.exchange d.stamped).mapError
    Envelope.Defect.failure

/-- Take one message to rabbit and delete it. -/
def forward (d : Dispatcher) (m : Amazon.Message) (b : Brokers) :
    Except Failure Unit × Brokers :=
  match d.convert m with
  | .error failure => (.error failure, b)
  | .ok text =>
    match b.onRabbit (·.send d.destination.exchange d.destination.routingKey text.toUTF8) with
    | (.error failure, b) => (.error failure, b)
    | (.ok (), b) => d.receiver.delete m b

/-- Take a batch to rabbit, until a message fails. -/
def forwardAll (d : Dispatcher) : List Amazon.Message → Brokers → Except Failure Unit × Brokers
  | [], b => (.ok (), b)
  | m :: rest, b =>
    match d.forward m b with
    | (.ok (), b) => d.forwardAll rest (b.record (.pollForwarded d.queueName))
    | (.error failure, b) =>
      let (_, b) := d.receiver.release m (b.record (.pollFailed d.queueName failure.label))
      (.error failure, b)

/-- Deal with what a receive has brought; the result is how many messages were
taken to rabbit. -/
def dispatch (d : Dispatcher) (received : Except Failure (List Amazon.Message)) (b : Brokers) :
    Except Failure Nat × Brokers :=
  match received with
  | .error failure => (.error failure, b)
  | .ok [] => (.ok 0, b)
  | .ok (m :: rest) =>
    let batch := m :: rest
    let (result, b) := d.forwardAll batch
      { b with metrics := b.metrics.raise (.polled d.queueName) batch.length }
    (result.map fun () => batch.length, b)

/-- Go on with a run. Only its receive has to wait, so the activity sleeps on
the deadline of the receive. -/
def turn (d : Dispatcher) (deadline : Instant) (b : Brokers) :
    Turn Instant (Except Failure Nat) × Brokers :=
  match d.receiver.turn deadline b with
  | (.asleep sleep deadline, b) => (.asleep sleep deadline, b)
  | (.done received, b) =>
    let (result, b) := d.dispatch received b
    (.done result, b.record (.runDuration d.queueName))

end Dispatcher

end MessageBridge
