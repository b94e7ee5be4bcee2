import MessageBridge.Forward.Consumer
import MessageBridge.Process.Urgency
import MessageBridge.Settings.Basic

/-!
# A consumer that runs

A running consumer takes the stream of its queue and handles what comes out of
it, several deliveries at a time if it may. As soon as it is told to stop it
drops the stream, and with it what is ready in the queue; the deliveries that it
has taken are handled to the end.

What a running consumer can do at some moment is decided by its state and the
brokers alone: `Consuming.urgency?` says whether it can do anything.
-/

namespace MessageBridge

/-- The retry policy that settings ask for. There is always a first attempt. -/
def RetryPolicy.ofSettings (s : RetrySettings) : RetryPolicy :=
  ⟨max s.maxAttempts 1, s.initialInterval, s.maxInterval, s.multiplier⟩

/-- The consumer of an endpoint. It handles at least one delivery at a time. -/
def Consumer.ofEndpoint (e : Endpoint) (s : RabbitSettings) : Consumer :=
  ⟨e, .ofSettings s.retry, s.retry.enabled, max s.listener.concurrency 1⟩

/-- A delivery that a running consumer has taken. -/
structure Underway where
  handling : Handling
  sleep : Sleep
  /-- The turn in which it fell asleep. -/
  since : Nat
  deriving Inhabited

/-- How far a running consumer is. -/
inductive Consuming where
  | starting
  /-- The deliveries underway stand in the order in which they were worked on
  last. -/
  | running (streamOpen : Bool) (underway : List Underway)
  | finished (result : Except Failure Unit)
  deriving Inhabited

namespace Consuming

/-- Take a delivery from the stream if one is ready and there is room for it, or
drop the stream if the consumer is to stop. While there is no room the stream is
left alone. -/
def take (c : Consumer) (stop : StopSignal) (turn : Nat) (streamOpen : Bool)
    (underway : List Underway) (b : Brokers) : Bool × List Underway × Brokers :=
  if streamOpen ∧ underway.length < c.concurrency then
    if stop.isGiven then
      (false, underway, { b with rabbit := b.rabbit.dropStream c.endpoint.queue })
    else
      match b.onRabbit (·.next c.endpoint.queue) with
      | (none, b) => (true, underway, b)
      | (some delivery, b) =>
        let (handling, b) := Handling.start c delivery b
        (true, underway ++ [⟨handling, .lasting b 0, turn⟩], b)
  else (streamOpen, underway, b)

/-- Work on the deliveries whose sleep is over, in order, until one of them is
settled. Those that go to sleep again are collected and end up last. -/
def work (c : Consumer) (turn : Nat) (again : List Underway) :
    List Underway → Brokers → List Underway × Brokers
  | [], b => (again, b)
  | u :: rest, b =>
    if u.sleep.isOver b then
      match u.handling.turn c b with
      | (.done _, b) => (rest ++ again, b)
      | (.asleep sleep handling, b) => work c turn (again ++ [⟨handling, sleep, turn⟩]) rest b
    else
      let (others, b) := work c turn again rest b
      (u :: others, b)

/-- Go on with a running consumer. -/
def turn (c : Consumer) (stop : StopSignal) (turn : Nat) :
    Consuming → Brokers → Consuming × Brokers
  | starting, b =>
    match b.onRabbit (·.consume c.endpoint.queue) with
    | (.error failure, b) => (finished (.error failure), b)
    | (.ok (), b) => (running true [], b)
  | running streamOpen underway, b =>
    let (streamOpen, underway, b) := take c stop turn streamOpen underway b
    let (underway, b) := work c turn [] underway b
    if !streamOpen && underway.isEmpty then (finished (.ok ()), b)
    else (running streamOpen underway, b)
  | finished result, b => (finished result, b)

/-- Whether a running consumer can go on, and how soon. -/
def urgency? (c : Consumer) (stop : StopSignal) (b : Brokers) : Consuming → Option Urgency
  | starting => some (.awake 0)
  | running streamOpen underway =>
    match underway.find? (·.sleep.isOver b) with
    | some u => some (.awake u.since)
    | none =>
      if streamOpen ∧ underway.length < c.concurrency then
        match (b.rabbit.queue? c.endpoint.queue).bind (·.ready.head?) with
        | some delivery => some (.delivery delivery.tag)
        | none => if stop.isGiven then some .stopping else none
      else none
  | finished _ => none

/-- The moments at which a running consumer can go on for sure. -/
def alarms : Consuming → List Instant
  | running _ underway => underway.map (·.sleep.wake)
  | starting | finished _ => []

def result? : Consuming → Option (Except Failure Unit)
  | finished result => some result
  | starting | running _ _ => none

end Consuming

end MessageBridge
