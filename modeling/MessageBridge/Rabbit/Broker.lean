import MessageBridge.Failure
import MessageBridge.Log
import MessageBridge.Rabbit.Basic
import MessageBridge.Rabbit.Topic
import MessageBridge.Rabbit.Topology

/-!
# A rabbit broker in memory

The broker holds what has been declared, the deliveries that are ready in each
queue, those that have been handed to a consumer and not been settled, and a log
of what was published. Every operation takes a broker to a result and the broker
after it; there is a broker after a failed operation as well. A refusal by itself
changes nothing, and a publication that ends in a failure somebody asked for uses
up this failure.

A queue has one stream of deliveries. Whoever consumes the queue takes the
stream, and it is never given back: when it is dropped, the ready deliveries are
lost and so is whatever would be put into the queue later.

Tags are drawn from a counter, also for the deliveries that are lost.
-/

namespace MessageBridge.Rabbit

/-- The stream of a queue. -/
inductive Stream where
  /-- Nobody has taken it. -/
  | idle
  | taken
  | dropped
  deriving DecidableEq, Repr, Inhabited

structure Queue where
  spec : QueueSpec
  /-- The deliveries to hand out, the next one first. -/
  ready : List Delivery
  stream : Stream
  deriving Inhabited

structure Broker where
  exchanges : List Exchange := []
  queues : List Queue := []
  bindings : List Binding := []
  /-- The deliveries that were handed out and are not settled. -/
  unacked : List Delivery := []
  /-- The latest publications. -/
  published : List Publication := []
  /-- The failures that the next publications are to end in. -/
  failures : List Failure := []
  /-- The last tag drawn. -/
  lastTag : Nat := 0
  logCapacity : Nat := 1024
  deriving Inhabited

/-- Why the broker refuses an operation. -/
inductive Refusal where
  | exchangeDiffers (name : String)
  | queueDiffers (name : String)
  | noExchange (name : String)
  | noQueue (name : String)
  | streamTaken (queue : String)
  | unknownTag (tag : Nat)
  deriving DecidableEq, Repr

def Refusal.message : Refusal → String
  | .exchangeDiffers name =>
    "exchange '" ++ name ++ "' already declared with different properties"
  | .queueDiffers name => "queue '" ++ name ++ "' already declared with different arguments"
  | .noExchange name => "no exchange '" ++ name ++ "'"
  | .noQueue name => "no queue '" ++ name ++ "'"
  | .streamTaken queue => "queue '" ++ queue ++ "' already has a consumer"
  | .unknownTag tag => "unknown delivery tag " ++ toString tag

def Refusal.failure (r : Refusal) : Failure :=
  .rabbit r.message none

namespace Broker

def exchange? (b : Broker) (name : String) : Option Exchange :=
  b.exchanges.find? (·.name = name)

def queue? (b : Broker) (name : String) : Option Queue :=
  b.queues.find? (·.spec.name = name)

/-- Change the queue of a name. -/
def modifyQueue (b : Broker) (name : String) (f : Queue → Queue) : Broker :=
  { b with queues := b.queues.map fun q => if q.spec.name = name then f q else q }

/-- Declare an exchange. It may be declared again, but only as it is. -/
def declareExchange (b : Broker) (exchange : Exchange) : Except Failure Unit × Broker :=
  match b.exchange? exchange.name with
  | some declared =>
    if declared = exchange then (.ok (), b)
    else (.error (Refusal.exchangeDiffers exchange.name).failure, b)
  | none => (.ok (), { b with exchanges := b.exchanges ++ [exchange] })

/-- Declare a queue. It may be declared again, but only as it is. -/
def declareQueue (b : Broker) (spec : QueueSpec) : Except Failure Unit × Broker :=
  match b.queue? spec.name with
  | some declared =>
    if declared.spec = spec then (.ok (), b)
    else (.error (Refusal.queueDiffers spec.name).failure, b)
  | none => (.ok (), { b with queues := b.queues ++ [⟨spec, [], .idle⟩] })

/-- Declare a binding between an exchange and a queue that are declared. -/
def declareBinding (b : Broker) (binding : Binding) : Except Failure Unit × Broker :=
  if (b.exchange? binding.exchange).isNone then
    (.error (Refusal.noExchange binding.exchange).failure, b)
  else if (b.queue? binding.queue).isNone then
    (.error (Refusal.noQueue binding.queue).failure, b)
  else if b.bindings.contains binding then (.ok (), b)
  else (.ok (), { b with bindings := b.bindings ++ [binding] })

/-- Put a delivery at the end of a queue, under a new tag. Without the queue
nothing happens. -/
def enqueue (b : Broker) (queue exchange routingKey : String) (body : ByteArray)
    (redelivered : Bool) : Broker :=
  if (b.queue? queue).isNone then b
  else
    let delivery := ⟨b.lastTag + 1, exchange, routingKey, queue, body, redelivered⟩
    { b.modifyQueue queue fun q =>
        if q.stream = .dropped then q else { q with ready := q.ready ++ [delivery] } with
      lastTag := b.lastTag + 1 }

/-- Whether an exchange of some kind uses a binding for a routing key. -/
def ExchangeKind.uses (kind : ExchangeKind) (binding : Binding) (routingKey : String) : Bool :=
  match kind with
  | .topic => topicMatches binding.routingKey routingKey
  | .direct => binding.routingKey = routingKey
  | .fanout => true

/-- The queues that get a message: the one that the routing key names when there
is no exchange, and otherwise those with a binding that the exchange uses, each
once and in the order of their names. -/
def targets (b : Broker) (exchange routingKey : String) : List String :=
  if exchange.isEmpty then [routingKey]
  else
    let kind := ((b.exchange? exchange).map (·.kind)).getD .topic
    OrderedTexts.ofList
      ((b.bindings.filter fun binding =>
        binding.exchange = exchange && ExchangeKind.uses kind binding routingKey).map (·.queue))

/-- Put a message into all queues that get it. -/
def route (b : Broker) (exchange routingKey : String) (body : ByteArray) : Broker :=
  (b.targets exchange routingKey).foldl
    (fun b queue => b.enqueue queue exchange routingKey body false) b

/-- Publish a message. -/
def send (b : Broker) (exchange routingKey : String) (body : ByteArray) :
    Except Failure Unit × Broker :=
  match b.failures with
  | failure :: failures => (.error failure, { b with failures })
  | [] =>
    if !exchange.isEmpty && (b.exchange? exchange).isNone then
      (.error (Refusal.noExchange exchange).failure, b)
    else
      let routed := b.route exchange routingKey body
      (.ok (), { routed with
        published := Log.push b.logCapacity b.published ⟨exchange, routingKey, body⟩ })

/-- Take the stream of a queue. -/
def consume (b : Broker) (queue : String) : Except Failure Unit × Broker :=
  match b.queue? queue with
  | none => (.error (Refusal.noQueue queue).failure, b)
  | some q =>
    match q.stream with
    | .idle => (.ok (), b.modifyQueue queue fun q => { q with stream := .taken })
    | .taken | .dropped => (.error (Refusal.streamTaken queue).failure, b)

/-- Take the next delivery from the stream of a queue; it is unsettled then. -/
def next (b : Broker) (queue : String) : Option Delivery × Broker :=
  match b.queue? queue with
  | none => (none, b)
  | some q =>
    match q.ready with
    | [] => (none, b)
    | delivery :: ready =>
      (some delivery,
        { b.modifyQueue queue fun q => { q with ready } with
          unacked := b.unacked ++ [delivery] })

/-- Drop the stream of a queue, and with it what is ready. -/
def dropStream (b : Broker) (queue : String) : Broker :=
  b.modifyQueue queue fun q => { q with stream := .dropped, ready := [] }

/-- Empty a queue that nobody consumes. What is taken needs no settling. -/
def takeReady (b : Broker) (queue : String) : List Delivery × Broker :=
  match b.queue? queue with
  | none => ([], b)
  | some q =>
    if q.stream = .idle then
      (q.ready, b.modifyQueue queue fun q => { q with ready := [] })
    else ([], b)

/-- The unsettled delivery with a tag. -/
def unacked? (b : Broker) (tag : Nat) : Option Delivery :=
  b.unacked.find? (·.tag = tag)

/-- Strike the unsettled delivery with a tag. -/
def settle (b : Broker) (tag : Nat) : Broker :=
  { b with unacked := b.unacked.filter (·.tag ≠ tag) }

/-- Settle a delivery that has been dealt with. -/
def ack (b : Broker) (tag : Nat) : Except Failure Unit × Broker :=
  match b.unacked? tag with
  | none => (.error (Refusal.unknownTag tag).failure, b)
  | some _ => (.ok (), b.settle tag)

/-- Send a delivery to the dead-letter exchange of its queue, if it has one. -/
def deadLetter (b : Broker) (delivery : Delivery) : Broker :=
  let arguments := ((b.queue? delivery.queue).map (·.spec.arguments)).getD []
  match Entries.get? deadLetterExchangeArgument arguments with
  | none => b
  | some exchange =>
    b.route exchange
      ((Entries.get? deadLetterRoutingKeyArgument arguments).getD delivery.routingKey)
      delivery.body

/-- Settle a delivery that has not been dealt with: put it back at the end of its
queue, or send it to the dead letters. -/
def reject (b : Broker) (tag : Nat) (requeue : Bool) : Except Failure Unit × Broker :=
  match b.unacked? tag with
  | none => (.error (Refusal.unknownTag tag).failure, b)
  | some d =>
    let settled := b.settle tag
    if requeue then (.ok (), settled.enqueue d.queue d.exchange d.routingKey d.body true)
    else (.ok (), settled.deadLetter d)

/-- Declare an exchange and its dead-letter exchange. -/
def declarePair (b : Broker) (exchange : String) :
    Except Failure (Exchange × Exchange) × Broker :=
  let primary := Exchange.topic exchange
  let deadLetter := Exchange.topic (deadLetterName exchange)
  match b.declareExchange primary with
  | (.error failure, b) => (.error failure, b)
  | (.ok (), b) =>
    match b.declareExchange deadLetter with
    | (.error failure, b) => (.error failure, b)
    | (.ok (), b) => (.ok (primary, deadLetter), b)

/-- Make several declarations in order; the first refusal ends them. -/
def declareAll (b : Broker) :
    List (Broker → Except Failure Unit × Broker) → Except Failure Unit × Broker
  | [] => (.ok (), b)
  | declare :: rest =>
    match declare b with
    | (.error failure, b) => (.error failure, b)
    | (.ok (), b) => b.declareAll rest

/-- Declare everything that a forward bridge needs. -/
def provision (b : Broker) (source : RabbitSource) : Except Failure Topology × Broker :=
  let t := Topology.ofSource source
  match b.declareAll [(·.declareExchange t.exchange), (·.declareExchange t.deadLetterExchange),
      (·.declareQueue t.queue), (·.declareQueue t.deadLetterQueue),
      (·.declareBinding t.queueBinding), (·.declareBinding t.deadLetterBinding)] with
  | (.error failure, b) => (.error failure, b)
  | (.ok (), b) => (.ok t, b)

end Broker

end MessageBridge.Rabbit
