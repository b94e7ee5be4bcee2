import MessageBridge.Entries
import MessageBridge.Text.Utf8

/-!
# Rabbit exchanges, queues and deliveries

What can be declared on a rabbit broker, and the messages it hands out.
-/

namespace MessageBridge.Rabbit

/-- How an exchange picks the bindings for a message. -/
inductive ExchangeKind where
  /-- By the routing key, read as a pattern. -/
  | topic
  /-- By the routing key itself. -/
  | direct
  /-- All of them. -/
  | fanout
  deriving DecidableEq, Repr, Inhabited

structure Exchange where
  name : String
  kind : ExchangeKind
  durable : Bool
  autoDelete : Bool
  deriving DecidableEq, Repr, Inhabited

/-- The declaration of a queue. The arguments stand in the order of their names,
so that equal declarations are equal. -/
structure QueueSpec where
  name : String
  durable : Bool
  exclusive : Bool
  autoDelete : Bool
  arguments : Entries String
  deriving DecidableEq, Repr, Inhabited

structure Binding where
  queue : String
  exchange : String
  routingKey : String
  deriving DecidableEq, Repr, Inhabited

/-- A durable topic exchange. -/
def Exchange.topic (name : String) : Exchange :=
  ⟨name, .topic, true, false⟩

/-- A durable queue without arguments. -/
def QueueSpec.standard (name : String) : QueueSpec :=
  ⟨name, true, false, false, []⟩

/-- Add an argument. -/
def QueueSpec.withArgument (q : QueueSpec) (name value : String) : QueueSpec :=
  { q with arguments := q.arguments.setSorted name value }

/-- A message as a broker hands it out. The tag is the number under which it is
settled; no other delivery of the broker has it. -/
structure Delivery where
  tag : Nat
  exchange : String
  routingKey : String
  queue : String
  body : ByteArray
  redelivered : Bool
  deriving Inhabited

/-- The body as text; bytes that encode no character are replaced. -/
def Delivery.bodyText (d : Delivery) : String :=
  Text.decodeLossy d.body

/-- A message as it was published. -/
structure Publication where
  exchange : String
  routingKey : String
  body : ByteArray
  deriving Inhabited

end MessageBridge.Rabbit
