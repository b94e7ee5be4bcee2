import MessageBridge.Bridge.Basic
import MessageBridge.Rabbit.Basic

/-!
# What a forward bridge needs on the broker

The queue of a forward bridge is filled from its exchange by the routing key of
the bridge. A delivery that is rejected goes to the dead-letter exchange under
the name of the queue, and from there to the dead-letter queue.
-/

namespace MessageBridge.Rabbit

/-- The name of the dead-letter exchange or queue that belongs to another one. -/
def deadLetterName (name : String) : String :=
  name ++ "-dead-letter"

/-- The queue argument that names the exchange for rejected deliveries. -/
def deadLetterExchangeArgument : String := "x-dead-letter-exchange"

/-- The queue argument that names the routing key of rejected deliveries. -/
def deadLetterRoutingKeyArgument : String := "x-dead-letter-routing-key"

structure Topology where
  exchange : Exchange
  deadLetterExchange : Exchange
  queue : QueueSpec
  deadLetterQueue : QueueSpec
  queueBinding : Binding
  deadLetterBinding : Binding
  deriving DecidableEq, Repr, Inhabited

/-- Everything that a forward bridge with this source declares. -/
def Topology.ofSource (s : RabbitSource) : Topology where
  exchange := .topic s.exchange
  deadLetterExchange := .topic (deadLetterName s.exchange)
  queue :=
    ((QueueSpec.standard s.queueName).withArgument deadLetterExchangeArgument
      (deadLetterName s.exchange)).withArgument deadLetterRoutingKeyArgument s.queueName
  deadLetterQueue := .standard (deadLetterName s.queueName)
  queueBinding := ⟨s.queueName, s.exchange, s.routingKey⟩
  deadLetterBinding := ⟨deadLetterName s.queueName, deadLetterName s.exchange, s.queueName⟩

end MessageBridge.Rabbit
