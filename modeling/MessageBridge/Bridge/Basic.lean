import MessageBridge.Json.Basic

/-!
# Bridges

A bridge takes messages from one place to another: from a rabbit queue to an
Amazon topic or queue, which is the forward direction, or from an Amazon queue to
a rabbit exchange, which is the reverse direction. The type allows any pair of
ends; which pairs make a bridge that can run is decided when definitions are
checked.
-/

namespace MessageBridge

/-- A rabbit queue to read from, with the binding that fills it. -/
structure RabbitSource where
  exchange : String
  queueName : String
  routingKey : String
  deriving DecidableEq, Repr, Inhabited

/-- A rabbit exchange to publish to, with the routing key. -/
structure RabbitDestination where
  exchange : String
  routingKey : String
  deriving DecidableEq, Repr, Inhabited

/-- Where the messages of a bridge come from. -/
inductive Source where
  | rabbit (source : RabbitSource)
  | sqs (name : String)
  deriving DecidableEq, Repr, Inhabited

/-- Where the messages of a bridge go to. -/
inductive Destination where
  | sns (name : String)
  | sqs (name : String)
  | rabbit (destination : RabbitDestination)
  deriving DecidableEq, Repr, Inhabited

def Source.text : Source → String
  | .rabbit s => "rabbit:" ++ s.exchange ++ "/" ++ s.queueName
  | .sqs name => "sqs:" ++ name

def Destination.text : Destination → String
  | .sns name => "sns:" ++ name
  | .sqs name => "sqs:" ++ name
  | .rabbit d => "rabbit:" ++ d.exchange ++ "/" ++ d.routingKey

/-- The topic, queue or exchange that a destination names. -/
def Destination.name : Destination → String
  | .sns name => name
  | .sqs name => name
  | .rabbit d => d.exchange

structure Bridge where
  source : Source
  destination : Destination
  /-- The transformation of every payload; none leaves payloads as they are. -/
  spec : Option Json := none
  /-- The paths of the fields that may leave; none lets every field through. -/
  whitelist : Option OrderedTexts := none
  forwarding : Bool := true
  description : Option String := none
  deriving Inhabited

namespace Bridge

/-- A specification that asks for nothing is none. -/
def normalizeSpec : Option Json → Option Json
  | none => none
  | some .null => none
  | some (.array []) => none
  | some (.object []) => none
  | some spec => some spec

def isFromRabbit (b : Bridge) : Bool :=
  match b.source with
  | .rabbit _ => true
  | .sqs _ => false

def isFromSqs (b : Bridge) : Bool :=
  !b.isFromRabbit

def label (b : Bridge) : String :=
  b.source.text ++ " -> " ++ b.destination.text

/-- The rabbit-sourced bridges that are switched on, which is what the forward
direction runs. -/
def forwardable (bridges : List Bridge) : List Bridge :=
  bridges.filter fun b => b.isFromRabbit && b.forwarding

/-- The bridges of the forward direction. -/
def forward (bridges : List Bridge) : List Bridge :=
  bridges.filter isFromRabbit

/-- The bridges of the reverse direction. -/
def reverse (bridges : List Bridge) : List Bridge :=
  bridges.filter isFromSqs

end Bridge

end MessageBridge
