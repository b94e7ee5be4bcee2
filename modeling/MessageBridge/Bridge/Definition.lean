import MessageBridge.Bridge.Basic
import MessageBridge.Json.Node
import MessageBridge.Json.Printer

/-!
# Bridge definitions

A bridge file holds a list of definitions. A definition is the entry as its
author wrote it: every part may be missing, and both ends of the bridge are
blocks that should name one place but may name several. Whether a definition
makes a bridge is a question of its own.

`Definition.ofNode?` reads an entry and `Definition.toJson` writes it again,
with the parts that are there in a fixed order.
-/

namespace MessageBridge

/-- The block that names the source of a bridge. -/
structure SourceBlock where
  rabbit : Option RabbitSource := none
  sqs : Option String := none
  deriving DecidableEq, Repr, Inhabited

/-- The block that names the destination of a bridge. -/
structure DestinationBlock where
  sns : Option String := none
  sqs : Option String := none
  rabbit : Option RabbitDestination := none
  deriving DecidableEq, Repr, Inhabited

/-- One entry of a bridge file. -/
structure Definition where
  source : Option SourceBlock := none
  spec : Option Json := none
  destination : Option DestinationBlock := none
  whitelist : Option (List String) := none
  forwarding : Option Bool := none
  description : Option String := none
  deriving Inhabited

open Json (Node required optional)

/-- A block with a name and nothing else. -/
def nameOfNode? (node : Node) : Option String := do
  match ← node.fields? ["name"] with
  | [name] => required Node.text? name
  | _ => none

def RabbitSource.ofNode? (node : Node) : Option RabbitSource := do
  match ← node.fields? ["exchange", "queueName", "routingKey"] with
  | [exchange, queueName, routingKey] =>
    return ⟨← required Node.text? exchange, ← required Node.text? queueName,
      ← required Node.text? routingKey⟩
  | _ => none

def RabbitDestination.ofNode? (node : Node) : Option RabbitDestination := do
  match ← node.fields? ["exchange", "routingKey"] with
  | [exchange, routingKey] =>
    return ⟨← required Node.text? exchange, ← required Node.text? routingKey⟩
  | _ => none

def SourceBlock.ofNode? (node : Node) : Option SourceBlock := do
  match ← node.fields? ["rabbit", "sqs"] with
  | [rabbit, sqs] =>
    return ⟨← optional Node.isNull RabbitSource.ofNode? rabbit,
      ← optional Node.isNull nameOfNode? sqs⟩
  | _ => none

def DestinationBlock.ofNode? (node : Node) : Option DestinationBlock := do
  match ← node.fields? ["sns", "sqs", "rabbit"] with
  | [sns, sqs, rabbit] =>
    return ⟨← optional Node.isNull nameOfNode? sns, ← optional Node.isNull nameOfNode? sqs,
      ← optional Node.isNull RabbitDestination.ofNode? rabbit⟩
  | _ => none

/-- A list of texts. -/
def textsOfNode? (node : Node) : Option (List String) := do
  (← node.items?).mapM Node.text?

namespace Definition

/-- The names of the fields of a definition, in the order of declaration. -/
def fieldNames : List String :=
  ["from", "transformationSpecs", "to", "whitelistedFields", "shouldForwardMessages",
    "description"]

/-- The definition that a node holds. -/
def ofNode? (node : Node) : Option Definition := do
  match ← node.fields? fieldNames with
  | [source, spec, destination, whitelist, forwarding, description] =>
    return {
      source := ← optional Node.isNull SourceBlock.ofNode? source
      spec := ← optional Node.isNull Node.json? spec
      destination := ← optional Node.isNull DestinationBlock.ofNode? destination
      whitelist := ← optional Node.isNull textsOfNode? whitelist
      forwarding := ← optional Node.isNull Node.bool? forwarding
      description := ← optional Node.isNull Node.text? description }
  | _ => none

/-- The definitions of a bridge file. -/
def listOfBytes? (resource : ByteArray) : Option (List Definition) := do
  (← (← Node.ofBytes? resource).items?).mapM ofNode?

/-- An entry of an object that is left out when there is no value. -/
def entry {α : Type} (key : String) (toJson : α → Json) : Option α → Entries Json
  | none => []
  | some value => [(key, toJson value)]

def nameToJson (name : String) : Json :=
  .object [("name", .string name)]

end Definition

open Definition (entry nameToJson)

def RabbitSource.toJson (s : RabbitSource) : Json :=
  .object [("exchange", .string s.exchange), ("queueName", .string s.queueName),
    ("routingKey", .string s.routingKey)]

def RabbitDestination.toJson (d : RabbitDestination) : Json :=
  .object [("exchange", .string d.exchange), ("routingKey", .string d.routingKey)]

def SourceBlock.toJson (b : SourceBlock) : Json :=
  .object (entry "rabbit" RabbitSource.toJson b.rabbit ++ entry "sqs" nameToJson b.sqs)

def DestinationBlock.toJson (b : DestinationBlock) : Json :=
  .object (entry "sns" nameToJson b.sns ++ entry "sqs" nameToJson b.sqs
    ++ entry "rabbit" RabbitDestination.toJson b.rabbit)

/-- A definition as an entry of a bridge file. -/
def Definition.toJson (d : Definition) : Json :=
  .object
    (entry "from" SourceBlock.toJson d.source ++ entry "transformationSpecs" id d.spec
      ++ entry "to" DestinationBlock.toJson d.destination
      ++ entry "whitelistedFields" (fun fields => .array (fields.map .string)) d.whitelist
      ++ entry "shouldForwardMessages" .bool d.forwarding
      ++ entry "description" .string d.description)

end MessageBridge
