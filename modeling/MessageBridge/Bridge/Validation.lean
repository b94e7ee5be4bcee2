import MessageBridge.Bridge.Definition
import MessageBridge.Spec.Compile

/-!
# From definitions to bridges

The definitions of all bridge files are checked together, and either all of them
become bridges or none does. The rules are checked one after the other over all
definitions, so of two broken rules the earlier one is reported, even where it is
broken by a later definition.

Only forward bridges transform payloads, so only their specifications have to
compile.
-/

namespace MessageBridge

namespace Definition

/-- A rule that a set of definitions breaks. -/
inductive Defect where
  | noDefinitions
  | noSource
  | twoSources
  | noDestination
  | fanOut
  | noAmazonDestination
  | rabbitToRabbit
  | sqsToAmazon
  | noRabbitDestination
  | invalidSpec
  deriving DecidableEq, Repr

def Defect.message : Defect → String
  | .noDefinitions => "Bridge config should be defined"
  | .noSource => "A 'from' definition is required"
  | .twoSources => "Only one 'from' definition is allowed per bridge"
  | .noDestination => "'To' definition is required"
  | .fanOut => "We do not currently support fanout to multiple AWS destinations in one bridge"
  | .noAmazonDestination =>
    "An SNS or SQS definition is required if messages are coming from rabbit"
  | .rabbitToRabbit => "Forwarding rabbit to rabbit is not supported"
  | .sqsToAmazon => "Forwarding SQS to SQS/SNS is not supported"
  | .noRabbitDestination => "An rabbit definition is required for messages coming from SQS"
  | .invalidSpec => "Invalid transformationSpec"

def Defect.failure (d : Defect) : Failure :=
  .configuration d.message

end Definition

open Definition (Defect)

/-- The one source that a block names. -/
def SourceBlock.toSource : Option SourceBlock → Except Defect Source
  | none => .error .noSource
  | some ⟨some rabbit, none⟩ => .ok (.rabbit rabbit)
  | some ⟨none, some sqs⟩ => .ok (.sqs sqs)
  | some ⟨none, none⟩ => .error .noSource
  | some ⟨some _, some _⟩ => .error .twoSources

/-- The destination that a block names for messages from rabbit. -/
def DestinationBlock.forRabbit : DestinationBlock → Except Defect Destination
  | ⟨some _, some _, _⟩ => .error .fanOut
  | ⟨_, _, some _⟩ => .error .rabbitToRabbit
  | ⟨some sns, none, none⟩ => .ok (.sns sns)
  | ⟨none, some sqs, none⟩ => .ok (.sqs sqs)
  | ⟨none, none, none⟩ => .error .noAmazonDestination

/-- The destination that a block names for messages from an Amazon queue. -/
def DestinationBlock.forSqs : DestinationBlock → Except Defect Destination
  | ⟨none, none, some rabbit⟩ => .ok (.rabbit rabbit)
  | ⟨none, none, none⟩ => .error .noRabbitDestination
  | ⟨_, _, _⟩ => .error .sqsToAmazon

/-- The destination that a block names for messages from the given source. -/
def DestinationBlock.forSource (block : DestinationBlock) : Source → Except Defect Destination
  | .rabbit _ => block.forRabbit
  | .sqs _ => block.forSqs

namespace Definition

/-- A definition whose source is settled and whose destination is at least
there. -/
structure Route where
  definition : Definition
  source : Source
  block : DestinationBlock

/-- The route of a definition. -/
def route (d : Definition) : Except Defect Route := do
  let source ← SourceBlock.toSource d.source
  match d.destination with
  | none => .error .noDestination
  | some block => return ⟨d, source, block⟩

/-- Check that a route from rabbit has a destination; others pass. -/
def Route.checkForward (r : Route) : Except Defect Unit :=
  match r.source with
  | .rabbit _ => r.block.forRabbit.map fun _ => ()
  | .sqs _ => .ok ()

/-- Check that a route from an Amazon queue has a destination; others pass. -/
def Route.checkReverse (r : Route) : Except Defect Unit :=
  match r.source with
  | .rabbit _ => .ok ()
  | .sqs _ => r.block.forSqs.map fun _ => ()

/-- Check that the specification of a route from rabbit compiles; others pass. -/
def Route.checkSpec (r : Route) : Except Defect Unit :=
  match r.source, Bridge.normalizeSpec r.definition.spec with
  | .rabbit _, some spec =>
    match Spec.compile spec with
    | .ok _ => .ok ()
    | .error _ => .error .invalidSpec
  | _, _ => .ok ()

/-- The bridge of a route. -/
def Route.bridge (r : Route) : Except Defect Bridge := do
  let destination ← r.block.forSource r.source
  return {
    source := r.source
    destination
    spec := Bridge.normalizeSpec r.definition.spec
    whitelist := r.definition.whitelist.map OrderedTexts.ofList
    forwarding := r.definition.forwarding.getD true
    description := r.definition.description }

/-- The bridges of a list of definitions. -/
def validate (definitions : List Definition) : Except Defect (List Bridge) := do
  if definitions.isEmpty then .error .noDefinitions
  let routes ← definitions.mapM route
  let _ ← routes.mapM Route.checkForward
  let _ ← routes.mapM Route.checkReverse
  let _ ← routes.mapM Route.checkSpec
  routes.mapM Route.bridge

end Definition

namespace Bridge

/-- The definitions of the bridge files, in order. The first file that does not
hold a list of definitions is reported by its position, counted from the one
given. -/
def definitionsOf? (position : Nat) : List ByteArray → Except Failure (List Definition)
  | [] => .ok []
  | resource :: rest =>
    match Definition.listOfBytes? resource with
    | none =>
      .error (.malformed ("bridge resource #" ++ toString position ++ " is malformed")
        (some "the text is not a list of bridge definitions"))
    | some definitions => (definitionsOf? (position + 1) rest).map (definitions ++ ·)

/-- The bridges that bridge files define. -/
def ofResources? (resources : List ByteArray) : Except Failure (List Bridge) := do
  let definitions ← definitionsOf? 0 resources
  match Definition.validate definitions with
  | .ok bridges => return bridges
  | .error defect => .error defect.failure

end Bridge

end MessageBridge
