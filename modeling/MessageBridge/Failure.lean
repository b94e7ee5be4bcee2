/-!
# Failures

Everything that can go wrong on a bridge is a `Failure`. Its constructor tells
where it comes from, which decides what happens to the message at hand: failures
of the Amazon side and of messaging in general are worth another attempt, all
others are not. A `rejected` failure is the decision, already taken, that a
delivery goes to its dead-letter queue.
-/

namespace MessageBridge

inductive Failure where
  /-- A bridge file that cannot be read. -/
  | malformed (message : String) (source : Option String)
  /-- Bridge definitions that break a rule. -/
  | configuration (message : String)
  /-- A transformation that does not compile. -/
  | spec (message : String)
  /-- A payload that cannot be transformed or converted. -/
  | transform (message : String) (source : Option String)
  /-- The Amazon side failed. -/
  | amazon (message : String) (source : Option String)
  /-- Sending failed. -/
  | messaging (message : String) (source : Option String)
  /-- The rabbit side failed. -/
  | rabbit (message : String) (source : Option String)
  /-- The delivery must be dead-lettered, because of the failure inside. -/
  | rejected (cause : Failure)
  /-- A shutdown was asked for. -/
  | shutdown
  | internal (message : String)
  deriving DecidableEq, Repr, Inhabited

namespace Failure

/-- The text of a failure. -/
def message : Failure → String
  | .malformed m _ => "Malformed bridge config: " ++ m
  | .configuration m => "Configuration error: " ++ m
  | .spec m => "Spec error: " ++ m
  | .transform m _ => "Transform error: " ++ m
  | .amazon m _ => "Amazon error: " ++ m
  | .messaging m _ => "Messaging error: " ++ m
  | .rabbit m _ => "Rabbit error: " ++ m
  | .rejected cause => "Rejected without requeue: " ++ cause.message
  | .shutdown => "Shutdown requested"
  | .internal m => "Internal error: " ++ m

/-- The texts of what caused a failure, the nearest cause first. -/
def causes : Failure → List String
  | .malformed _ s | .transform _ s | .amazon _ s | .messaging _ s | .rabbit _ s => s.toList
  | .rejected cause => cause.message :: cause.causes
  | .configuration _ | .spec _ | .shutdown | .internal _ => []

/-- The label under which a failure is counted. A rejection counts as what
caused it. -/
def label : Failure → String
  | .malformed _ _ => "config_parse"
  | .configuration _ => "configuration"
  | .spec _ => "spec"
  | .transform _ _ => "transform"
  | .amazon _ _ => "amazon"
  | .messaging _ _ => "messaging"
  | .rabbit _ _ => "rabbit"
  | .rejected cause => cause.label
  | .shutdown => "shutdown"
  | .internal _ => "internal"

/-- Turn a failure into a rejection; a rejection stays as it is. -/
def reject : Failure → Failure
  | .rejected cause => .rejected cause
  | failure => .rejected failure

/-- Whether another attempt may help. -/
def isRetryable : Failure → Bool
  | .amazon _ _ | .messaging _ _ => true
  | _ => false

def isRejection : Failure → Bool
  | .rejected _ => true
  | _ => false

/-- Whether a failure belongs to the reading of bridge definitions. -/
def isStartup : Failure → Bool
  | .malformed _ _ | .configuration _ | .spec _ => true
  | _ => false

end Failure

/-- Where a failure happened, for those who read the log. -/
structure FailureContext where
  component : String
  operation : String
  bridge : Option String := none
  messageId : Option String := none

/-- The text of a context. -/
def FailureContext.text (c : FailureContext) : String :=
  "[" ++ c.component ++ "::" ++ c.operation ++ "]"
    ++ (match c.bridge with | some b => " bridge=" ++ b | none => "")
    ++ (match c.messageId with | some id => " message_id=" ++ id | none => "")

end MessageBridge
