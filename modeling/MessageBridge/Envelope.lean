import MessageBridge.Failure
import MessageBridge.Json.Printer
import MessageBridge.Json.Reader

/-!
# Payloads of the reverse direction

A message from an Amazon queue may be a notification, an object that carries the
payload in its field `Message`: as text that is JSON itself, or as a document.
Anything else is the payload. One envelope is taken off, not more.

When idempotency keys are switched on, the payload is stamped with the exchange
it is published to and the id of the message it came in. The id stays the same
however often the message is received, so whoever gets the payload twice can
tell.
-/

namespace MessageBridge.Envelope

/-- The field of a notification that holds the payload. -/
def messageField : String := "Message"

/-- The field that holds the idempotency key. -/
def idempotencyField : String := "idempotencyKey"

/-- Why a body cannot be converted. -/
inductive Defect where
  | bodyNotJson
  | messageNotJson
  | notObject (kind : String)
  deriving DecidableEq, Repr

def Defect.failure : Defect → Failure
  | .bodyNotJson => .transform "SQS body is not valid JSON" (some "the text is not JSON")
  | .messageNotJson =>
    .transform "notification Message is not valid JSON" (some "the text is not JSON")
  | .notObject kind =>
    .transform ("cannot add " ++ idempotencyField ++ " to a non-object payload (" ++ kind ++ ")")
      none

/-- The payload that a document carries. -/
def payload : Json → Except Defect Json
  | .object entries =>
    match Entries.get? messageField entries with
    | none => .ok (.object entries)
    | some (.string text) =>
      match Json.read? text with
      | some doc => .ok doc
      | none => .error .messageNotJson
    | some doc => .ok doc
  | doc => .ok doc

/-- How a payload that is no object is called. -/
def shape : Json → String
  | .array _ => "array"
  | .null => "null"
  | _ => "scalar"

/-- The idempotency key of a message that is published to an exchange. -/
def idempotencyKey (exchange messageId : String) : String :=
  exchange ++ "/" ++ messageId

/-- Stamp a payload with a key. -/
def stamp (key : String) : Json → Except Defect Json
  | .object entries => .ok (.object (Entries.set idempotencyField (.string key) entries))
  | other => .error (.notObject (shape other))

/-- The text that is published for a body. -/
def convert (body messageId exchange : String) (stamped : Bool) : Except Defect String :=
  match Json.read? body with
  | none => .error .bodyNotJson
  | some doc =>
    match payload doc with
    | .error defect => .error defect
    | .ok doc =>
      if stamped then (stamp (idempotencyKey exchange messageId) doc).map Json.write
      else .ok doc.write

end MessageBridge.Envelope
