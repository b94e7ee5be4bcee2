import MessageBridge.Bridge.Basic
import MessageBridge.Json.Printer
import MessageBridge.Json.Reader
import MessageBridge.Spec.Apply
import MessageBridge.Spec.Compile
import MessageBridge.Transform.Whitelist

/-!
# What happens to a forwarded payload

Every forward bridge has a chain of transformers. The first one carries out the
specification of the bridge, or leaves the payload as it is, character by
character, when there is none. The second one scrubs the payload down to the
whitelist, when there is one. Each takes the text that the one before it made.
-/

namespace MessageBridge

/-- One step of the transformation of a payload. -/
inductive Transformer where
  | identity
  | declarative (spec : Spec)
  | scrubber (fields : OrderedTexts)
  deriving Inhabited

namespace Transformer

def name : Transformer → String
  | .identity => "identity"
  | .declarative _ => "declarative"
  | .scrubber _ => "scrubber"

/-- The document that a payload holds. -/
def payload (text : String) : Except Failure Json :=
  match Json.read? text with
  | some doc => .ok doc
  | none => .error (.transform "payload is not valid JSON" (some "the text is not JSON"))

/-- The text for a transformation that yields nothing. -/
def emptyObject : String := "\x7b\x7d"

/-- The text of what a specification yields. -/
def written : Option Json → String
  | none => emptyObject
  | some .null => emptyObject
  | some doc => doc.write

/-- Scrub a text. Unlike inside a document, null counts as a primitive here. -/
def scrubText (fields : OrderedTexts) (text : String) : Except Failure String := do
  match ← payload text with
  | .null => .error Whitelist.Defect.primitive.failure
  | doc =>
    match Whitelist.scrub fields doc with
    | .ok doc => return doc.write
    | .error defect => .error defect.failure

def transform : Transformer → String → Except Failure String
  | .identity, text => .ok text
  | .declarative spec, text => (payload text).map fun doc => written (spec.apply doc)
  | .scrubber fields, text => scrubText fields text

end Transformer

/-- Transformers in the order in which they are applied. -/
abbrev Chain := List Transformer

namespace Chain

/-- The transformers that a bridge asks for. -/
def ofBridge (b : Bridge) : Except Spec.Defect Chain := do
  let first ←
    match b.spec with
    | none => Except.ok Transformer.identity
    | some spec => (Spec.compile spec).map .declarative
  return first :: b.whitelist.toList.map .scrubber

def stageNames (chain : Chain) : List String :=
  chain.map Transformer.name

/-- Apply the transformers in order; the first failure ends the chain. -/
def transform : Chain → String → Except Failure String
  | [], text => .ok text
  | t :: rest, text => (t.transform text).bind (transform rest)

end Chain

end MessageBridge
