import MessageBridge.Entries
import MessageBridge.Failure

/-!
# Amazon queues and messages

The messages that an Amazon queue hands out, the addresses of queues and topics,
and the identifiers that are drawn for messages and receipts.
-/

namespace MessageBridge

/-- A moment, in milliseconds since the clock was started. -/
abbrev Instant := Nat

namespace Amazon

/-- A message as a queue hands it out. -/
structure Message where
  id : String
  /-- The handle under which this receipt of the message is settled. -/
  receipt : String
  body : String
  /-- How often the message has been received, this time included. -/
  receiveCount : Nat
  deriving DecidableEq, Repr, Inhabited

/-- An identifier for the number of a draw. -/
def identifier (n : Nat) : String :=
  let digits := Nat.toDigits 10 n
  "00000000-0000-4000-8000-"
    ++ String.ofList (List.replicate (12 - digits.length) '0' ++ digits)

/-- What all queue addresses begin with. -/
def urlStart : String := "https://sqs.local/000000000000/"

/-- The address of a queue. -/
def queueUrl (name : String) : String :=
  urlStart ++ name

/-- The rest of a text behind a given beginning. -/
def stripStart? : List Char → List Char → Option (List Char)
  | [], cs => some cs
  | _ :: _, [] => none
  | s :: start, c :: cs => if s = c then stripStart? start cs else none

/-- The name of the queue at an address. -/
def queueOfUrl? (url : String) : Option String :=
  (stripStart? urlStart.toList url.toList).map String.ofList

/-- The name of a topic as it stands in notifications. -/
def topicArn (name : String) : String :=
  "arn:aws:sns:local:000000000000:" ++ name

/-- Why an operation is refused. -/
inductive Refusal where
  | noQueue (name : String)
  | noTopic (name : String)
  | badUrl (url : String)
  | badReceipt (receipt : String)
  deriving DecidableEq, Repr

def Refusal.message : Refusal → String
  | .noQueue name => "The specified queue '" ++ name ++ "' does not exist"
  | .noTopic name => "Topic '" ++ name ++ "' does not exist"
  | .badUrl url => "malformed queue url '" ++ url ++ "'"
  | .badReceipt receipt => "The receipt handle '" ++ receipt ++ "' is not valid"

def Refusal.failure (r : Refusal) : Failure :=
  .amazon r.message none

end Amazon

end MessageBridge
