import MessageBridge.Amazon.Basic
import MessageBridge.Calendar
import MessageBridge.Json.Printer
import MessageBridge.Log

/-!
# Amazon queues and topics in memory

A queue keeps its messages in the order of arrival until they are deleted. A
message that is received becomes invisible for the visibility timeout and gets a
new receipt handle; only the latest handle settles it. When the timeout is over,
or when the visibility is reset, the message can be received again.

A topic keeps a log of what was published to it and hands a copy, wrapped in a
notification, to every queue that is subscribed to it, in the order of the
subscriptions. A subscribed queue that has been deleted ends the publication at
this point; the queues before it have their copies.

Operations that ask for the time are given it.
-/

namespace MessageBridge.Amazon

/-- A message in a queue. -/
structure Stored where
  id : String
  body : String
  /-- The handle of the latest receipt. -/
  receipt : Option String := none
  /-- The moment from which on the message is visible again. -/
  invisibleUntil : Option Instant := none
  receiveCount : Nat := 0
  deriving DecidableEq, Repr, Inhabited

def Stored.isVisible (m : Stored) (now : Instant) : Bool :=
  match m.invisibleUntil with
  | none => true
  | some moment => moment ≤ now

structure Service where
  queues : Entries (List Stored) := []
  /-- The latest messages published to each topic. -/
  topics : Entries (List String) := []
  /-- The queues subscribed to each topic. -/
  subscriptions : Entries (List String) := []
  /-- The failures that the next sends are to end in. -/
  failures : List Failure := []
  /-- How long a received message is invisible. -/
  visibilityMillis : Nat := 30000
  logCapacity : Nat := 1024
  /-- How many identifiers have been drawn. -/
  drawn : Nat := 0
  /-- How often it has been announced that something may be there to receive. -/
  arrivals : Nat := 0
  /-- The date at which the clock was started, in milliseconds since 1970. -/
  clockStart : Nat := 1704164645678
  deriving Inhabited

namespace Service

def queue? (s : Service) (name : String) : Option (List Stored) :=
  Entries.get? name s.queues

/-- Create a queue, unless there is one. -/
def createQueue (s : Service) (name : String) : Service :=
  if Entries.has name s.queues then s else { s with queues := s.queues ++ [(name, [])] }

/-- Drop a queue with its messages. -/
def deleteQueue (s : Service) (name : String) : Service :=
  { s with queues := Entries.erase name s.queues }

/-- Create a topic, unless there is one. -/
def createTopic (s : Service) (name : String) : Service :=
  if Entries.has name s.topics then s else { s with topics := s.topics ++ [(name, [])] }

/-- Subscribe a queue to a topic. Both are created when they are missing; a
queue that is subscribed twice gets two copies. -/
def subscribe (s : Service) (topic queue : String) : Service :=
  let s := (s.createTopic topic).createQueue queue
  let subscribed := (Entries.get? topic s.subscriptions).getD []
  { s with subscriptions := Entries.set topic (subscribed ++ [queue]) s.subscriptions }

/-- Draw an identifier. -/
def draw (s : Service) : String × Service :=
  (identifier (s.drawn + 1), { s with drawn := s.drawn + 1 })

/-- Store a message in a queue under a new id, which is the result. -/
def store (s : Service) (queue body : String) : Except Failure String × Service :=
  match s.queue? queue with
  | none => (.error (Refusal.noQueue queue).failure, s)
  | some messages =>
    let (id, s) := s.draw
    (.ok id, { s with queues := Entries.set queue (messages ++ [{ id, body }]) s.queues })

/-- Tell everybody who waits for a message to look again. -/
def announce (s : Service) : Service :=
  { s with arrivals := s.arrivals + 1 }

/-- Put a message straight into a queue; the result is its id. -/
def putMessage (s : Service) (queue body : String) : Except Failure String × Service :=
  match s.store queue body with
  | (.ok id, s) => (.ok id, s.announce)
  | (.error failure, s) => (.error failure, s)

/-- Send a message to a queue. -/
def sendToQueue (s : Service) (queue body : String) : Except Failure Unit × Service :=
  match s.failures with
  | failure :: failures => (.error failure, { s with failures })
  | [] =>
    match s.putMessage queue body with
    | (.ok _, s) => (.ok (), s)
    | (.error failure, s) => (.error failure, s)

/-- The notification that carries a message of a topic. -/
def notification (id topic body : String) (millis : Nat) : Json :=
  .object [("Type", .string "Notification"), ("MessageId", .string id),
    ("TopicArn", .string (topicArn topic)), ("Message", .string body),
    ("Timestamp", .string (Calendar.timestamp millis))]

/-- Store a notification in each of the queues, until one is missing. Only when
none is missing is the arrival announced. -/
def notifyAll (s : Service) (now : Instant) (topic body : String) :
    List String → Except Failure Unit × Service
  | [] => (.ok (), s.announce)
  | queue :: rest =>
    let (id, s) := s.draw
    match s.store queue (notification id topic body (s.clockStart + now)).write with
    | (.error failure, s) => (.error failure, s)
    | (.ok _, s) => s.notifyAll now topic body rest

/-- Publish a message to a topic. -/
def sendToTopic (s : Service) (now : Instant) (topic body : String) :
    Except Failure Unit × Service :=
  match s.failures with
  | failure :: failures => (.error failure, { s with failures })
  | [] =>
    match Entries.get? topic s.topics with
    | none => (.error (Refusal.noTopic topic).failure, s)
    | some log =>
      let s := { s with topics := Entries.set topic (Log.push s.logCapacity log body) s.topics }
      s.notifyAll now topic body ((Entries.get? topic s.subscriptions).getD [])

/-- The address of a queue that exists. -/
def resolve (s : Service) (queue : String) : Except Failure String :=
  if Entries.has queue s.queues then .ok (queueUrl queue)
  else .error (Refusal.noQueue queue).failure

/-- Receive the first visible messages of a queue, at most `max` of them. The
result holds what is handed out, the messages as they are stored afterwards, and
how many identifiers have been drawn by then. -/
def receiveFrom (now visibleAgain drawn : Nat) :
    Nat → List Stored → List Message × List Stored × Nat
  | 0, messages => ([], messages, drawn)
  | _ + 1, [] => ([], [], drawn)
  | max + 1, m :: rest =>
    if m.isVisible now then
      let receipt := identifier (drawn + 1)
      let received := { m with
        receipt := some receipt
        invisibleUntil := some visibleAgain
        receiveCount := m.receiveCount + 1 }
      let (out, rest, drawn) := receiveFrom now visibleAgain (drawn + 1) max rest
      (⟨m.id, receipt, m.body, m.receiveCount + 1⟩ :: out, received :: rest, drawn)
    else
      let (out, rest, drawn) := receiveFrom now visibleAgain drawn (max + 1) rest
      (out, m :: rest, drawn)

/-- Receive what is visible in a queue right now, at most `max` messages. -/
def takeVisible (s : Service) (now : Instant) (queue : String) (max : Nat) :
    Except Failure (List Message) × Service :=
  match s.queue? queue with
  | none => (.error (Refusal.noQueue queue).failure, s)
  | some messages =>
    let (out, messages, drawn) :=
      receiveFrom now (now + s.visibilityMillis) s.drawn max messages
    (.ok out, { s with queues := Entries.set queue messages s.queues, drawn })

/-- Receive what is visible in the queue at an address. -/
def look (s : Service) (now : Instant) (url : String) (max : Nat) :
    Except Failure (List Message) × Service :=
  match queueOfUrl? url with
  | none => (.error (Refusal.badUrl url).failure, s)
  | some queue => s.takeVisible now queue max

/-- Delete the message with a receipt handle from the queue at an address. -/
def deleteMessage (s : Service) (url receipt : String) : Except Failure Unit × Service :=
  match queueOfUrl? url with
  | none => (.error (Refusal.badUrl url).failure, s)
  | some queue =>
    match s.queue? queue with
    | none => (.error (Refusal.noQueue queue).failure, s)
    | some messages =>
      if messages.any (·.receipt = some receipt) then
        (.ok (), { s with
          queues := Entries.set queue (messages.filter (·.receipt ≠ some receipt)) s.queues })
      else (.error (Refusal.badReceipt receipt).failure, s)

/-- Change the first message with a receipt handle. -/
def modifyReceived (receipt : String) (f : Stored → Stored) : List Stored → List Stored
  | [] => []
  | m :: rest =>
    if m.receipt = some receipt then f m :: rest else m :: modifyReceived receipt f rest

/-- Make the message with a receipt handle invisible from now on for some
seconds; for none it is visible at once. -/
def changeVisibility (s : Service) (now : Instant) (url receipt : String) (seconds : Nat) :
    Except Failure Unit × Service :=
  match queueOfUrl? url with
  | none => (.error (Refusal.badUrl url).failure, s)
  | some queue =>
    match s.queue? queue with
    | none => (.error (Refusal.badReceipt receipt).failure, s)
    | some messages =>
      if messages.any (·.receipt = some receipt) then
        let invisibleUntil := if seconds = 0 then none else some (now + seconds * 1000)
        (.ok (), announce { s with
          queues := Entries.set queue
            (modifyReceived receipt (fun m => { m with invisibleUntil }) messages) s.queues })
      else (.error (Refusal.badReceipt receipt).failure, s)

/-- The bodies in a queue, in the order of arrival. -/
def bodies (s : Service) (queue : String) : List String :=
  ((s.queue? queue).getD []).map (·.body)

/-- How many messages of a queue are invisible. -/
def inFlight (s : Service) (now : Instant) (queue : String) : Nat :=
  (((s.queue? queue).getD []).filter fun m => !m.isVisible now).length

/-- The latest messages of a topic, the oldest first. -/
def topicMessages (s : Service) (topic : String) : List String :=
  (Entries.get? topic s.topics).getD []

end Service

end MessageBridge.Amazon
