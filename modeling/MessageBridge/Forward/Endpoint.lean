import MessageBridge.Brokers
import MessageBridge.Transform.Chain

/-!
# Where a forward bridge ends

An endpoint is a forward bridge made ready: its queue is declared on rabbit, its
transformation is compiled and its target on the Amazon side is known. What it
does with a delivery is one attempt to forward it: transform the body and send
the result. A failed attempt is either worth another one, or it is turned into a
rejection, which tells that the delivery is to be dead-lettered.
-/

namespace MessageBridge

/-- Where forwarded messages go. -/
inductive Target where
  | topic (name : String)
  | queue (name : String)
  deriving DecidableEq, Repr, Inhabited

namespace Target

def name : Target → String
  | topic name => name
  | queue name => name

def text : Target → String
  | topic name => "sns:" ++ name
  | queue name => "sqs:" ++ name

/-- Only topics and queues of the Amazon side can be forwarded to. -/
def ofDestination : Destination → Except Failure Target
  | .sns name => .ok (topic name)
  | .sqs name => .ok (queue name)
  | .rabbit d =>
    .error (.configuration ("cannot forward to rabbit exchange '" ++ d.exchange ++ "'"))

/-- Send a message to a target. -/
def send (t : Target) (body : String) (b : Brokers) : Except Failure Unit × Brokers :=
  match t with
  | topic name => b.onAmazon (·.sendToTopic b.now name body)
  | queue name => b.onAmazon (·.sendToQueue name body)

end Target

/-- What to do after a failed attempt. -/
inductive Decision where
  | retry
  | deadLetter
  deriving DecidableEq, Repr, Inhabited

/-- A failure is worth another attempt when it may pass, as long as there are
other attempts at all. -/
def Failure.decision (failure : Failure) (retryEnabled : Bool) : Decision :=
  if retryEnabled && failure.isRetryable then .retry else .deadLetter

/-- A failure with the decision about it: to dead-letter is to reject. -/
def Failure.decided (failure : Failure) (retryEnabled : Bool) : Failure :=
  match failure.decision retryEnabled with
  | .retry => failure
  | .deadLetter => failure.reject

structure Endpoint where
  /-- The name under which the endpoint counts. -/
  id : String
  queue : String
  exchange : String
  target : Target
  chain : Chain
  retryEnabled : Bool
  topology : Rabbit.Topology
  deriving Inhabited

namespace Endpoint

/-- The name of the endpoint at a position. -/
def listenerId (index : Nat) : String :=
  "rabbit-amazon-bridge-listener#" ++ toString index

/-- Transform a delivery and send it. -/
def forward (e : Endpoint) (d : Rabbit.Delivery) (b : Brokers) : Except Failure Unit × Brokers :=
  match e.chain.transform d.bodyText with
  | .error failure => (.error failure, b)
  | .ok text =>
    match e.target.send text b with
    | (.error failure, b) => (.error failure, b)
    | (.ok (), b) => (.ok (), b.record (.forwarded e.id e.target.name))

/-- One attempt at a delivery. -/
def attempt (e : Endpoint) (d : Rabbit.Delivery) (b : Brokers) : Except Failure Unit × Brokers :=
  match e.forward d b with
  | (.ok (), b) => (.ok (), b)
  | (.error failure, b) => (.error (failure.decided e.retryEnabled), b)

/-- Make a bridge ready. What the broker has declared by the time something goes
wrong stays declared. -/
def ofBridge (index : Nat) (retryEnabled : Bool) (bridge : Bridge) (b : Brokers) :
    Except Failure Endpoint × Brokers :=
  match bridge.source with
  | .sqs _ =>
    (.error (.configuration ("bridge " ++ bridge.label ++ " does not read from rabbit")), b)
  | .rabbit source =>
    match Target.ofDestination bridge.destination with
    | .error failure => (.error failure, b)
    | .ok target =>
      match b.onRabbit (·.provision source) with
      | (.error failure, b) => (.error failure, b)
      | (.ok topology, b) =>
        match Chain.ofBridge bridge with
        | .error defect => (.error defect.failure, b)
        | .ok chain =>
          (.ok ⟨listenerId index, source.queueName, source.exchange, target, chain,
            retryEnabled, topology⟩, b)

/-- Make bridges ready, one after the other, with positions from the given one
on. The first failure ends it. -/
def ofBridges (index : Nat) (retryEnabled : Bool) :
    List Bridge → Brokers → Except Failure (List Endpoint) × Brokers
  | [], b => (.ok [], b)
  | bridge :: rest, b =>
    match ofBridge index retryEnabled bridge b with
    | (.error failure, b) => (.error failure, b)
    | (.ok endpoint, b) =>
      match ofBridges (index + 1) retryEnabled rest b with
      | (.error failure, b) => (.error failure, b)
      | (.ok endpoints, b) => (.ok (endpoint :: endpoints), b)

/-- Make all bridges ready that are to forward. Positions count only these. -/
def generateAll (retryEnabled : Bool) (bridges : List Bridge) (b : Brokers) :
    Except Failure (List Endpoint) × Brokers :=
  ofBridges 0 retryEnabled (Bridge.forwardable bridges) b

end Endpoint

end MessageBridge
