import MessageBridge.Process.World

/-!
# The two directions as one process

An app runs a consumer for every forward bridge that is switched on and a poller
for every reverse bridge. Everything a bridge needs is looked up or declared when
the app is started, before any task has a turn, and whatever is missing makes the
start fail. Both directions run, or neither does: when the reverse direction
cannot be started, the forward direction is stopped again.
-/

namespace MessageBridge

/-- The tasks of one direction. -/
structure Direction where
  running : Bool := false
  tasks : List Nat := []
  deriving DecidableEq, Repr, Inhabited

structure App where
  bridges : List Bridge
  rabbit : RabbitSettings
  poller : PollerSettings
  forwarding : Direction := {}
  polling : Direction := {}
  /-- The endpoints that were started last. -/
  endpointIds : List String := []
  deriving Inhabited

namespace App

def ofSettings (s : Settings) (bridges : List Bridge) : App where
  bridges
  rabbit := s.rabbit
  poller := s.poller

def isRunning (a : App) : Bool :=
  a.forwarding.running && a.polling.running

/-- Start the forward direction, unless it runs. -/
def startForwarding (a : App) (w : World) : Except Failure App × World :=
  if a.forwarding.running then (.ok a, w)
  else
    match w.act (Endpoint.generateAll a.rabbit.retry.enabled a.bridges) with
    | (.error failure, w) => (.error failure, w)
    | (.ok endpoints, w) =>
      let (tasks, w) := w.spawnAll
        (endpoints.map fun e => .consumer (.ofEndpoint e a.rabbit))
      (.ok { a with
        forwarding := ⟨true, tasks⟩
        endpointIds := endpoints.map (·.id) }, w)

/-- Make the dispatcher of a reverse bridge ready. -/
def prepare (s : PollerSettings) (bridge : Bridge) (b : Brokers) :
    Except Failure Dispatcher × Brokers :=
  match bridge.source, bridge.destination with
  | .sqs queue, .rabbit destination => Dispatcher.prepare queue destination s true b
  | _, _ =>
    (.error (.configuration ("bridge " ++ bridge.label ++ " is not an SQS to rabbit bridge")), b)

/-- Make the dispatchers of reverse bridges ready, one after the other. The first
failure ends it. -/
def prepareAll (s : PollerSettings) :
    List Bridge → Brokers → Except Failure (List Dispatcher) × Brokers
  | [], b => (.ok [], b)
  | bridge :: rest, b =>
    match prepare s bridge b with
    | (.error failure, b) => (.error failure, b)
    | (.ok dispatcher, b) =>
      match prepareAll s rest b with
      | (.error failure, b) => (.error failure, b)
      | (.ok dispatchers, b) => (.ok (dispatcher :: dispatchers), b)

/-- Start the reverse direction, unless it runs. -/
def startPolling (a : App) (w : World) : Except Failure App × World :=
  if a.polling.running then (.ok a, w)
  else
    match w.act (prepareAll a.poller (Bridge.reverse a.bridges)) with
    | (.error failure, w) => (.error failure, w)
    | (.ok dispatchers, w) =>
      let (tasks, w) := w.spawnAll
        (dispatchers.map fun d => .poller ⟨d, a.poller.fixedDelay⟩)
      (.ok { a with polling := ⟨true, tasks⟩ }, w)

/-- Stop a direction, if it runs, and wait for its tasks. -/
def stopDirection (d : Direction) (w : World) : Option World :=
  if d.running then (w.signal d.tasks .requested).join d.tasks else some w

def stopForwarding (a : App) (w : World) : Option (App × World) :=
  (stopDirection a.forwarding w).map fun w => ({ a with forwarding := {} }, w)

def stopPolling (a : App) (w : World) : Option (App × World) :=
  (stopDirection a.polling w).map fun w => ({ a with polling := {} }, w)

/-- Start both directions. -/
def start (a : App) (w : World) : Option (Except Failure Unit × App × World) :=
  match a.startForwarding w with
  | (.error failure, w) => some (.error failure, a, w)
  | (.ok a, w) =>
    match a.startPolling w with
    | (.ok a, w) => some (.ok (), a, w)
    | (.error failure, w) =>
      (a.stopForwarding w).map fun (a, w) => (.error failure, a, w)

/-- Stop both directions, the reverse one first. -/
def stop (a : App) (w : World) : Option (App × World) := do
  let (a, w) ← a.stopPolling w
  a.stopForwarding w

/-- Start, stay up for a time, and stop. -/
def runFor (a : App) (millis : Nat) (w : World) : Option (Except Failure Unit × App × World) := do
  match ← a.start w with
  | (.error failure, a, w) => return (.error failure, a, w)
  | (.ok (), a, w) =>
    let w ← w.sleepUntil (w.brokers.now + millis)
    let (a, w) ← a.stop w
    return (.ok (), a, w)

/-- Give up an app. Its tasks go on as long as they can. -/
def abandon (a : App) (w : World) : World :=
  w.signal (a.forwarding.tasks ++ a.polling.tasks) .abandoned

end App

/-- Create the Amazon queues and topics that bridges name. -/
def Amazon.Service.provisionFor (s : Amazon.Service) (bridges : List Bridge) : Amazon.Service :=
  bridges.foldl
    (fun s bridge =>
      let s :=
        match bridge.source with
        | .sqs name => s.createQueue name
        | .rabbit _ => s
      match bridge.destination with
      | .sns name => s.createTopic name
      | .sqs name => s.createQueue name
      | .rabbit _ => s)
    s

end MessageBridge
