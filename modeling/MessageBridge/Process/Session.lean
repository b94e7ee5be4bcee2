import MessageBridge.Process.App

/-!
# Sessions

A session is a world that is worked on by commands, one after the other. It
remembers what commands have made, so that later commands can refer to it by
number: streams, consumers, receivers, dispatchers, tasks, messages, and the
deliveries that were seen. A command that fails does not end the session. There
is no answer to a command that refers to nothing, or whose waiting has no end.
-/

namespace MessageBridge

/-- The receipt handle that a command means. -/
inductive ReceiptRef where
  | literal (receipt : String)
  /-- That of the message with this number among all that were received. -/
  | received (index : Nat)
  deriving Inhabited

/-- The delivery that a command means: the one seen before under its tag if that
is asked for and there is one, and otherwise the one given. -/
structure DeliveryRef where
  delivery : Rabbit.Delivery
  seen : Bool
  deriving Inhabited

/-- How the consumers that a command makes handle failures. -/
structure ConsumerOptions where
  /-- Whether endpoints ask for another attempt at all. -/
  retryEnabled : Bool := true
  settings : RabbitSettings := {}
  /-- So many attempts without delay, instead of the policy in the settings. -/
  immediate : Option Nat := none
  deriving Inhabited

inductive Command where
  | declareExchange (exchange : Rabbit.Exchange)
  | declareQueue (spec : Rabbit.QueueSpec)
  | declareBinding (binding : Rabbit.Binding)
  | send (exchange routingKey : String) (body : ByteArray)
  | failRabbit (failure : Failure)
  | consume (queue : String)
  | next (stream : Nat)
  | close (stream : Nat)
  | ack (tag : Nat)
  | reject (tag : Nat) (requeue : Bool)
  | takeReady (queue : String)
  | published
  | exchange (name : String)
  | queue (name : String)
  | bindings
  | unacked
  | createQueue (queue : String)
  | deleteQueue (queue : String)
  | createTopic (topic : String)
  | subscribe (topic queue : String)
  | failAmazon (failure : Failure)
  | sendMessage (queue body : String)
  | sendToQueue (queue body : String)
  | sendToTopic (topic body : String)
  | resolve (queue : String)
  | receive (url : String) (waitMillis max : Nat)
  | deleteMessage (url : String) (receipt : ReceiptRef)
  | changeVisibility (url : String) (receipt : ReceiptRef) (seconds : Nat)
  | queueBodies (queue : String)
  | inFlight (queue : String)
  | topicMessages (topic : String)
  | sleep (millis : Nat)
  | metrics
  | provision (source : RabbitSource)
  | declarePair (exchange : String)
  | consumer (bridge : Bridge) (index : Nat) (options : ConsumerOptions)
  | consumers (bridges : List Bridge) (options : ConsumerOptions)
  | onMessage (consumer : Nat) (delivery : DeliveryRef)
  | handle (consumer : Nat) (delivery : DeliveryRef)
  | runConsumer (consumer : Nat)
  | receiver (queue : String) (settings : PollerSettings)
  | receiverReceive (receiver : Nat)
  | receiverDelete (receiver message : Nat)
  | receiverRelease (receiver message : Nat)
  | senderSend (destination : RabbitDestination) (payload : String) (declare : Bool)
  | dispatcher (queue : String) (destination : RabbitDestination) (settings : PollerSettings)
      (declare : Bool)
  | runOnce (dispatcher : Nat)
  | schedule (dispatcher : Nat) (fixedDelay : Duration)
  | stopTask (task : Nat) (signal : StopSignal)
  | provisionLocal (bridges : List Bridge)
  | app (bridges : List Bridge) (settings : Settings)
  | appStart
  | appStop
  | appRun (millis : Nat)
  | appState
  deriving Inhabited

inductive Answer where
  | nothing
  | number (n : Nat)
  | text (s : String)
  | texts (texts : List String)
  | delivery (d : Rabbit.Delivery)
  | deliveries (ds : List Rabbit.Delivery)
  | publications (ps : List Rabbit.Publication)
  | exchange (e : Option Rabbit.Exchange)
  | exchanges (es : List Rabbit.Exchange)
  | queue (q : Option Rabbit.QueueSpec)
  | bindings (bs : List Rabbit.Binding)
  | messages (ms : List Amazon.Message)
  | metrics (ms : Metrics)
  | topology (t : Rabbit.Topology)
  | endpoint (e : Endpoint)
  | endpoints (es : List Endpoint)
  | outcome (o : Outcome)
  | receiver (queueName url : String)
  | appState (running forwarding : Bool) (endpoints : List String)
  /-- No delivery is ready. -/
  | streamEmpty
  /-- The stream has been dropped. -/
  | streamEnd
  deriving Inhabited

/-- A stream that a command has taken. -/
structure OpenStream where
  queue : String
  isOpen : Bool := true
  deriving Inhabited

structure Session where
  world : World := {}
  streams : List OpenStream := []
  consumers : List Consumer := []
  receivers : List Receiver := []
  /-- A dispatcher that is scheduled is used up. -/
  dispatchers : List (Option Dispatcher) := []
  /-- The numbers that the world has given to the tasks. -/
  tasks : List Nat := []
  app : Option App := none
  /-- All messages received by commands. -/
  received : List Amazon.Message := []
  /-- The deliveries seen, the latest first. -/
  seen : List Rabbit.Delivery := []
  deriving Inhabited

namespace Session

/-- The result of a command, with the session after it. -/
abbrev Reply := Option (Except Failure Answer × Session)

variable {α : Type}

/-- Do something to the brokers; the answer is made of the result. -/
def act (s : Session) (f : Brokers → Except Failure α × Brokers) (answer : α → Answer) : Reply :=
  let (result, world) := s.world.act f
  some (result.map answer, { s with world })

def onRabbit (s : Session) (f : Rabbit.Broker → Except Failure α × Rabbit.Broker)
    (answer : α → Answer) : Reply :=
  s.act (·.onRabbit f) answer

def onAmazon (s : Session) (f : Amazon.Service → Except Failure α × Amazon.Service)
    (answer : α → Answer) : Reply :=
  s.act (·.onAmazon f) answer

/-- Change the Amazon service, which cannot fail. -/
def changeAmazon (s : Session) (f : Amazon.Service → Amazon.Service) (answer : Answer) : Reply :=
  s.onAmazon (fun a => (.ok (), f a)) fun _ => answer

/-- Answer without doing anything. -/
def reply (s : Session) (answer : Answer) : Reply :=
  some (.ok answer, s)

/-- The receipt handle that a command means. -/
def receipt? (s : Session) : ReceiptRef → Option String
  | .literal receipt => some receipt
  | .received index => s.received[index]?.map (·.receipt)

/-- The delivery that a command means. -/
def delivery (s : Session) (ref : DeliveryRef) : Rabbit.Delivery :=
  if ref.seen then (s.seen.find? (·.tag = ref.delivery.tag)).getD ref.delivery
  else ref.delivery

/-- Receive messages and remember them. -/
def receive (s : Session) (r : Receiver) : Reply := do
  let (result, world) ← s.world.drive r.turn (r.deadline s.world.brokers)
  let received := match result with
    | .ok messages => messages
    | .error _ => []
  return (result.map .messages, { s with world, received := s.received ++ received })

/-- The consumer of an endpoint. -/
def consumerOf (options : ConsumerOptions) (e : Endpoint) : Consumer :=
  let c := Consumer.ofEndpoint e options.settings
  match options.immediate with
  | none => c
  | some n => { c with policy := .immediate n }

/-- Start a task and give it the next number. -/
def startTask (s : Session) (task : Task) : Reply :=
  let (id, world) := s.world.spawn task
  some (.ok (.number s.tasks.length), { s with world, tasks := s.tasks ++ [id] })

/-- What a task that is over has come to. -/
def taskResult (s : Session) (id : Nat) : Except Failure Answer :=
  match s.world.tasks[id]?.bind Task.result? with
  | some (.error failure) => .error failure
  | _ => .ok .nothing

/-- Declare the exchange if asked, and publish. -/
def sendTo (destination : RabbitDestination) (payload : String) (declare : Bool)
    (b : Rabbit.Broker) : Except Failure Unit × Rabbit.Broker :=
  let (declared, b) : Except Failure Unit × Rabbit.Broker :=
    if declare then
      let (result, b) := b.declarePair destination.exchange
      (result.map fun _ => (), b)
    else (.ok (), b)
  match declared with
  | .error failure => (.error failure, b)
  | .ok () => b.send destination.exchange destination.routingKey payload.toUTF8

/-- Keep an app together with the world it has changed. -/
def keepApp (s : Session) (result : Except Failure Unit × App × World) :
    Except Failure Answer × Session :=
  let (result, app, world) := result
  (result.map fun () => .nothing, { s with app := some app, world })

/-- Carry out a command. -/
def step (s : Session) (command : Command) : Reply :=
  let b := s.world.brokers
  match command with
  | .declareExchange exchange => s.onRabbit (·.declareExchange exchange) fun _ => .nothing
  | .declareQueue spec => s.onRabbit (·.declareQueue spec) fun _ => .nothing
  | .declareBinding binding => s.onRabbit (·.declareBinding binding) fun _ => .nothing
  | .send exchange routingKey body =>
    s.onRabbit (·.send exchange routingKey body) fun _ => .nothing
  | .failRabbit failure =>
    s.onRabbit (fun r => (.ok (), { r with failures := r.failures ++ [failure] }))
      fun _ => .nothing
  | .consume queue =>
    match s.world.act (·.onRabbit (·.consume queue)) with
    | (.error failure, world) => some (.error failure, { s with world })
    | (.ok (), world) =>
      some (.ok (.number s.streams.length), { s with world, streams := s.streams ++ [{ queue }] })
  | .next stream => do
    let { queue, isOpen } ← s.streams[stream]?
    if !isOpen then s.reply .streamEnd
    else
      match s.world.act (·.onRabbit (·.next queue)) with
      | (none, world) => some (.ok .streamEmpty, { s with world })
      | (some d, world) => some (.ok (.delivery d), { s with world, seen := d :: s.seen })
  | .close stream => do
    let { queue, isOpen } ← s.streams[stream]?
    if !isOpen then s.reply .nothing
    else
      let s := { s with streams := s.streams.set stream { queue, isOpen := false } }
      s.onRabbit (fun r => (.ok (), r.dropStream queue)) fun _ => .nothing
  | .ack tag => s.onRabbit (·.ack tag) fun _ => .nothing
  | .reject tag requeue => s.onRabbit (·.reject tag requeue) fun _ => .nothing
  | .takeReady queue =>
    let (ds, world) := s.world.act (·.onRabbit (·.takeReady queue))
    some (.ok (.deliveries ds), { s with world, seen := ds.reverse ++ s.seen })
  | .published => s.reply (.publications b.rabbit.published)
  | .exchange name => s.reply (.exchange (b.rabbit.exchange? name))
  | .queue name => s.reply (.queue ((b.rabbit.queue? name).map (·.spec)))
  | .bindings => s.reply (.bindings b.rabbit.bindings)
  | .unacked => s.reply (.number b.rabbit.unacked.length)
  | .createQueue queue => s.changeAmazon (·.createQueue queue) (.text (Amazon.queueUrl queue))
  | .deleteQueue queue => s.changeAmazon (·.deleteQueue queue) .nothing
  | .createTopic topic => s.changeAmazon (·.createTopic topic) .nothing
  | .subscribe topic queue => s.changeAmazon (·.subscribe topic queue) .nothing
  | .failAmazon failure =>
    s.changeAmazon (fun a => { a with failures := a.failures ++ [failure] }) .nothing
  | .sendMessage queue body => s.onAmazon (·.putMessage queue body) .text
  | .sendToQueue queue body => s.onAmazon (·.sendToQueue queue body) fun _ => .nothing
  | .sendToTopic topic body => s.onAmazon (·.sendToTopic b.now topic body) fun _ => .nothing
  | .resolve queue => some ((b.amazon.resolve queue).map .text, s)
  | .receive url waitMillis max =>
    s.receive { queueName := "", url, waitTime := .ofMillis waitMillis, maxMessages := max }
  | .deleteMessage url receipt => do
    let receipt ← s.receipt? receipt
    s.onAmazon (·.deleteMessage url receipt) fun _ => .nothing
  | .changeVisibility url receipt seconds => do
    let receipt ← s.receipt? receipt
    s.onAmazon (·.changeVisibility b.now url receipt seconds) fun _ => .nothing
  | .queueBodies queue => s.reply (.texts (b.amazon.bodies queue))
  | .inFlight queue => s.reply (.number (b.amazon.inFlight b.now queue))
  | .topicMessages topic => s.reply (.texts (b.amazon.topicMessages topic))
  | .sleep millis => do
    let world ← s.world.sleepUntil (b.now + millis)
    some (.ok .nothing, { s with world })
  | .metrics => s.reply (.metrics b.metrics)
  | .provision source => s.onRabbit (·.provision source) .topology
  | .declarePair exchange =>
    s.onRabbit (·.declarePair exchange) fun (primary, deadLetter) =>
      .exchanges [primary, deadLetter]
  | .consumer bridge index options =>
    match s.world.act (Endpoint.ofBridge index options.retryEnabled bridge) with
    | (.error failure, world) => some (.error failure, { s with world })
    | (.ok e, world) =>
      some (.ok (.endpoint e),
        { s with world, consumers := s.consumers ++ [consumerOf options e] })
  | .consumers bridges options =>
    match s.world.act (Endpoint.generateAll options.retryEnabled bridges) with
    | (.error failure, world) => some (.error failure, { s with world })
    | (.ok es, world) =>
      some (.ok (.endpoints es),
        { s with world, consumers := s.consumers ++ es.map (consumerOf options) })
  | .onMessage consumer ref => do
    let c ← s.consumers[consumer]?
    s.act (c.endpoint.attempt (s.delivery ref)) fun _ => .nothing
  | .handle consumer ref => do
    let c ← s.consumers[consumer]?
    let (handling, world) := s.world.act (Handling.start c (s.delivery ref))
    let (outcome, world) ← world.drive (Handling.turn c) handling
    some (.ok (.outcome outcome), { s with world })
  | .runConsumer consumer => do
    let c ← s.consumers[consumer]?
    s.startTask (.consumer c)
  | .receiver queue settings =>
    match Receiver.resolve queue settings b with
    | .error failure => some (.error failure, s)
    | .ok r =>
      some (.ok (.receiver r.queueName r.url), { s with receivers := s.receivers ++ [r] })
  | .receiverReceive receiver => do s.receive (← s.receivers[receiver]?)
  | .receiverDelete receiver message => do
    let r ← s.receivers[receiver]?
    let m ← s.received[message]?
    s.act (r.delete m) fun _ => .nothing
  | .receiverRelease receiver message => do
    let r ← s.receivers[receiver]?
    let m ← s.received[message]?
    s.act (r.release m) fun _ => .nothing
  | .senderSend destination payload declare =>
    s.onRabbit (sendTo destination payload declare) fun _ => .nothing
  | .dispatcher queue destination settings declare =>
    match s.world.act (Dispatcher.prepare queue destination settings declare) with
    | (.error failure, world) => some (.error failure, { s with world })
    | (.ok d, world) =>
      some (.ok (.text d.queueName), { s with world, dispatchers := s.dispatchers ++ [some d] })
  | .runOnce dispatcher => do
    let d ← (← s.dispatchers[dispatcher]?)
    let (result, world) ← s.world.drive d.turn (d.receiver.deadline b)
    some (result.map .number, { s with world })
  | .schedule dispatcher fixedDelay => do
    let d ← (← s.dispatchers[dispatcher]?)
    let s := { s with dispatchers := s.dispatchers.set dispatcher none }
    s.startTask (.poller ⟨d, fixedDelay⟩)
  | .stopTask task signal => do
    let id ← s.tasks[task]?
    let world ← (s.world.signal [id] signal).join [id]
    let s := { s with world }
    some (s.taskResult id, s)
  | .provisionLocal bridges => s.changeAmazon (·.provisionFor bridges) .nothing
  | .app bridges settings =>
    let world := (s.app.map fun app => app.abandon s.world).getD s.world
    some (.ok (.texts (bridges.map Bridge.label)),
      { s with world, app := some (.ofSettings settings bridges) })
  | .appStart => do s.keepApp (← (← s.app).start s.world)
  | .appStop => do
    let (app, world) ← (← s.app).stop s.world
    s.keepApp (.ok (), app, world)
  | .appRun millis => do s.keepApp (← (← s.app).runFor millis s.world)
  | .appState => do
    let app ← s.app
    s.reply (.appState app.isRunning app.forwarding.running app.endpointIds)

end Session

end MessageBridge
