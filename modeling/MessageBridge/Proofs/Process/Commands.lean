import MessageBridge.Proofs.Process.Lifecycle
import MessageBridge.Process.Session

/-!
# What a command can do

A session is open to anything: its commands publish and receive, fail what comes next,
run tasks and whole apps, and wait. `Effect` says what a command can do to the world,
whatever it answers. Most commands do one thing to the brokers, declare something, or
leave the world as it is; others drive an activity in the foreground, start or signal
tasks, or call an app. With an effect comes what the command has asked for in so many
words: a deletion, a publication, the attempt of a delivery, or the dispatcher or app that
goes to work.

`effect_of_step` goes through all commands, once. What is true of the effects is true of
every command.
-/

namespace MessageBridge

/-- A task that has not had a turn. -/
def Task.Fresh (t : Task) : Prop :=
  (∃ c, t = .consumer c) ∨ ∃ p, t = .poller p

namespace Session

/-- The command asks for the deletion. -/
def AsksFor (s : Session) (command : Command) (op : Amazon.Operation) : Prop :=
  match command with
  | .deleteQueue queue => op = .deleteQueue queue
  | .deleteMessage url ref => ∃ receipt, s.receipt? ref = some receipt ∧
    op = .deleteMessage url receipt
  | .receiverDelete receiver message => ∃ r m, s.receivers[receiver]? = some r ∧
    s.received[message]? = some m ∧ op = .deleteMessage r.url m.receipt
  | _ => False

/-- The command asks for the publication. -/
def Publishes (command : Command) (exchange routingKey : String) (body : ByteArray) : Prop :=
  match command with
  | .send exchange' routingKey' body' =>
    exchange' = exchange ∧ routingKey' = routingKey ∧ body' = body
  | .senderSend destination payload _ =>
    destination.exchange = exchange ∧ destination.routingKey = routingKey ∧
      payload.toUTF8 = body
  | _ => False

/-- The one thing that the command asks for. -/
inductive Asks (s : Session) (command : Command) : Event → Prop where
  | rabbit (op : Rabbit.Operation)
      (published : ∀ exchange routingKey body, op = .send exchange routingKey body →
        Publishes command exchange routingKey body) : Asks s command (.rabbit op)
  | amazon (op : Amazon.Operation) (deleted : op.IsDeletion → s.AsksFor command op) :
      Asks s command (.amazon op)
  | attempt (consumer : Nat) (ref : DeliveryRef) (c : Consumer)
      (given : command = .onMessage consumer ref) (held : s.consumers[consumer]? = some c) :
      Asks s command (.attempt c.endpoint (s.delivery ref))

/-- What a command can do to the world of a session. -/
inductive Effect (s : Session) (command : Command) : World → Prop where
  | nothing : Effect s command s.world
  | happens {event : Event} (asks : s.Asks command event) :
      Effect s command (s.world.act fun b => ((), b.on event)).2
  | declares (f : Brokers → Brokers) (declares : ∀ past b, Declares past b (f b)) :
      Effect s command (s.world.act fun b => ((), f b)).2
  /-- A sender declares, if it is asked to, and publishes. -/
  | sends (destination : RabbitDestination) (payload : String) (declare : Bool)
      (given : command = .senderSend destination payload declare) :
      Effect s command (s.world.act (·.onRabbit (sendTo destination payload declare))).2
  /-- What bridges name on the Amazon side is created. -/
  | provides (bridges : List Bridge) :
      Effect s command (s.world.act (·.onAmazon fun a => ((), a.provisionFor bridges))).2
  | receives (r : Receiver) {deadline : Instant}
      {result : Except Failure (List Amazon.Message)} {w : World}
      (driven : s.world.drive r.turn deadline = some (result, w)) : Effect s command w
  | runs (d : Dispatcher) (index : Nat) (given : command = .runOnce index)
      (held : s.dispatchers[index]? = some (some d)) {deadline : Instant}
      {result : Except Failure Nat} {w : World}
      (driven : s.world.drive d.turn deadline = some (result, w)) : Effect s command w
  | handles (c : Consumer) (d : Rabbit.Delivery) {outcome : Outcome} {w : World}
      (driven : (s.world.act (Handling.start c d)).2.drive (Handling.turn c)
        (s.world.act (Handling.start c d)).1 = some (outcome, w)) : Effect s command w
  | waits {isOver : World → Bool} {deadline : Option Instant} {w : World}
      (ended : s.world.wait isOver deadline = some w) : Effect s command w
  | spawns (task : Task) (fresh : task.Fresh) : Effect s command (s.world.spawn task).2
  | abandons (ids : List Nat) : Effect s command (s.world.signal ids .abandoned)
  /-- Tasks are signalled, and the foreground waits. -/
  | signals (task : Nat) (ids : List Nat) (signal : StopSignal)
      (given : command = .stopTask task signal) {isOver : World → Bool}
      {deadline : Option Instant} {w : World}
      (ended : (s.world.signal ids signal).wait isOver deadline = some w) : Effect s command w
  | starts (a : App) (given : command = .appStart) (held : s.app = some a)
      {result : Except Failure Unit} {a' : App} {w : World}
      (answered : a.start s.world = some (result, a', w)) : Effect s command w
  | stops (a : App) {a' : App} {w : World} (answered : a.stop s.world = some (a', w)) :
      Effect s command w
  | runsFor (a : App) (millis : Nat) (given : command = .appRun millis) (held : s.app = some a)
      {result : Except Failure Unit} {a' : App} {w : World}
      (answered : a.runFor millis s.world = some (result, a', w)) : Effect s command w

variable {α : Type} {s s' : Session} {command : Command} {reply : Except Failure Answer}

/-! ## Actions on the brokers -/

theorem effect_act {f : Brokers → Except Failure α × Brokers} {answer : α → Answer}
    {event : Event} (asks : s.Asks command event)
    (hf : (f s.world.brokers).2 = s.world.brokers.on event)
    (h : s.act f answer = some (reply, s')) : s.Effect command s'.world := by
  cases h
  show s.Effect command (World.notice { s.world with brokers := (f s.world.brokers).2 })
  rw [hf]
  exact .happens asks

theorem effect_rabbit {f : Rabbit.Broker → Except Failure α × Rabbit.Broker}
    {answer : α → Answer} (op : Rabbit.Operation)
    (hf : (f s.world.brokers.rabbit).2 = s.world.brokers.rabbit.after op)
    (published : ∀ exchange routingKey body, op = .send exchange routingKey body →
      Publishes command exchange routingKey body)
    (h : s.onRabbit f answer = some (reply, s')) : s.Effect command s'.world := by
  refine effect_act (.rabbit op published) ?_ h
  rw [Brokers.on, ← hf]
  rfl

theorem effect_declares {f : Rabbit.Broker → Except Failure α × Rabbit.Broker}
    {answer : α → Answer}
    (hf : ∀ past (b : Brokers), Declares past b { b with rabbit := (f b.rabbit).2 })
    (h : s.onRabbit f answer = some (reply, s')) : s.Effect command s'.world := by
  cases h
  exact .declares (fun b => { b with rabbit := (f b.rabbit).2 }) hf

theorem effect_amazon {f : Amazon.Service → Except Failure α × Amazon.Service}
    {answer : α → Answer} (op : Amazon.Operation)
    (hf : (f s.world.brokers.amazon).2 = s.world.brokers.amazon.after s.world.brokers.now op)
    (deleted : op.IsDeletion → s.AsksFor command op)
    (h : s.onAmazon f answer = some (reply, s')) : s.Effect command s'.world := by
  refine effect_act (.amazon op deleted) ?_ h
  rw [Brokers.on, ← hf]
  rfl

theorem effect_changeAmazon {f : Amazon.Service → Amazon.Service} {answer : Answer}
    (op : Amazon.Operation)
    (hf : f s.world.brokers.amazon = s.world.brokers.amazon.after s.world.brokers.now op)
    (deleted : op.IsDeletion → s.AsksFor command op)
    (h : s.changeAmazon f answer = some (reply, s')) : s.Effect command s'.world :=
  effect_amazon op hf deleted h

/-- An answer alone changes nothing. -/
theorem effect_reply {answer : Answer} (h : s.reply answer = some (reply, s')) :
    s.Effect command s'.world := by
  cases h
  exact .nothing

theorem effect_receive {r : Receiver} (h : s.receive r = some (reply, s')) :
    s.Effect command s'.world := by
  obtain ⟨⟨result, w⟩, hdrive, h⟩ := Option.bind_eq_some_iff.mp h
  cases h
  exact .receives r hdrive

/-! ## Commands -/

/-- Carrying out any command has one of the effects. -/
theorem effect_of_step (h : s.step command = some (reply, s')) : s.Effect command s'.world := by
  cases command with
  | declareExchange exchange => exact effect_rabbit (.declareExchange exchange) rfl nofun h
  | declareQueue spec => exact effect_rabbit (.declareQueue spec) rfl nofun h
  | declareBinding binding => exact effect_rabbit (.declareBinding binding) rfl nofun h
  | send exchange routingKey body =>
      refine effect_rabbit (.send exchange routingKey body) rfl ?_ h
      intro exchange' routingKey' body' hop
      injection hop with hexchange hroutingKey hbody
      exact ⟨hexchange, hroutingKey, hbody⟩
  | failRabbit failure => exact effect_rabbit (.failNext failure) rfl nofun h
  | ack tag => exact effect_rabbit (.ack tag) rfl nofun h
  | reject tag requeue => exact effect_rabbit (.reject tag requeue) rfl nofun h
  | provision source => exact effect_declares (fun past => declares_provision past source) h
  | declarePair exchange =>
      exact effect_declares (fun past => declares_declarePair past exchange) h
  | senderSend destination payload declare =>
      cases h
      exact .sends destination payload declare rfl
  | createQueue queue => exact effect_changeAmazon (.createQueue queue) rfl False.elim h
  | deleteQueue queue => exact effect_changeAmazon (.deleteQueue queue) rfl (fun _ => rfl) h
  | createTopic topic => exact effect_changeAmazon (.createTopic topic) rfl False.elim h
  | subscribe topic queue =>
      exact effect_changeAmazon (.subscribe topic queue) rfl False.elim h
  | failAmazon failure => exact effect_changeAmazon (.failNext failure) rfl False.elim h
  | sendMessage queue body => exact effect_amazon (.putMessage queue body) rfl False.elim h
  | sendToQueue queue body => exact effect_amazon (.sendToQueue queue body) rfl False.elim h
  | sendToTopic topic body => exact effect_amazon (.sendToTopic topic body) rfl False.elim h
  | deleteMessage url ref =>
      obtain ⟨receipt, hreceipt, h⟩ := Option.bind_eq_some_iff.mp h
      exact effect_amazon (.deleteMessage url receipt) rfl (fun _ => ⟨receipt, hreceipt, rfl⟩) h
  | changeVisibility url ref seconds =>
      obtain ⟨receipt, _, h⟩ := Option.bind_eq_some_iff.mp h
      exact effect_amazon (.changeVisibility url receipt seconds) rfl False.elim h
  | receiverDelete receiver message =>
      obtain ⟨r, hr, h⟩ := Option.bind_eq_some_iff.mp h
      obtain ⟨m, hm, h⟩ := Option.bind_eq_some_iff.mp h
      exact effect_act (.amazon (.deleteMessage r.url m.receipt) fun _ => ⟨r, m, hr, hm, rfl⟩)
        rfl h
  | receiverRelease receiver message =>
      obtain ⟨r, _, h⟩ := Option.bind_eq_some_iff.mp h
      obtain ⟨m, _, h⟩ := Option.bind_eq_some_iff.mp h
      exact effect_act (.amazon (.changeVisibility r.url m.receipt 0) False.elim) rfl h
  | onMessage consumer ref =>
      obtain ⟨c, hheld, h⟩ := Option.bind_eq_some_iff.mp h
      exact effect_act (.attempt consumer ref c rfl hheld) rfl h
  | provisionLocal bridges =>
      cases h
      exact .provides bridges
  | published | exchange | queue | bindings | unacked | queueBodies | inFlight | topicMessages
  | metrics => exact effect_reply h
  | resolve queue =>
      cases h
      exact .nothing
  | appState =>
      obtain ⟨app, _, h⟩ := Option.bind_eq_some_iff.mp h
      exact effect_reply h
  | consume queue =>
      have hconsume : s.Effect (.consume queue)
          (s.world.act (·.onRabbit (·.consume queue))).2 := .happens (.rabbit (.consume queue) nofun)
      simp only [step] at h
      split at h <;> next hacted => rw [hacted] at hconsume; cases h; exact hconsume
  | next stream =>
      obtain ⟨⟨queue, isOpen⟩, _, h⟩ := Option.bind_eq_some_iff.mp h
      have hnext : s.Effect (.next stream) (s.world.act (·.onRabbit (·.next queue))).2 :=
        .happens (.rabbit (.next queue) nofun)
      simp only [] at h
      split at h
      · exact effect_reply h
      · split at h <;> next hacted => rw [hacted] at hnext; cases h; exact hnext
  | close stream =>
      obtain ⟨⟨queue, isOpen⟩, _, h⟩ := Option.bind_eq_some_iff.mp h
      simp only [] at h
      split at h
      · exact effect_reply h
      · cases h
        exact .happens (.rabbit (.dropStream queue) nofun)
  | takeReady queue =>
      cases h
      exact .happens (.rabbit (.takeReady queue) nofun)
  | receive url waitMillis max => exact effect_receive h
  | receiverReceive receiver =>
      obtain ⟨r, _, h⟩ := Option.bind_eq_some_iff.mp h
      exact effect_receive h
  | sleep millis =>
      obtain ⟨w, hwait, h⟩ := Option.bind_eq_some_iff.mp h
      cases h
      exact .waits hwait
  | consumer bridge index options =>
      have hmade : s.Effect (.consumer bridge index options)
          (s.world.act (Endpoint.ofBridge index options.retryEnabled bridge)).2 :=
        .declares _ fun past b => Endpoint.declares_ofBridge past _ _ bridge b
      simp only [step] at h
      split at h <;> next hacted => rw [hacted] at hmade; cases h; exact hmade
  | consumers bridges options =>
      have hmade : s.Effect (.consumers bridges options)
          (s.world.act (Endpoint.generateAll options.retryEnabled bridges)).2 :=
        .declares _ fun past b => (Endpoint.declares_ofBridges past _ _ _ b).1
      simp only [step] at h
      split at h <;> next hacted => rw [hacted] at hmade; cases h; exact hmade
  | handle consumer ref =>
      obtain ⟨c, _, h⟩ := Option.bind_eq_some_iff.mp h
      obtain ⟨⟨outcome, w⟩, hdrive, h⟩ := Option.bind_eq_some_iff.mp h
      cases h
      exact .handles c (s.delivery ref) hdrive
  | runConsumer consumer =>
      obtain ⟨c, _, h⟩ := Option.bind_eq_some_iff.mp h
      cases h
      exact .spawns (.consumer c) (.inl ⟨c, rfl⟩)
  | receiver queue settings =>
      simp only [step] at h
      split at h <;> cases h <;> exact .nothing
  | dispatcher queue destination settings declare =>
      have hprepared : s.Effect (.dispatcher queue destination settings declare)
          (s.world.act (Dispatcher.prepare queue destination settings declare)).2 :=
        .declares _ fun past b =>
          Dispatcher.declares_prepare past queue destination settings declare b
      simp only [step] at h
      split at h <;> next hacted => rw [hacted] at hprepared; cases h; exact hprepared
  | runOnce dispatcher =>
      obtain ⟨d?, hheld, h⟩ := Option.bind_eq_some_iff.mp h
      obtain ⟨d, hd, h⟩ := Option.bind_eq_some_iff.mp h
      obtain ⟨⟨result, w⟩, hdrive, h⟩ := Option.bind_eq_some_iff.mp h
      cases h
      rw [hd] at hheld
      exact .runs d dispatcher rfl hheld hdrive
  | schedule dispatcher fixedDelay =>
      obtain ⟨d?, _, h⟩ := Option.bind_eq_some_iff.mp h
      obtain ⟨d, _, h⟩ := Option.bind_eq_some_iff.mp h
      cases h
      exact .spawns (.poller ⟨d, fixedDelay⟩) (.inr ⟨⟨d, fixedDelay⟩, rfl⟩)
  | stopTask task signal =>
      obtain ⟨id, _, h⟩ := Option.bind_eq_some_iff.mp h
      obtain ⟨w, hjoin, h⟩ := Option.bind_eq_some_iff.mp h
      cases h
      exact .signals task [id] signal rfl hjoin
  | app bridges settings =>
      cases h
      cases s.app with
      | none => exact .nothing
      | some a => exact .abandons _
  | appStart =>
      obtain ⟨a, hheld, h⟩ := Option.bind_eq_some_iff.mp h
      obtain ⟨⟨result, a', w⟩, hstart, h⟩ := Option.bind_eq_some_iff.mp h
      cases h
      exact .starts a rfl hheld hstart
  | appStop =>
      obtain ⟨a, _, h⟩ := Option.bind_eq_some_iff.mp h
      obtain ⟨⟨a', w⟩, hstop, h⟩ := Option.bind_eq_some_iff.mp h
      cases h
      exact .stops a hstop
  | appRun millis =>
      obtain ⟨a, hheld, h⟩ := Option.bind_eq_some_iff.mp h
      obtain ⟨⟨result, a', w⟩, hrun, h⟩ := Option.bind_eq_some_iff.mp h
      cases h
      exact .runsFor a millis rfl hheld hrun

end Session

end MessageBridge
