import MessageBridge.Proofs.Forward.Settlement
import MessageBridge.Proofs.Process.Lifecycle
import MessageBridge.Proofs.Rabbit.Retention
import MessageBridge.Proofs.Rabbit.Streams

/-!
# What starting and stopping does to queued messages

A message that waits in a queue while an app is started or stopped is followed
through everything that happens until the call returns. Whatever is declared and
whatever pollers do leaves it where it is. The consumers of the app touch it in
three ways: they may be handed the message, they may settle it, and at the end
they drop the stream of their queue.

To follow it that far takes two things besides. A tag names one delivery, so a
consumer that settles the tag of the message means the message. And no consumer
of the app reads from a dead-letter queue, so once a copy of the message is there
it stays.

What a call may come to for the message is listed in `Fate`, or else the message is
`Dropped`: with its stream a queue loses all that still waits in it, for a stream is
taken once and never given back, and a broker has nowhere to put what was ready. A
stop asks all consumers to drop their streams. Nothing else gets lost on the way,
unless somebody has dropped the stream of the dead-letter queue. After a start that
fails nothing is said here about queues whose stream is dropped by then.
-/

namespace MessageBridge

/-! ## Deliveries that were handed out are known -/

/-- All tags are drawn, and all deliveries that were handed out are known. -/
structure Tracked (h : List Moment) (r : Rabbit.Broker) : Prop where
  sound : r.Sound
  known : ∀ queue d, Took h queue d → r.Knows d ∧ d.queue = queue

theorem tracked_start {r : Rabbit.Broker} (hr : r.Reachable) : Tracked [] r :=
  ⟨hr.sound, fun _ _ ⟨_, hx, _⟩ => nomatch hx⟩

theorem Tracked.step {h : List Moment} {b : Brokers} (ht : Tracked h b.rabbit) (event : Event) :
    Tracked (h ++ [⟨b, event⟩]) (b.on event).rabbit := by
  have hreaches := b.reaches_on event
  refine ⟨hreaches.sound ht.sound, ?_⟩
  rintro queue d ⟨x, hx, hevent, hnext⟩
  rcases List.mem_append.mp hx with hx | hx
  · obtain ⟨hknows, hqueue⟩ := ht.known queue d ⟨x, hx, hevent, hnext⟩
    exact ⟨hreaches.knows hknows, hqueue⟩
  · rw [List.mem_singleton] at hx
    subst hx
    have hready := Rabbit.Broker.ready_of_next hnext
    exact ⟨hreaches.knows (ht.sound.known d (Or.inl ⟨queue, hready⟩)),
      ht.sound.placed queue d hready⟩

theorem Tracked.of_course {rule : Rule} {past h : List Moment} {b₀ b : Brokers}
    (ht : Tracked past b₀.rabbit) (hc : Course rule past b₀ h b) :
    Tracked (past ++ h) b.rabbit :=
  hc.invariant (P := fun h b => Tracked h b.rabbit) (fun _ _ event _ hnow => hnow.step event) ht

theorem Tracked.unacked? {h : List Moment} {r : Rabbit.Broker} {d : Rabbit.Delivery}
    (ht : Tracked h r) (hd : d ∈ r.unacked) : r.unacked? d.tag = some d := by
  unfold Rabbit.Broker.unacked?
  cases hfind : r.unacked.find? (·.tag = d.tag) with
  | none =>
      have := List.find?_eq_none.mp hfind d hd
      simp at this
  | some x =>
      have htag : x.tag = d.tag := by simpa using List.find?_some hfind
      have hx : r.Has x := Or.inr (List.mem_of_find?_eq_some hfind)
      rw [(ht.sound.known d (Or.inr hd)).only x hx htag]

/-! ## What those whom an app hires do to rabbit -/

theorem retains_of_declaring {past h : List Moment} {b b' : Brokers}
    (hc : Course Declaring past b h b') : b.rabbit.Retains b'.rabbit := by
  induction hc with
  | start => exact .refl _
  | @next _ b₁ _ event allowed ih =>
      refine ih.trans ?_
      cases allowed with
      | exchange e => exact b₁.rabbit.retains_declareExchange e
      | queue spec => exact b₁.rabbit.retains_declareQueue spec
      | binding x => exact b₁.rabbit.retains_declareBinding x

theorem Dispatcher.retains_forward (d : Dispatcher) (m : Amazon.Message) (b : Brokers) :
    b.rabbit.Retains (d.forward m b).2.rabbit := by
  have hsend := fun text : String => b.rabbit.retains_send d.destination.exchange
    d.destination.routingKey text.toUTF8
  rcases d.forward_cases m b with ⟨failure, _, h⟩ | ⟨text, _, ⟨failure, _, h⟩ | ⟨_, h⟩⟩
  · rw [h]
    exact .refl _
  · rw [h]
    exact hsend text
  · rw [h]
    exact hsend text

/-- Only three things that a consumer of the app does may take a delivery away: it
asks for the next one, it drops its stream, or it settles what it has taken. -/
theorem Hired.effect {a : App} {r : Rabbit.Broker} {rule : Rule} {h : List Moment}
    {event : Event} (hired : Hired a r rule) (does : rule h event) (b : Brokers) :
    b.rabbit.Retains (b.on event).rabbit ∨
    ∃ (c : Consumer) (bridge : Bridge) (source : RabbitSource),
      bridge ∈ Bridge.forwardable a.bridges ∧ c.endpoint.Serves bridge source r ∧
      (event = .rabbit (.next source.queueName) ∨
        event = .rabbit (.dropStream source.queueName) ∨
        ∃ d result, event = .settle c d result ∧ Took h source.queueName d ∧
          (result = .ok () → Sent h c.endpoint d)) := by
  cases hired with
  | poller d _ _ _ _ =>
      refine Or.inl ?_
      cases does with
      | forwards => exact d.retains_forward _ b
      | counts | looks | releases => exact .refl _
  | consumer c bridge source mem serves =>
      cases does with
      | consumes => exact Or.inl (b.rabbit.retains_consume _)
      | counts => exact Or.inl (.refl _)
      | takes =>
          rw [serves.queue]
          exact Or.inr ⟨c, bridge, source, mem, serves, Or.inl rfl⟩
      | leaves =>
          rw [serves.queue]
          exact Or.inr ⟨c, bridge, source, mem, serves, Or.inr (Or.inl rfl)⟩
      | handles took handled =>
          cases handled with
          | counts => exact Or.inl (.refl _)
          | attempts =>
              refine Or.inl ?_
              rw [Brokers.on, Endpoint.rabbit_attempt]
              exact .refl _
          | settles result sent =>
              rw [serves.queue] at took
              exact Or.inr ⟨c, bridge, source, mem, serves,
                Or.inr (Or.inr ⟨_, result, rfl, took, sent⟩)⟩

section Interleaved

variable {a : App} {rules : List Rule} {h : List Moment} {event : Event} {b : Brokers}
  {queue : String} {d : Rabbit.Delivery}

theorem Interleaved.effect (hi : Interleaved rules h event)
    (hired : ∀ rule ∈ rules, Hired a b.rabbit rule) :
    b.rabbit.Retains (b.on event).rabbit ∨
    ∃ (c : Consumer) (bridge : Bridge) (source : RabbitSource),
      bridge ∈ Bridge.forwardable a.bridges ∧ c.endpoint.Serves bridge source b.rabbit ∧
      (event = .rabbit (.next source.queueName) ∨
        event = .rabbit (.dropStream source.queueName) ∨
        ∃ d result, event = .settle c d result ∧ Took h source.queueName d ∧
          (result = .ok () → Sent h c.endpoint d)) := by
  cases hi with
  | ticks => exact Or.inl (.refl _)
  | works mem does => exact (hired _ mem).effect does b

/-- A ready delivery stays ready, unless a consumer of its queue is handed it or
drops the stream. -/
theorem Interleaved.ready_or (hi : Interleaved rules h event)
    (hired : ∀ rule ∈ rules, Hired a b.rabbit rule) (hd : b.rabbit.IsReady queue d) :
    (b.on event).rabbit.IsReady queue d ∨
    ∃ bridge source, bridge ∈ Bridge.forwardable a.bridges ∧ bridge.source = .rabbit source ∧
      b.rabbit.Provisioned source ∧ source.queueName = queue ∧
      ((event = .rabbit (.next queue) ∧ d ∈ (b.on event).rabbit.unacked) ∨
        event = .rabbit (.dropStream queue)) := by
  rcases hi.effect hired with hretains | ⟨c, bridge, source, hmem, hserves, heffect⟩
  · exact Or.inl (hretains.ready _ _ hd)
  · rcases heffect with rfl | rfl | ⟨d', result, rfl, _, _⟩
    · rcases Rabbit.Broker.handedOut_or_ready source.queueName hd with hready | ⟨hsame, hout⟩
      · exact Or.inl hready
      · refine Or.inr ⟨bridge, source, hmem, hserves.isSource, hserves.provisioned, hsame.symm,
          Or.inl ⟨?_, hout⟩⟩
        rw [hsame]
    · by_cases hsame : queue = source.queueName
      · refine Or.inr ⟨bridge, source, hmem, hserves.isSource, hserves.provisioned, hsame.symm,
          Or.inr ?_⟩
        rw [hsame]
      · exact Or.inl (Rabbit.Broker.ready_dropStream hsame hd)
    · refine Or.inl ?_
      rw [Brokers.on, Consumer.rabbit_settle]
      cases result with
      | ok => exact (b.rabbit.retains_ack d'.tag).1 _ _ hd
      | error failure => exact (b.rabbit.retains_reject d'.tag).1 _ _ hd

/-- An unsettled delivery stays unsettled, unless a consumer of its queue settles
it. -/
theorem Interleaved.unsettled_or (hi : Interleaved rules h event)
    (hired : ∀ rule ∈ rules, Hired a b.rabbit rule) (ht : Tracked h b.rabbit)
    (hd : d ∈ b.rabbit.unacked) :
    d ∈ (b.on event).rabbit.unacked ∨
    ∃ (c : Consumer) (bridge : Bridge) (source : RabbitSource) (result : Except Failure Unit),
      bridge ∈ Bridge.forwardable a.bridges ∧ c.endpoint.Serves bridge source b.rabbit ∧
      d.queue = source.queueName ∧ event = .settle c d result ∧
      (result = .ok () → Sent h c.endpoint d) := by
  rcases hi.effect hired with hretains | ⟨c, bridge, source, hmem, hserves, heffect⟩
  · exact Or.inl (hretains.unacked _ hd)
  · rcases heffect with rfl | rfl | ⟨d', result, rfl, htook, hsent⟩
    · exact Or.inl (Rabbit.Broker.unacked_next _ hd)
    · exact Or.inl hd
    · by_cases htag : d.tag = d'.tag
      · -- Whoever settles this tag has been handed this very delivery.
        obtain ⟨hknows, hqueue⟩ := ht.known _ d' htook
        obtain rfl : d = d' := hknows.only d (Or.inr hd) htag
        exact Or.inr ⟨c, bridge, source, result, hmem, hserves, hqueue, rfl, hsent⟩
      · refine Or.inl ?_
        rw [Brokers.on, Consumer.rabbit_settle]
        cases result with
        | ok => exact (b.rabbit.retains_ack d'.tag).2 _ hd htag
        | error failure => exact (b.rabbit.retains_reject d'.tag).2 _ hd htag

end Interleaved

/-! ## The fate of a message -/

/-- A forward bridge that is switched on reads from the queue. -/
structure Bridge.Reads (a : App) (queue : String) (bridge : Bridge)
    (source : RabbitSource) : Prop where
  mem : bridge ∈ Bridge.forwardable a.bridges
  isSource : bridge.source = .rabbit source
  queue : source.queueName = queue

/-- What has become of a delivery that was ready in a queue when a call began. -/
inductive Fate (a : App) (call : List Moment) (r : Rabbit.Broker) (queue : String)
    (d : Rabbit.Delivery) : Prop where
  | ready (waits : r.IsReady queue d)
  /-- It was handed out during the call. -/
  | unsettled {x : Moment} (mem : x ∈ call) (event : x.event = .rabbit (.next queue))
      (holds : d ∈ r.unacked)
  | accepted {bridge : Bridge} {source : RabbitSource} (reads : bridge.Reads a queue source)
      {e : Endpoint} (serves : e.Serves bridge source r) {x : Moment} (mem : x ∈ call)
      (event : x.event = .attempt e d) (accepts : bridge.Accepts d x.before)
  | deadLettered {bridge : Bridge} {source : RabbitSource}
      (reads : bridge.Reads a queue source) (provisioned : r.Provisioned source)
      (copy : Rabbit.Delivery) (body : copy.body = d.body)
      (waits : r.IsReady (Rabbit.deadLetterName queue) copy)
  /-- It was rejected, and the stream of the dead-letter queue had been dropped. -/
  | unburied {bridge : Bridge} {source : RabbitSource} (reads : bridge.Reads a queue source)
      {c : Consumer} (serves : c.endpoint.Serves bridge source r) {x : Moment} (mem : x ∈ call)
      (failure : Failure) (event : x.event = .settle c d (.error failure))
      (dropped : ∃ q, x.before.rabbit.queue? (Rabbit.deadLetterName queue) = some q ∧
        q.stream = .dropped)

/-- A delivery still waited when the stream of its queue was dropped, and the queue is
one that a bridge of the app reads from. -/
structure Dropped (a : App) (call : List Moment) (r : Rabbit.Broker) (queue : String)
    (d : Rabbit.Delivery) : Prop where
  reads : ∃ bridge source, Bridge.Reads a queue bridge source
  waited : ∃ x ∈ call, x.event = .rabbit (.dropStream queue) ∧ x.before.rabbit.IsReady queue d
  stream : r.streamOf queue = .dropped

section Followed

variable {a : App} {past call : List Moment} {queue : String}
  {d : Rabbit.Delivery} {b : Brokers} {event : Event} {rules : List Rule}

theorem Dropped.step (h : Dropped a call b.rabbit queue d) (event : Event) :
    Dropped a (call ++ [⟨b, event⟩]) (b.on event).rabbit queue d := by
  obtain ⟨x, hx, hwaited⟩ := h.waited
  exact ⟨h.reads, ⟨x, List.mem_append_left _ hx, hwaited⟩,
    (b.reaches_on event).keeps.streamOf_dropped h.stream⟩

namespace Fate

/-- A delivery that was handed out during the call and is settled now has been
accepted, or its dead letter has reached its place. -/
theorem of_settle {c : Consumer} {bridge : Bridge} {source : RabbitSource}
    {result : Except Failure Unit} (ht : Tracked (past ++ call) b.rabbit)
    (hmem : bridge ∈ Bridge.forwardable a.bridges)
    (hserves : c.endpoint.Serves bridge source b.rabbit) (hsource : source.queueName = queue)
    (hqueue : d.queue = queue) {z : Moment} (hz : z ∈ call)
    (hout : z.event = .rabbit (.next queue)) (hd : d ∈ b.rabbit.unacked)
    (hsent : result = .ok () → Sent (past ++ call) c.endpoint d) :
    Fate a (call ++ [⟨b, .settle c d result⟩]) (b.on (.settle c d result)).rabbit queue d := by
  have hreads : bridge.Reads a queue source := ⟨hmem, hserves.isSource, hsource⟩
  have hkeeps := (b.reaches_on (.settle c d result)).keeps
  cases result with
  | ok =>
      -- The attempt came after the delivery was handed out, hence during the call.
      obtain ⟨x, hx, hattempt, hok⟩ := (hsent rfl).since hz fun m amount => by simp [hout]
      exact .accepted hreads (hserves.keep hkeeps) (List.mem_append_left _ hx) hattempt
        ((hserves.accepts_iff d x.before).mpr hok)
  | error failure =>
      rw [← hsource] at hqueue
      obtain ⟨r, hreject, _, tag, _, q, hq, hq'⟩ :=
        hserves.provisioned.reject hqueue (ht.unacked? hd)
      have hafter : (b.on (.settle c d (.error failure))).rabbit = r := by
        rw [Brokers.on, Consumer.rabbit_settle]
        exact congrArg Prod.snd hreject
      rw [hsource] at hq hq'
      by_cases hopen : q.stream = .dropped
      · exact .unburied hreads (hserves.keep hkeeps)
          (List.mem_append_right _ (List.mem_singleton_self _)) failure rfl ⟨q, hq, hopen⟩
      · refine .deadLettered hreads (hserves.provisioned.keep hkeeps)
          (Rabbit.Broker.deadLetterOf source d tag) rfl ⟨_, by rw [hafter]; exact hq', ?_⟩
        rw [Rabbit.Queue.push_ready _ hopen]
        exact List.mem_append_right _ (List.mem_singleton_self _)

/-- Whatever the tasks of the app do, the message meets one of its fates, or it is
dropped. -/
theorem step (ht : Tracked (past ++ call) b.rabbit)
    (hired : ∀ rule ∈ rules, Hired a b.rabbit rule)
    (hi : Interleaved rules (past ++ call) event) (hqueue : d.queue = queue)
    (f : Fate a call b.rabbit queue d) :
    Fate a (call ++ [⟨b, event⟩]) (b.on event).rabbit queue d ∨
      Dropped a (call ++ [⟨b, event⟩]) (b.on event).rabbit queue d := by
  have hkeeps := (b.reaches_on event).keeps
  have hcall : call ⊆ call ++ [⟨b, event⟩] := List.subset_append_left _ _
  have hnow : ⟨b, event⟩ ∈ call ++ [⟨b, event⟩] :=
    List.mem_append_right _ (List.mem_singleton_self _)
  cases f with
  | ready waits =>
      rcases hi.ready_or hired waits with hready | ⟨bridge, source, hmem, hsource, _, hname, hlost⟩
      · exact .inl (.ready hready)
      · rcases hlost with ⟨hnext, hout⟩ | hdrop
        · exact .inl (.unsettled hnow hnext hout)
        · refine .inr ⟨⟨bridge, source, hmem, hsource, hname⟩, ⟨_, hnow, hdrop, waits⟩, ?_⟩
          obtain ⟨q, hq, _⟩ := waits
          rw [hdrop]
          exact Rabbit.Broker.streamOf_dropStream (Option.isSome_iff_exists.mpr ⟨q, hq⟩)
  | unsettled mem hnext holds =>
      rcases hi.unsettled_or hired ht holds with
        hunsettled | ⟨c, bridge, source, result, hmem, hserves, hsame, rfl, hsent⟩
      · exact .inl (.unsettled (hcall mem) hnext hunsettled)
      · exact .inl
          (of_settle ht hmem hserves (hsame.symm.trans hqueue) hqueue mem hnext holds hsent)
  | deadLettered reads provisioned copy body waits =>
      rcases hi.ready_or hired waits with hready | ⟨_, source', _, _, hother, hname, _⟩
      · exact .inl (.deadLettered reads (provisioned.keep hkeeps) copy body hready)
      · rw [← reads.queue] at hname
        exact absurd hname (hother.queue_ne_deadLetter provisioned)
  | accepted reads serves mem hattempt accepts =>
      exact .inl (.accepted reads (serves.keep hkeeps) (hcall mem) hattempt accepts)
  | unburied reads serves mem failure hsettle hdropped =>
      exact .inl (.unburied reads (serves.keep hkeeps) (hcall mem) failure hsettle hdropped)

/-- A whole course of the tasks of the app. -/
theorem of_course {h : List Moment} {b₀ : Brokers} (ht : Tracked (past ++ call) b₀.rabbit)
    (hired : ∀ rule ∈ rules, Hired a b₀.rabbit rule) (hqueue : d.queue = queue)
    (f : Fate a call b₀.rabbit queue d)
    (hc : Course (Interleaved rules) (past ++ call) b₀ h b) :
    Fate a (call ++ h) b.rabbit queue d ∨ Dropped a (call ++ h) b.rabbit queue d := by
  induction hc with
  | start => rw [List.append_nil]; exact .inl f
  | @next h b hc event allowed ih =>
      have hnow : Tracked (past ++ (call ++ h)) b.rabbit := by
        rw [← List.append_assoc]
        exact ht.of_course hc
      rw [List.append_assoc] at allowed
      rw [← List.append_assoc]
      rcases ih with hfate | hdropped
      · exact hfate.step hnow (fun rule hrule => (hired rule hrule).keep hc.reaches.keeps)
          allowed hqueue
      · exact .inr (hdropped.step event)

end Fate

end Followed

/-! ## Calls -/

/-- What may be called for an app. -/
inductive Call where
  | start
  | stop

/-- Carry out a call. -/
def App.call (a : App) (w : World) : Call → Option (Except Failure Unit × App × World)
  | .start => a.start w
  | .stop => (a.stop w).map fun (a, w) => (.ok (), a, w)

/-- What may happen during a call: something is declared, the clock moves on, or a
task that the app has hired does something. -/
inductive Employed (a : App) (r : Rabbit.Broker) (h : List Moment) : Event → Prop
    where
  | declares {event : Event} (declaring : Declaring h event) : Employed a r h event
  | ticks (t : Instant) : Employed a r h (.clock t)
  | works {rule : Rule} {event : Event} (hired : Hired a r rule) (does : rule h event) :
    Employed a r h event

/-- An app was called and time has passed for its tasks, and in between anything
else has happened to the brokers. The history goes with it. -/
inductive App.Lived (a₀ : App) (w₀ : World) : List Moment → App → World → Prop where
  | begun : Lived a₀ w₀ [] a₀ w₀
  | happened {h : List Moment} {a : App} {w : World} (lived : Lived a₀ w₀ h a w) (event : Event) :
    Lived a₀ w₀ (h ++ [⟨w.brokers, event⟩]) a (w.act fun b => ((), b.on event)).2
  | waited {h h' : List Moment} {a : App} {w w' : World} {isOver : World → Bool}
      {deadline : Option Instant} (lived : Lived a₀ w₀ h a w)
      (ended : w.wait isOver deadline = some w')
      (course : Course (Interleaved w.rules) h w.brokers h' w'.brokers)
      (accounted : w'.Accounted (h ++ h')) : Lived a₀ w₀ (h ++ h') a w'
  | called {h h' : List Moment} {a a' : App} {w w' : World} {call : Call}
      {result : Except Failure Unit} (lived : Lived a₀ w₀ h a w)
      (answered : a.call w call = some (result, a', w'))
      (course : Course (Employed a w'.brokers.rabbit) h w.brokers h' w'.brokers)
      (accounted : w'.Accounted (h ++ h')) : Lived a₀ w₀ (h ++ h') a' w'

namespace App

variable {a₀ a a' : App} {w₀ w w' : World} {past h : List Moment} {call : Call}
  {result : Except Failure Unit}

/-- A call declares and hires first, and then gives time to the tasks. -/
theorem phases_call (ha : w.Accounted past) (h : a.call w call = some (result, a', w')) :
    ∃ w₁, World.Hires a past w w₁ ∧
      (∀ past', w₁.Accounted past' → World.Passes past' w₁ w') ∧
      a.Same a' ∧ (call = .start → result = .ok () → w' = w₁) := by
  cases call with
  | start =>
      obtain ⟨w₁, hhires, hpasses, hsame, hok⟩ := phases_start h past
      exact ⟨w₁, hhires, hpasses, hsame, fun _ => hok⟩
  | stop =>
      obtain ⟨⟨a₁, w₁⟩, hstop, heq⟩ := Option.map_eq_some_iff.mp h
      cases heq
      exact ⟨w, .of_declares (.refl past _) rfl, fun _ ha => (passes_stop ha hstop).1,
        (passes_stop ha hstop).2, fun h => nomatch h⟩

/-- At every moment of its life the app can account for its tasks: all of them are
those that it has hired for its own bridges. -/
theorem Lived.hired (hidle : w₀.tasks = []) (hrabbit : w₀.brokers.rabbit.Reachable)
    (hl : Lived a₀ w₀ h a w) :
    w.Accounted h ∧ Tracked h w.brokers.rabbit ∧
      ∀ rule ∈ w.rules, Hired a w.brokers.rabbit rule := by
  induction hl with
  | begun =>
      refine ⟨World.accounted_of_idle hidle [], tracked_start hrabbit, ?_⟩
      intro rule hrule
      unfold World.rules at hrule
      rw [hidle] at hrule
      cases hrule
  | @happened h a w _ event ih =>
      obtain ⟨ha, ht, hhired⟩ := ih
      exact ⟨ha.mono (List.subset_append_left _ _), ht.step event,
        fun rule hrule => (hhired rule hrule).keep (w.brokers.reaches_on event).keeps⟩
  | waited _ ended course accounted ih =>
      obtain ⟨ha, ht, hhired⟩ := ih
      obtain ⟨_, _, hrules, _⟩ := World.passes_wait ha ended
      refine ⟨accounted, ht.of_course course, ?_⟩
      rw [hrules]
      exact fun rule hrule => (hhired rule hrule).keep course.reaches.keeps
  | called _ answered course accounted ih =>
      obtain ⟨ha, ht, hhired⟩ := ih
      obtain ⟨w₁, hhires, hpasses, hsame, _⟩ := phases_call ha answered
      obtain ⟨_, hcourse, hrules, _⟩ := hpasses _ (hhires.accounted ha)
      refine ⟨accounted, ht.of_course course, ?_⟩
      rw [hrules]
      exact fun rule hrule =>
        ((hhires.hired hhired rule hrule).keep hcourse.reaches.keeps).same hsame

/-- However often an app is started and stopped, and whatever happens in between: a
message that waits in a queue when a call begins is, when the call returns, still
ready or unsettled, or it was meanwhile accepted by the destination of a bridge that
reads from the queue, or it is in the dead-letter queue, unless the stream of that
queue had been dropped before. After a stop it may also be that the message still
waited when the consumer of such a bridge dropped the stream of the queue. After a
start that fails this is known of queues whose stream is not dropped. -/
theorem queued_messages_accounted (a₀ : App) (w₀ : World) (hidle : w₀.tasks = [])
    (hrabbit : w₀.brokers.rabbit.Reachable) :
    ∀ h a w, Lived a₀ w₀ h a w →
      (∀ isOver deadline w', w.wait isOver deadline = some w' →
        ∃ h', Lived a₀ w₀ (h ++ h') a w') ∧
      ∀ call result a' w', a.call w call = some (result, a', w') →
        ∃ h', Lived a₀ w₀ (h ++ h') a' w' ∧
          Course (Employed a w'.brokers.rabbit) h w.brokers h' w'.brokers ∧
          ∀ queue d, w.brokers.rabbit.IsReady queue d →
            (call = .stop → Fate a h' w'.brokers.rabbit queue d ∨
              Dropped a h' w'.brokers.rabbit queue d) ∧
            (call = .start →
              (result = .ok () ∨ w'.brokers.rabbit.streamOf queue ≠ .dropped) →
              Fate a h' w'.brokers.rabbit queue d) := by
  intro h a w hl
  obtain ⟨ha, ht, hhired⟩ := hl.hired hidle hrabbit
  refine ⟨?_, ?_⟩
  · intro isOver deadline w' hwait
    obtain ⟨h', hcourse, _, ha'⟩ := World.passes_wait ha hwait
    exact ⟨h', .waited hl hwait hcourse ha'⟩
  · intro call result a' w' hcall
    obtain ⟨w₁, hhires, hpasses, _, hok⟩ := phases_call ha hcall
    obtain ⟨h₁, hdeclaring⟩ := hhires.declares
    obtain ⟨h₂, hworking, hrules, ha'⟩ :=
      hpasses (h ++ h₁) (hhires.accounted (ha.mono (List.subset_append_left _ _)))
    have hhired₁ := hhires.hired hhired
    have hcourse : Course (Employed a w'.brokers.rabbit) h w.brokers (h₁ ++ h₂)
        w'.brokers := by
      refine (hdeclaring.imp fun _ _ _ hd => .declares hd).trans (hworking.imp ?_)
      intro _ event _ hi
      cases hi with
      | ticks t => exact .ticks t
      | works mem does => exact .works ((hhired₁ _ mem).keep hworking.reaches.keeps) does
    rw [List.append_assoc] at ha'
    refine ⟨h₁ ++ h₂, .called hl hcall hcourse ha', hcourse, ?_⟩
    intro queue d hready
    have hready₁ := (retains_of_declaring hdeclaring).ready queue d hready
    have hmet : Fate a (h₁ ++ h₂) w'.brokers.rabbit queue d ∨
        Dropped a (h₁ ++ h₂) w'.brokers.rabbit queue d :=
      (Fate.ready hready₁).of_course (ht.of_course hdeclaring) hhired₁
        (ht.sound.placed queue d hready) hworking
    refine ⟨fun _ => hmet, ?_⟩
    rintro hstart (hresult | hkept)
    · rw [hok hstart hresult]
      exact .ready hready₁
    · exact hmet.resolve_right fun hdropped => hkept hdropped.stream

/-! ## Orders that get lost -/

/-- The app is started and stopped, and afterwards the delivery that has waited in
the queue all the time is nowhere: it is neither ready nor unsettled nor among the
dead letters, and the Amazon side has stored nothing, since it has drawn no
identifier. -/
def Loses (a : App) (w : World) (queue : String) (d : Rabbit.Delivery) : Prop :=
  ∃ a₁ w₁ a₂ w₂, a.call w .start = some (.ok (), a₁, w₁) ∧
    a₁.call w₁ .stop = some (.ok (), a₂, w₂) ∧ w₁.brokers.rabbit.IsReady queue d ∧
    (∀ x, ¬ w₂.brokers.rabbit.IsReady queue x) ∧ w₂.brokers.rabbit.unacked = [] ∧
    (∀ x, ¬ w₂.brokers.rabbit.IsReady (Rabbit.deadLetterName queue) x) ∧
    w₂.brokers.amazon.drawn = w₁.brokers.amazon.drawn

/-- How many deliveries are ready in a queue. -/
def waiting (w : World) (queue : String) : Nat :=
  ((w.brokers.rabbit.queue? queue).map (·.ready.length)).getD 0

theorem not_isReady_of_waiting {queue : String} (h : waiting w queue = 0)
    (d : Rabbit.Delivery) : ¬ w.brokers.rabbit.IsReady queue d := by
  rintro ⟨q, hq, hd⟩
  unfold waiting at h
  rw [hq] at h
  have hnone : q.ready = [] := List.length_eq_zero_iff.mp h
  rw [hnone] at hd
  cases hd

/-- Whether nothing is left after a start and a stop. -/
def emptied (a : App) (w : World) (queue : String) : Bool :=
  match a.call w .start with
  | some (.ok (), a₁, w₁) =>
    match a₁.call w₁ .stop with
    | some (.ok (), _, w₂) =>
      waiting w₂ queue == 0 && waiting w₂ (Rabbit.deadLetterName queue) == 0 &&
        w₂.brokers.rabbit.unacked.isEmpty &&
        w₂.brokers.amazon.drawn == w₁.brokers.amazon.drawn
    | _ => false
  | _ => false

theorem loses_of_emptied {queue : String} {d : Rabbit.Delivery} (hidle : w.tasks = [])
    (hready : w.brokers.rabbit.IsReady queue d) (h : a.emptied w queue = true) :
    a.Loses w queue d := by
  unfold emptied at h
  split at h
  · next a₁ w₁ hstart =>
      split at h
      · next a₂ w₂ hstop =>
          simp only [Bool.and_eq_true, beq_iff_eq, List.isEmpty_iff] at h
          obtain ⟨⟨⟨hqueue, hletters⟩, hunacked⟩, hdrawn⟩ := h
          obtain ⟨w, hhires, _, _, hok⟩ :=
            phases_call (World.accounted_of_idle hidle []) hstart
          obtain ⟨_, hdeclaring⟩ := hhires.declares
          obtain rfl := hok rfl rfl
          exact ⟨a₁, w₁, a₂, w₂, hstart, hstop,
            (retains_of_declaring hdeclaring).ready queue d hready,
            not_isReady_of_waiting hqueue, hunacked, not_isReady_of_waiting hletters, hdrawn⟩
      · cases h
  · cases h

/-- An app that takes orders to an Amazon queue. -/
def ordersApp : App where
  bridges := [Consumer.ordersBridge]
  rabbit := {}
  poller := {}

/-- An order waits in the queue of the bridge. -/
def orderWaits : World where
  brokers :=
    { rabbit := Consumer.ordersMade.2.rabbit.after (.send "orders" "created" "null".toUTF8)
      amazon := Consumer.ordersMade.2.amazon }

/-- An app whose forward bridge ends nowhere, with a reverse bridge beside it. -/
def strayApp : App where
  bridges :=
    [{ Consumer.ordersBridge with destination := .sqs "missing" },
      { source := .sqs "in", destination := .rabbit ⟨"events", "in"⟩ }]
  rabbit := {}
  poller := {}

/-- An order waits, and somebody has dropped the stream of the dead letters. -/
def orderWaitsAlone : World where
  brokers :=
    { rabbit := orderWaits.brokers.rabbit.after (.dropStream "orders-q-dead-letter")
      amazon := { queues := [("in", [])] } }

theorem reachable_orderWaits : orderWaits.brokers.rabbit.Reachable := by
  obtain ⟨_, hdeclaring⟩ := Endpoint.declares_ofBridge [] 0 true Consumer.ordersBridge
    { amazon := { queues := [("out", [])] } }
  have hmade : Consumer.ordersMade.2.rabbit.Reachable := ⟨1024, hdeclaring.reaches⟩
  exact hmade.tail (.send "orders" "created" "null".toUTF8)

theorem ready_orderWaits : orderWaits.brokers.rabbit.IsReady "orders-q" Consumer.order :=
  ⟨_, rfl, List.mem_singleton_self _⟩

/-- A consumer that has its first turn after the stop was requested drops a stream
with an order in it. And while a stop waits for the pollers, a consumer may still
take an order and reject it, with no place for the dead letter. -/
theorem orders_lost :
    ordersApp.Loses orderWaits "orders-q" Consumer.order ∧
      strayApp.Loses orderWaitsAlone "orders-q" Consumer.order := by
  have hready : orderWaitsAlone.brokers.rabbit.IsReady "orders-q" Consumer.order :=
    Rabbit.Broker.ready_dropStream (by decide) ready_orderWaits
  exact ⟨loses_of_emptied rfl ready_orderWaits (by decide +kernel),
    loses_of_emptied rfl hready (by decide +kernel)⟩

/-- The order that waits meets one of its fates in the start, and in the stop it is either
settled or dropped: afterwards it is not ready any more. -/
theorem order_accounted :
    ∃ h a w, Lived ordersApp orderWaits h a w ∧
      Fate ordersApp h w.brokers.rabbit "orders-q" Consumer.order ∧
      w.brokers.rabbit.IsReady "orders-q" Consumer.order ∧
      ∃ h' a' w', Lived ordersApp orderWaits (h ++ h') a' w' ∧
        (Fate a h' w'.brokers.rabbit "orders-q" Consumer.order ∨
          Dropped a h' w'.brokers.rabbit "orders-q" Consumer.order) ∧
        ¬ w'.brokers.rabbit.IsReady "orders-q" Consumer.order := by
  obtain ⟨a, w, a', w', hstart, hstop, hready, hgone, _⟩ :=
    loses_of_emptied (a := ordersApp) rfl ready_orderWaits (by decide +kernel)
  have hcalls := queued_messages_accounted ordersApp orderWaits rfl reachable_orderWaits
  obtain ⟨h, hl, _, hfate⟩ := (hcalls _ _ _ .begun).2 .start _ _ _ hstart
  obtain ⟨h', hl', _, hmet⟩ := (hcalls _ _ _ hl).2 .stop _ _ _ hstop
  exact ⟨_, a, w, hl, (hfate _ _ ready_orderWaits).2 rfl (.inl rfl), hready, h', a', w', hl',
    (hmet _ _ hready).1 rfl, hgone _⟩

end App

end MessageBridge
