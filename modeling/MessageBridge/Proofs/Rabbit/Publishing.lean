import MessageBridge.Proofs.Rabbit.Order
import MessageBridge.Proofs.Rabbit.Patterns

/-!
# Where a publication goes

A message is put once into each queue that gets it, however many of its bindings are
satisfied, and nowhere else. The queues that get it are said here without the list that
the broker makes of them: `Receives` asks for one binding that is satisfied, and
`mem_targets_iff` says that the list holds these queues.

The list has each queue once, so putting the message into one queue after the other
changes each of them once, and the tags that are drawn on the way are told by the places
in the list.
-/

namespace MessageBridge.Rabbit

/-- A routing key satisfies the key of a binding, in the way of the kind of the exchange. -/
def ExchangeKind.Satisfied : ExchangeKind → String → String → Prop
  | .topic, pattern, routingKey => Fills (words pattern) (words routingKey)
  | .direct, key, routingKey => key = routingKey
  | .fanout, _, _ => True

namespace Broker

variable {b b' : Broker}

theorem uses_iff (kind : ExchangeKind) (x : Binding) (routingKey : String) :
    ExchangeKind.uses kind x routingKey = true ↔ kind.Satisfied x.routingKey routingKey := by
  cases kind with
  | topic => exact topicMatches_iff
  | direct => simp [ExchangeKind.uses, ExchangeKind.Satisfied, eq_comm]
  | fanout => simp [ExchangeKind.uses, ExchangeKind.Satisfied]

/-- The queue of this name gets what is published: the routing key is its name when there
is no exchange, and otherwise one of its bindings to the exchange is satisfied. -/
def Receives (b : Broker) (exchange routingKey name : String) : Prop :=
  (exchange = "" ∧ name = routingKey) ∨
    exchange ≠ "" ∧ ∃ e x, b.exchange? exchange = some e ∧ x ∈ b.bindings ∧
      x.exchange = exchange ∧ x.queue = name ∧ e.kind.Satisfied x.routingKey routingKey

/-- What a successful publication makes of a broker, with the tags of the new deliveries. -/
structure Publishes (b : Broker) (exchange routingKey : String) (body : ByteArray)
    (tag : String → Nat) (b' : Broker) : Prop where
  /-- Nothing but the queues, the tags and the log is changed. -/
  frame : ∃ queues lastTag, b' = { b with
    queues, lastTag
    published := Log.latest b.logCapacity (b.published ++ [⟨exchange, routingKey, body⟩]) }
  /-- A queue that gets the message gets it once, behind all that is ready. -/
  gains : ∀ name q, b.queue? name = some q → b.Receives exchange routingKey name →
    q.stream ≠ .dropped → b'.queue? name = some
      { q with ready := q.ready ++ [⟨tag name, exchange, routingKey, name, body, false⟩] }
  /-- Any other queue stays as it is, and so does one whose stream was dropped. -/
  spared : ∀ name q, b.queue? name = some q →
    ¬ b.Receives exchange routingKey name ∨ q.stream = .dropped → b'.queue? name = some q
  undeclared : ∀ name, b.queue? name = none → b'.queue? name = none
  /-- No delivery that was ever made has the tag of a new one. -/
  fresh : ∀ name, (b.queue? name).isSome → b.Receives exchange routingKey name →
    tag name ≤ b'.lastTag ∧
      ∀ b₀ : Broker, b₀.Reachable → b₀.Reaches b → ∀ d, b₀.Has d → d.tag < tag name
  apart : ∀ name name', b.Receives exchange routingKey name →
    b.Receives exchange routingKey name' → tag name = tag name' → name = name'

/-! ## Putting a message into several queues -/

/-- Nothing but the queues and the tags differs. -/
def OnlyQueues (b b' : Broker) : Prop :=
  ∃ queues lastTag, b' = { b with queues, lastTag }

theorem OnlyQueues.trans {b₁ b₂ b₃ : Broker} (h₁₂ : OnlyQueues b₁ b₂) (h₂₃ : OnlyQueues b₂ b₃) :
    OnlyQueues b₁ b₃ := by
  obtain ⟨_, _, rfl⟩ := h₁₂
  obtain ⟨queues, lastTag, rfl⟩ := h₂₃
  exact ⟨queues, lastTag, rfl⟩

theorem lastTag_enqueue {queue : String} (hdeclared : (b.queue? queue).isSome)
    (exchange routingKey : String) (body : ByteArray) (redelivered : Bool) :
    (b.enqueue queue exchange routingKey body redelivered).lastTag = b.lastTag + 1 := by
  obtain ⟨q, hq⟩ := Option.isSome_iff_exists.mp hdeclared
  rw [enqueue_of_some hq]

theorem onlyQueues_enqueue (b : Broker) (queue exchange routingKey : String) (body : ByteArray)
    (redelivered : Bool) :
    OnlyQueues b (b.enqueue queue exchange routingKey body redelivered) := by
  cases hq : b.queue? queue with
  | none =>
      rw [enqueue_of_none hq]
      exact ⟨b.queues, b.lastTag, rfl⟩
  | some q =>
      rw [enqueue_of_some hq]
      exact ⟨_, _, rfl⟩

variable {exchange routingKey : String} {body : ByteArray}

theorem onlyQueues_route (b : Broker) (exchange routingKey : String) (body : ByteArray) :
    OnlyQueues b (b.route exchange routingKey body) := by
  rw [route]
  generalize b.targets exchange routingKey = queues
  induction queues generalizing b with
  | nil => exact ⟨b.queues, b.lastTag, rfl⟩
  | cons queue rest ih => exact (onlyQueues_enqueue b queue ..).trans (ih _)

/-- Where all queues are declared, each gets the tag that its place in the list says. -/
theorem queue?_enqueueAll_of_declared {queues : List String} (exchange routingKey : String)
    (body : ByteArray) (hnodup : queues.Nodup)
    (hdeclared : ∀ name ∈ queues, (b.queue? name).isSome) :
    (queues.foldl (fun b queue => b.enqueue queue exchange routingKey body false) b).lastTag =
        b.lastTag + queues.length ∧
      ∀ name, (queues.foldl
          (fun b queue => b.enqueue queue exchange routingKey body false) b).queue? name =
        (b.queue? name).map fun q =>
          if name ∈ queues then
            q.push ⟨b.lastTag + 1 + queues.idxOf name, exchange, routingKey, name, body, false⟩
          else q := by
  induction queues generalizing b with
  | nil => simp
  | cons queue rest ih =>
      obtain ⟨hnot, hrest⟩ := List.nodup_cons.mp hnodup
      obtain ⟨hqueue, hothers⟩ := List.forall_mem_cons.mp hdeclared
      have hlast := lastTag_enqueue hqueue exchange routingKey body false
      obtain ⟨hcount, hview⟩ := ih (b := b.enqueue queue exchange routingKey body false) hrest (by
        intro name hname
        rw [queue?_enqueue, Option.isSome_map]
        exact hothers name hname)
      rw [hlast] at hcount hview
      refine ⟨by rw [List.foldl_cons, hcount, List.length_cons]; omega, fun name => ?_⟩
      rw [List.foldl_cons, hview, queue?_enqueue, Option.map_map]
      congr 1
      funext q
      by_cases hn : name = queue
      · subst hn
        simp [hnot, newDelivery]
      · have hidx : (queue :: rest).idxOf name = rest.idxOf name + 1 :=
          List.idxOf_cons_ne _ (Ne.symm hn)
        simp [hn, hidx, Nat.add_comm, Nat.add_left_comm]

/-! ## The list of the queues -/

/-- A message can be published to the exchange, or there is none to look for. -/
def Accepts (b : Broker) (exchange : String) : Prop :=
  exchange = "" ∨ (b.exchange? exchange).isSome

theorem mem_targets_iff (haccepts : b.Accepts exchange) (routingKey name : String) :
    name ∈ b.targets exchange routingKey ↔ b.Receives exchange routingKey name := by
  by_cases hempty : exchange = ""
  · subst hempty
    simp [targets, Receives]
  · obtain ⟨e, he⟩ := Option.isSome_iff_exists.mp (haccepts.resolve_left hempty)
    rw [mem_targets (by simpa using hempty) he]
    constructor
    · intro ⟨x, hx, hqueue, hexchange, huses⟩
      exact .inr ⟨hempty, e, x, he, hx, hexchange, hqueue, (uses_iff _ _ _).mp huses⟩
    · intro h
      obtain ⟨_, e', x, he', hx, hexchange, hqueue, hsatisfied⟩ :=
        h.resolve_left fun h => hempty h.1
      obtain rfl := Option.some.inj (he.symm.trans he')
      exact ⟨x, hx, hqueue, hexchange, (uses_iff _ _ _).mpr hsatisfied⟩

/-- A message goes to declared queues only, the one that is named without an exchange
excepted. -/
theorem WellFormed.declared_of_receives (hw : b.WellFormed) {name : String}
    (hempty : exchange ≠ "") (h : b.Receives exchange routingKey name) :
    (b.queue? name).isSome := by
  obtain ⟨_, e, x, _, hx, _, hqueue, _⟩ := h.resolve_left fun h => hempty h.1
  exact hqueue ▸ (hw.bindingEnds x hx).2

/-- What a message that is put into all queues that get it makes of each queue. -/
theorem WellFormed.route (hw : b.WellFormed) (haccepts : b.Accepts exchange)
    (routingKey : String) (body : ByteArray) :
    (∀ name ∈ b.targets exchange routingKey, (b.queue? name).isSome →
      b.lastTag + 1 + (b.targets exchange routingKey).idxOf name ≤
        (b.route exchange routingKey body).lastTag) ∧
    ∀ name, (b.route exchange routingKey body).queue? name =
      (b.queue? name).map fun q =>
        if name ∈ b.targets exchange routingKey then
          q.push ⟨b.lastTag + 1 + (b.targets exchange routingKey).idxOf name, exchange,
            routingKey, name, body, false⟩
        else q := by
  have hnodup := nodup_targets b exchange routingKey
  by_cases hdeclared : ∀ name ∈ b.targets exchange routingKey, (b.queue? name).isSome
  · obtain ⟨hlast, hview⟩ := queue?_enqueueAll_of_declared exchange routingKey body hnodup hdeclared
    refine ⟨fun name hname _ => ?_, hview⟩
    have hplace := List.idxOf_lt_length_of_mem hname
    rw [Broker.route, hlast]
    omega
  · -- only the queue that is named without an exchange can be missing
    have hempty : exchange = "" := by
      by_contra hempty
      exact hdeclared fun name hname =>
        hw.declared_of_receives hempty ((mem_targets_iff haccepts routingKey name).mp hname)
    subst hempty
    have htargets : b.targets "" routingKey = [routingKey] := by simp [targets]
    have hnone : b.queue? routingKey = none := by simpa [htargets] using hdeclared
    have hsame : b.route "" routingKey body = b := by
      rw [Broker.route, htargets, List.foldl_cons, List.foldl_nil, enqueue_of_none hnone]
    rw [htargets, hsame]
    refine ⟨fun name hname hsome => ?_, fun name => ?_⟩
    · rw [List.mem_singleton.mp hname, hnone] at hsome
      cases hsome
    · by_cases hname : name = routingKey
      · rw [hname, hnone]
        rfl
      · simp [hname]

/-! ## Publishing -/

theorem Reaches.tag_le {b₀ : Broker} (h : b₀.Reaches b) (hreachable : b₀.Reachable)
    {d : Delivery} (hd : b₀.Has d) : d.tag ≤ b.lastTag :=
  Nat.le_trans (hreachable.sound.known d hd).drawn (Changes.lastTag_le h.changes)

theorem send_of_failure {failure : Failure} {rest : List Failure}
    (h : b.failures = failure :: rest) (exchange routingKey : String) (body : ByteArray) :
    b.send exchange routingKey body = (.error failure, { b with failures := rest }) := by
  rw [send, h]

theorem send_of_unknown (h : b.failures = []) (hempty : exchange ≠ "")
    (hunknown : b.exchange? exchange = none) (routingKey : String) (body : ByteArray) :
    b.send exchange routingKey body =
      (.error (Refusal.noExchange exchange).failure, b) := by
  simp [send, h, hempty, hunknown]

theorem send_of_accepts (h : b.failures = []) (haccepts : b.Accepts exchange)
    (routingKey : String) (body : ByteArray) :
    b.send exchange routingKey body = (.ok (), { b.route exchange routingKey body with
      published := Log.push b.logCapacity b.published ⟨exchange, routingKey, body⟩ }) := by
  have hknown : (!exchange.isEmpty && (b.exchange? exchange).isNone) = false := by
    obtain hempty | hsome := haccepts
    · simp [hempty]
    · simp [Option.isNone_eq_false_iff.mpr hsome]
  rw [send, h]
  simp only [hknown, Bool.false_eq_true, if_false]

/-- A message that is published to a broker, whatever has been asked of it before, is put
behind what is ready in each queue that gets it, once, with a tag that no delivery ever
had, and the log has one more entry; no other queue is changed. A failure that somebody
asked for is used up instead, and a message to an exchange that nobody has declared
changes nothing. -/
theorem publishes_exactly (hreachable : b.Reachable) (exchange routingKey : String)
    (body : ByteArray) :
    (∀ failure rest, b.failures = failure :: rest →
      b.send exchange routingKey body = (.error failure, { b with failures := rest })) ∧
    (b.failures = [] → exchange ≠ "" → b.exchange? exchange = none →
      b.send exchange routingKey body = (.error (Refusal.noExchange exchange).failure, b)) ∧
    (b.failures = [] → (exchange = "" ∨ (b.exchange? exchange).isSome) →
      ∃ b' tag, b.send exchange routingKey body = (.ok (), b') ∧
        b.Publishes exchange routingKey body tag b') := by
  refine ⟨fun _ _ h => send_of_failure h .., fun h hempty hunknown =>
    send_of_unknown h hempty hunknown .., fun h haccepts => ?_⟩
  obtain ⟨htag, hview⟩ := hreachable.wellFormed.route haccepts routingKey body
  have htargets := mem_targets_iff haccepts routingKey
  let place := fun name => (b.targets exchange routingKey).idxOf name
  refine ⟨_, fun name => b.lastTag + 1 + place name, send_of_accepts h haccepts .., ?_⟩
  refine ⟨?_, ?_, ?_, ?_, ?_, ?_⟩
  · obtain ⟨queues, lastTag, hroute⟩ := onlyQueues_route b exchange routingKey body
    exact ⟨queues, lastTag, by rw [hroute]; rfl⟩
  · intro name q hq hreceives hopen
    show (b.route exchange routingKey body).queue? name = _
    rw [hview, hq, Option.map_some, if_pos ((htargets name).mpr hreceives),
      Queue.push_of_open _ hopen]
  · intro name q hq hspared
    show (b.route exchange routingKey body).queue? name = _
    rw [hview, hq, Option.map_some]
    obtain hnot | hdropped := hspared
    · rw [if_neg fun hname => hnot ((htargets name).mp hname)]
    · rw [Queue.push_of_dropped _ hdropped, ite_self]
  · intro name hnone
    show (b.route exchange routingKey body).queue? name = _
    rw [hview, hnone, Option.map_none]
  · intro name hsome hreceives
    refine ⟨htag name ((htargets name).mpr hreceives) hsome, fun b₀ h₀ hreaches d hd => ?_⟩
    have := hreaches.tag_le h₀ hd
    omega
  · intro name name' hreceives hreceives' heq
    have hplaces : place name = place name' := by omega
    exact (List.idxOf_inj ((htargets name).mpr hreceives)).mp hplaces

theorem reaches_foldl (ops : List Operation) (b : Broker) : b.Reaches (ops.foldl after b) := by
  induction ops generalizing b with
  | nil => exact .refl
  | cons op rest ih => exact .head ⟨op, rfl⟩ (ih _)

/-- Three queues that are bound to one exchange: one of them twice, and of another one the
stream has been dropped. -/
def ordersBound : Broker :=
  [.declareExchange (.topic "orders"), .declareQueue (.standard "audit"),
    .declareQueue (.standard "billing"), .declareQueue (.standard "closed"),
    .declareBinding ⟨"audit", "orders", "old.#"⟩, .declareBinding ⟨"billing", "orders", "#"⟩,
    .declareBinding ⟨"billing", "orders", "*.eu"⟩, .declareBinding ⟨"closed", "orders", "#"⟩,
    .consume "closed", .dropStream "closed"].foldl after {}

/-- Both bindings of a queue are satisfied, and it gets the message once. -/
theorem newOrder_published :
    ordersBound.Reachable ∧
      ∃ b' d, ordersBound.send "orders" "new.eu" "1".toUTF8 = (.ok (), b') ∧
        (b'.queue? "billing").map (·.ready) = some [d] ∧ d.routingKey = "new.eu" ∧
        b'.queue? "audit" = ordersBound.queue? "audit" ∧
        b'.queue? "closed" = ordersBound.queue? "closed" := by
  have hreachable : ordersBound.Reachable := ⟨1024, reaches_foldl _ _⟩
  obtain ⟨b', tag, hsend, hpublishes⟩ :=
    (publishes_exactly hreachable "orders" "new.eu" "1".toUTF8).2.2 rfl (.inr rfl)
  have hreceives : ∀ name, ordersBound.Receives "orders" "new.eu" name ↔
      name ∈ ["billing", "closed"] := by
    intro name
    have htargets : ordersBound.targets "orders" "new.eu" = ["billing", "closed"] := by
      decide +kernel
    rw [← mem_targets_iff (.inr rfl), htargets]
  have hbilling := hpublishes.gains "billing" _ rfl ((hreceives _).mpr (by decide)) nofun
  refine ⟨hreachable, b', ⟨tag "billing", "orders", "new.eu", "billing", "1".toUTF8, false⟩, hsend,
    ?_, rfl, hpublishes.spared "audit" _ rfl (.inl ?_),
    hpublishes.spared "closed" _ rfl (.inr rfl)⟩
  · rw [hbilling]
    rfl
  · rw [hreceives]
    decide

end Broker

end MessageBridge.Rabbit
