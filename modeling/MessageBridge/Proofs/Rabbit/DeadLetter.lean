import MessageBridge.Proofs.OrderedTexts
import MessageBridge.Proofs.Rabbit.Standing
import MessageBridge.Proofs.Rabbit.Topic

/-!
# Dead letters reach the queue that belongs to them

The queue of a forward bridge says where its rejected deliveries go: to the
dead-letter exchange, under the name of the queue. The same name is the pattern
of the binding that leads from there to the dead-letter queue. A pattern matches
itself, whatever wildcards it holds, so the dead-letter queue is always among
the targets; targets stand once each, so it gains one copy and not two.

`Provisioned` collects what this takes. It holds as soon as the declarations of
a source were successful, and it stays true since declarations stay.
-/

namespace MessageBridge.Rabbit.Broker

/-! ## What routing does to a queue -/

theorem nodup_targets (b : Broker) (exchange routingKey : String) :
    (b.targets exchange routingKey).Nodup := by
  unfold targets
  split
  · simp
  · exact OrderedTexts.nodup_ofList _

/-- Putting a message into several queues adds one delivery to each of them and
none to any other queue. -/
theorem queue?_enqueueAll (exchange routingKey : String) (body : ByteArray) :
    ∀ {queues : List String}, queues.Nodup → ∀ (b : Broker) (name : String),
      ∃ tag, b.lastTag < tag ∧
        (queues.foldl
          (fun b queue => b.enqueue queue exchange routingKey body false) b).queue? name =
          (b.queue? name).map fun q =>
            if name ∈ queues then q.push ⟨tag, exchange, routingKey, name, body, false⟩
            else q := by
  intro queues
  induction queues with
  | nil =>
      intro _ b name
      exact ⟨b.lastTag + 1, Nat.lt_succ_self _, by simp⟩
  | cons queue rest ih =>
      intro hnodup b name
      obtain ⟨hnot, hrest⟩ := List.nodup_cons.mp hnodup
      obtain ⟨tag, htag, hview⟩ := ih hrest
        (b.enqueue queue exchange routingKey body false) name
      rw [queue?_enqueue, Option.map_map] at hview
      by_cases hn : name = queue
      · subst hn
        refine ⟨b.lastTag + 1, Nat.lt_succ_self _, ?_⟩
        rw [List.foldl_cons, hview]
        congr 1
        funext q
        simp [hnot, newDelivery]
      · refine ⟨tag, Nat.lt_of_le_of_lt (lastTag_enqueue_le ..) htag, ?_⟩
        rw [List.foldl_cons, hview]
        congr 1
        funext q
        simp [hn]

theorem queue?_route (b : Broker) (exchange routingKey : String) (body : ByteArray)
    (name : String) :
    ∃ tag, b.lastTag < tag ∧
      (b.route exchange routingKey body).queue? name =
        (b.queue? name).map fun q =>
          if name ∈ b.targets exchange routingKey then
            q.push ⟨tag, exchange, routingKey, name, body, false⟩
          else q :=
  queue?_enqueueAll exchange routingKey body (nodup_targets b exchange routingKey) b name

theorem unacked_route (b : Broker) (exchange routingKey : String) (body : ByteArray) :
    (b.route exchange routingKey body).unacked = b.unacked := by
  unfold route
  generalize b.targets exchange routingKey = queues
  induction queues generalizing b with
  | nil => rfl
  | cons queue rest ih =>
      rw [List.foldl_cons, ih, unacked_enqueue]

/-! ## Where the dead letters of a source go -/

/-- The declarations that the dead letters of a source need. -/
structure Provisioned (b : Broker) (s : RabbitSource) : Prop where
  exchange : b.exchange? (deadLetterName s.exchange) =
    some (Exchange.topic (deadLetterName s.exchange))
  queue : ∃ q, b.queue? s.queueName = some q ∧ q.spec = (Topology.ofSource s).queue
  deadLetterQueue : ∃ q, b.queue? (deadLetterName s.queueName) = some q ∧
    q.spec = (Topology.ofSource s).deadLetterQueue
  binding : (Topology.ofSource s).deadLetterBinding ∈ b.bindings

theorem Provisioned.keep {b b' : Broker} {s : RabbitSource} (h : b.Provisioned s)
    (hk : Keeps b b') : b'.Provisioned s where
  exchange := hk.exchange _ _ h.exchange
  queue := by
    obtain ⟨q, hq, hspec⟩ := h.queue
    obtain ⟨q', hq', hspec', _⟩ := hk.queue _ _ hq
    exact ⟨q', hq', hspec'.trans hspec⟩
  deadLetterQueue := by
    obtain ⟨q, hq, hspec⟩ := h.deadLetterQueue
    obtain ⟨q', hq', hspec', _⟩ := hk.queue _ _ hq
    exact ⟨q', hq', hspec'.trans hspec⟩
  binding := hk.binding _ h.binding

theorem declareExchange_ok {b b' : Broker} {e : Exchange}
    (h : b.declareExchange e = (.ok (), b')) : b'.exchange? e.name = some e := by
  unfold declareExchange at h
  split at h
  · next declared hd =>
      split at h
      · next heq =>
          injection h with _ hb
          rw [← hb, hd, heq]
      · simp at h
  · next hn =>
      injection h with _ hb
      unfold exchange? at hn
      rw [← hb]
      unfold exchange?
      simp [hn, List.find?_append]

theorem declareQueue_ok {b b' : Broker} {spec : QueueSpec}
    (h : b.declareQueue spec = (.ok (), b')) :
    ∃ q, b'.queue? spec.name = some q ∧ q.spec = spec := by
  unfold declareQueue at h
  split at h
  · next declared hd =>
      split at h
      · next heq =>
          injection h with _ hb
          exact ⟨declared, hb ▸ hd, heq⟩
      · simp at h
  · next hn =>
      injection h with _ hb
      refine ⟨⟨spec, [], .idle⟩, ?_, rfl⟩
      unfold queue? at hn
      rw [← hb]
      unfold queue?
      simp [hn, List.find?_append]

theorem declareBinding_ok {b b' : Broker} {x : Binding}
    (h : b.declareBinding x = (.ok (), b')) : x ∈ b'.bindings := by
  unfold declareBinding at h
  split at h
  · simp at h
  · split at h
    · simp at h
    · split at h
      · next hc =>
          injection h with _ hb
          rw [← hb]
          simpa using hc
      · injection h with _ hb
        rw [← hb]
        exact List.mem_append_right _ (List.mem_singleton_self x)

theorem declareAll_cons_ok {b b' : Broker}
    {declare : Broker → Except Failure Unit × Broker}
    {rest : List (Broker → Except Failure Unit × Broker)}
    (h : b.declareAll (declare :: rest) = (.ok (), b')) :
    ∃ b₁, declare b = (.ok (), b₁) ∧ b₁.declareAll rest = (.ok (), b') := by
  rw [declareAll] at h
  split at h
  · simp at h
  · next b₁ hb₁ => exact ⟨b₁, hb₁, h⟩

/-- After a successful provisioning the dead letters of the source have their
place. -/
theorem provisioned_of_provision {b b' : Broker} {s : RabbitSource} {t : Topology}
    (h : b.provision s = (.ok t, b')) : b'.Provisioned s := by
  unfold provision at h
  simp only [] at h
  split at h
  · simp at h
  · next b₆ hall =>
      injection h with _ hb
      subst hb
      obtain ⟨b₁, h₁, hall⟩ := declareAll_cons_ok hall
      obtain ⟨b₂, h₂, hall⟩ := declareAll_cons_ok hall
      obtain ⟨b₃, h₃, hall⟩ := declareAll_cons_ok hall
      obtain ⟨b₄, h₄, hall⟩ := declareAll_cons_ok hall
      obtain ⟨b₅, h₅, hall⟩ := declareAll_cons_ok hall
      obtain ⟨b₇, h₆, hall⟩ := declareAll_cons_ok hall
      rw [declareAll] at hall
      injection hall with _ hb
      subst hb
      have k₃ : Keeps b₂ b₃ := by
        have := Keeps.of_changes (changes_declareQueue b₂ (Topology.ofSource s).queue)
        rwa [h₃] at this
      have k₄ : Keeps b₃ b₄ := by
        have := Keeps.of_changes
          (changes_declareQueue b₃ (Topology.ofSource s).deadLetterQueue)
        rwa [h₄] at this
      have k₅ : Keeps b₄ b₅ := by
        have := Keeps.of_changes
          (changes_declareBinding b₄ (Topology.ofSource s).queueBinding)
        rwa [h₅] at this
      have k₆ : Keeps b₅ b₇ := by
        have := Keeps.of_changes
          (changes_declareBinding b₅ (Topology.ofSource s).deadLetterBinding)
        rwa [h₆] at this
      have k₅₇ := k₅.trans k₆
      have k₄₇ := k₄.trans k₅₇
      refine ⟨(k₃.trans k₄₇).exchange _ _ (declareExchange_ok h₂), ?_, ?_,
        declareBinding_ok h₆⟩
      · obtain ⟨q, hq, hspec⟩ := declareQueue_ok h₃
        obtain ⟨q', hq', hspec', _⟩ := k₄₇.queue _ _ hq
        exact ⟨q', hq', hspec'.trans hspec⟩
      · obtain ⟨q, hq, hspec⟩ := declareQueue_ok h₄
        obtain ⟨q', hq', hspec', _⟩ := k₅₇.queue _ _ hq
        exact ⟨q', hq', hspec'.trans hspec⟩

/-- The arguments of the queue of a source. They stand in the order of their
names, whatever the order in which they are added. -/
theorem arguments_ofSource (s : RabbitSource) :
    (Topology.ofSource s).queue.arguments =
      [(deadLetterExchangeArgument, deadLetterName s.exchange),
        (deadLetterRoutingKeyArgument, s.queueName)] := by
  have hne : deadLetterRoutingKeyArgument ≠ deadLetterExchangeArgument := by decide
  have hlt : ¬ deadLetterRoutingKeyArgument < deadLetterExchangeArgument := by decide
  simp only [Topology.ofSource, QueueSpec.standard, QueueSpec.withArgument,
    Entries.setSorted, if_neg hne, if_neg hlt]

/-- The queue of a source is never declared as the dead-letter queue of a source:
only one of the two has arguments. -/
theorem queue_ne_deadLetterQueue (s s' : RabbitSource) :
    (Topology.ofSource s).queue ≠ (Topology.ofSource s').deadLetterQueue := by
  intro heq
  have hargs := congrArg QueueSpec.arguments heq
  rw [arguments_ofSource] at hargs
  cases hargs

/-- Sources that are provisioned side by side do not have the dead-letter queue of
one as the queue of another. -/
theorem Provisioned.queue_ne_deadLetter {b : Broker} {s s' : RabbitSource}
    (h : b.Provisioned s) (h' : b.Provisioned s') :
    s.queueName ≠ deadLetterName s'.queueName := by
  intro heq
  obtain ⟨q, hq, hspec⟩ := h.queue
  obtain ⟨q', hq', hspec'⟩ := h'.deadLetterQueue
  rw [heq, hq'] at hq
  injection hq with hq
  rw [← hq, hspec'] at hspec
  exact queue_ne_deadLetterQueue s s' hspec.symm

/-! ## Rejecting a delivery of a source -/

theorem deadLetterName_ne_empty (name : String) : (deadLetterName name).isEmpty = false := by
  simp [deadLetterName]

/-- An exchange sends a message to the queues with a binding that it uses. -/
theorem mem_targets {b : Broker} {exchange routingKey name : String} {e : Exchange}
    (hname : exchange.isEmpty = false) (he : b.exchange? exchange = some e) :
    name ∈ b.targets exchange routingKey ↔
      ∃ x ∈ b.bindings, x.queue = name ∧ x.exchange = exchange ∧
        ExchangeKind.uses e.kind x routingKey = true := by
  unfold targets
  rw [hname, he]
  simp only [Bool.false_eq_true, if_false]
  rw [OrderedTexts.mem_ofList, List.mem_map]
  simp only [List.mem_filter, Bool.and_eq_true, decide_eq_true_eq]
  constructor
  · rintro ⟨x, ⟨hx, hexchange, huses⟩, hqueue⟩
    exact ⟨x, hx, hqueue, hexchange, huses⟩
  · rintro ⟨x, hx, hqueue, hexchange, huses⟩
    exact ⟨x, ⟨hx, hexchange, huses⟩, hqueue⟩

/-- A topic exchange sends a message to the queues that are bound to it by a pattern
that matches. -/
theorem mem_targets_of_topic {b : Broker} {exchange routingKey name : String}
    (hname : exchange.isEmpty = false)
    (htopic : b.exchange? exchange = some (Exchange.topic exchange)) :
    name ∈ b.targets exchange routingKey ↔
      ∃ x ∈ b.bindings, x.queue = name ∧ x.exchange = exchange ∧
        topicMatches x.routingKey routingKey = true :=
  mem_targets hname htopic

/-- The dead-letter queue gets whatever is sent to the dead-letter exchange under
the name of the queue. -/
theorem Provisioned.mem_targets {b : Broker} {s : RabbitSource} (h : b.Provisioned s) :
    deadLetterName s.queueName ∈ b.targets (deadLetterName s.exchange) s.queueName :=
  (mem_targets_of_topic (deadLetterName_ne_empty _) h.exchange).mpr
    ⟨(Topology.ofSource s).deadLetterBinding, h.binding, rfl, rfl, topicMatches_self _⟩

theorem Provisioned.deadLetter_eq {b : Broker} {s : RabbitSource} {d : Delivery}
    (h : b.Provisioned s) (hd : d.queue = s.queueName) :
    b.deadLetter d = b.route (deadLetterName s.exchange) s.queueName d.body := by
  obtain ⟨q, hq, hspec⟩ := h.queue
  have hargs : ((b.queue? d.queue).map (·.spec.arguments)).getD [] =
      [(deadLetterExchangeArgument, deadLetterName s.exchange),
        (deadLetterRoutingKeyArgument, s.queueName)] := by
    rw [hd, hq, ← arguments_ofSource, ← hspec]
    rfl
  unfold deadLetter
  simp only []
  rw [hargs]
  rfl

/-- The copy of a rejected delivery that goes to the dead-letter queue. -/
def deadLetterOf (s : RabbitSource) (d : Delivery) (tag : Nat) : Delivery :=
  ⟨tag, deadLetterName s.exchange, s.queueName, deadLetterName s.queueName, d.body, false⟩

/-- A rejected delivery of a source is settled, and its dead-letter queue gets one
copy of it. -/
theorem Provisioned.reject {b : Broker} {s : RabbitSource} {d : Delivery}
    (h : b.Provisioned s) (hd : d.queue = s.queueName) (hu : b.unacked? d.tag = some d) :
    ∃ b', b.reject d.tag false = (.ok (), b') ∧
      b'.unacked = b.unacked.filter (·.tag ≠ d.tag) ∧
      ∃ tag, b.lastTag < tag ∧ ∃ q, b.queue? (deadLetterName s.queueName) = some q ∧
        b'.queue? (deadLetterName s.queueName) = some (q.push (deadLetterOf s d tag)) := by
  have hs : (b.settle d.tag).Provisioned s := h.keep (.of_change (.settled d.tag))
  refine ⟨(b.settle d.tag).deadLetter d, ?_, ?_, ?_⟩
  · unfold Broker.reject
    rw [hu]
    rfl
  · rw [hs.deadLetter_eq hd, unacked_route]
    rfl
  · obtain ⟨q, hq, _⟩ := h.deadLetterQueue
    obtain ⟨tag, htag, hview⟩ := queue?_route (b.settle d.tag) (deadLetterName s.exchange)
      s.queueName d.body (deadLetterName s.queueName)
    refine ⟨tag, htag, q, hq, ?_⟩
    have hq' : (b.settle d.tag).queue? (deadLetterName s.queueName) = some q := hq
    rw [hs.deadLetter_eq hd, hview, hq', Option.map_some, if_pos hs.mem_targets]
    rfl

end MessageBridge.Rabbit.Broker
