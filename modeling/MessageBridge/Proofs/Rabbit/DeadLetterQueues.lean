import MessageBridge.Proofs.Rabbit.DeadLetter

/-!
# Who gets the dead letters of a source

The dead-letter exchange of a source may be shared: every source of the same
exchange binds its own dead-letter queue to it, by the name of its queue, and
clients may bind others. The name of a queue is therefore a routing key for its
own dead letters and a pattern for those of all others. A rejected delivery
leaves one copy in the dead-letter queue of its source, and one in each further
queue whose pattern happens to match the name. The name of another queue does so
only by a wildcard among its words.
-/

namespace MessageBridge.Rabbit.Broker

/-- The delivery is what the dead-letter exchange of a source makes of another one. -/
def IsDeadLetter (s : RabbitSource) (d copy : Delivery) : Prop :=
  copy.body = d.body ∧ copy.exchange = deadLetterName s.exchange ∧
    copy.routingKey = s.queueName

/-- Rejecting an unsettled delivery of a source strikes it, and routes its body
under the name of the queue. -/
theorem Provisioned.reject_routes {b : Broker} {s : RabbitSource} {tag : Nat} {d : Delivery}
    (h : b.Provisioned s) (hu : b.unacked? tag = some d) (hd : d.queue = s.queueName) :
    b.reject tag false = (.ok (),
      (b.settle tag).route (deadLetterName s.exchange) s.queueName d.body) := by
  have hs : (b.settle tag).Provisioned s := h.keep (.of_change (.settled tag))
  unfold Broker.reject
  rw [hu]
  simp only [Bool.false_eq_true, if_false]
  rw [hs.deadLetter_eq hd]

/-- A rejected delivery of a source is struck, and its dead-letter queue gains one
copy of it, unless somebody has dropped the stream of that queue. Any other queue
gains one copy at most, and only by a binding to the dead-letter exchange whose
pattern matches the name of the queue. If it is the dead-letter queue of another
source, with no binding besides its own, then it gains none as long as the name of
that source's queue has no wildcard among its words. -/
theorem dead_letters_reach_own_queue {b₀ b₁ b : Broker} {s : RabbitSource} {t : Topology}
    (hprovision : b₀.provision s = (.ok t, b₁)) (hreaches : b₁.Reaches b) {tag : Nat}
    {d : Delivery} (hu : b.unacked? tag = some d) (hd : d.queue = s.queueName) :
    ∃ b', b.reject tag false = (.ok (), b') ∧
      b'.unacked = b.unacked.filter (·.tag ≠ tag) ∧
      (∃ q, b.queue? (deadLetterName s.queueName) = some q ∧
        (q.stream ≠ .dropped → ∃ copy, IsDeadLetter s d copy ∧
          b'.queue? (deadLetterName s.queueName) =
            some { q with ready := q.ready ++ [copy] })) ∧
      (∀ name, name ≠ deadLetterName s.queueName → b'.queue? name = b.queue? name ∨
        ∃ q copy, IsDeadLetter s d copy ∧ b.queue? name = some q ∧
          b'.queue? name = some { q with ready := q.ready ++ [copy] } ∧
          ∃ x ∈ b.bindings, x.queue = name ∧ x.exchange = deadLetterName s.exchange ∧
            topicMatches x.routingKey s.queueName = true) ∧
      ∀ s' : RabbitSource, s'.queueName ≠ s.queueName →
        (∀ w ∈ words s'.queueName, IsLiteral w) →
        (∀ x ∈ b.bindings, x.queue = deadLetterName s'.queueName →
          x = (Topology.ofSource s').deadLetterBinding) →
        b'.queue? (deadLetterName s'.queueName) = b.queue? (deadLetterName s'.queueName) := by
  have hp : b.Provisioned s := (provisioned_of_provision hprovision).keep hreaches.keeps
  have hs : (b.settle tag).Provisioned s := hp.keep (.of_change (.settled tag))
  have hroute := queue?_route (b.settle tag) (deadLetterName s.exchange) s.queueName d.body
  have htargets : ∀ name,
      name ∈ (b.settle tag).targets (deadLetterName s.exchange) s.queueName ↔ _ :=
    fun name => mem_targets_of_topic (deadLetterName_ne_empty _) hs.exchange
  refine ⟨_, hp.reject_routes hu hd, unacked_route _ _ _ _, ?_, ?_, ?_⟩
  · obtain ⟨q, hq, _⟩ := hp.deadLetterQueue
    obtain ⟨copyTag, _, hview⟩ := hroute (deadLetterName s.queueName)
    have hq' : (b.settle tag).queue? (deadLetterName s.queueName) = some q := hq
    refine ⟨q, hq, fun hopen => ⟨deadLetterOf s d copyTag, ⟨rfl, rfl, rfl⟩, ?_⟩⟩
    rw [hview, hq', Option.map_some, if_pos hs.mem_targets, ← Queue.push_of_open _ hopen]
    rfl
  · intro name _
    obtain ⟨copyTag, _, hview⟩ := hroute name
    have hsame : (b.settle tag).queue? name = b.queue? name := rfl
    rw [hview, hsame]
    cases hq : b.queue? name with
    | none => exact Or.inl rfl
    | some q =>
        by_cases htarget : name ∈ (b.settle tag).targets (deadLetterName s.exchange) s.queueName
        · rw [Option.map_some, if_pos htarget]
          by_cases hopen : q.stream = .dropped
          · exact Or.inl (congrArg some (Queue.push_of_dropped _ hopen))
          · rw [Queue.push_of_open _ hopen]
            exact Or.inr ⟨q, ⟨copyTag, _, _, name, d.body, false⟩, ⟨rfl, rfl, rfl⟩, rfl, rfl,
              (htargets name).mp htarget⟩
        · rw [Option.map_some, if_neg htarget]
          exact Or.inl rfl
  · intro s' hne hliteral honly
    obtain ⟨copyTag, _, hview⟩ := hroute (deadLetterName s'.queueName)
    have hnot : deadLetterName s'.queueName ∉
        (b.settle tag).targets (deadLetterName s.exchange) s.queueName := by
      intro htarget
      obtain ⟨x, hx, hqueue, _, hmatches⟩ := (htargets _).mp htarget
      rw [honly x hx hqueue] at hmatches
      exact hne (eq_of_topicMatches hliteral hmatches)
    rw [hview]
    simp only [if_neg hnot, Option.map_id_fun']
    rfl

/-- Two sources of one exchange. The name of the first queue is a pattern that
matches the name of the second one. -/
def anyOrder : RabbitSource := ⟨"orders", "order.*", "#"⟩

def newOrder : RabbitSource := ⟨"orders", "order.new", "#"⟩

/-- Both sources are provisioned, and a delivery of the first one has been taken. -/
def anyOrderTaken : Broker :=
  (((({} : Broker).provision anyOrder).2.after
      (.declareQueue (Topology.ofSource newOrder).deadLetterQueue)).after
    (.declareBinding (Topology.ofSource newOrder).deadLetterBinding)).after
    (.send "" "order.*" "null".toUTF8) |>.after (.next "order.*")

/-- The dead letter of the first source stays out of the queue of the second one. -/
theorem anyOrder_apart :
    ∃ b', anyOrderTaken.reject 1 false = (.ok (), b') ∧
      (∃ q copy, b'.queue? "order.*-dead-letter" = some q ∧ q.ready = [copy] ∧
        copy.body = "null".toUTF8) ∧
      b'.queue? "order.new-dead-letter" = anyOrderTaken.queue? "order.new-dead-letter" := by
  have hprovision : ({} : Broker).provision anyOrder =
      (.ok (Topology.ofSource anyOrder), (({} : Broker).provision anyOrder).2) := rfl
  have hreaches : (({} : Broker).provision anyOrder).2.Reaches anyOrderTaken :=
    (((Reaches.of_after _ _).tail ⟨_, rfl⟩).tail ⟨_, rfl⟩).tail ⟨_, rfl⟩
  have hu : anyOrderTaken.unacked? 1 =
      some ⟨1, "", "order.*", "order.*", "null".toUTF8, false⟩ := rfl
  have honly : ∀ x ∈ anyOrderTaken.bindings, x.queue = "order.new-dead-letter" →
      x = (Topology.ofSource newOrder).deadLetterBinding := by decide +kernel
  obtain ⟨b', hreject, _, ⟨q, hq, hopen⟩, _, hapart⟩ :=
    dead_letters_reach_own_queue hprovision hreaches hu rfl
  have hidle : q.stream ≠ .dropped ∧ q.ready = [] := by
    cases hq
    exact ⟨nofun, rfl⟩
  obtain ⟨copy, ⟨hbody, _⟩, hq'⟩ := hopen hidle.1
  refine ⟨b', hreject, ⟨_, copy, hq', ?_, hbody⟩,
    hapart newOrder (by decide) (by decide +kernel) honly⟩
  rw [hidle.2]
  rfl

end MessageBridge.Rabbit.Broker
