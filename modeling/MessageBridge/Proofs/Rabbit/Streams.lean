import MessageBridge.Proofs.Rabbit.DeadLetter

/-!
# The stream of a queue

There are three operations that a stream can notice. Consuming the queue takes a
stream that is there, and is refused otherwise; dropping ends a stream for good;
and a queue that is declared comes with its stream. As a queue that is not
declared has not lost its stream either, its stream counts as idle, and then a
declaration changes nothing. What is left is `TouchesStream`: every operation but
these two leaves the stream of a queue as it is.
-/

namespace MessageBridge.Rabbit

/-- The operation is on the stream of the queue. -/
def Operation.TouchesStream (queue : String) : Operation → Prop
  | .consume name | .dropStream name => name = queue
  | _ => False

namespace Broker

/-- What has become of the stream of a queue. -/
def streamOf (b : Broker) (queue : String) : Stream :=
  ((b.queue? queue).map (·.stream)).getD .idle

theorem streamOf_of_some {b : Broker} {queue : String} {q : Queue}
    (h : b.queue? queue = some q) : b.streamOf queue = q.stream := by
  rw [streamOf, h]
  rfl

/-- A stream that was dropped stays dropped. -/
theorem Keeps.streamOf_dropped {b b' : Broker} (h : Keeps b b') {queue : String}
    (hdropped : b.streamOf queue = .dropped) : b'.streamOf queue = .dropped := by
  cases hq : b.queue? queue with
  | none =>
      rw [streamOf, hq] at hdropped
      cases hdropped
  | some q =>
      rw [streamOf_of_some hq] at hdropped
      obtain ⟨q', hq', _, hstays⟩ := h.queue queue q hq
      rw [streamOf_of_some hq', hstays hdropped]

theorem streamOf_of_map {b b' : Broker} {queue : String} {f : Queue → Queue}
    (h : b'.queue? queue = (b.queue? queue).map f) (hf : ∀ q, (f q).stream = q.stream) :
    b'.streamOf queue = b.streamOf queue := by
  rw [streamOf, streamOf, h]
  cases b.queue? queue with
  | none => rfl
  | some q => exact hf q

@[simp] theorem streamOf_enqueue (b : Broker) (name exchange routingKey : String)
    (body : ByteArray) (redelivered : Bool) (queue : String) :
    (b.enqueue name exchange routingKey body redelivered).streamOf queue = b.streamOf queue := by
  refine streamOf_of_map (queue?_enqueue ..) fun q => ?_
  split
  · exact Queue.push_stream _ _
  · rfl

@[simp] theorem streamOf_route (b : Broker) (exchange routingKey : String) (body : ByteArray)
    (queue : String) : (b.route exchange routingKey body).streamOf queue = b.streamOf queue := by
  unfold route
  induction b.targets exchange routingKey generalizing b with
  | nil => rfl
  | cons name rest ih => rw [List.foldl_cons, ih, streamOf_enqueue]

@[simp] theorem streamOf_deadLetter (b : Broker) (d : Delivery) (queue : String) :
    (b.deadLetter d).streamOf queue = b.streamOf queue := by
  unfold deadLetter
  simp only []
  split
  · rfl
  · exact streamOf_route ..

theorem streamOf_declareQueue (b : Broker) (spec : QueueSpec) (queue : String) :
    (b.declareQueue spec).2.streamOf queue = b.streamOf queue := by
  unfold declareQueue
  split
  · split <;> rfl
  · next hnone =>
      show streamOf { b with queues := b.queues ++ [⟨spec, [], .idle⟩] } queue = _
      unfold streamOf queue? at *
      rw [List.find?_append]
      cases hfound : b.queues.find? fun q => q.spec.name = queue with
      | some q => rfl
      | none =>
          by_cases hname : spec.name = queue
          · simp [hname]
          · simp [hname]

theorem streamOf_send (b : Broker) (exchange routingKey : String) (body : ByteArray)
    (queue : String) : (b.send exchange routingKey body).2.streamOf queue = b.streamOf queue := by
  unfold send
  split
  · rfl
  · split
    · rfl
    · exact streamOf_route ..

theorem streamOf_next (b : Broker) (name queue : String) :
    (b.next name).2.streamOf queue = b.streamOf queue := by
  unfold next
  split
  · rfl
  · split
    · rfl
    · next d rest _ =>
        refine streamOf_of_map (queue?_handedOut b name rest (b.unacked ++ [d]) queue) fun q => ?_
        split <;> rfl

theorem streamOf_takeReady (b : Broker) (name queue : String) :
    (b.takeReady name).2.streamOf queue = b.streamOf queue := by
  unfold takeReady
  split
  · rfl
  · split
    · refine streamOf_of_map (queue?_emptied b name false queue) fun q => ?_
      split <;> rfl
    · rfl

theorem streamOf_ack (b : Broker) (tag : Nat) (queue : String) :
    (b.ack tag).2.streamOf queue = b.streamOf queue := by
  unfold ack
  split <;> rfl

theorem streamOf_reject (b : Broker) (tag : Nat) (requeue : Bool) (queue : String) :
    (b.reject tag requeue).2.streamOf queue = b.streamOf queue := by
  unfold reject
  split
  · rfl
  · cases requeue with
    | true => exact streamOf_enqueue ..
    | false => exact streamOf_deadLetter ..

/-- Consuming a queue that is declared takes its stream, or somebody has had it. -/
theorem consume_cases (b : Broker) (queue : String) (hdeclared : (b.queue? queue).isSome) :
    b.streamOf queue = .idle ∧ (b.consume queue).1 = .ok () ∧
        (b.consume queue).2.streamOf queue = .taken ∨
      b.streamOf queue ≠ .idle ∧
        b.consume queue = (.error (Refusal.streamTaken queue).failure, b) := by
  obtain ⟨q, hq⟩ := Option.isSome_iff_exists.mp hdeclared
  rw [streamOf_of_some hq]
  unfold consume
  rw [hq]
  cases hstream : q.stream with
  | idle =>
      refine .inl ⟨rfl, by simp [hstream], ?_⟩
      have htaken := queue?_taken b queue queue
      rw [hq, Option.map_some, if_pos rfl] at htaken
      simp only [hstream]
      exact streamOf_of_some htaken
  | taken => exact .inr ⟨(fun h => nomatch h), by simp [hstream]⟩
  | dropped => exact .inr ⟨(fun h => nomatch h), by simp [hstream]⟩

theorem streamOf_dropStream {b : Broker} {queue : String} (hdeclared : (b.queue? queue).isSome) :
    (b.dropStream queue).streamOf queue = .dropped := by
  obtain ⟨q, hq⟩ := Option.isSome_iff_exists.mp hdeclared
  have hdropped := queue?_emptied b queue true queue
  rw [hq, Option.map_some, if_pos rfl] at hdropped
  exact streamOf_of_some hdropped

/-- Nothing but consuming a queue and dropping its stream is noticed by the stream. -/
theorem streamOf_after {op : Operation} {queue : String} (h : ¬ op.TouchesStream queue)
    (b : Broker) : (b.after op).streamOf queue = b.streamOf queue := by
  cases op with
  | declareExchange e =>
      show (b.declareExchange e).2.streamOf queue = _
      unfold declareExchange
      split
      · split <;> rfl
      · rfl
  | declareQueue spec => exact streamOf_declareQueue b spec queue
  | declareBinding x =>
      show (b.declareBinding x).2.streamOf queue = _
      unfold declareBinding
      split
      · rfl
      · split
        · rfl
        · split <;> rfl
  | failNext failure => rfl
  | send exchange routingKey body => exact streamOf_send b exchange routingKey body queue
  | consume name =>
      have hname : queue ≠ name := fun heq => h heq.symm
      show (b.consume name).2.streamOf queue = _
      unfold consume
      split
      · rfl
      · split
        · exact streamOf_of_map (queue?_taken b name queue) fun q => by rw [if_neg hname]
        · rfl
        · rfl
  | next name => exact streamOf_next b name queue
  | dropStream name =>
      have hname : queue ≠ name := fun heq => h heq.symm
      exact streamOf_of_map (queue?_emptied b name true queue) fun q => by rw [if_neg hname]
  | takeReady name => exact streamOf_takeReady b name queue
  | ack tag => exact streamOf_ack b tag queue
  | reject tag requeue => exact streamOf_reject b tag requeue queue

end Broker

end MessageBridge.Rabbit
