import MessageBridge.Rabbit.Broker
import Mathlib.Logic.Relation

/-!
# What clients do to a rabbit broker

Everything that can be asked of a broker is an `Operation`, and a broker is
reached from another one when some list of operations leads there. Statements
about all states of a broker are statements about what is reached.

Eleven operations are too many to go through for every such statement, and most
of what they do they share: a rejected delivery is settled and routed, a
publication is routed, and routing puts one delivery after the other into
queues. `Change` lists the nine elementary changes that all operations are made
of, with the guards under which they happen. `changes_after` says that nothing
else happens, and every invariant of the broker is proved change by change.

The proofs look at the queues through `queue?` alone, as the operations do. What
the list of queues looks like behind it does not matter.
-/

namespace MessageBridge.Rabbit

/-- Something that a client asks of a broker. -/
inductive Operation where
  | declareExchange (exchange : Exchange)
  | declareQueue (spec : QueueSpec)
  | declareBinding (binding : Binding)
  /-- The next publication is to end in a failure. -/
  | failNext (failure : Failure)
  | send (exchange routingKey : String) (body : ByteArray)
  | consume (queue : String)
  | next (queue : String)
  | dropStream (queue : String)
  | takeReady (queue : String)
  | ack (tag : Nat)
  | reject (tag : Nat) (requeue : Bool)

/-- Put a delivery at the end of a queue. A queue whose stream has been dropped
loses it. -/
def Queue.push (q : Queue) (d : Delivery) : Queue :=
  if q.stream = .dropped then q else { q with ready := q.ready ++ [d] }

@[simp] theorem Queue.push_spec (q : Queue) (d : Delivery) : (q.push d).spec = q.spec := by
  unfold Queue.push
  split <;> rfl

@[simp] theorem Queue.push_stream (q : Queue) (d : Delivery) :
    (q.push d).stream = q.stream := by
  unfold Queue.push
  split <;> rfl

theorem Queue.push_of_dropped {q : Queue} (d : Delivery) (h : q.stream = .dropped) :
    q.push d = q := by
  unfold Queue.push
  rw [if_pos h]

theorem Queue.push_of_open {q : Queue} (d : Delivery) (h : q.stream ≠ .dropped) :
    q.push d = { q with ready := q.ready ++ [d] } := by
  unfold Queue.push
  rw [if_neg h]

theorem Queue.push_ready {q : Queue} (d : Delivery) (h : q.stream ≠ .dropped) :
    (q.push d).ready = q.ready ++ [d] := by
  rw [Queue.push_of_open d h]

theorem Queue.mem_push {q : Queue} {d x : Delivery} (h : x ∈ (q.push d).ready) :
    x ∈ q.ready ∨ x = d := by
  unfold Queue.push at h
  split at h
  · exact Or.inl h
  · simpa using h

theorem Queue.mem_push_of_mem {q : Queue} {x : Delivery} (d : Delivery)
    (h : x ∈ q.ready) : x ∈ (q.push d).ready := by
  unfold Queue.push
  split
  · exact h
  · exact List.mem_append_left _ h

namespace Broker

/-- The broker after an operation, whatever the operation has come to. -/
def after (b : Broker) : Operation → Broker
  | .declareExchange exchange => (b.declareExchange exchange).2
  | .declareQueue spec => (b.declareQueue spec).2
  | .declareBinding binding => (b.declareBinding binding).2
  | .failNext failure => { b with failures := b.failures ++ [failure] }
  | .send exchange routingKey body => (b.send exchange routingKey body).2
  | .consume queue => (b.consume queue).2
  | .next queue => (b.next queue).2
  | .dropStream queue => b.dropStream queue
  | .takeReady queue => (b.takeReady queue).2
  | .ack tag => (b.ack tag).2
  | .reject tag requeue => (b.reject tag requeue).2

/-- Some operations lead from one broker to the other. -/
def Reaches : Broker → Broker → Prop :=
  Relation.ReflTransGen fun b b' => ∃ op, b' = b.after op

theorem Reaches.of_after (b : Broker) (op : Operation) : Reaches b (b.after op) :=
  .single ⟨op, rfl⟩

/-- A broker that has come about by operations alone. -/
def Reachable (b : Broker) : Prop :=
  ∃ logCapacity, Reaches { logCapacity } b

theorem Reachable.tail {b : Broker} (h : b.Reachable) (op : Operation) :
    (b.after op).Reachable := by
  obtain ⟨logCapacity, hr⟩ := h
  exact ⟨logCapacity, hr.tail ⟨op, rfl⟩⟩

/-! ## Elementary changes -/

/-- An elementary change of a broker. -/
inductive Change (b : Broker) : Broker → Prop where
  /-- The failures to come and the log of publications concern no queue. -/
  | noted (failures : List Failure) (published : List Publication) :
    Change b { b with failures, published }
  | newExchange (e : Exchange) (h : b.exchange? e.name = none) :
    Change b { b with exchanges := b.exchanges ++ [e] }
  | newQueue (spec : QueueSpec) (h : b.queue? spec.name = none) :
    Change b { b with queues := b.queues ++ [⟨spec, [], .idle⟩] }
  | newBinding (x : Binding) (hx : (b.exchange? x.exchange).isSome)
      (hq : (b.queue? x.queue).isSome) (hb : x ∉ b.bindings) :
    Change b { b with bindings := b.bindings ++ [x] }
  | enqueued (queue exchange routingKey : String) (body : ByteArray) (redelivered : Bool) :
    Change b (b.enqueue queue exchange routingKey body redelivered)
  | settled (tag : Nat) : Change b (b.settle tag)
  /-- The stream is taken, and what is ready stays ready. -/
  | taken (queue : String) (q : Queue) (hq : b.queue? queue = some q) (hs : q.stream = .idle) :
    Change b (b.modifyQueue queue fun q => { q with stream := .taken })
  /-- The first delivery is handed out. -/
  | handedOut (queue : String) (q : Queue) (d : Delivery) (rest : List Delivery)
      (hq : b.queue? queue = some q) (hr : q.ready = d :: rest) :
    Change b { b.modifyQueue queue fun q => { q with ready := rest } with
      unacked := b.unacked ++ [d] }
  /-- Whatever is ready goes, and the stream may go as well. -/
  | emptied (queue : String) (dropped : Bool) :
    Change b (b.modifyQueue queue fun q =>
      { q with ready := [], stream := if dropped then .dropped else q.stream })

/-- Elementary changes lead from one broker to the other. -/
abbrev Changes : Broker → Broker → Prop := Relation.ReflTransGen Change

/-! ## The operations are made of elementary changes -/

theorem changes_declareExchange (b : Broker) (e : Exchange) :
    Changes b (b.declareExchange e).2 := by
  unfold declareExchange
  split
  · split <;> exact .refl
  · next h => exact .single (.newExchange e h)

theorem changes_declareQueue (b : Broker) (spec : QueueSpec) :
    Changes b (b.declareQueue spec).2 := by
  unfold declareQueue
  split
  · split <;> exact .refl
  · next h => exact .single (.newQueue spec h)

theorem changes_declareBinding (b : Broker) (x : Binding) :
    Changes b (b.declareBinding x).2 := by
  unfold declareBinding
  split
  · exact .refl
  · next hx =>
      split
      · exact .refl
      · next hq =>
          split
          · exact .refl
          · next hb =>
              refine .single (.newBinding x ?_ ?_ ?_)
              · simpa [Option.isSome_iff_ne_none] using hx
              · simpa [Option.isSome_iff_ne_none] using hq
              · simpa using hb

theorem changes_enqueueAll (exchange routingKey : String) (body : ByteArray) :
    ∀ (queues : List String) (b : Broker),
      Changes b (queues.foldl
        (fun b queue => b.enqueue queue exchange routingKey body false) b) := by
  intro queues
  induction queues with
  | nil => intro b; exact .refl
  | cons queue rest ih =>
      intro b
      exact .head (.enqueued queue exchange routingKey body false) (ih _)

theorem changes_route (b : Broker) (exchange routingKey : String) (body : ByteArray) :
    Changes b (b.route exchange routingKey body) :=
  changes_enqueueAll exchange routingKey body _ b

theorem changes_send (b : Broker) (exchange routingKey : String) (body : ByteArray) :
    Changes b (b.send exchange routingKey body).2 := by
  unfold send
  split
  · next failure failures _ => exact .single (.noted failures b.published)
  · split
    · exact .refl
    · exact .tail (changes_route b exchange routingKey body) (.noted _ _)

theorem changes_consume (b : Broker) (queue : String) : Changes b (b.consume queue).2 := by
  unfold consume
  split
  · exact .refl
  · next q hq =>
      split
      · next hs => exact .single (.taken queue q hq hs)
      · exact .refl
      · exact .refl

theorem changes_next (b : Broker) (queue : String) : Changes b (b.next queue).2 := by
  unfold next
  split
  · exact .refl
  · next q hq =>
      split
      · exact .refl
      · next d rest hr => exact .single (.handedOut queue q d rest hq hr)

theorem changes_dropStream (b : Broker) (queue : String) : Changes b (b.dropStream queue) :=
  .single (.emptied queue true)

theorem changes_takeReady (b : Broker) (queue : String) :
    Changes b (b.takeReady queue).2 := by
  unfold takeReady
  split
  · exact .refl
  · split
    · exact .single (.emptied queue false)
    · exact .refl

theorem changes_ack (b : Broker) (tag : Nat) : Changes b (b.ack tag).2 := by
  unfold ack
  split
  · exact .refl
  · exact .single (.settled tag)

theorem changes_deadLetter (b : Broker) (d : Delivery) : Changes b (b.deadLetter d) := by
  unfold deadLetter
  simp only []
  split
  · exact .refl
  · exact changes_route _ _ _ _

theorem changes_reject (b : Broker) (tag : Nat) (requeue : Bool) :
    Changes b (b.reject tag requeue).2 := by
  unfold reject
  split
  · exact .refl
  · next d _ =>
      cases requeue with
      | true => exact .tail (.single (.settled tag)) (.enqueued _ _ _ _ _)
      | false => exact .head (.settled tag) (changes_deadLetter _ d)

theorem changes_after (b : Broker) (op : Operation) : Changes b (b.after op) := by
  cases op with
  | declareExchange exchange => exact changes_declareExchange b exchange
  | declareQueue spec => exact changes_declareQueue b spec
  | declareBinding binding => exact changes_declareBinding b binding
  | failNext failure => exact .single (.noted _ b.published)
  | send exchange routingKey body => exact changes_send b exchange routingKey body
  | consume queue => exact changes_consume b queue
  | next queue => exact changes_next b queue
  | dropStream queue => exact changes_dropStream b queue
  | takeReady queue => exact changes_takeReady b queue
  | ack tag => exact changes_ack b tag
  | reject tag requeue => exact changes_reject b tag requeue

/-- What every elementary change keeps, every reached broker has. -/
theorem Reaches.changes {b b' : Broker} (h : Reaches b b') : Changes b b' := by
  induction h with
  | refl => exact .refl
  | tail _ step ih =>
      obtain ⟨op, rfl⟩ := step
      exact ih.trans (changes_after _ op)

end Broker

end MessageBridge.Rabbit
