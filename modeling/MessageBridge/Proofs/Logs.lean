import MessageBridge.Proofs.Amazon.Arrival
import MessageBridge.Proofs.Rabbit.Operations
import Mathlib.Data.List.Induction

/-!
# Logs keep the latest

Each broker writes a log of what is sent through it, up to a capacity. However many entries
there have been, the log has the latest of them, and all of them as long as they fit.

Nothing is decided by a log. A rabbit broker with another log and another capacity does the
same with every operation, and `after_withLog` says so in one equation, which also tells
what becomes of the log. The logs of a service stand with its topics, and whether a topic is
there does matter. So a service is compared with the one that has the same topics and keeps
nothing, `withoutLogs`, and an operation on that one comes to the same. Brokers that differ
in their logs alone do so for good, and their queues are always the same.
-/

namespace MessageBridge

namespace Log

variable {α : Type}

/-- The log has the latest of all entries, in order, as many as its capacity allows. -/
structure Keeps (capacity : Nat) (log entries : List α) : Prop where
  latest : log <:+ entries
  length_eq : log.length = min capacity entries.length

theorem Keeps.push {capacity : Nat} {log entries : List α} (h : Keeps capacity log entries)
    (entry : α) : Keeps capacity (push capacity log entry) (entries ++ [entry]) := by
  obtain ⟨⟨earlier, rfl⟩, hlength⟩ := h
  refine ⟨?_, ?_⟩
  · rw [List.append_assoc]
    exact (List.drop_suffix _ _).trans (List.suffix_append _ _)
  · simp only [Log.push, Log.latest, List.length_drop, List.length_append, List.length_cons,
      List.length_nil] at hlength ⊢
    omega

theorem keeps_foldl (capacity : Nat) (entries : List α) :
    Keeps capacity (entries.foldl (Log.push capacity) []) entries := by
  induction entries using List.reverseRecOn with
  | nil => exact ⟨List.suffix_refl [], (Nat.min_zero capacity).symm⟩
  | append_singleton entries entry ih =>
      rw [List.foldl_concat]
      exact ih.push entry

end Log

namespace Rabbit.Broker

/-- The publication that an operation comes to, if it is one and succeeds. -/
def publication? (b : Broker) : Operation → Option Publication
  | .send exchange routingKey body =>
    match (b.send exchange routingKey body).1 with
    | .ok () => some ⟨exchange, routingKey, body⟩
    | .error _ => none
  | _ => none

/-- The publications that operations come to, one after the other. -/
def publications (b : Broker) : List Operation → List Publication
  | [] => []
  | op :: rest => (b.publication? op).toList ++ (b.after op).publications rest

/-- The broker with another log. -/
def withLog (b : Broker) (logCapacity : Nat) (published : List Publication) : Broker :=
  { b with logCapacity, published }

/-- The broker as it is when its log keeps nothing. -/
def withoutLog (b : Broker) : Broker :=
  b.withLog 0 []

variable (b : Broker) (capacity : Nat) (log : List Publication)

theorem enqueue_withLog (queue exchange routingKey : String) (body : ByteArray)
    (redelivered : Bool) :
    (b.withLog capacity log).enqueue queue exchange routingKey body redelivered =
      (b.enqueue queue exchange routingKey body redelivered).withLog capacity log := by
  have hqueue : (b.withLog capacity log).queue? queue = b.queue? queue := rfl
  simp only [enqueue, hqueue]
  split <;> rfl

theorem route_withLog (exchange routingKey : String) (body : ByteArray) :
    (b.withLog capacity log).route exchange routingKey body =
      (b.route exchange routingKey body).withLog capacity log := by
  have henqueue : ∀ (queues : List String) (b : Broker),
      queues.foldl (fun b queue => b.enqueue queue exchange routingKey body false)
          (b.withLog capacity log) =
        (queues.foldl (fun b queue => b.enqueue queue exchange routingKey body false)
          b).withLog capacity log := by
    intro queues
    induction queues with
    | nil => exact fun b => rfl
    | cons queue rest ih =>
        intro b
        rw [List.foldl_cons, List.foldl_cons, enqueue_withLog, ih]
  exact henqueue _ b

theorem deadLetter_withLog (d : Delivery) :
    (b.withLog capacity log).deadLetter d = (b.deadLetter d).withLog capacity log := by
  have hqueue : (b.withLog capacity log).queue? d.queue = b.queue? d.queue := rfl
  simp only [deadLetter, hqueue]
  cases Entries.get? deadLetterExchangeArgument
      (((b.queue? d.queue).map (·.spec.arguments)).getD []) with
  | none => rfl
  | some exchange => exact route_withLog b capacity log _ _ _

theorem send_withLog (exchange routingKey : String) (body : ByteArray) :
    (b.withLog capacity log).send exchange routingKey body =
      ((b.send exchange routingKey body).1,
        (b.send exchange routingKey body).2.withLog capacity
          (((b.publication? (.send exchange routingKey body)).toList).foldl
            (Log.push capacity) log)) := by
  have hfailures : (b.withLog capacity log).failures = b.failures := rfl
  have hexchange : (b.withLog capacity log).exchange? exchange = b.exchange? exchange := rfl
  simp only [publication?, send, hfailures, hexchange]
  cases b.failures with
  | cons failure failures => rfl
  | nil =>
      simp only []
      split
      · rfl
      · rw [route_withLog]
        rfl

theorem declareBinding_withLog (binding : Binding) :
    (b.withLog capacity log).declareBinding binding =
      ((b.declareBinding binding).1, (b.declareBinding binding).2.withLog capacity log) := by
  have hexchange : (b.withLog capacity log).exchange? binding.exchange =
    b.exchange? binding.exchange := rfl
  have hqueue : (b.withLog capacity log).queue? binding.queue = b.queue? binding.queue := rfl
  have hbindings : (b.withLog capacity log).bindings = b.bindings := rfl
  simp only [declareBinding, hexchange, hqueue, hbindings]
  split
  · rfl
  · split
    · rfl
    · split <;> rfl

theorem reject_withLog (tag : Nat) (requeue : Bool) :
    (b.withLog capacity log).reject tag requeue =
      ((b.reject tag requeue).1, (b.reject tag requeue).2.withLog capacity log) := by
  have hunacked : (b.withLog capacity log).unacked? tag = b.unacked? tag := rfl
  have hsettle : (b.withLog capacity log).settle tag = (b.settle tag).withLog capacity log := rfl
  simp only [reject, hunacked, hsettle, enqueue_withLog, deadLetter_withLog]
  cases b.unacked? tag with
  | none => rfl
  | some d => cases requeue <;> rfl

/-- An operation does the same to a broker with another log, and the log gets what the
operation publishes. -/
theorem after_withLog (op : Operation) :
    (b.withLog capacity log).after op =
      (b.after op).withLog capacity ((b.publication? op).toList.foldl (Log.push capacity) log) := by
  have hexchange : ∀ name, (b.withLog capacity log).exchange? name = b.exchange? name :=
    fun _ => rfl
  have hqueue : ∀ name, (b.withLog capacity log).queue? name = b.queue? name := fun _ => rfl
  have hunacked : ∀ tag, (b.withLog capacity log).unacked? tag = b.unacked? tag := fun _ => rfl
  cases op with
  | declareExchange e =>
      simp only [after, declareExchange, hexchange]
      cases b.exchange? e.name with
      | none => rfl
      | some declared =>
          simp only []
          split <;> rfl
  | declareQueue spec =>
      simp only [after, declareQueue, hqueue]
      cases b.queue? spec.name with
      | none => rfl
      | some declared =>
          simp only []
          split <;> rfl
  | declareBinding binding => exact congrArg Prod.snd (declareBinding_withLog ..)
  | failNext failure => rfl
  | send exchange routingKey body => exact congrArg Prod.snd (send_withLog ..)
  | consume queue =>
      simp only [after, consume, hqueue]
      cases b.queue? queue with
      | none => rfl
      | some q => cases h : q.stream <;> simp only [h] <;> rfl
  | next queue =>
      simp only [after, next, hqueue]
      cases b.queue? queue with
      | none => rfl
      | some q => cases h : q.ready <;> simp only [h] <;> rfl
  | dropStream queue => rfl
  | takeReady queue =>
      simp only [after, takeReady, hqueue]
      cases b.queue? queue with
      | none => rfl
      | some q =>
          simp only []
          split <;> rfl
  | ack tag =>
      simp only [after, ack, hunacked]
      cases b.unacked? tag <;> rfl
  | reject tag requeue => exact congrArg Prod.snd (reject_withLog ..)

theorem publication?_withLog (op : Operation) :
    (b.withLog capacity log).publication? op = b.publication? op := by
  cases op with
  | send exchange routingKey body => simp only [publication?, send_withLog]
  | _ => rfl

theorem publications_withLog (ops : List Operation) :
    (b.withLog capacity log).publications ops = b.publications ops := by
  induction ops generalizing b log with
  | nil => rfl
  | cons op rest ih =>
      rw [publications, publications, publication?_withLog, after_withLog, ih]

/-- Operations do the same to a broker with another log, and the log gets what they
publish. -/
theorem foldl_after_withLog (ops : List Operation) :
    ops.foldl after (b.withLog capacity log) =
      (ops.foldl after b).withLog capacity
        ((b.publications ops).foldl (Log.push capacity) log) := by
  induction ops generalizing b log with
  | nil => rfl
  | cons op rest ih =>
      rw [List.foldl_cons, List.foldl_cons, after_withLog, ih, publications, List.foldl_append]

end Rabbit.Broker

namespace Amazon.Service

/-- The bodies that calls put into the log of a topic, one after the other. -/
def loggedBodies (s : Service) (topic : String) : List (Instant × Operation) → List String
  | [] => []
  | (now, op) :: rest =>
    (s.logged? topic op).toList ++ (s.after now op).loggedBodies topic rest

/-- The service after calls, each with its moment. -/
def afterAll (s : Service) (calls : List (Instant × Operation)) : Service :=
  calls.foldl (fun s call => s.after call.1 call.2) s

/-- The topics with empty logs. -/
def blank (topics : Entries (List String)) : Entries (List String) :=
  topics.map fun (name, _) => (name, [])

/-- The service as it is when its logs keep nothing. -/
def withoutLogs (s : Service) : Service :=
  { s with logCapacity := 0, topics := blank s.topics }

variable (s : Service)

theorem get?_blank (name : String) (topics : Entries (List String)) :
    Entries.get? name (blank topics) = (Entries.get? name topics).map fun _ => [] := by
  induction topics with
  | nil => rfl
  | cons entry rest ih =>
      show (if entry.1 = name then some [] else Entries.get? name (blank rest)) =
        (if entry.1 = name then some entry.2 else Entries.get? name rest).map fun _ => []
      split
      · rfl
      · exact ih

theorem blank_set (name : String) (log : List String) (topics : Entries (List String)) :
    blank (Entries.set name log topics) = Entries.set name [] (blank topics) := by
  induction topics with
  | nil => rfl
  | cons entry rest ih =>
      show blank (if entry.1 = name then (entry.1, log) :: rest
          else (entry.1, entry.2) :: Entries.set name log rest) =
        if entry.1 = name then (entry.1, []) :: blank rest
          else (entry.1, []) :: Entries.set name [] (blank rest)
      split
      · rfl
      · exact congrArg ((entry.1, []) :: ·) ih

theorem has_withoutLogs (name : String) :
    Entries.has name s.withoutLogs.topics = Entries.has name s.topics := by
  show (Entries.get? name (blank s.topics)).isSome = (Entries.get? name s.topics).isSome
  rw [get?_blank, Option.isSome_map]

theorem createQueue_withoutLogs (name : String) :
    s.withoutLogs.createQueue name = (s.createQueue name).withoutLogs := by
  have hqueues : s.withoutLogs.queues = s.queues := rfl
  simp only [createQueue, hqueues]
  split <;> rfl

theorem createTopic_withoutLogs (name : String) :
    s.withoutLogs.createTopic name = (s.createTopic name).withoutLogs := by
  simp only [createTopic, has_withoutLogs]
  split
  · rfl
  · simp only [withoutLogs, blank, List.map_append, List.map_cons, List.map_nil]

theorem store_withoutLogs (queue body : String) :
    s.withoutLogs.store queue body =
      ((s.store queue body).1, (s.store queue body).2.withoutLogs) := by
  have hqueue : s.withoutLogs.queue? queue = s.queue? queue := rfl
  simp only [store, hqueue]
  cases s.queue? queue <;> rfl

theorem putMessage_withoutLogs (queue body : String) :
    s.withoutLogs.putMessage queue body =
      ((s.putMessage queue body).1, (s.putMessage queue body).2.withoutLogs) := by
  simp only [putMessage, store_withoutLogs]
  rcases s.store queue body with ⟨_ | _, _⟩ <;> rfl

theorem notifyAll_withoutLogs (now : Instant) (topic body : String) (queues : List String) :
    s.withoutLogs.notifyAll now topic body queues =
      ((s.notifyAll now topic body queues).1,
        (s.notifyAll now topic body queues).2.withoutLogs) := by
  induction queues generalizing s with
  | nil => rfl
  | cons queue rest ih =>
      have hdraw : s.withoutLogs.draw = (s.draw.1, s.draw.2.withoutLogs) := rfl
      have hstart : s.draw.2.withoutLogs.clockStart = s.draw.2.clockStart := rfl
      simp only [notifyAll, hdraw, hstart, store_withoutLogs]
      rcases s.draw.2.store queue
        (notification s.draw.1 topic body (s.draw.2.clockStart + now)).write with ⟨_ | _, s'⟩
      · rfl
      · exact ih s'

theorem sendToTopic_withoutLogs (now : Instant) (topic body : String) :
    s.withoutLogs.sendToTopic now topic body =
      ((s.sendToTopic now topic body).1, (s.sendToTopic now topic body).2.withoutLogs) := by
  have hfailures : s.withoutLogs.failures = s.failures := rfl
  have htopics : s.withoutLogs.topics = blank s.topics := rfl
  simp only [sendToTopic, hfailures, htopics, get?_blank]
  cases s.failures with
  | cons failure failures => rfl
  | nil =>
      cases Entries.get? topic s.topics with
      | none => rfl
      | some log =>
          simp only [Option.map_some]
          have hlog : Log.push s.withoutLogs.logCapacity [] body = [] := rfl
          rw [hlog, ← blank_set topic (Log.push s.logCapacity log body)]
          exact notifyAll_withoutLogs
            { s with
              topics := Entries.set topic (Log.push s.logCapacity log body) s.topics
              failures := [] }
            now topic body _

/-- An operation does the same whatever is logged. -/
theorem after_withoutLogs (now : Instant) (op : Operation) :
    s.withoutLogs.after now op = (s.after now op).withoutLogs := by
  have hqueue : ∀ name, s.withoutLogs.queue? name = s.queue? name := fun _ => rfl
  cases op with
  | createQueue queue => exact createQueue_withoutLogs s queue
  | createTopic topic => exact createTopic_withoutLogs s topic
  | subscribe topic queue =>
      simp only [after, subscribe, createTopic_withoutLogs, createQueue_withoutLogs]
      rfl
  | failNext | deleteQueue => rfl
  | putMessage queue body => exact congrArg Prod.snd (putMessage_withoutLogs s queue body)
  | sendToQueue queue body =>
      have hfailures : s.withoutLogs.failures = s.failures := rfl
      simp only [after, sendToQueue, hfailures, putMessage_withoutLogs]
      cases s.failures with
      | cons failure failures => rfl
      | nil => rcases s.putMessage queue body with ⟨_ | _, _⟩ <;> rfl
  | sendToTopic topic body => exact congrArg Prod.snd (sendToTopic_withoutLogs s now topic body)
  | look url max =>
      simp only [after, look]
      cases queueOfUrl? url with
      | none => rfl
      | some name =>
          simp only [takeVisible, hqueue]
          cases s.queue? name <;> rfl
  | deleteMessage url receipt =>
      simp only [after, deleteMessage]
      cases queueOfUrl? url with
      | none => rfl
      | some name =>
          simp only [hqueue]
          cases s.queue? name with
          | none => rfl
          | some messages =>
              simp only []
              split <;> rfl
  | changeVisibility url receipt seconds =>
      simp only [after, changeVisibility]
      cases queueOfUrl? url with
      | none => rfl
      | some name =>
          simp only [hqueue]
          cases s.queue? name with
          | none => rfl
          | some messages =>
              simp only []
              split <;> rfl

theorem afterAll_withoutLogs (calls : List (Instant × Operation)) :
    s.withoutLogs.afterAll calls = (s.afterAll calls).withoutLogs := by
  induction calls generalizing s with
  | nil => rfl
  | cons call rest ih =>
      show (s.withoutLogs.after call.1 call.2).afterAll rest = _
      rw [after_withoutLogs, ih]
      rfl

theorem logged?_withoutLogs (topic : String) (op : Operation) :
    s.withoutLogs.logged? topic op = s.logged? topic op := by
  have hfailures : s.withoutLogs.failures = s.failures := rfl
  cases op with
  | sendToTopic name body => simp only [logged?, hfailures, has_withoutLogs]
  | _ => rfl

theorem loggedBodies_withoutLogs (topic : String) (calls : List (Instant × Operation)) :
    s.withoutLogs.loggedBodies topic calls = s.loggedBodies topic calls := by
  induction calls generalizing s with
  | nil => rfl
  | cons call rest ih =>
      rw [loggedBodies, loggedBodies, logged?_withoutLogs, after_withoutLogs, ih]

/-- The log of a topic gets what calls put into it, and nothing else. -/
theorem topicMessages_afterAll (topic : String) (calls : List (Instant × Operation)) :
    (s.afterAll calls).topicMessages topic =
      (s.loggedBodies topic calls).foldl (Log.push s.logCapacity) (s.topicMessages topic) := by
  induction calls generalizing s with
  | nil => rfl
  | cons call rest ih =>
      obtain ⟨hcapacity, hlog⟩ := s.logs_after call.1 call.2 topic
      show ((s.after call.1 call.2).afterAll rest).topicMessages topic = _
      rw [ih, hcapacity, hlog, loggedBodies, List.foldl_append]

end Amazon.Service

/-- Whatever is asked of the two brokers, the log of publications has the latest of those
that succeeded and the log of a topic the latest bodies that were put into it, each as many
as the capacity allows. With another capacity there are the same publications and the same
bodies to log, and but for their logs the brokers end up the same: in every queue, among
what is unsettled, and in the tags and identifiers drawn. -/
theorem logs_keep_latest (capacity : Nat) (ops : List Rabbit.Operation)
    (calls : List (Instant × Amazon.Operation)) (visibilityMillis clockStart : Nat) :
    let broker (logCapacity : Nat) : Rabbit.Broker := { logCapacity }
    let service (logCapacity : Nat) : Amazon.Service :=
      { logCapacity, visibilityMillis, clockStart }
    Log.Keeps capacity (ops.foldl Rabbit.Broker.after (broker capacity)).published
        ((broker capacity).publications ops) ∧
      (∀ topic, Log.Keeps capacity (((service capacity).afterAll calls).topicMessages topic)
        ((service capacity).loggedBodies topic calls)) ∧
      ∀ other,
        (broker other).publications ops = (broker capacity).publications ops ∧
        (ops.foldl Rabbit.Broker.after (broker other)).withoutLog =
          (ops.foldl Rabbit.Broker.after (broker capacity)).withoutLog ∧
        (∀ topic, (service other).loggedBodies topic calls =
          (service capacity).loggedBodies topic calls) ∧
        ((service other).afterAll calls).withoutLogs =
          ((service capacity).afterAll calls).withoutLogs := by
  intro broker service
  have hbroker : ∀ other, broker other = (broker capacity).withLog other [] := fun _ => rfl
  have hrun : ∀ other, ops.foldl Rabbit.Broker.after (broker other) =
      (ops.foldl Rabbit.Broker.after (broker capacity)).withLog other
        (((broker capacity).publications ops).foldl (Log.push other) []) := fun other => by
    rw [hbroker, Rabbit.Broker.foldl_after_withLog]
  have hservice : ∀ other, (service other).withoutLogs = (service capacity).withoutLogs :=
    fun _ => rfl
  refine ⟨?_, fun topic => ?_, fun other => ⟨?_, ?_, fun topic => ?_, ?_⟩⟩
  · rw [hrun capacity]
    exact Log.keeps_foldl capacity _
  · rw [Amazon.Service.topicMessages_afterAll]
    exact Log.keeps_foldl capacity _
  · rw [hbroker, Rabbit.Broker.publications_withLog]
  · rw [hrun other]
    rfl
  · rw [← Amazon.Service.loggedBodies_withoutLogs, hservice,
      Amazon.Service.loggedBodies_withoutLogs]
  · rw [← Amazon.Service.afterAll_withoutLogs, hservice, Amazon.Service.afterAll_withoutLogs]

end MessageBridge
