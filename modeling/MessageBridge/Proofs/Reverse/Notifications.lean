import MessageBridge.Envelope
import MessageBridge.Proofs.Amazon.Contents
import MessageBridge.Proofs.Json.Reading

/-!
# A notification gives back what was published

What is published to a topic arrives in a queue as a string inside a notification.
The conversion takes exactly this envelope off: what comes out is what would have
come out of the body itself, read once. A body that looks like a notification is
therefore not taken apart any further.

That holds for every body, because a string is written so that it is read back, and
for every notification, because its keys differ and none of them but `Message`
matters to the conversion.
-/

namespace MessageBridge.Amazon.Service

/-- A publication that succeeds has found each of its queues. -/
theorem has_of_notifyAll {now : Instant} {topic body : String} :
    ∀ {queues : List String} {s : Service}, (s.notifyAll now topic body queues).1 = .ok () →
      ∀ queue ∈ queues, Entries.has queue s.queues = true := by
  intro queues
  induction queues with
  | nil => intro s _; nofun
  | cons queue rest ih =>
      intro s hok
      rw [notifyAll] at hok
      simp only [] at hok
      rcases store_cases s.draw.2 queue
        (notification s.draw.1 topic body (s.draw.2.clockStart + now)).write with
        ⟨_, failure, h⟩ | ⟨hthere, s', h, hgains, _, _⟩
      · rw [h] at hok
        cases hok
      · rw [h] at hok
        intro name hname
        rcases List.mem_cons.mp hname with rfl | hname
        · exact hthere
        · rw [← ih hok name hname, hgains.has_iff]
          rfl

theorem body_of_mem_copies {topic body : String} {millis drawn : Nat} {queues : List String}
    {d : Deposit} (h : d ∈ copies topic body millis drawn queues) :
    ∃ id, d.body = (notification id topic body millis).write := by
  induction queues generalizing drawn with
  | nil => cases h
  | cons queue rest ih =>
      rcases List.mem_cons.mp h with rfl | h
      · exact ⟨_, rfl⟩
      · exact ih h

theorem queues_of_copies (topic body : String) (millis drawn : Nat) (queues : List String) :
    (copies topic body millis drawn queues).map (·.queue) = queues := by
  induction queues generalizing drawn with
  | nil => rfl
  | cons queue rest ih => rw [copies, List.map_cons, ih]

/-- The messages that a publication puts into a queue are copies of it, and a
publication that succeeds puts one there for each subscription of the queue. -/
theorem queue?_sendToTopic (s : Service) (now : Instant) (topic body : String) {queue : String}
    {ms : List Stored} (hms : s.queue? queue = some ms) :
    ∃ added, (s.sendToTopic now topic body).2.queue? queue = some (ms ++ added) ∧
      (∀ m ∈ added, ∃ id millis, m.body = (notification id topic body millis).write) ∧
      ((s.sendToTopic now topic body).1 = .ok () →
        added.length = ((Entries.get? topic s.subscriptions).getD []).count queue) := by
  refine ⟨_, (gains_after s now (.sendToTopic topic body) trivial).queue? hms, ?_, ?_⟩
  · intro m hm
    obtain ⟨d, hd, rfl⟩ := List.mem_map.mp hm
    have hd := (List.mem_filter.mp hd).1
    rw [deposits] at hd
    split at hd
    · obtain ⟨id, hbody⟩ := body_of_mem_copies hd
      exact ⟨id, _, hbody⟩
    · cases hd
  · intro hok
    unfold sendToTopic at hok
    split at hok
    · cases hok
    · next hfailures =>
        split at hok
        · cases hok
        · next log htopic =>
            -- none of the queues was missing, so there is a copy for each
            have hthere := has_of_notifyAll hok
            have hall := List.takeWhile_eq_self_iff.mpr hthere
            have hcount := congrArg (List.count queue) (queues_of_copies topic body
              (s.clockStart + now) s.drawn ((Entries.get? topic s.subscriptions).getD []))
            simp only [deposits, hfailures, htopic]
            rw [hall, List.length_map, ← hcount, List.count_eq_length_filter, List.filter_map,
              List.length_map]
            simp [Function.comp_def, beq_eq_decide]

end MessageBridge.Amazon.Service

namespace MessageBridge.Envelope

open Amazon (Service Stored)

/-- The conversion of a text ends in a failure of the transformation. -/
def FailsToConvert (text messageId exchange : String) (stamped : Bool) : Prop :=
  ∃ message cause,
    (convert text messageId exchange stamped).mapError Defect.failure =
      .error (.transform message cause)

/-- A text that stands for a body: it converts to the document that the body is, and
it does so whatever message it comes in and wherever it is published to. -/
structure StandsFor (text body : String) : Prop where
  plain : ∀ {doc}, Json.read? body = some doc → ∀ messageId exchange,
    convert text messageId exchange false = .ok doc.write
  stamped : ∀ {es}, Json.read? body = some (.object es) → ∀ messageId exchange,
    convert text messageId exchange true =
      .ok (Json.object (Entries.set "idempotencyKey" (.string (exchange ++ "/" ++ messageId))
        es)).write
  unstampable : ∀ {doc}, Json.read? body = some doc → (∀ es, doc ≠ .object es) →
    ∀ messageId exchange, FailsToConvert text messageId exchange true
  unreadable : Json.read? body = none → ∀ messageId exchange stamped,
    FailsToConvert text messageId exchange stamped

theorem failsToConvert_of_error {text messageId exchange : String} {stamped : Bool}
    (defect : Defect) (h : convert text messageId exchange stamped = .error defect) :
    FailsToConvert text messageId exchange stamped := by
  rw [FailsToConvert, h]
  cases defect <;> exact ⟨_, _, rfl⟩

theorem stamp_of_not_object {doc : Json} (h : ∀ es, doc ≠ .object es) (key : String) :
    stamp key doc = .error (.notObject (shape doc)) := by
  cases doc with
  | object es => exact absurd rfl (h es)
  | null | bool | number | string | array => rfl

theorem read?_notification (id topic body : String) (millis : Nat) :
    Json.read? (Service.notification id topic body millis).write =
      some (Service.notification id topic body millis) := by
  have htexts : Service.notification id topic body millis = Json.ofTexts
      [("Type", "Notification"), ("MessageId", id), ("TopicArn", Amazon.topicArn topic),
        ("Message", body), ("Timestamp", Calendar.timestamp millis)] := rfl
  rw [htexts]
  exact Json.read?_write_ofTexts (by simp [Entries.DistinctKeys, Entries.keys])

theorem payload_notification (id topic body : String) (millis : Nat) :
    payload (Service.notification id topic body millis) =
      (Json.read? body).elim (.error .messageNotJson) .ok := by
  cases hbody : Json.read? body <;>
    simp [payload, Service.notification, Entries.get?, messageField, hbody]

/-- What a notification comes to is decided by its body alone. -/
theorem convert_notification (id topic body : String) (millis : Nat)
    (messageId exchange : String) (stamped : Bool) :
    convert (Service.notification id topic body millis).write messageId exchange stamped =
      (Json.read? body).elim (.error .messageNotJson) fun doc =>
        if stamped then (stamp (idempotencyKey exchange messageId) doc).map Json.write
        else .ok doc.write := by
  rw [convert, read?_notification]
  simp only [payload_notification]
  cases Json.read? body <;> rfl

theorem standsFor_notification (id topic body : String) (millis : Nat) :
    StandsFor (Service.notification id topic body millis).write body where
  plain := by
    intro doc hbody messageId exchange
    rw [convert_notification, hbody]
    rfl
  stamped := by
    intro es hbody messageId exchange
    rw [convert_notification, hbody]
    rfl
  unstampable := by
    intro doc hbody hshape messageId exchange
    refine failsToConvert_of_error (.notObject (shape doc)) ?_
    rw [convert_notification, hbody, Option.elim_some, if_pos rfl, stamp_of_not_object hshape]
    rfl
  unreadable := by
    intro hbody messageId exchange stamped
    refine failsToConvert_of_error .messageNotJson ?_
    rw [convert_notification, hbody, Option.elim_none]

/-- What a publication puts into a queue converts to the published body, with exactly
one envelope taken off. -/
theorem notifications_unwrapped (s : Service) (now : Instant) (topic body : String)
    {queue : String} {ms : List Stored} (hms : s.queue? queue = some ms) :
    ∃ added, (s.sendToTopic now topic body).2.queue? queue = some (ms ++ added) ∧
      (∀ m ∈ added, StandsFor m.body body) ∧
      ((s.sendToTopic now topic body).1 = .ok () →
        added.length = ((Entries.get? topic s.subscriptions).getD []).count queue) := by
  obtain ⟨added, hadded, hcopies, hcount⟩ := s.queue?_sendToTopic now topic body hms
  refine ⟨added, hadded, fun m hm => ?_, hcount⟩
  obtain ⟨id, millis, hbody⟩ := hcopies m hm
  rw [hbody]
  exact standsFor_notification id topic body millis

/-- A topic with one queue that is subscribed to it. -/
def invoicing : Service :=
  Service.subscribe {} "invoices" "paid"

def nested : Json :=
  .ofTexts [("Message", "null")]

/-- A published notification comes back whole, with its own `Message` in it. -/
theorem nested_comes_back :
    invoicing.queue? "paid" = some [] ∧
    ∃ m, (invoicing.sendToTopic 0 "invoices" nested.write).2.queue? "paid" = some [m] ∧
      convert m.body "7" "sales" false = .ok nested.write := by
  have hempty : invoicing.queue? "paid" = some [] := by decide
  have hsent : (invoicing.sendToTopic 0 "invoices" nested.write).1 = .ok () := by rfl
  obtain ⟨added, hadded, hstands, hcount⟩ :=
    notifications_unwrapped invoicing 0 "invoices" nested.write hempty
  have hone : added.length = 1 := hcount hsent
  obtain ⟨m, rfl⟩ := List.length_eq_one_iff.mp hone
  have hread : Json.read? nested.write = some nested :=
    Json.read?_write_ofTexts (by simp [Entries.DistinctKeys, Entries.keys])
  exact ⟨hempty, m, hadded, (hstands m List.mem_cons_self).plain hread "7" "sales"⟩

end MessageBridge.Envelope
