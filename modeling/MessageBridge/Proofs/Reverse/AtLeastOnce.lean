import MessageBridge.Proofs.Process.Sessions

/-!
# Messages of an Amazon queue reach rabbit at least once

A dispatcher deletes a message after rabbit has accepted it. That this loses no
message takes more than the order of the two steps, because what the dispatcher
deletes by is a receipt handle: between its receive and its delete the message
may have become visible again, and been received and deleted by somebody else.

The invariant is that every message that was ever handed out is still known.
Whatever is stored under its handle has its id and its body and is in the queue
where it was received, and so a delete by this handle takes away nothing but the
message that has just been accepted.
-/

namespace MessageBridge

/-- The queue has lost the message at this moment, since somebody asked for it. -/
def Moment.Deletes (x : Moment) (queue id body : String) : Prop :=
  ∃ op m, x.event = .amazon op ∧ op.Takes queue m ∧ m.id = id ∧ m.body = body

/-- A dispatcher that reads from the queue has just converted the message and
rabbit has accepted it, under the exchange and the routing key of the dispatcher. -/
def Moment.Accepts (x : Moment) (queue id body : String) : Prop :=
  ∃ d out text, x.event = .forward d out ∧ Amazon.queueOfUrl? d.receiver.url = some queue ∧
    out.id = id ∧ out.body = body ∧
    Envelope.convert body id d.destination.exchange d.stamped = .ok text ∧
    (x.before.rabbit.send d.destination.exchange d.destination.routingKey
      text.toUTF8).1 = .ok ()

/-- Nobody takes a message to rabbit that was not received. -/
def Receiving (h : List Moment) : Event → Prop
  | .forward d m => HandedOut h d.receiver.url m
  | _ => True

/-- All receipt handles are drawn, and all messages that were handed out are
known. -/
structure Traced (h : List Moment) (s : Amazon.Service) : Prop where
  sound : s.Sound
  known : ∀ url queue m, Amazon.queueOfUrl? url = some queue → HandedOut h url m →
    s.Knows queue m

theorem Traced.step {h : List Moment} {b : Brokers} {event : Event} (ht : Traced h b.amazon) :
    Traced (h ++ [⟨b, event⟩]) (b.on event).amazon := by
  have hf := Moment.follows ⟨b, event⟩
  refine ⟨hf.sound ht.sound, ?_⟩
  rintro url queue m hurl ⟨x, hx, max, out, hevent, hlook, hm⟩
  rcases List.mem_append.mp hx with hx | hx
  · exact hf.knows (ht.known url queue m hurl ⟨x, hx, max, out, hevent, hlook, hm⟩)
  · rw [List.mem_singleton] at hx
    subst hx
    obtain ⟨queue', hurl', hknows⟩ := Amazon.Service.knows_of_look ht.sound hlook hm
    rw [hurl] at hurl'
    injection hurl' with hurl'
    subst hurl' hevent
    exact hknows

theorem Traced.of_course {past h : List Moment} {b₀ b : Brokers} {rule : Rule}
    (ht : Traced past b₀.amazon) (hc : Course rule past b₀ h b) :
    Traced (past ++ h) b.amazon :=
  hc.invariant (P := fun h b => Traced h b.amazon) (fun _ _ _ _ hnow => hnow.step) ht

/-- Whatever takes a stored message away has either been asked for or has just
been accepted by rabbit. -/
theorem Traced.lost {h : List Moment} {x : Moment} {queue : String} {m : Amazon.Stored}
    (ht : Traced h x.before.amazon) (hallowed : Receiving h x.event)
    (hm : x.before.amazon.Stores queue m) (hlost : ¬ x.after.amazon.Holds queue m.id m.body) :
    x.Deletes queue m.id m.body ∨ x.Accepts queue m.id m.body := by
  have htaken : x.Takes queue m := by
    by_contra hkept
    exact hlost (x.follows.kept queue m hm hkept)
  obtain ⟨b, event⟩ := x
  cases event with
  | amazon op => exact Or.inl ⟨op, m, rfl, htaken, rfl, rfl⟩
  | forward d out =>
      obtain ⟨hqueue, hreceipt, text, htext, hsent⟩ := htaken
      have hknown := ht.known d.receiver.url queue out hqueue hallowed
      obtain ⟨_, hid, hbody⟩ := hknown.only queue m hm hreceipt
      refine Or.inr ⟨d, out, text, rfl, hqueue, hid.symm, hbody.symm, ?_, hsent⟩
      unfold Dispatcher.convert at htext
      rw [hid, hbody]
      rcases hconvert : Envelope.convert out.body out.id d.destination.exchange d.stamped with
        defect | converted
      · rw [hconvert] at htext
        cases htext
      · rw [hconvert] at htext
        injection htext with htext
        rw [htext]
  | rabbit | counted | clock | attempt | settle => exact htaken.elim

/-- What is stored stays, until it is deleted or accepted. -/
theorem Traced.kept {past h : List Moment} {b₀ b : Brokers} {queue id body : String}
    (ht : Traced past b₀.amazon) (hc : Course Receiving past b₀ h b)
    (hm : b₀.amazon.Holds queue id body) :
    b.amazon.Holds queue id body ∨
      ∃ y ∈ h, y.Deletes queue id body ∨ y.Accepts queue id body := by
  induction hc with
  | start => exact Or.inl hm
  | @next h b hc event hallowed ih =>
      rcases ih with ⟨m, hstored, rfl, rfl⟩ | ⟨y, hy, hlost⟩
      · by_cases hkept : (b.on event).amazon.Holds queue m.id m.body
        · exact Or.inl hkept
        · exact Or.inr ⟨⟨b, event⟩, List.mem_append_right _ (List.mem_singleton_self _),
            (ht.of_course hc).lost (x := ⟨b, event⟩) hallowed hstored hkept⟩
      · exact Or.inr ⟨y, List.mem_append_left _ hy, hlost⟩

namespace Session

end Session

end MessageBridge
