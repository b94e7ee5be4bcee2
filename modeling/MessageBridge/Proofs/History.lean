import MessageBridge.Proofs.Amazon.Receipts
import MessageBridge.Proofs.Rabbit.Standing
import MessageBridge.Forward.Consumer
import MessageBridge.Reverse.Dispatcher
import Mathlib.Data.List.Induction

/-!
# What has happened to the brokers

Tasks, clients and the clock all work on the same brokers, in turns. Whatever one
of them does is an `Event`, and what an event does to the brokers is written
down once, in `Brokers.on`, by the very functions that the bridges run: an
attempt at a delivery is one event, and so is settling a delivery, and so is
taking one message to rabbit and deleting it.

A `Moment` is an event together with the brokers before it, and a `Course` is a
list of moments that follow on one another. Statements about every order of
steps are statements about every course.

Not every event may come at any time. Nobody acknowledges a delivery that has
not been sent, or takes a message to rabbit that has not been received. A `Rule`
says which event may come next after what has happened so far, and a course
obeys a rule from the beginning to the end. Who wants to know about a part of the
program says by which rule it goes, shows that what it does is a course under
this rule, and is done with the program: from there on only the rule matters.
-/

namespace MessageBridge

/-- Something that happens to the brokers. -/
inductive Event where
  | rabbit (op : Rabbit.Operation)
  | amazon (op : Amazon.Operation)
  | counted (m : Metric) (amount : Nat)
  | clock (t : Instant)
  /-- One attempt at a delivery. -/
  | attempt (e : Endpoint) (d : Rabbit.Delivery)
  | settle (c : Consumer) (d : Rabbit.Delivery) (result : Except Failure Unit)
  /-- One message is taken to rabbit and deleted. -/
  | forward (d : Dispatcher) (m : Amazon.Message)

/-- The brokers after an event. -/
def Brokers.on (b : Brokers) : Event → Brokers
  | .rabbit op => { b with rabbit := b.rabbit.after op }
  | .amazon op => { b with amazon := b.amazon.after b.now op }
  | .counted m amount => { b with metrics := b.metrics.raise m amount }
  | .clock t => { b with now := max b.now t }
  | .attempt e d => (e.attempt d b).2
  | .settle c d result => (c.settle d result b).2
  | .forward d m => (d.forward m b).2

/-- An event with the brokers before it. -/
structure Moment where
  before : Brokers
  event : Event

def Moment.after (x : Moment) : Brokers :=
  x.before.on x.event

/-- Which event may come next, after what has happened so far. -/
abbrev Rule := List Moment → Event → Prop

/-- What may come next may also come later. -/
def Rule.Steady (rule : Rule) : Prop :=
  ∀ h h' event, h ⊆ h' → rule h event → rule h' event

/-- The moments lead from one to the other, and each event was allowed when it
came, after the past and the moments before it. -/
inductive Course (rule : Rule) (past : List Moment) (b₀ : Brokers) :
    List Moment → Brokers → Prop where
  | start : Course rule past b₀ [] b₀
  | next {h : List Moment} {b : Brokers} (course : Course rule past b₀ h b) (event : Event)
      (allowed : rule (past ++ h) event) : Course rule past b₀ (h ++ [⟨b, event⟩]) (b.on event)

namespace Course

variable {rule rule' : Rule} {past past' h h' : List Moment} {b₀ b b' : Brokers}

theorem single {event : Event} (allowed : rule past event) (hb : b.on event = b') :
    Course rule past b [⟨b, event⟩] b' := by
  have hnext := Course.next (Course.start : Course rule past b [] b) event
  rw [List.append_nil] at hnext
  rw [← hb]
  exact hnext allowed

theorem trans (hc : Course rule past b₀ h b) (hc' : Course rule (past ++ h) b h' b') :
    Course rule past b₀ (h ++ h') b' := by
  induction hc' with
  | start => rw [List.append_nil]; exact hc
  | next _ event allowed ih =>
      rw [← List.append_assoc]
      refine .next ih event ?_
      rw [← List.append_assoc]
      exact allowed

/-- A course that begins with an event. -/
theorem cons {event : Event} (allowed : rule past event) (hb : b₀.on event = b)
    (hc : Course rule (past ++ [⟨b₀, event⟩]) b h b') :
    Course rule past b₀ (⟨b₀, event⟩ :: h) b' :=
  (single allowed hb).trans hc

/-- Only what may come after the past matters. -/
theorem imp (himp : ∀ h event, past ⊆ h → rule h event → rule' h event)
    (hc : Course rule past b₀ h b) : Course rule' past b₀ h b := by
  induction hc with
  | start => exact .start
  | next _ event allowed ih =>
      exact .next ih event (himp _ event (List.subset_append_left _ _) allowed)

/-- A longer past forbids nothing, as long as the rule is steady. -/
theorem later (hs : rule.Steady) (hsub : past ⊆ past') (hc : Course rule past b₀ h b) :
    Course rule past' b₀ h b := by
  induction hc with
  | start => exact .start
  | next _ event allowed ih =>
      refine .next ih event (hs _ _ event ?_ allowed)
      intro x hx
      rcases List.mem_append.mp hx with hx | hx
      · exact List.mem_append_left _ (hsub hx)
      · exact List.mem_append_right _ hx

theorem split {later : List Moment} : ∀ {earlier : List Moment},
    Course rule past b₀ (earlier ++ later) b →
    ∃ b₁, Course rule past b₀ earlier b₁ ∧ Course rule (past ++ earlier) b₁ later b := by
  induction later using List.reverseRecOn generalizing b with
  | nil =>
      intro earlier hc
      rw [List.append_nil] at hc
      exact ⟨b, hc, .start⟩
  | append_singleton later x ih =>
      intro earlier hc
      rw [← List.append_assoc] at hc
      generalize hh : earlier ++ later ++ [x] = h at hc
      cases hc with
      | start => simp at hh
      | next hc event allowed =>
          obtain ⟨rfl, hx⟩ := List.append_inj' hh rfl
          injection hx with hx
          subst hx
          obtain ⟨b₁, hearlier, hlater⟩ := ih hc
          refine ⟨b₁, hearlier, .next hlater event ?_⟩
          rw [List.append_assoc]
          exact allowed

theorem of_nil (hc : Course rule past b₀ [] b) : b = b₀ := by
  generalize hh : ([] : List Moment) = h at hc
  cases hc with
  | start => rfl
  | next => exact absurd hh (by simp)

/-- The first moment of a course. -/
theorem head {x : Moment} (hc : Course rule past b₀ (x :: h) b) :
    x.before = b₀ ∧ rule past x.event := by
  have hsplit : Course rule past b₀ ([x] ++ h) b := hc
  obtain ⟨b₁, hfirst, _⟩ := hsplit.split
  generalize hh : [x] = h₁ at hfirst
  cases hfirst with
  | start => cases hh
  | next hstart event allowed =>
      rw [← List.nil_append [x]] at hh
      obtain ⟨rfl, hx⟩ := List.append_inj' hh rfl
      injection hx with hx
      subst hx
      rw [List.append_nil] at allowed
      exact ⟨hstart.of_nil, allowed⟩

theorem allowed_of_mem {x : Moment} (hc : Course rule past b₀ h b) (hx : x ∈ h) :
    ∃ h', rule h' x.event := by
  induction hc with
  | start => cases hx
  | next _ event allowed ih =>
      rcases List.mem_append.mp hx with hx | hx
      · exact ih hx
      · rw [List.mem_singleton] at hx
        rw [hx]
        exact ⟨_, allowed⟩

/-- What no event breaks holds at every end of a course. -/
theorem invariant {P : List Moment → Brokers → Prop}
    (hstep : ∀ h b event, rule h event → P h b → P (h ++ [⟨b, event⟩]) (b.on event))
    (hstart : P past b₀) (hc : Course rule past b₀ h b) : P (past ++ h) b := by
  induction hc with
  | start => rw [List.append_nil]; exact hstart
  | next _ event allowed ih =>
      rw [← List.append_assoc]
      exact hstep _ _ event allowed ih

end Course

/-! ## What has been in a history -/

/-- The delivery was handed out of the queue. -/
def Took (h : List Moment) (queue : String) (d : Rabbit.Delivery) : Prop :=
  ∃ x ∈ h, x.event = .rabbit (.next queue) ∧ (x.before.rabbit.next queue).1 = some d

/-- An attempt at the delivery was successful, and since then things have been
counted at most. -/
def Sent (h : List Moment) (e : Endpoint) (d : Rabbit.Delivery) : Prop :=
  ∃ earlier x counts, h = earlier ++ x :: counts ∧
    (∀ y ∈ counts, ∃ m amount, y.event = .counted m amount) ∧
    x.event = .attempt e d ∧ (e.attempt d x.before).1 = .ok ()

/-- The message was handed out of the queue at the address. -/
def HandedOut (h : List Moment) (url : String) (m : Amazon.Message) : Prop :=
  ∃ x ∈ h, ∃ max out, x.event = .amazon (.look url max) ∧
    (x.before.amazon.look x.before.now url max).1 = .ok out ∧ m ∈ out

theorem Took.mono {h h' : List Moment} (hsub : h ⊆ h') {queue : String} {d : Rabbit.Delivery}
    (ht : Took h queue d) : Took h' queue d := by
  obtain ⟨x, hx, hr⟩ := ht
  exact ⟨x, hsub hx, hr⟩

theorem Sent.after {h : List Moment} {e : Endpoint} {d : Rabbit.Delivery} (hs : Sent h e d)
    (past : List Moment) : Sent (past ++ h) e d := by
  obtain ⟨earlier, x, counts, rfl, hr⟩ := hs
  exact ⟨past ++ earlier, x, counts, (List.append_assoc ..).symm, hr⟩

theorem Sent.counted {h : List Moment} {e : Endpoint} {d : Rabbit.Delivery} (hs : Sent h e d)
    (b : Brokers) (m : Metric) (amount : Nat) : Sent (h ++ [⟨b, .counted m amount⟩]) e d := by
  obtain ⟨earlier, x, counts, rfl, hcounts, hr⟩ := hs
  refine ⟨earlier, x, counts ++ [⟨b, .counted m amount⟩], by simp, ?_, hr⟩
  intro y hy
  rcases List.mem_append.mp hy with hy | hy
  · exact hcounts y hy
  · rw [List.mem_singleton] at hy
    rw [hy]
    exact ⟨m, amount, rfl⟩

/-- What was sent has been sent since the last event other than counting. -/
theorem Sent.since {past h : List Moment} {e : Endpoint} {d : Rabbit.Delivery} {z : Moment}
    (hs : Sent (past ++ h) e d) (hz : z ∈ h) (hno : ∀ m amount, z.event ≠ .counted m amount) :
    ∃ x ∈ h, x.event = .attempt e d ∧ (e.attempt d x.before).1 = .ok () := by
  obtain ⟨earlier, x, counts, hsplit, hcounts, hr⟩ := hs
  refine ⟨x, ?_, hr⟩
  rcases List.append_eq_append_iff.mp hsplit with ⟨between, _, rfl⟩ | ⟨between, _, hlast⟩
  · exact List.mem_append_right _ List.mem_cons_self
  · cases between with
    | nil =>
        rw [List.nil_append] at hlast
        rw [← hlast]
        exact List.mem_cons_self
    | cons y between =>
        rw [List.cons_append] at hlast
        injection hlast with _ hlast
        obtain ⟨m, amount, hcounted⟩ := hcounts z (hlast ▸ List.mem_append_right _ hz)
        exact absurd hcounted (hno m amount)

theorem HandedOut.mono {h h' : List Moment} (hsub : h ⊆ h') {url : String}
    {m : Amazon.Message} (hm : HandedOut h url m) : HandedOut h' url m := by
  obtain ⟨x, hx, hr⟩ := hm
  exact ⟨x, hsub hx, hr⟩

/-! ## What an event does to either broker -/

/-- What a target is asked for when a message is sent to it. -/
def Target.operation (t : Target) (body : String) : Amazon.Operation :=
  match t with
  | topic name => .sendToTopic name body
  | queue name => .sendToQueue name body

theorem Target.send_after (t : Target) (body : String) (b : Brokers) :
    (t.send body b).2 = b.on (.amazon (t.operation body)) := by
  cases t <;> rfl

/-- An attempt fails before anything is sent, or it comes to what the send comes
to. -/
theorem Endpoint.attempt_cases (e : Endpoint) (d : Rabbit.Delivery) :
    (∃ failure, e.chain.transform d.bodyText = .error failure ∧
      ∀ b, e.attempt d b = (.error (failure.decided e.retryEnabled), b)) ∨
    ∃ text, e.chain.transform d.bodyText = .ok text ∧ ∀ b,
      ((e.target.send text b).1 = .ok () ∧ e.attempt d b =
        (.ok (), (e.target.send text b).2.record (.forwarded e.id e.target.name))) ∨
      ∃ failure, (e.target.send text b).1 = .error failure ∧ e.attempt d b =
        (.error (failure.decided e.retryEnabled), (e.target.send text b).2) := by
  unfold attempt forward
  cases htext : e.chain.transform d.bodyText with
  | error failure => exact Or.inl ⟨failure, rfl, fun _ => rfl⟩
  | ok text =>
      refine Or.inr ⟨text, rfl, ?_⟩
      intro b
      simp only []
      rcases hsend : e.target.send text b with ⟨result, b'⟩
      cases result with
      | ok => exact Or.inl ⟨rfl, rfl⟩
      | error failure => exact Or.inr ⟨failure, rfl, rfl⟩

/-- A message that is taken to rabbit is deleted only if it can be converted and
is accepted there. -/
theorem Dispatcher.forward_cases (d : Dispatcher) (m : Amazon.Message) (b : Brokers) :
    (∃ failure, d.convert m = .error failure ∧ d.forward m b = (.error failure, b)) ∨
    ∃ text, d.convert m = .ok text ∧
      let sent := b.rabbit.send d.destination.exchange d.destination.routingKey text.toUTF8
      (∃ failure, sent.1 = .error failure ∧
        d.forward m b = (.error failure, { b with rabbit := sent.2 })) ∨
      (sent.1 = .ok () ∧ d.forward m b = d.receiver.delete m { b with rabbit := sent.2 }) := by
  unfold forward
  cases htext : d.convert m with
  | error failure => exact Or.inl ⟨failure, rfl, rfl⟩
  | ok text =>
      refine Or.inr ⟨text, rfl, ?_⟩
      simp only [Brokers.onRabbit]
      rcases b.rabbit.send d.destination.exchange d.destination.routingKey text.toUTF8 with
        ⟨result, rabbit⟩
      cases result with
      | error failure => exact Or.inl ⟨failure, rfl, rfl⟩
      | ok => exact Or.inr ⟨rfl, rfl⟩

@[simp] theorem Endpoint.rabbit_attempt (e : Endpoint) (d : Rabbit.Delivery) (b : Brokers) :
    (e.attempt d b).2.rabbit = b.rabbit := by
  have hsend : ∀ text, (e.target.send text b).2.rabbit = b.rabbit := by
    intro text
    rw [Target.send_after]
    rfl
  rcases e.attempt_cases d with ⟨failure, _, h⟩ | ⟨text, _, h⟩
  · rw [h]
  · rcases h b with ⟨_, h⟩ | ⟨failure, _, h⟩
    · rw [h]
      exact hsend text
    · rw [h]
      exact hsend text

/-- Settling is an acknowledgement or a rejection, and nothing else. -/
theorem Consumer.rabbit_settle (c : Consumer) (d : Rabbit.Delivery)
    (result : Except Failure Unit) (b : Brokers) :
    (c.settle d result b).2.rabbit =
      match result with
      | .ok () => (b.rabbit.ack d.tag).2
      | .error _ => (b.rabbit.reject d.tag false).2 := by
  unfold settle
  cases result with
  | ok =>
      simp only [Brokers.onRabbit]
      rcases b.rabbit.ack d.tag with ⟨settled, rabbit⟩
      cases settled <;> rfl
  | error failure =>
      simp only [Brokers.onRabbit, Brokers.record]
      rcases b.rabbit.reject d.tag false with ⟨settled, rabbit⟩
      cases settled <;> rfl

/-- Settling leaves the service and the clock alone. -/
theorem Consumer.frame_settle (c : Consumer) (d : Rabbit.Delivery)
    (result : Except Failure Unit) (b : Brokers) :
    (c.settle d result b).2.amazon = b.amazon ∧ (c.settle d result b).2.now = b.now := by
  unfold settle
  cases result with
  | ok =>
      simp only [Brokers.onRabbit]
      rcases b.rabbit.ack d.tag with ⟨settled, rabbit⟩
      cases settled <;> exact ⟨rfl, rfl⟩
  | error failure =>
      simp only [Brokers.onRabbit, Brokers.record]
      rcases b.rabbit.reject d.tag false with ⟨settled, rabbit⟩
      cases settled <;> exact ⟨rfl, rfl⟩

@[simp] theorem Consumer.amazon_settle (c : Consumer) (d : Rabbit.Delivery)
    (result : Except Failure Unit) (b : Brokers) :
    (c.settle d result b).2.amazon = b.amazon :=
  (c.frame_settle d result b).1

/-- What an event may come to at the service. -/
def Event.Asks (event : Event) (op : Amazon.Operation) : Prop :=
  match event with
  | .amazon op' => op = op'
  | .attempt e _ => ∃ text, op = e.target.operation text
  | .forward d m => op = .deleteMessage d.receiver.url m.receipt
  | .rabbit _ | .counted _ _ | .clock _ | .settle _ _ _ => False

/-- A moment changes the service by one operation at most. -/
theorem Moment.amazon_cases (x : Moment) : x.after.amazon = x.before.amazon ∨
    ∃ op, x.event.Asks op ∧ x.after.amazon = x.before.amazon.after x.before.now op := by
  obtain ⟨b, event⟩ := x
  unfold Moment.after
  cases event with
  | amazon op => exact .inr ⟨op, rfl, rfl⟩
  | rabbit | counted | clock => exact .inl rfl
  | settle c d result => exact .inl (c.amazon_settle d result b)
  | attempt e d =>
      rw [Brokers.on]
      rcases e.attempt_cases d with ⟨failure, _, h⟩ | ⟨text, _, h⟩
      · exact .inl (by rw [h])
      · have hsend := congrArg Brokers.amazon (e.target.send_after text b)
        rcases h b with ⟨_, h⟩ | ⟨failure, _, h⟩
        · exact .inr ⟨_, ⟨text, rfl⟩, by rw [h]; exact hsend⟩
        · exact .inr ⟨_, ⟨text, rfl⟩, by rw [h]; exact hsend⟩
  | forward d m =>
      rw [Brokers.on]
      rcases d.forward_cases m b with ⟨failure, _, h⟩ | ⟨text, _, ⟨failure, _, h⟩ | ⟨_, h⟩⟩
      · exact .inl (by rw [h])
      · exact .inl (by rw [h])
      · exact .inr ⟨_, rfl, by rw [h]; rfl⟩

/-- Only the clock moves the time, and never back. -/
theorem Brokers.now_le_on (b : Brokers) (event : Event) : b.now ≤ (b.on event).now := by
  cases event with
  | clock t => exact Nat.le_max_left _ _
  | rabbit | amazon | counted => exact Nat.le_refl _
  | settle c d result => exact Nat.le_of_eq (c.frame_settle d result b).2.symm
  | attempt e d =>
      have hsend := fun text => congrArg Brokers.now (e.target.send_after text b)
      rw [Brokers.on]
      rcases e.attempt_cases d with ⟨failure, _, h⟩ | ⟨text, _, h⟩
      · exact Nat.le_of_eq (by rw [h])
      · rcases h b with ⟨_, h⟩ | ⟨failure, _, h⟩
        · rw [h]
          exact Nat.le_of_eq (hsend text).symm
        · rw [h]
          exact Nat.le_of_eq (hsend text).symm
  | forward d m =>
      rw [Brokers.on]
      rcases d.forward_cases m b with ⟨failure, _, h⟩ | ⟨text, _, ⟨failure, _, h⟩ | ⟨_, h⟩⟩
      · exact Nat.le_of_eq (by rw [h])
      · exact Nat.le_of_eq (by rw [h])
      · exact Nat.le_of_eq (congrArg (fun x => Brokers.now x.2) h).symm

/-- What an event may come to at the rabbit broker. -/
def Event.Orders (event : Event) (op : Rabbit.Operation) : Prop :=
  match event with
  | .rabbit op' => op = op'
  | .settle _ d (.ok ()) => op = .ack d.tag
  | .settle _ d (.error _) => op = .reject d.tag false
  | .forward d _ => ∃ text : String,
    op = .send d.destination.exchange d.destination.routingKey text.toUTF8
  | .amazon _ | .counted _ _ | .clock _ | .attempt _ _ => False

/-- An event changes the rabbit broker by one operation at most. -/
theorem Brokers.rabbit_on (b : Brokers) (event : Event) : (b.on event).rabbit = b.rabbit ∨
    ∃ op, event.Orders op ∧ (b.on event).rabbit = b.rabbit.after op := by
  cases event with
  | rabbit op => exact .inr ⟨op, rfl, rfl⟩
  | amazon | counted | clock => exact .inl rfl
  | attempt e d => exact .inl (by rw [Brokers.on, Endpoint.rabbit_attempt])
  | settle c d result =>
      have hsettled := c.rabbit_settle d result b
      cases result with
      | ok => exact .inr ⟨.ack d.tag, rfl, hsettled⟩
      | error failure => exact .inr ⟨.reject d.tag false, rfl, hsettled⟩
  | forward d m =>
      rw [Brokers.on]
      rcases d.forward_cases m b with ⟨failure, _, h⟩ | ⟨text, _, ⟨failure, _, h⟩ | ⟨_, h⟩⟩
      · exact .inl (by rw [h])
      · exact .inr ⟨_, ⟨text, rfl⟩, by rw [h]; rfl⟩
      · exact .inr ⟨_, ⟨text, rfl⟩, by rw [h]; rfl⟩

theorem Brokers.reaches_on (b : Brokers) (event : Event) :
    b.rabbit.Reaches (b.on event).rabbit := by
  rcases b.rabbit_on event with hsame | ⟨op, _, hop⟩
  · rw [hsame]
    exact .refl
  · rw [hop]
    exact .of_after b.rabbit op

theorem Course.reaches {rule : Rule} {past h : List Moment} {b₀ b : Brokers}
    (hc : Course rule past b₀ h b) : b₀.rabbit.Reaches b.rabbit := by
  induction hc with
  | start => exact .refl
  | @next _ b _ event _ ih => exact ih.trans (b.reaches_on event)

/-- The message is deleted at this moment from its queue. Other than by a deletion
that somebody asked for this happens only after a message with this receipt
handle could be converted and was accepted by rabbit. -/
def Moment.Takes (x : Moment) (queue : String) (m : Amazon.Stored) : Prop :=
  match x.event with
  | .amazon op => op.Takes queue m
  | .forward d out =>
    Amazon.queueOfUrl? d.receiver.url = some queue ∧ m.receipt = some out.receipt ∧
      ∃ text, d.convert out = .ok text ∧
        (x.before.rabbit.send d.destination.exchange d.destination.routingKey
          text.toUTF8).1 = .ok ()
  | _ => False

theorem Moment.follows (x : Moment) :
    Amazon.Service.Follows x.Takes x.before.amazon x.after.amazon := by
  obtain ⟨b, event⟩ := x
  have hsame : Amazon.Service.Follows (Moment.Takes ⟨b, event⟩) b.amazon b.amazon :=
    (Amazon.Service.Grows.refl b.amazon).follows
  unfold Moment.after
  cases event with
  | amazon op => exact b.amazon.follows_after b.now op
  | rabbit | counted | clock => exact hsame
  | attempt e d =>
      have hsend : ∀ text, Amazon.Service.Grows b.amazon (e.target.send text b).2.amazon := by
        intro text
        rw [Target.send_after]
        cases e.target with
        | topic name => exact b.amazon.follows_after b.now (.sendToTopic name text)
        | queue name => exact b.amazon.follows_after b.now (.sendToQueue name text)
      simp only [Brokers.on]
      rcases e.attempt_cases d with ⟨failure, _, h⟩ | ⟨text, _, h⟩
      · rw [h]
        exact hsame
      · rcases h b with ⟨_, h⟩ | ⟨failure, _, h⟩
        · rw [h]
          exact hsend text
        · rw [h]
          exact hsend text
  | settle c d result =>
      simp only [Brokers.on, Consumer.amazon_settle]
      exact hsame
  | forward d m =>
      simp only [Brokers.on]
      rcases d.forward_cases m b with ⟨failure, _, h⟩ | ⟨text, htext, ⟨failure, _, h⟩ | ⟨hsent, h⟩⟩
      · rw [h]
        exact hsame
      · rw [h]
        exact hsame
      · rw [h]
        have hdelete := b.amazon.follows_deleteMessage d.receiver.url m.receipt
        refine hdelete.weaken ?_
        rintro queue stored ⟨hqueue, hreceipt⟩
        exact ⟨hqueue, hreceipt, text, htext, hsent⟩

end MessageBridge
