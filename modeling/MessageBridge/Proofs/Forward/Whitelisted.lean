import MessageBridge.Proofs.Forward.Endpoints
import MessageBridge.Proofs.Process.Turns
import MessageBridge.Proofs.Transform.KeyPaths

/-!
# Only whitelisted fields leave

The chain of a bridge with a whitelist ends in the scrubber, whatever stands
before it. So a text that leaves the chain is that of a document with whitelisted
paths only, and a text that the scrubber refuses never leaves.

From there to whole runs there are two steps. What an attempt sends depends on
the delivery alone and not on the brokers, so the next attempt sends the same or
nothing as well. And a consumer has no other way to the Amazon side than an
attempt: whatever else it does in its turns leaves that side as it is.
-/

namespace MessageBridge

/-- What the first stage of the bridge makes of a payload. -/
def Bridge.Stages (bridge : Bridge) (payload text : String) : Prop :=
  match bridge.spec with
  | none => text = payload
  | some spec => ∃ compiled, Spec.compile spec = .ok compiled ∧
    (Transformer.declarative compiled).transform payload = .ok text

/-- The payload is not JSON, or the first stage turns it into a document without
fields. -/
def Bridge.Refuses (bridge : Bridge) (payload : String) : Prop :=
  Json.read? payload = none ∨ ∃ text doc, bridge.Stages payload text ∧
    Json.read? text = some doc ∧ doc.isBare = true

/-- Every attempt at the delivery fails and sends nothing. -/
def Endpoint.Withholds (e : Endpoint) (d : Rabbit.Delivery) : Prop :=
  ∃ failure, ∀ b, e.attempt d b = (.error failure, b)

/-- Every attempt at the delivery sends this text to the target, once, and comes
to what the send comes to. -/
def Endpoint.Sends (e : Endpoint) (d : Rabbit.Delivery) (text : String) : Prop :=
  ∀ b, ((e.target.send text b).1 = .ok () ∧ e.attempt d b =
      (.ok (), (e.target.send text b).2.record (.forwarded e.id e.target.name))) ∨
    ∃ failure, (e.target.send text b).1 = .error failure ∧ e.attempt d b =
      (.error (failure.decided e.retryEnabled), (e.target.send text b).2)

namespace Chain

variable {bridge : Bridge} {chain : Chain} {fields : OrderedTexts}

/-! ## The stages of a bridge with a whitelist -/

theorem of_whitelist (hchain : ofBridge bridge = .ok chain)
    (hfields : bridge.whitelist = some fields) :
    ∃ first : Transformer, chain = [first, .scrubber fields] ∧
      (∀ payload text, bridge.Stages payload text ↔ first.transform payload = .ok text) ∧
      (first = .identity ∨ ∃ compiled, first = .declarative compiled) := by
  unfold ofBridge at hchain
  unfold Bridge.Stages
  rw [hfields] at hchain
  cases hspec : bridge.spec with
  | none =>
      rw [hspec] at hchain
      injection hchain with hchain
      refine ⟨.identity, hchain.symm, ?_, Or.inl rfl⟩
      intro payload text
      refine ⟨fun h => by rw [h]; rfl, fun h => ?_⟩
      injection h with h
      exact h.symm
  | some spec =>
      rw [hspec] at hchain
      cases hcompile : Spec.compile spec with
      | error defect =>
          simp only [hcompile] at hchain
          cases hchain
      | ok compiled =>
          simp only [hcompile] at hchain
          injection hchain with hchain
          refine ⟨.declarative compiled, hchain.symm, ?_, Or.inr ⟨compiled, rfl⟩⟩
          intro payload text
          refine ⟨?_, fun h => ⟨compiled, hcompile, h⟩⟩
          rintro ⟨compiled', hcompile', h⟩
          rw [hcompile] at hcompile'
          injection hcompile' with hsame
          rw [hsame]
          exact h

/-- Whatever leaves the chain has been scrubbed, and was not to be refused. -/
theorem keyPaths_transform (hchain : ofBridge bridge = .ok chain)
    (hfields : bridge.whitelist = some fields) {payload out : String}
    (h : chain.transform payload = .ok out) :
    ¬ bridge.Refuses payload ∧
      ∃ kept : Json, (∀ p ∈ kept.keyPaths, p ∈ fields) ∧ out = kept.write := by
  obtain ⟨first, rfl, hstages, hfirst⟩ := of_whitelist hchain hfields
  unfold transform at h
  cases hstaged : first.transform payload with
  | error failure =>
      rw [hstaged] at h
      cases h
  | ok text =>
      rw [hstaged] at h
      have hscrubbed : Transformer.scrubText fields text = .ok out := by
        change (Transformer.scrubText fields text).bind Except.ok = .ok out at h
        cases hscrub : Transformer.scrubText fields text with
        | error failure =>
            rw [hscrub] at h
            cases h
        | ok scrubbed =>
            rw [hscrub] at h
            exact h
      obtain ⟨doc, kept, hread, hfull, hout, hpaths⟩ := Transformer.keyPaths_scrubText hscrubbed
      refine ⟨?_, kept, hpaths, hout⟩
      rintro (hno | ⟨text', doc', hstaged', hread', hbare⟩)
      · -- Either stage would have had to read the payload.
        rcases hfirst with rfl | ⟨compiled, rfl⟩
        · injection hstaged with hstaged
          rw [← hstaged, hno] at hread
          cases hread
        · unfold Transformer.transform Transformer.payload at hstaged
          simp only [hno] at hstaged
          cases hstaged
      · have hsame := (hstages payload text').mp hstaged'
        rw [hstaged] at hsame
        injection hsame with hsame
        rw [← hsame, hread] at hread'
        injection hread' with hread'
        rw [← hread', hfull] at hbare
        cases hbare

end Chain

/-- An endpoint with a whitelist withholds a delivery, or it sends nothing but
whitelisted fields. -/
theorem Endpoint.Serves.withholds_or_sends {e : Endpoint} {bridge : Bridge}
    {source : RabbitSource} {r : Rabbit.Broker} {fields : OrderedTexts}
    (hs : e.Serves bridge source r) (hfields : bridge.whitelist = some fields)
    (d : Rabbit.Delivery) :
    e.Withholds d ∨ (¬ bridge.Refuses d.bodyText ∧
      ∃ doc : Json, (∀ p ∈ doc.keyPaths, p ∈ fields) ∧ e.Sends d doc.write) := by
  rcases e.attempt_cases d with ⟨failure, _, hfails⟩ | ⟨text, htext, hsends⟩
  · exact Or.inl ⟨_, hfails⟩
  · obtain ⟨hkept, doc, hpaths, rfl⟩ := Chain.keyPaths_transform hs.chain hfields htext
    exact Or.inr ⟨hkept, doc, hpaths, hsends⟩

/-! ## The runs of a consumer -/

namespace Consumer

/-- A consumer has come so far by turns of its own. Between any two of them the
brokers may have changed in any way. -/
inductive Ran (c : Consumer) : List Moment → Consuming → Prop where
  | start : Ran c [] .starting
  | turn {h h' : List Moment} {state : Consuming} (ran : Ran c h state) (stop : StopSignal)
      (number : Nat) (b : Brokers)
      (course : Course c.Does h b h' (state.turn c stop number b).2)
      (accounted : (state.turn c stop number b).1.Accounted (h ++ h') c) :
    Ran c (h ++ h') (state.turn c stop number b).1

theorem Ran.accounted {c : Consumer} {h : List Moment} {state : Consuming}
    (hr : c.Ran h state) : state.Accounted h c := by
  cases hr with
  | start => trivial
  | turn _ _ _ _ _ ha => exact ha

/-- A run goes on with any turn. -/
theorem Ran.continues {c : Consumer} {h : List Moment} {state : Consuming} (hr : c.Ran h state)
    (stop : StopSignal) (number : Nat) (b : Brokers) :
    ∃ h', Course c.Does h b h' (state.turn c stop number b).2 ∧
      c.Ran (h ++ h') (state.turn c stop number b).1 := by
  obtain ⟨h', hcourse, ha⟩ := Consuming.course_turn c stop number state b h hr.accounted
  exact ⟨h', hcourse, .turn hr stop number b hcourse ha⟩

/-- A moment that leaves the Amazon side as it is, or an attempt of the endpoint. -/
def Touches (e : Endpoint) (x : Moment) : Prop :=
  (∃ d, x.event = .attempt e d) ∨ x.after.amazon = x.before.amazon

theorem Handles.touches {c : Consumer} {d : Rabbit.Delivery} {h : List Moment} {event : Event}
    (hh : c.Handles d h event) (b : Brokers) : Touches c.endpoint ⟨b, event⟩ := by
  cases hh with
  | counts => exact Or.inr rfl
  | attempts => exact Or.inl ⟨d, rfl⟩
  | settles result sent => exact Or.inr (c.amazon_settle d result b)

theorem Does.touches {c : Consumer} {h : List Moment} {event : Event} (hd : c.Does h event)
    (b : Brokers) : Touches c.endpoint ⟨b, event⟩ := by
  cases hd with
  | handles _ handled => exact handled.touches b
  | consumes | takes | leaves | counts => exact Or.inr rfl

theorem Ran.touches {c : Consumer} {h : List Moment} {state : Consuming} (hr : c.Ran h state) :
    ∀ x ∈ h, Touches c.endpoint x := by
  induction hr with
  | start => exact fun x hx => nomatch hx
  | turn _ _ _ _ hcourse _ ih =>
      intro x hx
      rcases List.mem_append.mp hx with hx | hx
      · exact ih x hx
      · obtain ⟨_, hdoes⟩ := hcourse.allowed_of_mem hx
        exact hdoes.touches x.before

end Consumer

/-! ## Endpoints with a whitelist -/

namespace Endpoint

/-- An endpoint with a whitelist sends documents with whitelisted keys only and
nothing at all for a payload that is to be refused. This is so for every delivery
and whatever the brokers are like, hence also for every further attempt. In every
run of a consumer, and whenever one delivery is handled by itself, attempts like
these are all that reaches the Amazon side. -/
theorem sends_whitelisted_only {index : Nat} {retryEnabled : Bool} {bridge : Bridge}
    {b₀ b₁ : Brokers} {e : Endpoint} {fields : OrderedTexts}
    (hmade : ofBridge index retryEnabled bridge b₀ = (.ok e, b₁))
    (hfields : bridge.whitelist = some fields) :
    (∀ d, e.Withholds d ∨ (¬ bridge.Refuses d.bodyText ∧
      ∃ doc : Json, (∀ p ∈ doc.keyPaths, p ∈ fields) ∧ e.Sends d doc.write)) ∧
    ∀ c : Consumer, c.endpoint = e →
      c.Ran [] .starting ∧
      (∀ h state, c.Ran h state →
        (∀ x ∈ h, (∃ d, x.event = .attempt e d) ∨ x.after.amazon = x.before.amazon) ∧
        ∀ stop number b, ∃ h', Course c.Does h b h' (state.turn c stop number b).2 ∧
          c.Ran (h ++ h') (state.turn c stop number b).1) ∧
      ∀ (handling : Handling) b past, ∃ h,
        Course (c.Handles handling.delivery) past b h (Handling.turn c handling b).2 ∧
        ∀ x ∈ h, (∃ d, x.event = .attempt e d) ∨ x.after.amazon = x.before.amazon := by
  obtain ⟨source, hserves, _⟩ := serves_of_ofBridge hmade
  refine ⟨fun d => hserves.withholds_or_sends hfields d, ?_⟩
  rintro c rfl
  refine ⟨.start, fun h state hr => ⟨hr.touches, fun stop number b => hr.continues stop number b⟩,
    ?_⟩
  intro handling b past
  obtain ⟨⟨h, hcourse⟩, _⟩ := Handling.course_turn c handling b past
  refine ⟨h, hcourse, fun x hx => ?_⟩
  obtain ⟨_, hhandles⟩ := hcourse.allowed_of_mem hx
  exact hhandles.touches x.before

/-- A bridge that lets the identifier of an order through and nothing else. -/
def discreetBridge : Bridge where
  source := .rabbit ⟨"orders", "orders-q", "#"⟩
  destination := .sqs "out"
  whitelist := some ["id"]

def discreetMade : Except Failure Endpoint × Brokers :=
  ofBridge 0 true discreetBridge { amazon := { queues := [("out", [])] } }

def discreetEndpoint : Endpoint :=
  discreetMade.1.toOption.getD default

/-- An order with a card in it. -/
def paidOrder : Rabbit.Delivery :=
  ⟨1, "orders", "created", "orders-q", "\x7b\"id\":1,\"card\":2\x7d".toUTF8, false⟩

/-- The order is accepted, and whatever is sent for it has no key but one. -/
theorem paidOrder_without_card :
    (discreetEndpoint.attempt paidOrder discreetMade.2).1 = .ok () ∧
      ∃ doc : Json, (∀ p ∈ doc.keyPaths, p = "id") ∧ discreetEndpoint.Sends paidOrder doc.write := by
  have hmade : ofBridge 0 true discreetBridge { amazon := { queues := [("out", [])] } } =
      (.ok discreetEndpoint, discreetMade.2) := rfl
  have haccepted : (discreetEndpoint.attempt paidOrder discreetMade.2).1 = .ok () := by
    decide +kernel
  obtain ⟨hattempts, _⟩ := sends_whitelisted_only hmade rfl
  refine ⟨haccepted, ?_⟩
  rcases hattempts paidOrder with ⟨failure, hfails⟩ | ⟨_, doc, hpaths, hsends⟩
  · rw [hfails] at haccepted
    cases haccepted
  · exact ⟨doc, fun p hp => List.mem_singleton.mp (hpaths p hp), hsends⟩

end Endpoint

end MessageBridge
