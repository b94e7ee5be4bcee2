import MessageBridge.Process.App
import MessageBridge.Proofs.Bridge.Validation

/-!
# What is made of definitions can run

Definitions are checked in one place, and bridges are made ready in two others,
one for each direction. `Runnable` says of a bridge what the direction that takes
it up asks for, and the bridge of a definition that passes all checks has it:
a bridge that reads from rabbit has a target on the Amazon side and a chain, and
one that reads from an Amazon queue has a place on rabbit to go to.

A runnable bridge cannot be refused for what it is. When it is not made ready,
then one of the brokers is the reason.
-/

namespace MessageBridge

/-- One of the two directions can take up the bridge. -/
inductive Bridge.Runnable (b : Bridge) : Prop where
  | forward {source : RabbitSource} {target : Target} {chain : Chain}
      (reads : b.source = .rabbit source) (leads : Target.ofDestination b.destination = .ok target)
      (transforms : Chain.ofBridge b = .ok chain) : Runnable b
  | reverse {queue : String} {destination : RabbitDestination} (reads : b.source = .sqs queue)
      (leads : b.destination = .rabbit destination) : Runnable b

/-- The chain of a bridge is built when its specification, if there is one,
compiles. -/
theorem Chain.ofBridge_ok {b : Bridge}
    (h : ∀ spec, b.spec = some spec → ∃ compiled, Spec.compile spec = .ok compiled) :
    ∃ chain, Chain.ofBridge b = .ok chain := by
  cases hspec : b.spec with
  | none => exact ⟨_, by simp only [ofBridge, hspec]; rfl⟩
  | some spec =>
      obtain ⟨compiled, hcompiled⟩ := h spec hspec
      exact ⟨_, by simp only [ofBridge, hspec, hcompiled]; rfl⟩

theorem Definition.Makes.runnable {d : Definition} {b : Bridge} (h : d.Makes b)
    (passes : ∀ check defect, ¬ d.Fails check defect) : b.Runnable := by
  have reads := h.source
  have leads := h.destination
  cases hsource : b.source with
  | rabbit source =>
      rw [hsource] at reads
      obtain ⟨chain, hchain⟩ : ∃ chain, Chain.ofBridge b = .ok chain := by
        refine Chain.ofBridge_ok fun spec hspec => ?_
        by_contra hnone
        have hinvalid := fun compiled hcompiled => hnone ⟨compiled, hcompiled⟩
        exact passes _ _ (.invalidSpec reads ((h.spec spec).mp hspec) hinvalid)
      cases hdestination : b.destination with
      | sns name => exact .forward hsource (by rw [hdestination]; rfl) hchain
      | sqs name => exact .forward hsource (by rw [hdestination]; rfl) hchain
      | rabbit target =>
          rw [hdestination] at leads
          cases leads with
          | rabbit names => exact absurd (.rabbitToRabbit reads names (.inl rfl)) (passes _ _)
  | sqs queue =>
      rw [hsource] at reads
      cases hdestination : b.destination with
      | rabbit target => exact .reverse hsource hdestination
      | sns name =>
          rw [hdestination] at leads
          cases leads with
          | sns names => exact absurd (.sqsToAmazon reads names (by simp)) (passes _ _)
      | sqs name =>
          rw [hdestination] at leads
          cases leads with
          | sqs names => exact absurd (.sqsToAmazon reads names (by simp)) (passes _ _)

/-- The bridge is made from definitions that pass all checks. -/
def Bridge.Validated (b : Bridge) : Prop :=
  ∃ definitions bridges, Definition.validate definitions = .ok bridges ∧ b ∈ bridges

theorem Bridge.Validated.runnable {b : Bridge} (h : b.Validated) : b.Runnable := by
  obtain ⟨definitions, bridges, hvalidate, hb⟩ := h
  obtain ⟨_, hpass⟩ := Definition.validate_ok_iff.mp ⟨bridges, hvalidate⟩
  obtain ⟨d, hd, hmakes⟩ := exists_of_mem_right (Definition.makes_of_validate hvalidate) hb
  exact hmakes.runnable fun check defect => hpass check d hd defect

/-- All bridges that bridge files define are runnable. -/
theorem Bridge.runnable_of_ofResources? {resources : List ByteArray} {bridges : List Bridge}
    (h : Bridge.ofResources? resources = .ok bridges) : ∀ b ∈ bridges, b.Runnable := by
  obtain ⟨lists, _, hvalidate⟩ := Bridge.ofResources?_ok_iff.mp h
  exact fun b hb => Bridge.Validated.runnable ⟨_, bridges, hvalidate, hb⟩

/-! ## Making bridges ready -/

/-- The failure is that of one of the brokers. -/
inductive Failure.OfBroker : Failure → Prop where
  | rabbit (message : String) (source : Option String) : OfBroker (.rabbit message source)
  | amazon (message : String) (source : Option String) : OfBroker (.amazon message source)

/-- Whatever fails, fails because of a broker. -/
def BrokerFails {α : Type} (result : Except Failure α) : Prop :=
  ∀ failure, result = .error failure → failure.OfBroker

theorem brokerFails_ok {α : Type} (a : α) : BrokerFails (.ok a) :=
  fun _ h => nomatch h

theorem brokerFails_error {α : Type} {failure : Failure} (h : failure.OfBroker) :
    BrokerFails (.error failure : Except Failure α) := by
  rintro _ ⟨⟩
  exact h

theorem BrokerFails.of_error {α : Type} {result : Except Failure α} {failure : Failure}
    (h : BrokerFails result) (herror : result = .error failure) : failure.OfBroker :=
  h failure herror

namespace Rabbit.Broker

theorem brokerFails_refusal {α : Type} (r : Refusal) :
    BrokerFails (.error r.failure : Except Failure α) :=
  brokerFails_error (.rabbit _ _)

theorem brokerFails_declareExchange (e : Exchange) (b : Broker) :
    BrokerFails (b.declareExchange e).1 := by
  unfold declareExchange
  split
  · split
    · exact brokerFails_ok ()
    · exact brokerFails_refusal _
  · exact brokerFails_ok ()

theorem brokerFails_declareQueue (spec : QueueSpec) (b : Broker) :
    BrokerFails (b.declareQueue spec).1 := by
  unfold declareQueue
  split
  · split
    · exact brokerFails_ok ()
    · exact brokerFails_refusal _
  · exact brokerFails_ok ()

theorem brokerFails_declareBinding (x : Binding) (b : Broker) :
    BrokerFails (b.declareBinding x).1 := by
  unfold declareBinding
  split
  · exact brokerFails_refusal _
  · split
    · exact brokerFails_refusal _
    · split <;> exact brokerFails_ok ()

theorem brokerFails_declareAll :
    ∀ (fs : List (Broker → Except Failure Unit × Broker)) (b : Broker),
      (∀ f ∈ fs, ∀ b, BrokerFails (f b).1) → BrokerFails (b.declareAll fs).1 := by
  intro fs
  induction fs with
  | nil => intro b _; exact brokerFails_ok ()
  | cons f rest ih =>
      intro b hfs
      have hf := hfs f List.mem_cons_self b
      rw [declareAll]
      rcases hdeclare : f b with ⟨result, b'⟩
      rw [hdeclare] at hf
      cases result with
      | error failure => exact brokerFails_error (hf.of_error rfl)
      | ok => exact ih b' fun f hf => hfs f (List.mem_cons_of_mem _ hf)

theorem brokerFails_provision (source : RabbitSource) (b : Broker) :
    BrokerFails (b.provision source).1 := by
  have hall := brokerFails_declareAll
    [(·.declareExchange (Topology.ofSource source).exchange),
      (·.declareExchange (Topology.ofSource source).deadLetterExchange),
      (·.declareQueue (Topology.ofSource source).queue),
      (·.declareQueue (Topology.ofSource source).deadLetterQueue),
      (·.declareBinding (Topology.ofSource source).queueBinding),
      (·.declareBinding (Topology.ofSource source).deadLetterBinding)] b (by
    intro f hf
    simp only [List.mem_cons, List.not_mem_nil, or_false] at hf
    rcases hf with rfl | rfl | rfl | rfl | rfl | rfl
    · exact brokerFails_declareExchange _
    · exact brokerFails_declareExchange _
    · exact brokerFails_declareQueue _
    · exact brokerFails_declareQueue _
    · exact brokerFails_declareBinding _
    · exact brokerFails_declareBinding _)
  unfold provision
  simp only []
  split
  · next hdeclared => rw [hdeclared] at hall; exact brokerFails_error (hall.of_error rfl)
  · exact brokerFails_ok _

theorem brokerFails_declarePair (exchange : String) (b : Broker) :
    BrokerFails (b.declarePair exchange).1 := by
  unfold declarePair
  simp only []
  have hfirst := brokerFails_declareExchange (.topic exchange) b
  split
  · next hdeclared => rw [hdeclared] at hfirst; exact brokerFails_error (hfirst.of_error rfl)
  · next b' _ =>
      have hsecond := brokerFails_declareExchange (.topic (deadLetterName exchange)) b'
      split
      · next hdeclared => rw [hdeclared] at hsecond; exact brokerFails_error (hsecond.of_error rfl)
      · exact brokerFails_ok _

end Rabbit.Broker

theorem Endpoint.brokerFails_ofBridge {bridge : Bridge} (h : bridge.Runnable)
    (hrabbit : bridge.isFromRabbit) (index : Nat) (retryEnabled : Bool) (b : Brokers) :
    BrokerFails (ofBridge index retryEnabled bridge b).1 := by
  cases h with
  | reverse reads => simp [Bridge.isFromRabbit, reads] at hrabbit
  | @forward source target chain reads leads transforms =>
      have hprovision := Rabbit.Broker.brokerFails_provision source b.rabbit
      simp only [ofBridge, reads, leads, transforms, Brokers.onRabbit]
      rcases hprovisioned : b.rabbit.provision source with ⟨result, rabbit⟩
      rw [hprovisioned] at hprovision
      cases result with
      | error failure => exact brokerFails_error (hprovision.of_error rfl)
      | ok topology => exact brokerFails_ok _

theorem Endpoint.brokerFails_ofBridges (retryEnabled : Bool) (bridges : List Bridge) :
    ∀ (index : Nat) (b : Brokers), (∀ bridge ∈ bridges, bridge.Runnable ∧ bridge.isFromRabbit) →
      BrokerFails (ofBridges index retryEnabled bridges b).1 := by
  induction bridges with
  | nil => intro index b _; exact brokerFails_ok _
  | cons bridge rest ih =>
      intro index b hall
      obtain ⟨⟨hrunnable, hrabbit⟩, hrest⟩ := List.forall_mem_cons.mp hall
      have hfirst := brokerFails_ofBridge hrunnable hrabbit index retryEnabled b
      rw [ofBridges]
      rcases hmade : ofBridge index retryEnabled bridge b with ⟨result, b₁⟩
      rw [hmade] at hfirst
      cases result with
      | error failure => exact brokerFails_error (hfirst.of_error rfl)
      | ok e =>
          have hlater := ih (index + 1) b₁ hrest
          simp only []
          rcases hmade' : ofBridges (index + 1) retryEnabled rest b₁ with ⟨result, b₂⟩
          rw [hmade'] at hlater
          cases result with
          | error failure => exact brokerFails_error (hlater.of_error rfl)
          | ok es => exact brokerFails_ok _

theorem Amazon.Service.brokerFails_resolve (s : Amazon.Service) (queue : String) :
    BrokerFails (s.resolve queue) := by
  unfold resolve
  split
  · exact brokerFails_ok _
  · exact brokerFails_error (.amazon _ _)

theorem Dispatcher.brokerFails_prepare (queue : String) (destination : RabbitDestination)
    (s : PollerSettings) (declare : Bool) (b : Brokers) :
    BrokerFails (prepare queue destination s declare b).1 := by
  have hresolve := b.amazon.brokerFails_resolve queue
  have hdeclare := Rabbit.Broker.brokerFails_declarePair destination.exchange b.rabbit
  unfold prepare Receiver.resolve
  cases hresolved : b.amazon.resolve queue with
  | error failure => exact brokerFails_error (hresolve.of_error hresolved)
  | ok url =>
      cases declare with
      | false => exact brokerFails_ok _
      | true =>
          simp only [Except.map, Brokers.onRabbit, if_true]
          rcases hdeclared : b.rabbit.declarePair destination.exchange with ⟨result, rabbit⟩
          rw [hdeclared] at hdeclare
          cases result with
          | error failure => exact brokerFails_error (hdeclare.of_error rfl)
          | ok pair => exact brokerFails_ok _

theorem App.brokerFails_prepareAll (s : PollerSettings) (bridges : List Bridge) :
    ∀ b : Brokers, (∀ bridge ∈ bridges, bridge.Runnable ∧ bridge.isFromSqs) →
      BrokerFails (prepareAll s bridges b).1 := by
  induction bridges with
  | nil => intro b _; exact brokerFails_ok _
  | cons bridge rest ih =>
      intro b hall
      obtain ⟨⟨hrunnable, hsqs⟩, hrest⟩ := List.forall_mem_cons.mp hall
      have hfirst : BrokerFails (prepare s bridge b).1 := by
        cases hrunnable with
        | forward reads => simp [Bridge.isFromSqs, Bridge.isFromRabbit, reads] at hsqs
        | @reverse queue destination reads leads =>
            simp only [prepare, reads, leads]
            exact Dispatcher.brokerFails_prepare queue destination s true b
      rw [prepareAll]
      rcases hprepared : prepare s bridge b with ⟨result, b₁⟩
      rw [hprepared] at hfirst
      cases result with
      | error failure => exact brokerFails_error (hfirst.of_error rfl)
      | ok d =>
          have hlater := ih b₁ hrest
          simp only []
          rcases hprepared' : prepareAll s rest b₁ with ⟨result, b₂⟩
          rw [hprepared'] at hlater
          cases result with
          | error failure => exact brokerFails_error (hlater.of_error rfl)
          | ok ds => exact brokerFails_ok _

end MessageBridge
