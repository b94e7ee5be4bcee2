import MessageBridge.Proofs.History
import MessageBridge.Proofs.Rabbit.DeadLetter

/-!
# Endpoints are made of declarations

Making a bridge ready declares things on rabbit and does nothing else, whether it
succeeds or not. An endpoint that comes out of it belongs to a bridge that reads
from rabbit: `Serves` says what the endpoint has from the bridge, and that the
dead letters of its source have their place on the broker. Since declarations
stay, an endpoint serves its bridge for good.
-/

namespace MessageBridge

/-- What making things ready does. -/
inductive Declaring (h : List Moment) : Event → Prop where
  | exchange (e : Rabbit.Exchange) : Declaring h (.rabbit (.declareExchange e))
  | queue (spec : Rabbit.QueueSpec) : Declaring h (.rabbit (.declareQueue spec))
  | binding (x : Rabbit.Binding) : Declaring h (.rabbit (.declareBinding x))

/-- The brokers are the same but for declarations on rabbit. -/
def Declares (past : List Moment) (b b' : Brokers) : Prop :=
  ∃ h, Course Declaring past b h b'

theorem Declares.refl (past : List Moment) (b : Brokers) : Declares past b b :=
  ⟨[], .start⟩

theorem declaring_steady : Rule.Steady Declaring := by
  intro h h' event _ hd
  cases hd with
  | exchange e => exact .exchange e
  | queue spec => exact .queue spec
  | binding x => exact .binding x

theorem Declares.trans {past : List Moment} {a b c : Brokers} (hab : Declares past a b)
    (hbc : Declares past b c) : Declares past a c := by
  obtain ⟨h, hcourse⟩ := hab
  obtain ⟨h', hcourse'⟩ := hbc
  exact ⟨h ++ h', hcourse.trans (hcourse'.later declaring_steady (List.subset_append_left _ _))⟩

theorem Declares.keeps {past : List Moment} {b b' : Brokers} (h : Declares past b b') :
    b.rabbit.Keeps b'.rabbit := by
  obtain ⟨_, hcourse⟩ := h
  exact hcourse.reaches.keeps

/-! ## The declarations of a bridge -/

/-- A function that makes one declaration. -/
def IsDeclaration (f : Rabbit.Broker → Except Failure Unit × Rabbit.Broker) : Prop :=
  ∃ op, (∀ h, Declaring h (.rabbit op)) ∧ ∀ b, (f b).2 = b.after op

theorem IsDeclaration.exchange (e : Rabbit.Exchange) : IsDeclaration (·.declareExchange e) :=
  ⟨.declareExchange e, fun _ => .exchange e, fun _ => rfl⟩

theorem IsDeclaration.queue (spec : Rabbit.QueueSpec) : IsDeclaration (·.declareQueue spec) :=
  ⟨.declareQueue spec, fun _ => .queue spec, fun _ => rfl⟩

theorem IsDeclaration.binding (x : Rabbit.Binding) : IsDeclaration (·.declareBinding x) :=
  ⟨.declareBinding x, fun _ => .binding x, fun _ => rfl⟩

theorem IsDeclaration.declares {f : Rabbit.Broker → Except Failure Unit × Rabbit.Broker}
    (hf : IsDeclaration f) (past : List Moment) (b : Brokers) :
    Declares past b { b with rabbit := (f b.rabbit).2 } := by
  obtain ⟨op, hop, hafter⟩ := hf
  refine ⟨_, .single (hop past) ?_⟩
  rw [hafter]
  rfl

theorem declares_declareAll (past : List Moment) :
    ∀ (fs : List (Rabbit.Broker → Except Failure Unit × Rabbit.Broker)) (b : Brokers),
      (∀ f ∈ fs, IsDeclaration f) →
      Declares past b { b with rabbit := (b.rabbit.declareAll fs).2 } := by
  intro fs
  induction fs with
  | nil => intro b _; exact .refl past b
  | cons f rest ih =>
      intro b hfs
      have hf := (hfs f List.mem_cons_self).declares past b
      have hrest := fun b => ih b fun f hf => hfs f (List.mem_cons_of_mem _ hf)
      rw [Rabbit.Broker.declareAll]
      rcases hdeclare : f b.rabbit with ⟨result, rabbit⟩
      rw [hdeclare] at hf
      cases result with
      | error failure => exact hf
      | ok => exact hf.trans (hrest { b with rabbit })

theorem declares_provision (past : List Moment) (s : RabbitSource) (b : Brokers) :
    Declares past b { b with rabbit := (b.rabbit.provision s).2 } := by
  have hall := declares_declareAll past
    [(·.declareExchange (Rabbit.Topology.ofSource s).exchange),
      (·.declareExchange (Rabbit.Topology.ofSource s).deadLetterExchange),
      (·.declareQueue (Rabbit.Topology.ofSource s).queue),
      (·.declareQueue (Rabbit.Topology.ofSource s).deadLetterQueue),
      (·.declareBinding (Rabbit.Topology.ofSource s).queueBinding),
      (·.declareBinding (Rabbit.Topology.ofSource s).deadLetterBinding)] b (by
    intro f hf
    simp only [List.mem_cons, List.not_mem_nil, or_false] at hf
    rcases hf with rfl | rfl | rfl | rfl | rfl | rfl
    · exact .exchange _
    · exact .exchange _
    · exact .queue _
    · exact .queue _
    · exact .binding _
    · exact .binding _)
  unfold Rabbit.Broker.provision
  simp only []
  split <;> next hdeclared => rw [hdeclared] at hall; exact hall

theorem declares_declarePair (past : List Moment) (exchange : String) (b : Brokers) :
    Declares past b { b with rabbit := (b.rabbit.declarePair exchange).2 } := by
  have hfirst := (IsDeclaration.exchange (.topic exchange)).declares past b
  unfold Rabbit.Broker.declarePair
  simp only []
  split
  · next hdeclared => rw [hdeclared] at hfirst; exact hfirst
  · next b₁ hdeclared =>
      rw [hdeclared] at hfirst
      have hsecond := (IsDeclaration.exchange (.topic (Rabbit.deadLetterName exchange))).declares
        past { b with rabbit := b₁ }
      split <;> next hdeclared' => rw [hdeclared'] at hsecond; exact hfirst.trans hsecond

/-! ## What an endpoint is -/

/-- The endpoint was made for the bridge, and the broker has what it needs. -/
structure Endpoint.Serves (e : Endpoint) (bridge : Bridge) (source : RabbitSource)
    (r : Rabbit.Broker) : Prop where
  isSource : bridge.source = .rabbit source
  queue : e.queue = source.queueName
  exchange : e.exchange = source.exchange
  target : Target.ofDestination bridge.destination = .ok e.target
  chain : Chain.ofBridge bridge = .ok e.chain
  provisioned : r.Provisioned source

theorem Endpoint.Serves.keep {e : Endpoint} {bridge : Bridge} {source : RabbitSource}
    {r r' : Rabbit.Broker} (h : e.Serves bridge source r) (hk : r.Keeps r') :
    e.Serves bridge source r' :=
  { h with provisioned := h.provisioned.keep hk }

theorem Endpoint.declares_ofBridge (past : List Moment) (index : Nat) (retryEnabled : Bool)
    (bridge : Bridge) (b : Brokers) :
    Declares past b (ofBridge index retryEnabled bridge b).2 := by
  unfold ofBridge
  split
  · exact .refl past b
  · next source _ =>
      split
      · exact .refl past b
      · have hprovision := declares_provision past source b
        simp only [Brokers.onRabbit]
        rcases hprovisioned : b.rabbit.provision source with ⟨result, rabbit⟩
        rw [hprovisioned] at hprovision
        cases result with
        | error failure => exact hprovision
        | ok topology =>
            simp only []
            split <;> exact hprovision

/-- What comes out of a bridge serves it. -/
theorem Endpoint.serves_of_ofBridge {index : Nat} {retryEnabled : Bool} {bridge : Bridge}
    {b b' : Brokers} {e : Endpoint} (h : ofBridge index retryEnabled bridge b = (.ok e, b')) :
    ∃ source, e.Serves bridge source b'.rabbit ∧ e.retryEnabled = retryEnabled := by
  unfold ofBridge at h
  split at h
  · cases h
  · next source hsource =>
      refine ⟨source, ?_⟩
      split at h
      · cases h
      · next target htarget =>
          simp only [Brokers.onRabbit] at h
          rcases hprovisioned : b.rabbit.provision source with ⟨result, rabbit⟩
          rw [hprovisioned] at h
          cases result with
          | error failure => cases h
          | ok topology =>
              simp only [] at h
              split at h
              · cases h
              · next chain hchain =>
                  cases h
                  exact ⟨⟨hsource, rfl, rfl, htarget, hchain,
                    Rabbit.Broker.provisioned_of_provision hprovisioned⟩, rfl⟩

theorem Endpoint.ofBridges_cons_ok {index : Nat} {retryEnabled : Bool} {bridge : Bridge}
    {rest : List Bridge} {b b' : Brokers} {es : List Endpoint}
    (h : ofBridges index retryEnabled (bridge :: rest) b = (.ok es, b')) :
    ∃ e es' b₁, es = e :: es' ∧ ofBridge index retryEnabled bridge b = (.ok e, b₁) ∧
      ofBridges (index + 1) retryEnabled rest b₁ = (.ok es', b') := by
  rw [ofBridges] at h
  rcases hfirst : ofBridge index retryEnabled bridge b with ⟨result, b₁⟩
  rw [hfirst] at h
  cases result with
  | error failure => cases h
  | ok e =>
      simp only [] at h
      rcases hrest : ofBridges (index + 1) retryEnabled rest b₁ with ⟨result, b₂⟩
      rw [hrest] at h
      cases result with
      | error failure => cases h
      | ok es' =>
          cases h
          exact ⟨e, es', b₁, rfl, rfl, hrest⟩

/-- All endpoints that are made ready together serve a bridge of the list. -/
theorem Endpoint.declares_ofBridges (past : List Moment) (retryEnabled : Bool)
    (bridges : List Bridge) : ∀ (index : Nat) (b : Brokers),
      Declares past b (ofBridges index retryEnabled bridges b).2 ∧
      ∀ es, (ofBridges index retryEnabled bridges b).1 = .ok es → ∀ e ∈ es,
        ∃ bridge ∈ bridges, ∃ source,
          e.Serves bridge source (ofBridges index retryEnabled bridges b).2.rabbit := by
  induction bridges with
  | nil =>
      intro index b
      refine ⟨.refl past b, ?_⟩
      intro es hes e he
      cases hes
      cases he
  | cons bridge rest ih =>
      intro index b
      have hfirst := declares_ofBridge past index retryEnabled bridge b
      rw [ofBridges]
      rcases hmade : ofBridge index retryEnabled bridge b with ⟨result, b₁⟩
      rw [hmade] at hfirst
      cases result with
      | error failure => exact ⟨hfirst, fun es hes => nomatch hes⟩
      | ok e₁ =>
          obtain ⟨hrest, hserve⟩ := ih (index + 1) b₁
          simp only []
          rcases hmade' : ofBridges (index + 1) retryEnabled rest b₁ with ⟨result, b₂⟩
          rw [hmade'] at hrest hserve
          cases result with
          | error failure => exact ⟨hfirst.trans hrest, fun es hes => nomatch hes⟩
          | ok es₁ =>
              refine ⟨hfirst.trans hrest, ?_⟩
              intro es hes e he
              injection hes with hes
              subst hes
              rcases List.mem_cons.mp he with rfl | he
              · obtain ⟨source, hserves, _⟩ := serves_of_ofBridge hmade
                exact ⟨bridge, List.mem_cons_self, source, hserves.keep hrest.keeps⟩
              · obtain ⟨bridge', hbridge', h⟩ := hserve es₁ rfl e he
                exact ⟨bridge', List.mem_cons_of_mem _ hbridge', h⟩

/-- There is one endpoint for each bridge, in their order. -/
theorem Endpoint.serves_ofBridges {retryEnabled : Bool} (bridges : List Bridge) :
    ∀ {index : Nat} {b b' : Brokers} {es : List Endpoint},
      ofBridges index retryEnabled bridges b = (.ok es, b') →
      List.Forall₂ (fun bridge e => ∃ source, e.Serves bridge source b'.rabbit) bridges es := by
  induction bridges with
  | nil =>
      intro index b b' es h
      cases h
      exact .nil
  | cons bridge rest ih =>
      intro index b b' es h
      obtain ⟨e, es', b₁, rfl, hfirst, hrest⟩ := ofBridges_cons_ok h
      obtain ⟨source, hserves, _⟩ := serves_of_ofBridge hfirst
      have hdeclares := (declares_ofBridges [] retryEnabled rest (index + 1) b₁).1
      rw [hrest] at hdeclares
      exact .cons ⟨source, hserves.keep hdeclares.keeps⟩ (ih hrest)

end MessageBridge
