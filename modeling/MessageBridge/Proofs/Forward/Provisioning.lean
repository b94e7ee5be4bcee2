import MessageBridge.Proofs.Bridge.Runnable
import MessageBridge.Proofs.Rabbit.Declarations

/-!
# Provisioning depends on what is switched on

All bridges that are to forward are made ready one after the other, on a broker
that fills up meanwhile. Whether that works out and what is declared in the end
is decided by the sources of these bridges alone, taken as a set: a bridge that is
made ready adds the declarations of its source, and it is refused only for a
queue that another source has claimed.

The endpoints do not depend on the broker at all. So making the same bridges
ready once more gives the same endpoints, and the broker stays as it is.
-/

namespace MessageBridge

/-- The rabbit source of a bridge. -/
def Bridge.rabbitSource? (b : Bridge) : Option RabbitSource :=
  match b.source with
  | .rabbit source => some source
  | .sqs _ => none

/-- The sources of all bridges that are to forward. -/
def Bridge.forwardSources (bridges : List Bridge) : List RabbitSource :=
  (forwardable bridges).filterMap rabbitSource?

namespace Endpoint

open Rabbit (Compatible Refusal Topology)

/-- What an endpoint has from its bridge and from its position. -/
structure MadeOf (e : Endpoint) (retryEnabled : Bool) (index : Nat) (bridge : Bridge)
    (source : RabbitSource) : Prop where
  id : e.id = listenerId index
  isSource : bridge.source = .rabbit source
  queue : e.queue = source.queueName
  exchange : e.exchange = source.exchange
  target : Target.ofDestination bridge.destination = .ok e.target
  chain : Chain.ofBridge bridge = .ok e.chain
  retryEnabled : e.retryEnabled = retryEnabled
  topology : e.topology = .ofSource source

/-- There is one endpoint for each bridge, in their order, with positions from the
given one on. -/
def MadeInOrder (retryEnabled : Bool) (index : Nat) (bridges : List Bridge)
    (es : List Endpoint) : Prop :=
  List.Forall₂ (fun x e => ∃ source, MadeOf e retryEnabled x.2 x.1 source)
    (bridges.zipIdx index) es

/-- What is done to the brokers gives the same on all of them and provides the sources
on top of those that were provided before; it is refused where they do not go
together. -/
def Grants {α : Type} (sources : List RabbitSource) (act : Brokers → Except Failure α × Brokers)
    (a : α) : Prop :=
  ∀ (r : Rabbit.Broker) (past : List RabbitSource) (b : Brokers), r.Provides b.rabbit past →
    (∃ r', act b = (.ok a, { b with rabbit := r' }) ∧ r.Provides r' (past ++ sources) ∧
      (sources ⊆ past → r' = b.rabbit)) ∨
    ((∃ name b', act b = (.error (Refusal.queueDiffers name).failure, b')) ∧
      ¬ Compatible (past ++ sources))

/-- A bridge that can run is made ready, unless its source is refused. -/
theorem ofBridge_grants {bridge : Bridge} (h : bridge.Runnable) (hrabbit : bridge.isFromRabbit)
    (index : Nat) (retryEnabled : Bool) :
    ∃ e source, e.MadeOf retryEnabled index bridge source ∧
      bridge.rabbitSource? = some source ∧
      Grants [source] (ofBridge index retryEnabled bridge) e := by
  cases h with
  | reverse reads => simp [Bridge.isFromRabbit, reads] at hrabbit
  | @forward source target chain reads leads transforms =>
      refine ⟨⟨listenerId index, source.queueName, source.exchange, target, chain, retryEnabled,
        .ofSource source⟩, source, ⟨rfl, reads, rfl, rfl, leads, transforms, rfl, rfl⟩,
        by simp only [Bridge.rabbitSource?, reads], ?_⟩
      intro r past b hprovides
      simp only [ofBridge, reads, leads, transforms, Brokers.onRabbit]
      rcases hprovides.provision source with
        ⟨r', hok, hprovides', hagain⟩ | ⟨⟨name, r', hrefused⟩, hnot⟩
      · exact .inl ⟨r', by rw [hok], hprovides', fun hsub => hagain (hsub List.mem_cons_self)⟩
      · exact .inr ⟨⟨name, { b with rabbit := r' }, by rw [hrefused]⟩, hnot⟩

/-- The bridges of a list are made ready, unless their sources do not go together. -/
theorem ofBridges_grants (retryEnabled : Bool) (bridges : List Bridge) :
    ∀ index : Nat, (∀ bridge ∈ bridges, bridge.Runnable ∧ bridge.isFromRabbit) →
      ∃ es, MadeInOrder retryEnabled index bridges es ∧
        Grants (bridges.filterMap Bridge.rabbitSource?) (ofBridges index retryEnabled bridges)
          es := by
  induction bridges with
  | nil =>
      intro index _
      refine ⟨[], .nil, fun r past b h => .inl ⟨b.rabbit, rfl, ?_, fun _ => rfl⟩⟩
      rwa [List.filterMap_nil, List.append_nil]
  | cons bridge rest ih =>
      intro index hall
      obtain ⟨⟨hrunnable, hrabbit⟩, hrest⟩ := List.forall_mem_cons.mp hall
      obtain ⟨e, source, hmade, hsource, hfirst⟩ :=
        ofBridge_grants hrunnable hrabbit index retryEnabled
      obtain ⟨es, hmades, hothers⟩ := ih (index + 1) hrest
      refine ⟨e :: es, .cons ⟨source, hmade⟩ hmades, fun r past b h => ?_⟩
      rw [List.filterMap_cons_some hsource, List.append_cons]
      rcases hfirst r past b h with ⟨r₁, hok, h₁, hagain⟩ | ⟨⟨name, b', hrefused⟩, hnot⟩
      · rcases hothers r (past ++ [source]) { b with rabbit := r₁ } h₁ with
          ⟨r₂, hok', h₂, hagain'⟩ | ⟨⟨name, b', hrefused⟩, hnot⟩
        · refine .inl ⟨r₂, by rw [ofBridges, hok]; simp only []; rw [hok'], h₂, fun hsub => ?_⟩
          obtain ⟨hmem, hsub⟩ := List.cons_subset.mp hsub
          rw [hagain' (List.Subset.trans hsub (List.subset_append_left _ _)),
            hagain (List.cons_subset.mpr ⟨hmem, List.nil_subset _⟩)]
        · exact .inr ⟨⟨name, b', by rw [ofBridges, hok]; simp only []; rw [hrefused]⟩, hnot⟩
      · refine .inr ⟨⟨name, b', by rw [ofBridges, hrefused]⟩, fun hcompatible => hnot ?_⟩
        exact hcompatible.mono (List.subset_append_left _ _)

/-- Bridges are forwarded from the same sources when the same of them are to forward. -/
theorem mem_forwardSources_congr {bridges bridges' : List Bridge}
    (same : ∀ bridge, bridge ∈ Bridge.forwardable bridges' ↔ bridge ∈ Bridge.forwardable bridges)
    (s : RabbitSource) :
    s ∈ Bridge.forwardSources bridges ↔ s ∈ Bridge.forwardSources bridges' := by
  simp only [Bridge.forwardSources, List.mem_filterMap, same]

section Bare

variable (retryEnabled : Bool) {bridges : List Bridge} {b : Brokers}
  (runnable : ∀ bridge ∈ Bridge.forwardable bridges, bridge.Runnable)

include runnable

/-- What comes out on a broker without declarations, and again after that. -/
theorem generateAll_of_bare (bare : b.rabbit.Bare) :
    (∃ es r', generateAll retryEnabled bridges b = (.ok es, { b with rabbit := r' }) ∧
      b.rabbit.Provides r' (Bridge.forwardSources bridges) ∧
      MadeInOrder retryEnabled 0 (Bridge.forwardable bridges) es ∧
      generateAll retryEnabled bridges { b with rabbit := r' } =
        (.ok es, { b with rabbit := r' })) ∨
    ((∃ name b', generateAll retryEnabled bridges b =
      (.error (Refusal.queueDiffers name).failure, b')) ∧
      ¬ Compatible (Bridge.forwardSources bridges)) := by
  have hall : ∀ bridge ∈ Bridge.forwardable bridges, bridge.Runnable ∧ bridge.isFromRabbit := by
    intro bridge hbridge
    have hpass := (List.mem_filter.mp hbridge).2
    rw [Bool.and_eq_true] at hpass
    exact ⟨runnable bridge hbridge, hpass.1⟩
  obtain ⟨es, hmade, hgrants⟩ :=
    ofBridges_grants retryEnabled (Bridge.forwardable bridges) 0 hall
  rcases hgrants b.rabbit [] b bare.declared with ⟨r', hok, hprovides, _⟩ | hrefused
  · refine .inl ⟨es, r', hok, hprovides, hmade, ?_⟩
    rcases hgrants b.rabbit _ { b with rabbit := r' } hprovides with
      ⟨r'', hok', _, hagain⟩ | ⟨_, hnot⟩
    · rw [hagain (List.Subset.refl _)] at hok'
      exact hok'
    · exact absurd (hprovides.compatible.mono (by simp)) hnot
  · exact .inr hrefused

/-- What has been made ready on a broker without declarations. -/
theorem provides_of_generateAll (bare : b.rabbit.Bare) {es : List Endpoint} {b' : Brokers}
    (h : generateAll retryEnabled bridges b = (.ok es, b')) :
    b' = { b with rabbit := b'.rabbit } ∧
      b.rabbit.Provides b'.rabbit (Bridge.forwardSources bridges) ∧
      MadeInOrder retryEnabled 0 (Bridge.forwardable bridges) es ∧
      generateAll retryEnabled bridges b' = (.ok es, b') := by
  rcases generateAll_of_bare retryEnabled runnable bare with
    ⟨es', r', hok, hprovides, hmade, hagain⟩ | ⟨⟨name, b'', hrefused⟩, _⟩
  · cases h.symm.trans hok
    exact ⟨rfl, hprovides, hmade, hagain⟩
  · cases h.symm.trans hrefused

theorem generateAll_ok_iff (bare : b.rabbit.Bare) :
    (∃ es b', generateAll retryEnabled bridges b = (.ok es, b')) ↔
      Compatible (Bridge.forwardSources bridges) := by
  constructor
  · intro ⟨es, b', h⟩
    exact (provides_of_generateAll retryEnabled runnable bare h).2.1.compatible
  · intro hcompatible
    rcases generateAll_of_bare retryEnabled runnable bare with
      ⟨es, r', hok, _⟩ | ⟨_, hnot⟩
    · exact ⟨es, _, hok⟩
    · exact absurd hcompatible hnot

end Bare

/-- What is provisioned depends only on which bridges are to forward. On a broker
without declarations, validated bridges are made ready exactly when the sources of
those that are to forward are compatible; otherwise a queue is refused. Declared is
then what these sources need and nothing else, each of these bridges has an endpoint
with its position in its name, and to repeat everything changes nothing. The same
bridges in another order declare the same, and so does any list of which the same
bridges are to forward. -/
theorem provisioned_by_sources {bridges : List Bridge} {b : Brokers} (retryEnabled : Bool)
    (validated : ∀ bridge ∈ bridges, bridge.Validated) (bare : b.rabbit.Bare) :
    ((∃ es b', generateAll retryEnabled bridges b = (.ok es, b')) ↔
      Compatible (Bridge.forwardSources bridges)) ∧
    (¬ Compatible (Bridge.forwardSources bridges) →
      ∃ name b', generateAll retryEnabled bridges b =
        (.error (Refusal.queueDiffers name).failure, b')) ∧
    (∀ es b', generateAll retryEnabled bridges b = (.ok es, b') →
      b' = { b with rabbit := b'.rabbit } ∧
      b.rabbit.Provides b'.rabbit (Bridge.forwardSources bridges) ∧
      MadeInOrder retryEnabled 0 (Bridge.forwardable bridges) es ∧
      generateAll retryEnabled bridges b' = (.ok es, b')) ∧
    ∀ bridges', (∀ bridge, bridge ∈ Bridge.forwardable bridges' ↔
        bridge ∈ Bridge.forwardable bridges) →
      ((∃ es b', generateAll retryEnabled bridges' b = (.ok es, b')) ↔
        ∃ es b', generateAll retryEnabled bridges b = (.ok es, b')) ∧
      ∀ es₁ b₁ es₂ b₂, generateAll retryEnabled bridges b = (.ok es₁, b₁) →
        generateAll retryEnabled bridges' b = (.ok es₂, b₂) →
        b₁.rabbit.exchanges.Perm b₂.rabbit.exchanges ∧
          b₁.rabbit.queues.Perm b₂.rabbit.queues ∧
          b₁.rabbit.bindings.Perm b₂.rabbit.bindings := by
  have runnable : ∀ bridge ∈ Bridge.forwardable bridges, bridge.Runnable :=
    fun bridge hbridge => (validated bridge (List.mem_of_mem_filter hbridge)).runnable
  have hiff := generateAll_ok_iff retryEnabled runnable bare
  refine ⟨hiff, fun hnot => ?_, fun es b' h => provides_of_generateAll retryEnabled runnable bare h,
    fun bridges' same => ?_⟩
  · rcases generateAll_of_bare retryEnabled runnable bare with
      ⟨es, r', hok, _⟩ | ⟨hrefused, _⟩
    · exact absurd (hiff.mp ⟨es, _, hok⟩) hnot
    · exact hrefused
  · have runnable' : ∀ bridge ∈ Bridge.forwardable bridges', bridge.Runnable :=
      fun bridge hbridge => runnable bridge ((same bridge).mp hbridge)
    have hsources := mem_forwardSources_congr same
    refine ⟨?_, fun es₁ b₁ es₂ b₂ h₁ h₂ => ?_⟩
    · rw [generateAll_ok_iff retryEnabled runnable' bare, hiff]
      exact ⟨fun h => h.mono fun s hs => (hsources s).mp hs,
        fun h => h.mono fun s hs => (hsources s).mpr hs⟩
    · exact (provides_of_generateAll retryEnabled runnable bare h₁).2.1.perm
        (provides_of_generateAll retryEnabled runnable' bare h₂).2.1 hsources

/-- Orders are forwarded, and so are those that were rejected. The last bridge has
the queue of the first one and another exchange, but it is switched off. -/
def ordersAndRejected : List Definition :=
  [{ source := some { rabbit := some ⟨"orders", "orders-to-sqs", "order.*"⟩ }
     destination := some { sqs := some "orders" } },
    { source := some { rabbit := some ⟨"orders-dead-letter", "rejected", "#"⟩ }
      destination := some { sns := some "rejected" } },
    { source := some { rabbit := some ⟨"returns", "orders-to-sqs", "#"⟩ }
      destination := some { sqs := some "returns" }
      forwarding := some false }]

theorem orders_and_rejected_provisioned :
    ∃ bridges, Definition.validate ordersAndRejected = .ok bridges ∧
      (∀ bridge ∈ bridges, bridge.Validated) ∧ ({} : Brokers).rabbit.Bare ∧
      ∃ es b', generateAll true bridges {} = (.ok es, b') ∧
        generateAll true bridges b' = (.ok es, b') ∧
        ∃ es' b'', generateAll true bridges.reverse {} = (.ok es', b'') ∧
          b'.rabbit.queues.Perm b''.rabbit.queues := by
  obtain ⟨bridges, hvalidate, hsources⟩ : ∃ bridges,
      Definition.validate ordersAndRejected = .ok bridges ∧
        Bridge.forwardSources bridges =
          [⟨"orders", "orders-to-sqs", "order.*"⟩, ⟨"orders-dead-letter", "rejected", "#"⟩] :=
    ⟨_, rfl, rfl⟩
  have validated : ∀ bridge ∈ bridges, bridge.Validated :=
    fun bridge hbridge => ⟨ordersAndRejected, bridges, hvalidate, hbridge⟩
  have bare : ({} : Brokers).rabbit.Bare := ⟨rfl, rfl, rfl⟩
  obtain ⟨hok, _, hagain, hother⟩ := provisioned_by_sources true validated bare
  obtain ⟨es, b', h⟩ := hok.mpr (by rw [hsources]; decide)
  obtain ⟨hsame, hperm⟩ := hother bridges.reverse (by simp [Bridge.forwardable])
  obtain ⟨es', b'', h'⟩ := hsame.mpr ⟨es, b', h⟩
  exact ⟨bridges, hvalidate, validated, bare, es, b', h, (hagain es b' h).2.2.2, es', b'', h',
    (hperm es b' es' b'' h h').2.1⟩

end Endpoint

end MessageBridge
