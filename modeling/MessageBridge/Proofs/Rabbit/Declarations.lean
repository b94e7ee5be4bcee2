import MessageBridge.Proofs.Rabbit.Tags
import Mathlib.Data.List.Perm.Basic

/-!
# What is declared for a list of sources

A broker lets the same thing be declared again and refuses to declare another
thing under the same name. So it is enough to know what was asked for:
`Declared` says that the lists of a broker have the members of the lists of
declarations made so far, each once, and one more declaration adds itself to
both or is refused.

All exchanges of sources are durable topic exchanges, so the names decide
everything. A queue is declared by its name and its exchange, and a dead-letter
queue by its name alone. So a list of sources can be provisioned one after the
other exactly when it is `Compatible`, in whatever order they stand.
-/

namespace MessageBridge.Rabbit

/-! ## Members, each once -/

/-- The list has the members of the other one, each once, and no two members with
the same key. -/
structure Lists {α κ : Type} (key : α → κ) (stored asked : List α) : Prop where
  mem : ∀ a, a ∈ stored ↔ a ∈ asked
  once : (stored.map key).Nodup

namespace Lists

variable {α κ : Type} {key : α → κ} {stored asked stored' asked' : List α} {a a' : α}

theorem again (h : Lists key stored asked) (ha : a ∈ asked) : Lists key stored (asked ++ [a]) where
  mem x := by
    rw [h.mem, List.mem_append, List.mem_singleton]
    constructor
    · exact .inl
    · intro hx
      rcases hx with hx | rfl
      · exact hx
      · exact ha
  once := h.once

theorem add (h : Lists key stored asked) (ha : key a ∉ stored.map key) :
    Lists key (stored ++ [a]) (asked ++ [a]) where
  mem x := by rw [List.mem_append, List.mem_append, h.mem]
  once := by
    rw [List.map_append, List.map_singleton]
    exact h.once.append (List.nodup_singleton _) (by simpa using ha)

theorem eq_of_key (h : Lists key stored asked) (ha : a ∈ asked) (ha' : a' ∈ asked)
    (hkey : key a = key a') : a = a' :=
  List.inj_on_of_nodup_map h.once ((h.mem a).mpr ha) ((h.mem a').mpr ha') hkey

theorem perm (h : Lists key stored asked) (h' : Lists key stored' asked')
    (same : ∀ a, a ∈ asked ↔ a ∈ asked') : stored.Perm stored' :=
  (List.perm_ext_iff_of_nodup h.once.of_map h'.once.of_map).mpr fun a => by
    rw [h.mem, h'.mem, same]

end Lists

/-! ## What sources ask for -/

namespace Topology

def exchanges (t : Topology) : List Exchange :=
  [t.exchange, t.deadLetterExchange]

def queues (t : Topology) : List QueueSpec :=
  [t.queue, t.deadLetterQueue]

def bindings (t : Topology) : List Binding :=
  [t.queueBinding, t.deadLetterBinding]

theorem mem_queues {t : Topology} {spec : QueueSpec} :
    spec ∈ t.queues ↔ spec = t.queue ∨ spec = t.deadLetterQueue := by
  simp [queues]

/-- All exchanges that sources need are durable topic exchanges. -/
theorem exchange_eq {s : RabbitSource} {e : Exchange} (he : e ∈ (ofSource s).exchanges) :
    e = .topic e.name := by
  simp only [exchanges, List.mem_cons, List.not_mem_nil, or_false] at he
  rcases he with rfl | rfl <;> rfl

end Topology

theorem deadLetterName_inj {name name' : String} (h : deadLetterName name = deadLetterName name') :
    name = name' :=
  (String.append_left_inj "-dead-letter").mp h

/-- Sources that can be provisioned side by side: those with the same queue have
the same exchange, and none has the dead-letter queue of another one as its
queue. -/
structure Compatible (sources : List RabbitSource) : Prop where
  sameExchange : ∀ s ∈ sources, ∀ t ∈ sources, s.queueName = t.queueName → s.exchange = t.exchange
  apart : ∀ s ∈ sources, ∀ t ∈ sources, s.queueName ≠ deadLetterName t.queueName

instance (sources : List RabbitSource) : Decidable (Compatible sources) :=
  decidable_of_iff
    ((∀ s ∈ sources, ∀ t ∈ sources, s.queueName = t.queueName → s.exchange = t.exchange) ∧
      ∀ s ∈ sources, ∀ t ∈ sources, s.queueName ≠ deadLetterName t.queueName)
    ⟨fun h => ⟨h.1, h.2⟩, fun h => ⟨h.sameExchange, h.apart⟩⟩

theorem Compatible.mono {sources sources' : List RabbitSource} (h : Compatible sources')
    (hsub : sources ⊆ sources') : Compatible sources where
  sameExchange s hs t ht := h.sameExchange s (hsub hs) t (hsub ht)
  apart s hs t ht := h.apart s (hsub hs) t (hsub ht)

/-- The queue of a source is told by its name and the exchange. -/
theorem queue_ofSource_eq_iff {s t : RabbitSource} :
    (Topology.ofSource s).queue = (Topology.ofSource t).queue ↔
      s.queueName = t.queueName ∧ s.exchange = t.exchange := by
  constructor
  · intro h
    have hname := congrArg QueueSpec.name h
    have hargs := congrArg QueueSpec.arguments h
    rw [Broker.arguments_ofSource, Broker.arguments_ofSource] at hargs
    injection hargs with hfirst _
    injection hfirst with _ hexchange
    exact ⟨hname, deadLetterName_inj hexchange⟩
  · intro ⟨hname, hexchange⟩
    simp only [Topology.ofSource, hname, hexchange]

/-- Sources are compatible when all their queues can be told by their names. -/
theorem compatible_iff {sources : List RabbitSource} :
    Compatible sources ↔
      ∀ q ∈ sources.flatMap fun s => (Topology.ofSource s).queues,
        ∀ q' ∈ sources.flatMap fun s => (Topology.ofSource s).queues,
          q.name = q'.name → q = q' := by
  have hmem : ∀ {s q}, s ∈ sources → q ∈ (Topology.ofSource s).queues →
      q ∈ sources.flatMap fun s => (Topology.ofSource s).queues :=
    fun hs hq => List.mem_flatMap.mpr ⟨_, hs, hq⟩
  constructor
  · intro h q hq q' hq' hname
    obtain ⟨s, hs, hq⟩ := List.mem_flatMap.mp hq
    obtain ⟨t, ht, hq'⟩ := List.mem_flatMap.mp hq'
    rcases Topology.mem_queues.mp hq with rfl | rfl <;>
      rcases Topology.mem_queues.mp hq' with rfl | rfl
    · exact queue_ofSource_eq_iff.mpr ⟨hname, h.sameExchange s hs t ht hname⟩
    · exact absurd hname (h.apart s hs t ht)
    · exact absurd hname.symm (h.apart t ht s hs)
    · exact congrArg QueueSpec.standard hname
  · intro h
    constructor
    · intro s hs t ht hname
      have hqueues := h _ (hmem hs (Topology.mem_queues.mpr (.inl rfl))) _
        (hmem ht (Topology.mem_queues.mpr (.inl rfl))) hname
      exact (queue_ofSource_eq_iff.mp hqueues).2
    · intro s hs t ht hname
      have hqueues := h _ (hmem hs (Topology.mem_queues.mpr (.inl rfl))) _
        (hmem ht (Topology.mem_queues.mpr (.inr rfl))) hname
      exact Broker.queue_ne_deadLetterQueue s t hqueues

-- Somebody else reads the dead letters of the first queue, but declares them otherwise.
example : ¬ Compatible [⟨"orders", "orders-to-sqs", "order.*"⟩,
    ⟨"orders-dead-letter", "orders-to-sqs-dead-letter", "#"⟩] := by decide

namespace Broker

/-! ## One declaration -/

/-- The declarations of exchanges, in their order. -/
def exchangeSteps (t : Topology) : List (Broker → Except Failure Unit × Broker) :=
  [(·.declareExchange t.exchange), (·.declareExchange t.deadLetterExchange)]

/-- The declarations of queues, in their order. -/
def queueSteps (t : Topology) : List (Broker → Except Failure Unit × Broker) :=
  [(·.declareQueue t.queue), (·.declareQueue t.deadLetterQueue)]

/-- The declarations of bindings, in their order. -/
def bindingSteps (t : Topology) : List (Broker → Except Failure Unit × Broker) :=
  [(·.declareBinding t.queueBinding), (·.declareBinding t.deadLetterBinding)]

/-- Nothing is declared. -/
structure Bare (b : Broker) : Prop where
  exchanges : b.exchanges = []
  queues : b.queues = []
  bindings : b.bindings = []

/-- The queue of a declaration that nobody has used. -/
def fresh (spec : QueueSpec) : Queue :=
  ⟨spec, [], .idle⟩

/-- Nothing has changed from one broker to the other but what is declared, and
declared is what is listed. -/
structure Declared (b b' : Broker) (exchanges : List Exchange) (specs : List QueueSpec)
    (bindings : List Binding) : Prop where
  exchanges : Lists Exchange.name b'.exchanges exchanges
  queues : Lists (·.spec.name) b'.queues (specs.map fresh)
  bindings : Lists id b'.bindings bindings
  others : b' = { b with
    exchanges := b'.exchanges, queues := b'.queues, bindings := b'.bindings }

variable {b b' : Broker} {es : List Exchange} {specs : List QueueSpec} {xs : List Binding}

theorem Bare.declared (h : b.Bare) : b.Declared b [] [] [] where
  exchanges := by rw [h.exchanges]; exact ⟨fun _ => .rfl, .nil⟩
  queues := by rw [h.queues]; exact ⟨fun _ => .rfl, .nil⟩
  bindings := by rw [h.bindings]; exact ⟨fun _ => .rfl, .nil⟩
  others := rfl

namespace Declared

theorem mem_exchange? (h : b.Declared b' es specs xs) {e : Exchange} (he : e ∈ es) :
    ∃ e', b'.exchange? e.name = some e' := by
  cases hfind : b'.exchange? e.name with
  | some e' => exact ⟨e', rfl⟩
  | none =>
      exact absurd (List.mem_map_of_mem ((h.exchanges.mem e).mpr he))
        (not_mem_names_of_exchange? hfind)

theorem mem_queue? (h : b.Declared b' es specs xs) {spec : QueueSpec} (hspec : spec ∈ specs) :
    ∃ q, b'.queue? spec.name = some q := by
  cases hfind : b'.queue? spec.name with
  | some q => exact ⟨q, rfl⟩
  | none =>
      have hmem := (h.queues.mem (fresh spec)).mpr (List.mem_map_of_mem hspec)
      exact absurd (List.mem_map_of_mem hmem) (not_mem_names_of_queue? hfind)

/-- An exchange can be declared when it does not differ from those of its name. -/
theorem declareExchange (h : b.Declared b' es specs xs) {e : Exchange}
    (same : ∀ e' ∈ es, e'.name = e.name → e' = e) :
    ∃ b'', b'.declareExchange e = (.ok (), b'') ∧ b.Declared b'' (es ++ [e]) specs xs ∧
      (e ∈ es → b'' = b') := by
  cases hfind : b'.exchange? e.name with
  | some e' =>
      have hmem : e' ∈ es := (h.exchanges.mem e').mp (List.mem_of_find?_eq_some hfind)
      have hsame : e' = e := same e' hmem (by simpa using List.find?_some hfind)
      refine ⟨b', by simp [Broker.declareExchange, hfind, hsame], ?_, fun _ => rfl⟩
      exact { h with exchanges := h.exchanges.again (hsame ▸ hmem) }
  | none =>
      refine ⟨{ b' with exchanges := b'.exchanges ++ [e] },
        by simp [Broker.declareExchange, hfind], ?_, fun he => ?_⟩
      · exact ⟨h.exchanges.add (not_mem_names_of_exchange? hfind), h.queues, h.bindings,
          by rw [h.others]⟩
      · obtain ⟨e', he'⟩ := h.mem_exchange? he
        simp [hfind] at he'

/-- A queue is declared, or there is another one of the same name. -/
theorem declareQueue (h : b.Declared b' es specs xs) (spec : QueueSpec) :
    (∃ b'', b'.declareQueue spec = (.ok (), b'') ∧ b.Declared b'' es (specs ++ [spec]) xs ∧
      (spec ∈ specs → b'' = b')) ∨
    (b'.declareQueue spec = (.error (Refusal.queueDiffers spec.name).failure, b') ∧
      ∃ spec' ∈ specs, spec'.name = spec.name ∧ spec' ≠ spec) := by
  cases hfind : b'.queue? spec.name with
  | some q =>
      obtain ⟨hmem, hname⟩ := mem_queues_of_queue? hfind
      obtain ⟨spec', hspec', rfl⟩ := List.mem_map.mp ((h.queues.mem q).mp hmem)
      by_cases hsame : spec' = spec
      · subst hsame
        refine .inl ⟨b', by simp [Broker.declareQueue, hfind, fresh], ?_, fun _ => rfl⟩
        refine { h with queues := ?_ }
        rw [List.map_append, List.map_singleton]
        exact h.queues.again (List.mem_map_of_mem hspec')
      · refine .inr ⟨?_, spec', hspec', hname, hsame⟩
        have hdiffers : (fresh spec').spec ≠ spec := hsame
        simp [Broker.declareQueue, hfind, hdiffers]
  | none =>
      refine .inl ⟨{ b' with queues := b'.queues ++ [fresh spec] },
        by simp [Broker.declareQueue, hfind, fresh], ?_, fun hspec => ?_⟩
      · refine ⟨h.exchanges, ?_, h.bindings, by rw [h.others]⟩
        rw [List.map_append, List.map_singleton]
        exact h.queues.add (not_mem_names_of_queue? hfind)
      · obtain ⟨q, hq⟩ := h.mem_queue? hspec
        simp [hfind] at hq

/-- A binding can be declared when its ends are. -/
theorem declareBinding (h : b.Declared b' es specs xs) {x : Binding} {e : Exchange}
    {spec : QueueSpec} (he : e ∈ es) (hexchange : e.name = x.exchange) (hspec : spec ∈ specs)
    (hqueue : spec.name = x.queue) :
    ∃ b'', b'.declareBinding x = (.ok (), b'') ∧ b.Declared b'' es specs (xs ++ [x]) ∧
      (x ∈ xs → b'' = b') := by
  obtain ⟨e', he'⟩ := h.mem_exchange? he
  obtain ⟨q, hq⟩ := h.mem_queue? hspec
  rw [hexchange] at he'
  rw [hqueue] at hq
  by_cases hx : x ∈ b'.bindings
  · refine ⟨b', by simp [Broker.declareBinding, he', hq, hx], ?_, fun _ => rfl⟩
    exact { h with bindings := h.bindings.again ((h.bindings.mem x).mp hx) }
  · refine ⟨{ b' with bindings := b'.bindings ++ [x] },
      by simp [Broker.declareBinding, he', hq, hx], ?_,
      fun hmem => absurd ((h.bindings.mem x).mpr hmem) hx⟩
    exact ⟨h.exchanges, h.queues, h.bindings.add (by simpa using hx), by rw [h.others]⟩

/-- The exchanges of a source can be declared next to any other topic exchanges. -/
theorem declareExchanges (h : b.Declared b' es specs xs) (topics : ∀ e ∈ es, e = .topic e.name)
    (s : RabbitSource) :
    ∃ b'', b'.declareAll (exchangeSteps (.ofSource s)) = (.ok (), b'') ∧
      b.Declared b'' (es ++ (Topology.ofSource s).exchanges) specs xs ∧
      ((Topology.ofSource s).exchanges ⊆ es → b'' = b') := by
  obtain ⟨b₁, ok₁, h₁, again₁⟩ := h.declareExchange (e := (Topology.ofSource s).exchange)
    fun e he hname => by rw [topics e he, hname]; rfl
  obtain ⟨b₂, ok₂, h₂, again₂⟩ := h₁.declareExchange
    (e := (Topology.ofSource s).deadLetterExchange) fun e he hname => by
      rcases List.mem_append.mp he with he | he
      · rw [topics e he, hname]; rfl
      · rw [List.mem_singleton.mp he] at hname ⊢
        exact congrArg Exchange.topic hname
  refine ⟨b₂, by simp only [exchangeSteps, declareAll, ok₁, ok₂], ?_, fun hsub => ?_⟩
  · rwa [List.append_assoc] at h₂
  · rw [again₂ (List.mem_append_left _ (hsub (by simp [Topology.exchanges]))),
      again₁ (hsub (by simp [Topology.exchanges]))]

/-- Of the queues of a source both are declared, or there is another one under one
of the two names. -/
theorem declareQueues (h : b.Declared b' es specs xs) (s : RabbitSource) :
    (∃ b'', b'.declareAll (queueSteps (.ofSource s)) = (.ok (), b'') ∧
      b.Declared b'' es (specs ++ (Topology.ofSource s).queues) xs ∧
      ((Topology.ofSource s).queues ⊆ specs → b'' = b')) ∨
    ((∃ name b'', b'.declareAll (queueSteps (.ofSource s)) =
          (.error (Refusal.queueDiffers name).failure, b'')) ∧
      ∃ spec ∈ specs ++ (Topology.ofSource s).queues, ∃ spec' ∈ (Topology.ofSource s).queues,
        spec.name = spec'.name ∧ spec ≠ spec') := by
  have hqueue : (Topology.ofSource s).queue ∈ (Topology.ofSource s).queues :=
    Topology.mem_queues.mpr (.inl rfl)
  have hdeadLetter : (Topology.ofSource s).deadLetterQueue ∈ (Topology.ofSource s).queues :=
    Topology.mem_queues.mpr (.inr rfl)
  rcases h.declareQueue (Topology.ofSource s).queue with
    ⟨b₁, ok₁, h₁, again₁⟩ | ⟨refused, spec, hspec, hname, hne⟩
  · rcases h₁.declareQueue (Topology.ofSource s).deadLetterQueue with
      ⟨b₂, ok₂, h₂, again₂⟩ | ⟨refused, spec, hspec, hname, hne⟩
    · refine .inl ⟨b₂, by simp only [queueSteps, declareAll, ok₁, ok₂], ?_, fun hsub => ?_⟩
      · rwa [List.append_assoc] at h₂
      · rw [again₂ (List.mem_append_left _ (hsub hdeadLetter)), again₁ (hsub hqueue)]
    · refine .inr ⟨⟨_, b₁, by simp only [queueSteps, declareAll, ok₁, refused]; rfl⟩,
        spec, ?_, _, hdeadLetter, hname, hne⟩
      rcases List.mem_append.mp hspec with hspec | hspec
      · exact List.mem_append_left _ hspec
      · exact List.mem_append_right _ (List.mem_singleton.mp hspec ▸ hqueue)
  · exact .inr ⟨⟨_, b', by simp only [queueSteps, declareAll, refused]; rfl⟩,
      spec, List.mem_append_left _ hspec, _, hqueue, hname, hne⟩

/-- The bindings of a source can be declared once its exchanges and queues are. -/
theorem declareBindings (h : b.Declared b' es specs xs) (s : RabbitSource)
    (hexchanges : (Topology.ofSource s).exchanges ⊆ es)
    (hqueues : (Topology.ofSource s).queues ⊆ specs) :
    ∃ b'', b'.declareAll (bindingSteps (.ofSource s)) = (.ok (), b'') ∧
      b.Declared b'' es specs (xs ++ (Topology.ofSource s).bindings) ∧
      ((Topology.ofSource s).bindings ⊆ xs → b'' = b') := by
  have hexchange : (Topology.ofSource s).exchange ∈ es := hexchanges (by simp [Topology.exchanges])
  have hdeadLetter : (Topology.ofSource s).deadLetterExchange ∈ es :=
    hexchanges (by simp [Topology.exchanges])
  have hqueue : (Topology.ofSource s).queue ∈ specs := hqueues (Topology.mem_queues.mpr (.inl rfl))
  have hdeadLetterQueue : (Topology.ofSource s).deadLetterQueue ∈ specs :=
    hqueues (Topology.mem_queues.mpr (.inr rfl))
  obtain ⟨b₁, ok₁, h₁, again₁⟩ :=
    h.declareBinding (x := (Topology.ofSource s).queueBinding) hexchange rfl hqueue rfl
  obtain ⟨b₂, ok₂, h₂, again₂⟩ := h₁.declareBinding
    (x := (Topology.ofSource s).deadLetterBinding) hdeadLetter rfl hdeadLetterQueue rfl
  refine ⟨b₂, by simp only [bindingSteps, declareAll, ok₁, ok₂], ?_, fun hsub => ?_⟩
  · rwa [List.append_assoc] at h₂
  · rw [again₂ (List.mem_append_left _ (hsub (by simp [Topology.bindings]))),
      again₁ (hsub (by simp [Topology.bindings]))]

end Declared

/-! ## The declarations of a source -/

theorem declareAll_append_ok {b₁ : Broker}
    {fs gs : List (Broker → Except Failure Unit × Broker)} :
    ∀ {b : Broker}, b.declareAll fs = (.ok (), b₁) →
      b.declareAll (fs ++ gs) = b₁.declareAll gs := by
  induction fs with
  | nil =>
      intro b h
      cases h
      rfl
  | cons f rest ih =>
      intro b h
      obtain ⟨b₂, hf, hrest⟩ := declareAll_cons_ok h
      rw [List.cons_append, declareAll, hf]
      exact ih hrest

theorem declareAll_append_error {b₁ : Broker} {failure : Failure}
    {fs gs : List (Broker → Except Failure Unit × Broker)} :
    ∀ {b : Broker}, b.declareAll fs = (.error failure, b₁) →
      b.declareAll (fs ++ gs) = (.error failure, b₁) := by
  induction fs with
  | nil => intro b h; cases h
  | cons f rest ih =>
      intro b h
      rw [declareAll] at h
      rw [List.cons_append, declareAll]
      rcases hf : f b with ⟨result, b₂⟩
      rw [hf] at h
      cases result with
      | error failure => exact h
      | ok => exact ih h

/-- To provision a source is to declare its exchanges, its queues and its bindings. -/
theorem provision_of_steps {b b' : Broker} {s : RabbitSource} {result : Except Failure Unit}
    (h : b.declareAll (exchangeSteps (.ofSource s) ++
      (queueSteps (.ofSource s) ++ bindingSteps (.ofSource s))) = (result, b')) :
    b.provision s = (result.map fun _ => .ofSource s, b') := by
  unfold provision
  simp only []
  split <;> next hall =>
    cases hall.symm.trans h
    rfl

/-- Nothing has changed from one broker to the other but what is declared, and
declared is what the sources need. -/
def Provides (b b' : Broker) (sources : List RabbitSource) : Prop :=
  b.Declared b' (sources.flatMap fun s => (Topology.ofSource s).exchanges)
    (sources.flatMap fun s => (Topology.ofSource s).queues)
    (sources.flatMap fun s => (Topology.ofSource s).bindings)

namespace Provides

variable {past : List RabbitSource}

/-- What is provided has been compatible. -/
theorem compatible (h : b.Provides b' past) : Compatible past := by
  refine compatible_iff.mpr fun q hq q' hq' hname => ?_
  have heq := h.queues.eq_of_key (List.mem_map_of_mem hq) (List.mem_map_of_mem hq') hname
  exact congrArg Queue.spec heq

/-- Two brokers that provide the same sources differ in the order at most. -/
theorem perm {b₁ b₂ : Broker} {sources sources' : List RabbitSource} (h₁ : b.Provides b₁ sources)
    (h₂ : b.Provides b₂ sources') (same : ∀ s, s ∈ sources ↔ s ∈ sources') :
    b₁.exchanges.Perm b₂.exchanges ∧ b₁.queues.Perm b₂.queues ∧ b₁.bindings.Perm b₂.bindings := by
  refine ⟨h₁.exchanges.perm h₂.exchanges ?_, h₁.queues.perm h₂.queues ?_,
    h₁.bindings.perm h₂.bindings ?_⟩ <;> intro a <;>
    simp only [List.mem_map, List.mem_flatMap, same]

/-- A source is provisioned, unless there is another queue under one of its
names. -/
theorem provision (h : b.Provides b' past) (s : RabbitSource) :
    (∃ b'', b'.provision s = (.ok (.ofSource s), b'') ∧ b.Provides b'' (past ++ [s]) ∧
      (s ∈ past → b'' = b')) ∨
    ((∃ name b'', b'.provision s = (.error (Refusal.queueDiffers name).failure, b'')) ∧
      ¬ Compatible (past ++ [s])) := by
  obtain ⟨b₁, ok₁, h₁, again₁⟩ := h.declareExchanges (fun e he => by
    obtain ⟨t, _, ht⟩ := List.mem_flatMap.mp he
    exact Topology.exchange_eq ht) s
  rcases h₁.declareQueues s with ⟨b₂, ok₂, h₂, again₂⟩ | ⟨⟨name, b₂, refused⟩, hclash⟩
  · obtain ⟨b₃, ok₃, h₃, again₃⟩ := h₂.declareBindings s
      (List.subset_append_right _ _) (List.subset_append_right _ _)
    refine .inl ⟨b₃, ?_, ?_, fun hs => ?_⟩
    · exact provision_of_steps
        (by rw [declareAll_append_ok ok₁, declareAll_append_ok ok₂, ok₃])
    · unfold Provides
      simpa only [List.flatMap_append, List.flatMap_singleton] using h₃
    · rw [again₃ fun x hx => List.mem_flatMap.mpr ⟨s, hs, hx⟩,
        again₂ fun q hq => List.mem_flatMap.mpr ⟨s, hs, hq⟩,
        again₁ fun e he => List.mem_flatMap.mpr ⟨s, hs, he⟩]
  · refine .inr ⟨⟨name, b₂, ?_⟩, fun hcompatible => ?_⟩
    · exact provision_of_steps
        (by rw [declareAll_append_ok ok₁, declareAll_append_error refused])
    · obtain ⟨q, hq, q', hq', hname, hne⟩ := hclash
      have hqueues : (past ++ [s]).flatMap (fun s => (Topology.ofSource s).queues) =
          past.flatMap (fun s => (Topology.ofSource s).queues) ++ (Topology.ofSource s).queues := by
        rw [List.flatMap_append, List.flatMap_singleton]
      exact hne (compatible_iff.mp hcompatible q (hqueues ▸ hq) q'
        (hqueues ▸ List.mem_append_right _ hq') hname)

end Provides

end Broker

end MessageBridge.Rabbit
