import MessageBridge.Proofs.Forward.Endpoints
import MessageBridge.Proofs.Process.Waiting
import MessageBridge.Process.App

/-!
# Starting and stopping

A start has two phases. First things are declared and tasks are made, and no task
has a turn: the app hires consumers for endpoints that serve its bridges, and
pollers. A start that succeeds ends there. A start that fails in the reverse
direction has to wait for the consumers that it has made before, and in this
second phase the tasks run and nothing else happens. A stop has the second phase
only.
-/

namespace MessageBridge

/-- The rule is that of a dispatcher which was prepared for a reverse bridge, or of
the consumer of an endpoint that serves a forward bridge which is switched on. -/
inductive Hired (a : App) (r : Rabbit.Broker) : Rule → Prop where
  | poller (d : Dispatcher) (bridge : Bridge) (b : Brokers)
      (mem : bridge ∈ Bridge.reverse a.bridges)
      (prepared : (App.prepare a.poller bridge b).1 = .ok d) : Hired a r d.Does
  | consumer (c : Consumer) (bridge : Bridge) (source : RabbitSource)
      (mem : bridge ∈ Bridge.forwardable a.bridges)
      (serves : c.endpoint.Serves bridge source r) : Hired a r c.Does

theorem Hired.keep {a : App} {r r' : Rabbit.Broker} {rule : Rule}
    (h : Hired a r rule) (hk : r.Keeps r') : Hired a r' rule := by
  cases h with
  | poller d bridge b mem prepared => exact .poller d bridge b mem prepared
  | consumer c bridge source mem serves => exact .consumer c bridge source mem (serves.keep hk)

/-- Two apps for the same bridges, with the same settings for pollers. -/
def App.Same (a a' : App) : Prop :=
  a'.bridges = a.bridges ∧ a'.poller = a.poller

theorem App.Same.refl (a : App) : a.Same a :=
  ⟨rfl, rfl⟩

theorem App.Same.symm {a a' : App} (h : a.Same a') : a'.Same a :=
  ⟨h.1.symm, h.2.symm⟩

theorem App.Same.trans {a₁ a₂ a₃ : App} (h₁₂ : a₁.Same a₂) (h₂₃ : a₂.Same a₃) : a₁.Same a₃ :=
  ⟨h₂₃.1.trans h₁₂.1, h₂₃.2.trans h₁₂.2⟩

theorem Hired.same {a a' : App} {r : Rabbit.Broker} {rule : Rule} (hs : a.Same a')
    (h : Hired a r rule) : Hired a' r rule := by
  cases h with
  | poller d bridge b mem prepared =>
      refine .poller d bridge b ?_ ?_
      · rw [hs.1]
        exact mem
      · rw [hs.2]
        exact prepared
  | consumer c bridge source mem serves =>
      refine .consumer c bridge source ?_ serves
      rw [hs.1]
      exact mem

namespace World

/-- Things were declared and tasks were hired, and no task had a turn. -/
structure Hires (a : App) (past : List Moment) (w w' : World) : Prop where
  declares : Declares past w.brokers w'.brokers
  tasks : ∃ new : List Task, w'.tasks = w.tasks ++ new ∧
    ∀ t ∈ new, (∀ h, t.work.Accounted h) ∧ Hired a w'.brokers.rabbit t.work.Does

theorem Hires.of_declares {a : App} {past : List Moment} {w w' : World}
    (hd : Declares past w.brokers w'.brokers) (ht : w'.tasks = w.tasks) :
    Hires a past w w' :=
  ⟨hd, [], by rw [ht, List.append_nil], fun t ht => nomatch ht⟩

theorem Hires.trans {a : App} {past : List Moment} {w₁ w₂ w₃ : World}
    (h₁₂ : Hires a past w₁ w₂) (h₂₃ : Hires a past w₂ w₃) : Hires a past w₁ w₃ := by
  obtain ⟨new, hnew, hhired⟩ := h₁₂.tasks
  obtain ⟨new', hnew', hhired'⟩ := h₂₃.tasks
  refine ⟨h₁₂.declares.trans h₂₃.declares, new ++ new', ?_, ?_⟩
  · rw [hnew', hnew, List.append_assoc]
  · intro t ht
    rcases List.mem_append.mp ht with ht | ht
    · exact ⟨(hhired t ht).1, (hhired t ht).2.keep h₂₃.declares.keeps⟩
    · exact hhired' t ht

theorem Hires.same {a a' : App} {past : List Moment} {w w' : World} (hs : a.Same a')
    (h : Hires a past w w') : Hires a' past w w' := by
  obtain ⟨new, hnew, hhired⟩ := h.tasks
  exact ⟨h.declares, new, hnew, fun t ht => ⟨(hhired t ht).1, (hhired t ht).2.same hs⟩⟩

theorem Hires.accounted {a : App} {past past' : List Moment} {w w' : World}
    (h : Hires a past w w') (ha : w.Accounted past') : w'.Accounted past' := by
  obtain ⟨new, hnew, hhired⟩ := h.tasks
  intro t ht
  rw [hnew] at ht
  rcases List.mem_append.mp ht with ht | ht
  · exact ha t ht
  · exact (hhired t ht).1 past'

/-- The rules of all tasks are those of hired ones, if this was so before. -/
theorem Hires.hired {a : App} {past : List Moment} {w w' : World} (h : Hires a past w w')
    (hw : ∀ rule ∈ w.rules, Hired a w.brokers.rabbit rule) :
    ∀ rule ∈ w'.rules, Hired a w'.brokers.rabbit rule := by
  obtain ⟨new, hnew, hhired⟩ := h.tasks
  intro rule hrule
  unfold rules at hrule
  rw [hnew, List.map_append] at hrule
  rcases List.mem_append.mp hrule with hrule | hrule
  · exact (hw rule hrule).keep h.declares.keeps
  · obtain ⟨t, ht, rfl⟩ := List.mem_map.mp hrule
    exact (hhired t ht).2

end World

theorem Dispatcher.declares_prepare (past : List Moment) (queue : String)
    (destination : RabbitDestination) (s : PollerSettings) (declare : Bool) (b : Brokers) :
    Declares past b (prepare queue destination s declare b).2 := by
  unfold prepare
  split
  · exact .refl past b
  · cases declare with
    | false => exact .refl past b
    | true =>
        have hpair := declares_declarePair past destination.exchange b
        simp only [Brokers.onRabbit, if_true]
        rcases hdeclared : b.rabbit.declarePair destination.exchange with ⟨result, rabbit⟩
        rw [hdeclared] at hpair
        cases result <;> exact hpair

namespace App

variable {a a' : App} {w w' : World} {past : List Moment}

/-- A start of the forward direction that succeeds has nothing to do, or it makes
endpoints ready and a consumer for each of them. -/
theorem startForwarding_ok (h : a.startForwarding w = (.ok a', w')) :
    a.forwarding.running = true ∧ a' = a ∧ w' = w ∨
      a.forwarding.running = false ∧ ∃ es w₁,
        w.act (Endpoint.generateAll a.rabbit.retry.enabled a.bridges) = (.ok es, w₁) ∧
        a' = { a with
          forwarding :=
            ⟨true, (w₁.spawnAll ((es.map fun e => .ofEndpoint e a.rabbit).map .consumer)).1⟩
          endpointIds := es.map (·.id) } ∧
        w' = (w₁.spawnAll ((es.map fun e => .ofEndpoint e a.rabbit).map .consumer)).2 := by
  unfold startForwarding at h
  split at h
  · next hrunning =>
      cases h
      exact .inl ⟨hrunning, rfl, rfl⟩
  · next hrunning =>
      split at h
      · cases h
      · next es w₁ hmade =>
          cases h
          refine .inr ⟨Bool.eq_false_iff.mpr hrunning, es, w₁, hmade, ?_⟩
          rw [List.map_map]
          exact ⟨rfl, rfl⟩

theorem startForwarding_error {failure : Failure}
    (h : a.startForwarding w = (.error failure, w')) :
    w.act (Endpoint.generateAll a.rabbit.retry.enabled a.bridges) = (.error failure, w') := by
  unfold startForwarding at h
  split at h
  · cases h
  · split at h
    · next hmade =>
        cases h
        exact hmade
    · cases h

theorem hires_startForwarding (a : App) (w : World) (past : List Moment) :
    World.Hires a past w (a.startForwarding w).2 ∧
      ∀ a', (a.startForwarding w).1 = .ok a' → a.Same a' := by
  unfold startForwarding
  split
  · refine ⟨.of_declares (.refl past _) rfl, ?_⟩
    intro a' ha'
    injection ha' with ha'
    rw [← ha']
    exact .refl a
  · obtain ⟨hdeclares, hserve⟩ := Endpoint.declares_ofBridges past a.rabbit.retry.enabled
      (Bridge.forwardable a.bridges) 0 w.brokers
    unfold World.act Endpoint.generateAll
    rcases hmade : Endpoint.ofBridges 0 a.rabbit.retry.enabled (Bridge.forwardable a.bridges)
      w.brokers with ⟨result, b⟩
    rw [hmade] at hdeclares hserve
    cases result with
    | error failure => exact ⟨.of_declares hdeclares rfl, fun a' ha' => nomatch ha'⟩
    | ok endpoints =>
        simp only []
        refine ⟨⟨?_, endpoints.map fun e => .consumer (.ofEndpoint e a.rabbit), ?_, ?_⟩, ?_⟩
        · rw [World.brokers_spawnAll]
          exact hdeclares
        · exact World.tasks_spawnAll _ _
        · intro t ht
          obtain ⟨e, he, rfl⟩ := List.mem_map.mp ht
          obtain ⟨bridge, hbridge, source, hserves⟩ := hserve endpoints rfl e he
          rw [World.brokers_spawnAll]
          exact ⟨fun _ => trivial, .consumer (.ofEndpoint e a.rabbit) bridge source hbridge hserves⟩
        · intro a' ha'
          injection ha' with ha'
          rw [← ha']
          exact ⟨rfl, rfl⟩

theorem declares_prepare (past : List Moment) (s : PollerSettings) (bridge : Bridge)
    (b : Brokers) : Declares past b (prepare s bridge b).2 := by
  unfold prepare
  split
  · exact Dispatcher.declares_prepare past _ _ s true b
  · exact .refl past b

/-- All dispatchers that are prepared together are for a bridge of the list. -/
theorem declares_prepareAll (past : List Moment) (s : PollerSettings) (bridges : List Bridge) :
    ∀ b : Brokers, Declares past b (prepareAll s bridges b).2 ∧
      ∀ ds, (prepareAll s bridges b).1 = .ok ds → ∀ d ∈ ds,
        ∃ bridge ∈ bridges, ∃ b, (prepare s bridge b).1 = .ok d := by
  induction bridges with
  | nil =>
      intro b
      refine ⟨.refl past b, ?_⟩
      intro ds hds d hd
      cases hds
      cases hd
  | cons bridge rest ih =>
      intro b
      have hfirst := declares_prepare past s bridge b
      rw [prepareAll]
      rcases hprepared : prepare s bridge b with ⟨result, b₁⟩
      rw [hprepared] at hfirst
      cases result with
      | error failure => exact ⟨hfirst, fun ds hds => nomatch hds⟩
      | ok d₁ =>
          obtain ⟨hrest, hmade⟩ := ih b₁
          simp only []
          rcases hprepared' : prepareAll s rest b₁ with ⟨result, b₂⟩
          rw [hprepared'] at hrest hmade
          cases result with
          | error failure => exact ⟨hfirst.trans hrest, fun ds hds => nomatch hds⟩
          | ok ds₁ =>
              refine ⟨hfirst.trans hrest, ?_⟩
              intro ds hds d hd
              injection hds with hds
              subst hds
              rcases List.mem_cons.mp hd with rfl | hd
              · exact ⟨bridge, List.mem_cons_self, b, by rw [hprepared]⟩
              · obtain ⟨bridge', hbridge', h⟩ := hmade ds₁ rfl d hd
                exact ⟨bridge', List.mem_cons_of_mem _ hbridge', h⟩

/-- A start of the reverse direction that succeeds has nothing to do, or it prepares
dispatchers and makes a poller for each of them. -/
theorem startPolling_ok (h : a.startPolling w = (.ok a', w')) :
    a.polling.running = true ∧ a' = a ∧ w' = w ∨
      a.polling.running = false ∧ ∃ ds w₁,
        w.act (prepareAll a.poller (Bridge.reverse a.bridges)) = (.ok ds, w₁) ∧
        a' = { a with
          polling := ⟨true, (w₁.spawnAll (ds.map fun d => .poller ⟨d, a.poller.fixedDelay⟩)).1⟩ } ∧
        w' = (w₁.spawnAll (ds.map fun d => .poller ⟨d, a.poller.fixedDelay⟩)).2 := by
  unfold startPolling at h
  split at h
  · next hrunning =>
      cases h
      exact .inl ⟨hrunning, rfl, rfl⟩
  · next hrunning =>
      split at h
      · cases h
      · next ds w₁ hmade =>
          cases h
          exact .inr ⟨Bool.eq_false_iff.mpr hrunning, ds, w₁, hmade, rfl, rfl⟩

theorem startPolling_error {failure : Failure} (h : a.startPolling w = (.error failure, w')) :
    w.act (prepareAll a.poller (Bridge.reverse a.bridges)) = (.error failure, w') := by
  unfold startPolling at h
  split at h
  · cases h
  · split at h
    · next hmade =>
        cases h
        exact hmade
    · cases h

theorem hires_startPolling (a : App) (w : World) (past : List Moment) :
    World.Hires a past w (a.startPolling w).2 ∧
      ∀ a', (a.startPolling w).1 = .ok a' → a.Same a' := by
  unfold startPolling
  split
  · refine ⟨.of_declares (.refl past _) rfl, ?_⟩
    intro a' ha'
    injection ha' with ha'
    rw [← ha']
    exact .refl a
  · obtain ⟨hdeclares, hprepared⟩ :=
      declares_prepareAll past a.poller (Bridge.reverse a.bridges) w.brokers
    unfold World.act
    rcases hmade : prepareAll a.poller (Bridge.reverse a.bridges) w.brokers with ⟨result, b⟩
    rw [hmade] at hdeclares hprepared
    cases result with
    | error failure => exact ⟨.of_declares hdeclares rfl, fun a' ha' => nomatch ha'⟩
    | ok dispatchers =>
        simp only []
        refine ⟨⟨?_, dispatchers.map fun d => .poller ⟨d, a.poller.fixedDelay⟩, ?_, ?_⟩, ?_⟩
        · rw [World.brokers_spawnAll]
          exact hdeclares
        · exact World.tasks_spawnAll _ _
        · intro t ht
          obtain ⟨d, hd, rfl⟩ := List.mem_map.mp ht
          obtain ⟨bridge, hbridge, b, hd⟩ := hprepared dispatchers rfl d hd
          exact ⟨fun _ => trivial, .poller d bridge b hbridge hd⟩
        · intro a' ha'
          injection ha' with ha'
          rw [← ha']
          exact ⟨rfl, rfl⟩

theorem passes_stopDirection {d : Direction} (ha : w.Accounted past)
    (h : stopDirection d w = some w') : World.Passes past w w' := by
  unfold stopDirection at h
  split at h
  · have hworks := w.works_signal d.tasks .requested
    obtain ⟨h, hcourse, hrules, hafter⟩ := World.passes_wait (ha.of_works hworks) h
    have hsame := World.rules_of_works hworks
    rw [hsame] at hcourse hrules
    exact ⟨h, hcourse, hrules, hafter⟩
  · injection h with h
    rw [← h]
    exact .refl ha

theorem passes_stopForwarding (ha : w.Accounted past)
    (h : a.stopForwarding w = some (a', w')) :
    World.Passes past w w' ∧ a.Same a' := by
  obtain ⟨w₁, hw₁, heq⟩ := Option.map_eq_some_iff.mp h
  injection heq with ha' hw'
  subst ha' hw'
  exact ⟨passes_stopDirection ha hw₁, rfl, rfl⟩

theorem passes_stopPolling (ha : w.Accounted past)
    (h : a.stopPolling w = some (a', w')) :
    World.Passes past w w' ∧ a.Same a' := by
  obtain ⟨w₁, hw₁, heq⟩ := Option.map_eq_some_iff.mp h
  injection heq with ha' hw'
  subst ha' hw'
  exact ⟨passes_stopDirection ha hw₁, rfl, rfl⟩

/-- A stop is nothing but time for the tasks. -/
theorem passes_stop (ha : w.Accounted past) (h : a.stop w = some (a', w')) :
    World.Passes past w w' ∧ a.Same a' := by
  obtain ⟨⟨a₁, w₁⟩, hpolling, hforwarding⟩ := Option.bind_eq_some_iff.mp h
  obtain ⟨hpasses, hsame⟩ := passes_stopPolling ha hpolling
  have ⟨_, _, _, ha₁⟩ := hpasses
  have hsame' := (passes_stopForwarding ha₁ hforwarding).2
  exact ⟨hpasses.trans fun past ha => (passes_stopForwarding ha hforwarding).1,
    hsame.trans hsame'⟩

/-- A start hires, and only when it fails it gives time to the tasks. -/
theorem phases_start {result : Except Failure Unit}
    (h : a.start w = some (result, a', w')) (past : List Moment) :
    ∃ w₁, World.Hires a past w w₁ ∧
      (∀ past', w₁.Accounted past' → World.Passes past' w₁ w') ∧
      a.Same a' ∧ (result = .ok () → w' = w₁) := by
  obtain ⟨hhires, hsame⟩ := a.hires_startForwarding w past
  unfold start at h
  rcases hforwarding : a.startForwarding w with ⟨forwarded, w₁⟩
  rw [hforwarding] at hhires hsame h
  cases forwarded with
  | error failure =>
      cases h
      exact ⟨_, hhires, fun _ ha => .refl ha, .refl a, fun h => nomatch h⟩
  | ok a₁ =>
      have hsame₁ : a.Same a₁ := hsame a₁ rfl
      obtain ⟨hhires', hsame'⟩ := a₁.hires_startPolling w₁ past
      simp only [] at h
      rcases hpolling : a₁.startPolling w₁ with ⟨polled, w₂⟩
      rw [hpolling] at hhires' hsame' h
      have hboth := hhires.trans (hhires'.same hsame₁.symm)
      cases polled with
      | ok a₂ =>
          cases h
          exact ⟨_, hboth, fun _ ha => .refl ha, hsame₁.trans (hsame' _ rfl), fun _ => rfl⟩
      | error failure =>
          obtain ⟨⟨a₂, w₃⟩, hstop, heq⟩ := Option.map_eq_some_iff.mp h
          cases heq
          refine ⟨_, hboth, fun _ ha => (passes_stopForwarding ha hstop).1, ?_,
            fun h => nomatch h⟩
          obtain ⟨w₃, _, heq⟩ := Option.map_eq_some_iff.mp hstop
          injection heq with ha'
          rw [← ha']
          exact ⟨hsame₁.1, hsame₁.2⟩

end App

end MessageBridge
