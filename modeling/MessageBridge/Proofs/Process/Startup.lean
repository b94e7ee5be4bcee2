import MessageBridge.Proofs.Bridge.Runnable
import MessageBridge.Proofs.Process.Lifecycle
import MessageBridge.Proofs.Process.Queueing

/-!
# What a start comes to

An app whose bridges are runnable starts, or one of the brokers is the reason
why it does not.

A start that fails in the reverse direction waits for the consumers that the
forward direction has just got. They were told to stop before their first turn,
and what such a consumer still does is little: it takes the stream of its queue,
if it gets it, and drops it in its next turn. `toGo` counts the turns that are
left, and together with the length of the queue of tasks it goes down with every
turn, so the wait is over after three turns for each consumer at the latest. That
is the patience that a start needs.
-/

namespace MessageBridge

/-! ## Leaving -/

/-- How many turns there are left for a consumer that is to leave. -/
def Work.toGo : Work → Nat
  | .consuming _ .starting => 2
  | .consuming _ (.running _ _) => 1
  | .consuming _ (.finished _) => 0
  | .polling _ _ => 0

namespace Task

/-- A consumer that was told to stop before it has taken anything from its queue. -/
inductive Leaving : Task → Prop where
  | starting (c : Consumer) (room : 1 ≤ c.concurrency) :
    Leaving ⟨.consuming c .starting, .requested⟩
  | streaming (c : Consumer) (room : 1 ≤ c.concurrency) :
    Leaving ⟨.consuming c (.running true []), .requested⟩

/-- How many turns a leaving task has before it. -/
def toGo (t : Task) : Nat :=
  t.work.toGo

theorem Leaving.isSome_urgency? {t : Task} (h : t.Leaving) (b : Brokers) :
    (t.urgency? b).isSome := by
  cases h with
  | starting c room => rfl
  | streaming c room =>
      have hroom : 0 < c.concurrency := room
      simp only [urgency?, Consuming.urgency?, List.find?_nil, List.length_nil, hroom, and_true,
        if_true]
      split
      · rfl
      · rfl

/-- A leaving task gets on with every turn. -/
theorem Leaving.turn {t : Task} (h : t.Leaving) (number : Nat) (b : Brokers) :
    ((t.turn number b).1.Leaving ∨ (t.turn number b).1.isAlive = false) ∧
      (t.turn number b).1.toGo + 1 ≤ t.toGo := by
  cases h with
  | starting c room =>
      unfold Task.turn Consuming.turn Brokers.onRabbit
      simp only []
      rcases hconsume : b.rabbit.consume c.endpoint.queue with ⟨result, rabbit⟩
      cases result with
      | error failure => exact ⟨.inr rfl, Nat.le_succ 1⟩
      | ok => exact ⟨.inl (.streaming c room), Nat.le_refl 2⟩
  | streaming c room =>
      have hroom : 0 < c.concurrency := room
      have htake : Consuming.take c .requested number true [] b =
          (false, [], { b with rabbit := b.rabbit.dropStream c.endpoint.queue }) := by
        unfold Consuming.take
        rw [if_pos ⟨rfl, hroom⟩]
        rfl
      unfold Task.turn Consuming.turn
      simp only [htake]
      exact ⟨.inr rfl, Nat.le_refl 1⟩

end Task

namespace World

variable {w w' : World} {ids : List Nat} {n : Nat}

/-- How many turns the tasks have before them. -/
def toGo (w : World) : Nat :=
  (w.tasks.map Task.toGo).sum

/-- Every task is over, or it is leaving and queued. -/
def Closing (w : World) : Prop :=
  ∀ i t, w.tasks[i]? = some t → t.isAlive = false ∨ t.Leaving ∧ i ∈ w.ready

theorem Closing.able (h : w.Closing) : w.able = [] := by
  refine able_eq_nil fun i t ht => ?_
  rcases h i t ht with hover | ⟨_, hready⟩
  · exact .inr (Task.urgency?_of_over hover _)
  · exact .inl hready

theorem Closing.over_of_idle (h : w.Closing) (hready : w.ready = []) (ids : List Nat) :
    areOver ids w := by
  refine List.all_eq_true.mpr fun i _ => ?_
  cases ht : w.tasks[i]? with
  | none => rfl
  | some t =>
      rcases h i t ht with hover | ⟨_, hmem⟩
      · simp [hover]
      · rw [hready] at hmem
        cases hmem

/-- The other tasks are where they were when the next one has its turn. -/
theorem Closing.of_set {i : Nat} {rest : List Nat} {t : Task} (h : w.Closing)
    (hready : w.ready = i :: rest) (htasks : w'.tasks = w.tasks.set i t)
    (hrest : rest ⊆ w'.ready) (ht : t.isAlive = false ∨ t.Leaving ∧ i ∈ w'.ready) :
    w'.Closing := by
  intro j tj htj
  rw [htasks, List.getElem?_set] at htj
  split at htj
  · next hij =>
      subst hij
      split at htj
      · cases htj
        exact ht
      · cases htj
  · next hij =>
      refine (h j tj htj).imp_right fun ⟨hleaving, hmem⟩ => ⟨hleaving, hrest ?_⟩
      rw [hready] at hmem
      exact (List.mem_cons.mp hmem).resolve_left fun hji => hij hji.symm

/-- A turn that leaves its task with fewer turns, or that takes a task which is
over out of the queue, brings the end nearer. -/
theorem Closing.after {i : Nat} {rest ready : List Nat} {t t' : Task} {b : Brokers}
    (h : w.Closing) (hready : w.ready = i :: rest) (ht : w.tasks[i]? = some t)
    (hqueued : t'.isAlive = false ∧ ready = rest ∧ t'.toGo ≤ t.toGo ∨
      t'.Leaving ∧ ready = i :: rest ∧ t'.toGo < t.toGo) (turns : Nat) :
    let w' := notice { w with brokers := b, ready, tasks := w.tasks.set i t', turns }
    w'.Closing ∧ w'.toGo + w'.ready.length < w.toGo + w.ready.length := by
  have hrest : rest ⊆ ready := by
    rcases hqueued with ⟨_, rfl, _⟩ | ⟨_, rfl, _⟩
    · exact List.Subset.refl _
    · exact List.subset_cons_self i rest
  have hown : t'.isAlive = false ∨ t'.Leaving ∧ i ∈ ready := by
    rcases hqueued with ⟨hover, _⟩ | ⟨hleaving, rfl, _⟩
    · exact .inl hover
    · exact .inr ⟨hleaving, List.mem_cons_self⟩
  have hclosing : Closing { w with brokers := b, ready, tasks := w.tasks.set i t', turns } :=
    h.of_set hready rfl hrest hown
  simp only [notice_of_able hclosing.able]
  refine ⟨hclosing, ?_⟩
  have hsum : toGo { w with brokers := b, ready, tasks := w.tasks.set i t', turns } + t.toGo =
      w.toGo + t'.toGo := sum_map_set Task.toGo t' w.tasks i ht
  rw [hready]
  rcases hqueued with ⟨_, rfl, hle⟩ | ⟨_, rfl, hlt⟩
  · rw [List.length_cons]
    omega
  · omega

/-- The turn of the next task brings the end nearer. -/
theorem Closing.turn {i : Nat} {rest : List Nat} (h : w.Closing) (hready : w.ready = i :: rest) :
    (World.turn { w with ready := rest } i).Closing ∧
      (World.turn { w with ready := rest } i).toGo +
        (World.turn { w with ready := rest } i).ready.length < w.toGo + w.ready.length := by
  cases ht : w.tasks[i]? with
  | none =>
      rw [turn_of_none (w := { w with ready := rest }) ht, hready]
      refine ⟨fun j t hj => (h j t hj).imp_right fun ⟨hleaving, hmem⟩ => ⟨hleaving, ?_⟩,
        Nat.lt_succ_self _⟩
      rw [hready] at hmem
      refine (List.mem_cons.mp hmem).resolve_left ?_
      rintro rfl
      cases ht.symm.trans hj
  | some t =>
      rw [turn_eq (w := { w with ready := rest }) ht]
      refine h.after hready ht ?_ (w.turns + 1)
      rcases h i t ht with hover | ⟨hleaving, _⟩
      · refine .inl ?_
        simp only [Task.turn_of_over hover, Task.urgency?_of_over hover]
        exact ⟨hover, rfl, Nat.le_refl _⟩
      · obtain ⟨hleft, hfewer⟩ := hleaving.turn w.turns w.brokers
        rcases hleft with hleft | hover
        · exact .inr ⟨hleft, if_pos (hleft.isSome_urgency? _), hfewer⟩
        · refine .inl ⟨hover, ?_, Nat.le_of_succ_le hfewer⟩
          simp only [Task.urgency?_of_over hover]
          rfl

/-- Tasks that are leaving are waited for in as many turns as are left. -/
theorem Closing.isSome_waitFrom (deadline : Option Instant) (ids : List Nat) :
    ∀ (budget : Nat) (w : World), w.Closing → w.toGo + w.ready.length < budget →
      (waitFrom (areOver ids) deadline budget w).isSome := by
  intro budget
  induction budget with
  | zero => intro w _ hlt; omega
  | succ budget ih =>
      intro w h hlt
      rw [waitFrom]
      split
      · next i rest hready =>
          obtain ⟨hclosing, hnearer⟩ := h.turn hready
          exact ih _ hclosing (by omega)
      · next hready =>
          rw [if_pos (h.over_of_idle hready ids)]
          rfl

theorem Closing.isSome_join (h : w.Closing) (hpatience : w.toGo + w.ready.length < w.patience)
    (ids : List Nat) : (w.join ids).isSome := by
  unfold join wait
  split
  · rfl
  · exact Closing.isSome_waitFrom none ids w.patience w h hpatience

/-! ## Before the first turn -/

/-- Every task is over, or it is one of the consumers of these numbers, which are
queued for their first turns, at most so many. -/
structure Untouched (w : World) (ids : List Nat) (n : Nat) : Prop where
  tasks : ∀ i t, w.tasks[i]? = some t → t.isAlive = false ∨
    (∃ c : Consumer, t = .consumer c ∧ 1 ≤ c.concurrency) ∧ i ∈ ids ∧ i ∈ w.ready
  few : w.toGo + w.ready.length ≤ 3 * n

theorem Untouched.act {α : Type} (h : w.Untouched ids n) (f : Brokers → α × Brokers) :
    (w.act f).2.Untouched ids n ∧ (w.act f).2.patience = w.patience := by
  have hquiet : able { w with brokers := (f w.brokers).2 } = [] := by
    refine able_eq_nil fun i t ht => ?_
    rcases h.tasks i t ht with hover | ⟨_, _, hready⟩
    · exact .inr (Task.urgency?_of_over hover _)
    · exact .inl hready
  show (notice { w with brokers := (f w.brokers).2 }).Untouched ids n ∧ _
  rw [notice_of_able hquiet]
  exact ⟨⟨h.tasks, h.few⟩, rfl⟩

theorem toGo_signal (w : World) (ids : List Nat) (stop : StopSignal) :
    (w.signal ids stop).toGo = w.toGo := by
  have hworks : ∀ w : World, w.toGo = ((w.tasks.map (·.work)).map Work.toGo).sum := by
    intro w
    rw [List.map_map]
    rfl
  rw [hworks, hworks, works_signal]

/-- Those that are told to stop before their first turn are leaving. -/
theorem Untouched.signal (h : w.Untouched ids n) :
    (w.signal ids .requested).Closing ∧
      (w.signal ids .requested).toGo + (w.signal ids .requested).ready.length ≤ 3 * n := by
  have htasks : ∀ i t, (w.signal ids .requested).tasks[i]? = some t →
      t.isAlive = false ∨ t.Leaving ∧ i ∈ w.ready := by
    intro i t ht
    rw [getElem?_signal] at ht
    obtain ⟨t₀, ht₀, rfl⟩ := Option.map_eq_some_iff.mp ht
    rcases h.tasks i t₀ ht₀ with hover | ⟨⟨c, rfl, room⟩, hid, hready⟩
    · refine .inl ?_
      split
      · exact Task.signal_of_over hover _
      · exact hover
    · rw [if_pos (List.contains_iff_mem.mpr hid)]
      exact .inr ⟨.starting c room, hready⟩
  have hready : (w.signal ids .requested).ready = w.ready := by
    let told : World := { w.signal ids .requested with ready := w.ready }
    have hclosing : told.Closing := htasks
    show told.notice.ready = w.ready
    rw [notice_of_able hclosing.able]
  refine ⟨?_, ?_⟩
  · intro i t ht
    rw [hready]
    exact htasks i t ht
  · rw [toGo_signal, hready]
    exact h.few

/-- Nothing goes on. -/
structure AtRest (w : World) : Prop where
  ended : ∀ t ∈ w.tasks, t.isAlive = false
  ready : w.ready = []

theorem AtRest.toGo (h : w.AtRest) : w.toGo = 0 := by
  refine List.sum_eq_zero fun k hk => ?_
  obtain ⟨t, ht, rfl⟩ := List.mem_map.mp hk
  obtain ⟨work, stop⟩ := t
  have hover := h.ended _ ht
  cases work with
  | consuming c state => cases state <;> first | rfl | cases hover
  | polling p state => rfl

theorem AtRest.untouched (h : w.AtRest) (ids : List Nat) (n : Nat) : w.Untouched ids n where
  tasks := fun _ t ht => .inl (h.ended t (List.mem_of_getElem? ht))
  few := by
    rw [h.toGo, h.ready]
    exact Nat.zero_le _

theorem AtRest.act {α : Type} (h : w.AtRest) (f : Brokers → α × Brokers) :
    (w.act f).2.AtRest ∧ (w.act f).2.patience = w.patience := by
  have hquiet : able { w with brokers := (f w.brokers).2 } = [] := able_eq_nil fun i t ht =>
    .inr (Task.urgency?_of_over (h.ended t (List.mem_of_getElem? ht)) _)
  show (notice { w with brokers := (f w.brokers).2 }).AtRest ∧ _
  rw [notice_of_able hquiet]
  exact ⟨⟨h.ended, h.ready⟩, rfl⟩

/-- New consumers in a world at rest. -/
theorem AtRest.untouched_spawnAll (h : w.AtRest) (cs : List Consumer)
    (hroom : ∀ c ∈ cs, 1 ≤ c.concurrency) :
    (w.spawnAll (cs.map .consumer)).2.Untouched (w.spawnAll (cs.map .consumer)).1 cs.length := by
  have hquiet : w.able = [] := able_eq_nil fun i t ht =>
    .inr (Task.urgency?_of_over (h.ended t (List.mem_of_getElem? ht)) _)
  have hready := ready_spawnAll cs w hquiet (by rw [h.ready]; exact fun _ hi => nomatch hi)
  rw [h.ready, List.nil_append] at hready
  refine ⟨?_, ?_⟩
  · intro i t ht
    rw [tasks_spawnAll, List.getElem?_append] at ht
    split at ht
    · exact .inl (h.ended t (List.mem_of_getElem? ht))
    · next hi =>
        obtain ⟨c, hc, rfl⟩ := List.mem_map.mp (List.mem_of_getElem? ht)
        have hlt := (List.getElem?_eq_some_iff.mp ht).1
        rw [List.length_map] at hlt
        have hmem : i ∈ List.range' w.tasks.length cs.length :=
          List.mem_range'_1.mpr ⟨by omega, by omega⟩
        refine .inr ⟨⟨c, rfl, hroom c hc⟩, ?_, ?_⟩
        · rw [ids_spawnAll, List.length_map]
          exact hmem
        · rw [hready]
          exact hmem
  · have hnew : ((cs.map Task.consumer).map Task.toGo).sum = 2 * cs.length := by
      rw [List.map_map]
      show (cs.map fun _ => 2).sum = _
      simp [Nat.mul_comm]
    have hold : (w.tasks.map Task.toGo).sum = 0 := h.toGo
    have hsum : (w.spawnAll (cs.map Task.consumer)).2.toGo = 2 * cs.length := by
      unfold World.toGo
      rw [tasks_spawnAll, List.map_append, List.sum_append, hold, hnew, Nat.zero_add]
    rw [hsum, hready, List.length_range']
    omega

end World

namespace App

variable {a a' : App} {w w' : World}

theorem untouched_startForwarding (hrest : w.AtRest) (h : a.startForwarding w = (.ok a', w')) :
    w'.Untouched a'.forwarding.tasks (Bridge.forwardable a.bridges).length ∧
      w'.patience = w.patience := by
  rcases startForwarding_ok h with ⟨_, rfl, rfl⟩ | ⟨_, es, w₁, hmade, rfl, rfl⟩
  · exact ⟨hrest.untouched _ _, rfl⟩
  · obtain ⟨hacted, hpatience⟩ :=
      hrest.act (Endpoint.generateAll a.rabbit.retry.enabled a.bridges)
    rw [hmade] at hacted hpatience
    have hlength : es.length = (Bridge.forwardable a.bridges).length :=
      (Endpoint.serves_ofBridges _ (World.act_eq hmade).1).length_eq.symm
    have hspawned := hacted.untouched_spawnAll (es.map fun e => .ofEndpoint e a.rabbit) (by
      intro c hc
      obtain ⟨e, _, rfl⟩ := List.mem_map.mp hc
      exact Nat.le_max_right _ _)
    rw [List.length_map, hlength] at hspawned
    exact ⟨hspawned, (World.patience_spawnAll _ _).trans hpatience⟩

/-- A failure to start the reverse direction leaves the tasks as they are. -/
theorem untouched_startPolling {ids : List Nat} {n : Nat} {failure : Failure}
    (hw : w.Untouched ids n) (h : a.startPolling w = (.error failure, w')) :
    w'.Untouched ids n ∧ w'.patience = w.patience := by
  have hacted := hw.act (prepareAll a.poller (Bridge.reverse a.bridges))
  rw [startPolling_error h] at hacted
  exact hacted

/-- A start comes to an end when nothing else goes on. -/
theorem isSome_start (a : App) (w : World) (hrest : w.AtRest)
    (hpatience : 3 * (Bridge.forwardable a.bridges).length < w.patience) : (a.start w).isSome := by
  unfold start
  split
  · rfl
  · next a₁ w₁ hforwarding =>
      obtain ⟨huntouched, hsame⟩ := untouched_startForwarding hrest hforwarding
      split
      · rfl
      · next failure w₂ hpolling =>
          obtain ⟨huntouched', hsame'⟩ := untouched_startPolling huntouched hpolling
          rw [Option.isSome_map, stopForwarding, Option.isSome_map]
          unfold stopDirection
          split
          · obtain ⟨hclosing, hfew⟩ := huntouched'.signal
            refine hclosing.isSome_join ?_ _
            show _ < w₂.patience
            omega
          · rfl

/-! ## The outcome -/

theorem brokerFails_startForwarding (hrunnable : ∀ b ∈ a.bridges, b.Runnable) (w : World) :
    BrokerFails (a.startForwarding w).1 := by
  have hforwardable : ∀ b ∈ Bridge.forwardable a.bridges, b.Runnable ∧ b.isFromRabbit := by
    intro b hb
    obtain ⟨hmem, hforward⟩ := List.mem_filter.mp hb
    exact ⟨hrunnable b hmem, (Bool.and_eq_true_iff.mp hforward).1⟩
  have hmade := Endpoint.brokerFails_ofBridges a.rabbit.retry.enabled
    (Bridge.forwardable a.bridges) 0 w.brokers hforwardable
  rcases hstart : a.startForwarding w with ⟨result, w'⟩
  cases result with
  | ok => exact brokerFails_ok _
  | error failure =>
      have hgenerated := (World.act_eq (startForwarding_error hstart)).1
      exact brokerFails_error (hmade.of_error (congrArg Prod.fst hgenerated))

theorem brokerFails_startPolling (hrunnable : ∀ b ∈ a.bridges, b.Runnable) (w : World) :
    BrokerFails (a.startPolling w).1 := by
  have hreverse : ∀ b ∈ Bridge.reverse a.bridges, b.Runnable ∧ b.isFromSqs := by
    intro b hb
    obtain ⟨hmem, hsqs⟩ := List.mem_filter.mp hb
    exact ⟨hrunnable b hmem, hsqs⟩
  have hprepared := brokerFails_prepareAll a.poller (Bridge.reverse a.bridges) w.brokers hreverse
  unfold startPolling World.act
  split
  · exact brokerFails_ok _
  · rcases hresult : prepareAll a.poller (Bridge.reverse a.bridges) w.brokers with ⟨result, b⟩
    rw [hresult] at hprepared
    cases result with
    | error failure => exact brokerFails_error (hprepared.of_error rfl)
    | ok dispatchers => exact brokerFails_ok _

theorem brokerFails_start (hrunnable : ∀ b ∈ a.bridges, b.Runnable)
    {result : Except Failure Unit} (h : a.start w = some (result, a', w')) :
    BrokerFails result := by
  have hforward := brokerFails_startForwarding hrunnable w
  have hsame := (a.hires_startForwarding w []).2
  unfold start at h
  rcases hforwarding : a.startForwarding w with ⟨forwarded, w₁⟩
  rw [hforwarding] at h hforward hsame
  cases forwarded with
  | error failure =>
      cases h
      exact brokerFails_error (hforward.of_error rfl)
  | ok a₁ =>
      have hrunnable₁ : ∀ b ∈ a₁.bridges, b.Runnable := by
        rw [(hsame a₁ rfl).1]
        exact hrunnable
      have hreverse := brokerFails_startPolling hrunnable₁ w₁
      simp only [] at h
      rcases hpolling : a₁.startPolling w₁ with ⟨polled, w₂⟩
      rw [hpolling] at h hreverse
      cases polled with
      | ok a₂ =>
          cases h
          exact brokerFails_ok ()
      | error failure =>
          obtain ⟨_, _, heq⟩ := Option.map_eq_some_iff.mp h
          cases heq
          exact brokerFails_error (hreverse.of_error rfl)

/-- The bridges that bridge files define have what the direction that takes them
up asks for. An app for them starts, or a broker fails: this is so in every
world, and where nothing else goes on the start comes to an end. -/
theorem defined_bridges_start {resources : List ByteArray} {bridges : List Bridge}
    (hdefined : Bridge.ofResources? resources = .ok bridges) :
    (∀ b ∈ bridges, ∀ source, b.source = .rabbit source →
      (∃ target, Target.ofDestination b.destination = .ok target) ∧
        ∃ chain, Chain.ofBridge b = .ok chain) ∧
    (∀ b ∈ bridges, ∀ queue, b.source = .sqs queue →
      ∃ destination, b.destination = .rabbit destination) ∧
    ∀ a : App, a.bridges = bridges → ∀ w : World,
      (∀ result a' w', a.start w = some (result, a', w') →
        result = .ok () ∨ ∃ failure, result = .error failure ∧ failure.OfBroker) ∧
      (w.AtRest → 3 * (Bridge.forwardable bridges).length < w.patience → (a.start w).isSome) := by
  have hrunnable := Bridge.runnable_of_ofResources? hdefined
  refine ⟨?_, ?_, ?_⟩
  · intro b hb source hsource
    cases hrunnable b hb with
    | forward reads leads transforms => exact ⟨⟨_, leads⟩, ⟨_, transforms⟩⟩
    | reverse reads => cases hsource.symm.trans reads
  · intro b hb queue hqueue
    cases hrunnable b hb with
    | forward reads => cases hqueue.symm.trans reads
    | reverse reads leads => exact ⟨_, leads⟩
  · rintro a rfl w
    refine ⟨fun result a' w' hstart => ?_, isSome_start a w⟩
    have hfails := brokerFails_start hrunnable hstart
    cases result with
    | ok => exact .inl rfl
    | error failure => exact .inr ⟨failure, rfl, hfails.of_error rfl⟩

def officeApp : App where
  bridges := Bridge.officeBridges
  rabbit := {}
  poller := {}

/-- There is no inbox, so the consumer of the forward bridge has to leave again. -/
theorem office_fails_of_broker :
    Bridge.ofResources? [Bridge.officeFile] = .ok Bridge.officeBridges ∧
      ∃ failure a w, officeApp.start {} = some (.error failure, a, w) ∧ failure.OfBroker ∧
        w.tasks.length = 1 := by
  have hoffice := (defined_bridges_start Bridge.ofResources?_officeFile).2.2 officeApp rfl {}
  have hsome : (officeApp.start {}).isSome :=
    hoffice.2 ⟨fun _ ht => (nomatch ht), rfl⟩ (by decide)
  obtain ⟨⟨result, a, w⟩, hstart⟩ := Option.isSome_iff_exists.mp hsome
  have hfailed : (officeApp.start {}).all
      (fun started => !started.1.isOk && started.2.2.tasks.length = 1) := by
    decide +kernel
  rw [hstart] at hfailed
  refine ⟨Bridge.ofResources?_officeFile, ?_⟩
  rcases hoffice.1 result a w hstart with rfl | ⟨failure, rfl, hbroker⟩
  · cases hfailed
  · rw [Option.all_some, Bool.and_eq_true_iff] at hfailed
    exact ⟨failure, a, w, hstart, hbroker, of_decide_eq_true hfailed.2⟩

end App

end MessageBridge
