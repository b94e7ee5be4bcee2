import MessageBridge.Bridge.Validation
import MessageBridge.Proofs.Process.QueuedMessages
import MessageBridge.Proofs.Process.Readers
import Mathlib.Data.List.Forall2

/-!
# Whether a service that runs consumes

A start makes one consumer for every endpoint and answers before any of them has
had a turn. What becomes of the consumers is not its business: one that cannot
have the stream of its queue fails, and the service runs on without it. A queue
has one stream and never gets it back, so this is what happens to a consumer
whenever another one was faster. The other one may serve a bridge of the same
service that reads from the same queue; or it has served the same bridge, in a run
that is over.

`attended_or_refused` says that there is no other reason. A service is followed
through starts and stops, while its tasks have turns in any order and everything
else may happen to the brokers, as long as nobody else touches the streams of its
queues. `Staffed` is what all of this keeps: each endpoint of the current run has a
consumer that nobody has told to stop, and all consumers of former runs have been
told and have finished.
-/

namespace MessageBridge

namespace World

variable {w w' : World} {queue : String} {i : Nat}

/-- The task has taken the stream of the queue and goes on consuming. -/
def Consumes (w : World) (queue : String) (i : Nat) : Prop :=
  w.brokers.rabbit.streamOf queue = .taken ∧
    ∃ underway, w.reader? queue i = some ⟨.running true underway, .none⟩

/-- The task has failed, because the stream of the queue was not there any more. -/
def Refused (w : World) (queue : String) (i : Nat) : Prop :=
  w.reader? queue i =
    some ⟨.finished (.error (Rabbit.Refusal.streamTaken queue).failure), .none⟩

/-- The task has had the stream of the queue, and dropped it when it was told to
stop. -/
def Retired (w : World) (queue : String) (i : Nat) : Prop :=
  w.brokers.rabbit.streamOf queue = .dropped ∧
    w.reader? queue i = some ⟨.finished (.ok ()), .requested⟩

/-- The task has had its first turn. -/
def Polled (w : World) (i : Nat) : Prop :=
  ∀ queue x, w.reader? queue i = some x → x.state ≠ .starting

theorem Consumes.isAlive (h : w.Consumes queue i) {t : Task} (ht : w.tasks[i]? = some t) :
    t.isAlive = true := by
  obtain ⟨_, underway, hx⟩ := h
  rw [reader?, ht] at hx
  by_contra hover
  obtain ⟨result, hfinished⟩ := Task.finished_of_over hx (Bool.eq_false_iff.mpr hover)
  cases hfinished

theorem Refused.not_isAlive (h : w.Refused queue i) {t : Task} (ht : w.tasks[i]? = some t) :
    t.isAlive = false := by
  rw [Refused, reader?, ht] at h
  exact Task.over_of_finished h rfl

end World

namespace App

/-- Some bridge of the service reads from the queue. -/
def ReadsFrom (a : App) (queue : String) : Prop :=
  ∃ (bridge : Bridge) (source : RabbitSource), bridge.Reads a queue source

variable {a₀ a a' : App} {w₀ w w' : World} {up : Bool}

/-- A service was started and stopped, its tasks have had turns, and anything has
happened to the brokers except to the streams that it reads from. The flag says
whether the service is up: the last start has succeeded, and no stop came after it. -/
inductive Served (a₀ : App) (w₀ : World) : Bool → App → World → Prop where
  | begun : Served a₀ w₀ false a₀ w₀
  | started {up : Bool} {a a' : App} {w w' : World} (served : Served a₀ w₀ up a w)
      (answer : a.startForwarding w = (.ok a', w')) : Served a₀ w₀ true a' w'
  | failed {up : Bool} {a : App} {w w' : World} {failure : Failure}
      (served : Served a₀ w₀ up a w) (answer : a.startForwarding w = (.error failure, w')) :
    Served a₀ w₀ up a w'
  | stopped {up : Bool} {a a' : App} {w w' : World} (served : Served a₀ w₀ up a w)
      (answer : a.stopForwarding w = some (a', w')) : Served a₀ w₀ false a' w'
  | turned {up : Bool} {a : App} {w : World} (served : Served a₀ w₀ up a w) (i : Nat) :
    Served a₀ w₀ up a (w.turn i)
  | waited {up : Bool} {a : App} {w w' : World} {isOver : World → Bool}
      {deadline : Option Instant} (served : Served a₀ w₀ up a w)
      (ended : w.wait isOver deadline = some w') : Served a₀ w₀ up a w'
  | happened {up : Bool} {a : App} {w : World} (served : Served a₀ w₀ up a w) (event : Event)
      (apart : ∀ queue, a₀.ReadsFrom queue → ¬ event.TouchesStream queue) :
    Served a₀ w₀ up a (w.act fun b => ((), b.on event)).2

/-- The task is that of the endpoint at a position: it runs a consumer for the bridge
at this position. -/
structure Attendant (a₀ a : App) (w : World) (k : Nat) (id : String) (source : RabbitSource)
    (i : Nat) : Prop where
  bridge : ∃ bridge, (Bridge.forwardable a₀.bridges)[k]? = some bridge ∧
    bridge.source = .rabbit source
  task : a.forwarding.tasks[k]? = some i
  consumer : ∃ c, w.consumer? i = some c ∧ c.endpoint.id = id ∧
    c.endpoint.queue = source.queueName

/-- What is kept from start to start. -/
structure Staffed (a₀ : App) (up : Bool) (a : App) (w : World) : Prop where
  bridges : a.bridges = a₀.bridges
  running : a.forwarding.running = up
  down : up = false → a.forwarding.tasks = []
  attends : ∀ queue, a₀.ReadsFrom queue → w.Attends queue
  /-- Nobody has told the consumers of this run to stop. -/
  loyal : ∀ i ∈ a.forwarding.tasks, (w.tasks[i]?).map (fun t : Task => t.stop) = some .none
  /-- Those of former runs have finished. -/
  former : ∀ queue, a₀.ReadsFrom queue → ∀ i x, w.reader? queue i = some x →
    i ∉ a.forwarding.tasks → x.stop = .requested ∧ ∃ result, x.state = .finished result
  distinct : a.forwarding.tasks.Nodup
  staff : up = true → a.endpointIds.length = (Bridge.forwardable a₀.bridges).length ∧
    ∀ k id, a.endpointIds[k]? = some id → ∃ source i, Attendant a₀ a w k id source i

/-! ## Starting -/

/-- Declarations do not touch any stream, and each endpoint serves the bridge in its
place. -/
theorem calm_generateAll {result : Except Failure (List Endpoint)}
    (h : w.act (Endpoint.generateAll a.rabbit.retry.enabled a.bridges) = (result, w')) :
    Calm w.brokers w'.brokers ∧ w'.tasks = w.tasks ∧ ∀ es, result = .ok es →
      List.Forall₂ (fun bridge e => ∃ source, e.Serves bridge source w'.brokers.rabbit)
        (Bridge.forwardable a.bridges) es := by
  obtain ⟨hmade, htasks⟩ := World.act_eq h
  have hcalm := (Endpoint.declares_ofBridges [] a.rabbit.retry.enabled
    (Bridge.forwardable a.bridges) 0 w.brokers).1.calm
  rw [← Endpoint.generateAll, hmade] at hcalm
  refine ⟨hcalm, htasks, ?_⟩
  rintro es rfl
  exact Endpoint.serves_ofBridges _ hmade

namespace Staffed

/-- Time passes for the tasks. -/
theorem proceed (hs : Staffed a₀ up a w) (hp : World.Proceeds w w')
    (hattends : ∀ queue, a₀.ReadsFrom queue → w.Attends queue → w'.Attends queue) : Staffed a₀ up a w' where
  bridges := hs.bridges
  running := hs.running
  down := hs.down
  attends := fun queue hreads => hattends queue hreads (hs.attends queue hreads)
  loyal := fun i hi => (hp.stops i).trans (hs.loyal i hi)
  former := by
    rintro queue hreads i ⟨state', stop⟩ hx hi
    obtain ⟨state, hbefore⟩ := hp.reader? hx
    obtain ⟨hstop, result, hfinished⟩ := hs.former queue hreads i _ hbefore hi
    cases (hp.finished hbefore hfinished).symm.trans hx
    exact ⟨hstop, result, hfinished⟩
  distinct := hs.distinct
  staff := fun hup => by
    obtain ⟨hlength, hstaff⟩ := hs.staff hup
    refine ⟨hlength, fun k id hid => ?_⟩
    obtain ⟨source, i, hbridge, htask, c, hc, hserves⟩ := hstaff k id hid
    exact ⟨source, i, hbridge, htask, c, (hp.consumers i).trans hc, hserves⟩

/-- A run begins. -/
theorem start (hs : Staffed a₀ false a w) {w₁ : World} {es : List Endpoint} {ids : List Nat}
    (hmade : w.act (Endpoint.generateAll a.rabbit.retry.enabled a.bridges) = (.ok es, w₁))
    (hspawned : w₁.spawnAll ((es.map fun e => .ofEndpoint e a.rabbit).map .consumer) = (ids, w')) :
    Staffed a₀ true
      { a with forwarding := ⟨true, ids⟩, endpointIds := es.map (·.id) } w' := by
  obtain ⟨hcalm, htasks₁, hmatch⟩ := calm_generateAll hmade
  have hserves := hmatch es rfl
  obtain ⟨hids, hbrokers, htasks⟩ := World.spawnAll_eq hspawned
  rw [htasks₁, List.length_map, List.length_map] at hids
  rw [htasks₁] at htasks
  subst hids
  rw [← hbrokers] at hcalm hserves
  rw [hs.bridges] at hserves
  -- the task of each endpoint
  have hnew : ∀ k e, es[k]? = some e →
      w'.tasks[w.tasks.length + k]? = some (.consumer (.ofEndpoint e a.rabbit)) := by
    intro k e he
    rw [htasks, List.getElem?_append_right (Nat.le_add_right _ _), Nat.add_sub_cancel_left,
      List.getElem?_map, List.getElem?_map, he]
    rfl
  have hnumbers : ∀ i ∈ List.range' w.tasks.length es.length, ∃ k e, es[k]? = some e ∧
      i = w.tasks.length + k := by
    intro i hi
    obtain ⟨k, hk, rfl⟩ := List.mem_range'.mp hi
    exact ⟨k, es[k], List.getElem?_eq_getElem hk, by rw [Nat.one_mul]⟩
  refine {
    bridges := hs.bridges
    running := rfl
    down := fun h => nomatch h
    attends := ?attends
    loyal := ?loyal
    former := ?former
    distinct := List.nodup_range' ..
    staff := fun _ => ?staff }
  case attends =>
    intro queue hreads
    refine (hs.attends queue hreads).hire htasks hcalm.keeps (hcalm.streams queue)
      fun c hc hqueue => ?_
    obtain ⟨e, he, rfl⟩ := List.mem_map.mp hc
    obtain ⟨k, hk, rfl⟩ := List.getElem_of_mem he
    obtain ⟨source, hsource⟩ := hserves.get (hserves.length_eq ▸ hk) hk
    obtain ⟨q, hq, _⟩ := hsource.provisioned.queue
    have hname : source.queueName = queue := hsource.queue.symm.trans hqueue
    rw [← hname, hq]
    rfl
  case loyal =>
    intro i hi
    obtain ⟨k, e, he, rfl⟩ := hnumbers i hi
    rw [hnew k e he]
    rfl
  case former =>
    intro queue hreads i x hx hi
    -- whoever is new belongs to this run
    have hlt : i < w.tasks.length := by
      obtain ⟨t, ht, _⟩ := Option.bind_eq_some_iff.mp hx
      have hbound := (List.getElem?_eq_some_iff.mp ht).1
      rw [htasks, List.length_append, List.length_map, List.length_map] at hbound
      by_contra hge
      exact hi (List.mem_range'_1.mpr ⟨Nat.le_of_not_lt hge, hbound⟩)
    rw [World.reader?, htasks, List.getElem?_append_left hlt] at hx
    refine hs.former queue hreads i x hx ?_
    rw [hs.down rfl]
    exact List.not_mem_nil
  case staff =>
    refine ⟨(List.length_map _).trans hserves.length_eq.symm, fun k id hid => ?_⟩
    rw [List.getElem?_map] at hid
    obtain ⟨e, he, rfl⟩ := Option.map_eq_some_iff.mp hid
    obtain ⟨hk, rfl⟩ := List.getElem?_eq_some_iff.mp he
    have hk' : k < (Bridge.forwardable a₀.bridges).length := hserves.length_eq ▸ hk
    obtain ⟨source, hsource⟩ := hserves.get hk' hk
    refine ⟨source, w.tasks.length + k, {
      bridge := ⟨_, List.getElem?_eq_getElem hk', hsource.isSource⟩
      task := ?task
      consumer := ⟨.ofEndpoint es[k] a.rabbit, ?consumer, rfl, hsource.queue⟩ }⟩
    case task =>
      show (List.range' w.tasks.length es.length)[k]? = _
      rw [List.getElem?_range' hk, Nat.one_mul]
    case consumer =>
      rw [World.consumer?, hnew k _ he]
      rfl

/-- When a stop returns, all consumers of the run have finished. -/
theorem finished_of_join (hs : Staffed a₀ up a w)
    (h : (w.signal a.forwarding.tasks .requested).join a.forwarding.tasks = some w') :
    ∀ queue, a₀.ReadsFrom queue → w'.Attends queue ∧ ∀ i x, w'.reader? queue i = some x →
      x.stop = .requested ∧ ∃ result, x.state = .finished result := by
  intro queue hreads
  have hp := World.proceeds_wait h
  have hover : World.areOver a.forwarding.tasks w' = true := World.isOver_of_wait h
  refine ⟨((hs.attends queue hreads).signal _).wait h, ?_⟩
  rintro i ⟨state', stop⟩ hx
  obtain ⟨state, hbefore⟩ := hp.reader? hx
  have hsignalled := hbefore
  rw [World.reader?_signal] at hsignalled
  obtain ⟨y, hy, heq⟩ := Option.map_eq_some_iff.mp hsignalled
  cases heq
  by_cases hi : i ∈ a.forwarding.tasks
  · obtain ⟨t, ht, hreader⟩ := Option.bind_eq_some_iff.mp hx
    have htask := List.all_eq_true.mp hover i hi
    rw [ht] at htask
    have hdead : t.isAlive = false := by simpa using htask
    exact ⟨if_pos (List.contains_iff_mem.mpr hi), Task.finished_of_over hreader hdead⟩
  · obtain ⟨hstop, result, hfinished⟩ := hs.former queue hreads i y hy hi
    cases (hp.finished hbefore hfinished).symm.trans hx
    exact ⟨(if_neg (by simpa using hi)).trans hstop, result, hfinished⟩

/-- A run ends. -/
theorem stop (hs : Staffed a₀ up a w) (h : a.stopForwarding w = some (a', w')) :
    Staffed a₀ false a' w' := by
  obtain ⟨w₁, hstop, heq⟩ := Option.map_eq_some_iff.mp h
  cases heq
  have hfinished : ∀ queue, a₀.ReadsFrom queue → w'.Attends queue ∧
      ∀ i x, w'.reader? queue i = some x →
        x.stop = .requested ∧ ∃ result, x.state = .finished result := by
    unfold stopDirection at hstop
    split at hstop
    · exact hs.finished_of_join hstop
    · next hrunning =>
        cases hstop
        have hdown : up = false := hs.running.symm.trans (Bool.eq_false_iff.mpr hrunning)
        refine fun queue hreads => ⟨hs.attends queue hreads, fun i x hx => ?_⟩
        refine hs.former queue hreads i x hx ?_
        rw [hs.down hdown]
        exact List.not_mem_nil
  exact {
    bridges := hs.bridges
    running := rfl
    down := fun _ => rfl
    attends := fun queue hreads => (hfinished queue hreads).1
    loyal := fun i hi => nomatch hi
    former := fun queue hreads i x hx _ => (hfinished queue hreads).2 i x hx
    distinct := List.nodup_nil
    staff := fun h => nomatch h }

end Staffed

/-- Nobody has consumed the queues that the service reads from, and nobody is about to. -/
def FreeFor (a : App) (w : World) : Prop :=
  ∀ queue, a.ReadsFrom queue →
    w.brokers.rabbit.streamOf queue = .idle ∧ ∀ i, w.reader? queue i = none

theorem Served.staffed (hidle : a₀.forwarding = {}) (hfree : a₀.FreeFor w₀)
    (hs : Served a₀ w₀ up a w) : Staffed a₀ up a w := by
  induction hs with
  | begun =>
      refine ⟨rfl, by rw [hidle], fun _ => by rw [hidle], ?_, ?_, ?_, ?_, (fun h => nomatch h)⟩
      · exact fun queue hreads =>
          World.attends_of_none (hfree queue hreads).1 (hfree queue hreads).2
      · rw [hidle]
        exact fun i hi => nomatch hi
      · intro queue hreads i x hx
        cases ((hfree queue hreads).2 i).symm.trans hx
      · rw [hidle]
        exact List.nodup_nil
  | started _ answer ih =>
      rcases startForwarding_ok answer with
        ⟨hrunning, rfl, rfl⟩ | ⟨hdown, es, w₁, hmade, rfl, rfl⟩
      · obtain rfl := ih.running.symm.trans hrunning
        exact ih
      · obtain rfl := ih.running.symm.trans hdown
        exact ih.start hmade rfl
  | failed _ answer ih =>
      obtain ⟨hcalm, htasks, _⟩ := calm_generateAll (startForwarding_error answer)
      exact ih.proceed (.of_tasks htasks) fun queue _ hattends =>
        hattends.of_calm htasks hcalm.keeps (hcalm.streams queue)
  | stopped _ answer ih => exact ih.stop answer
  | turned _ i ih =>
      exact ih.proceed (World.proceeds_turn _ i) fun _ _ hattends => hattends.turn i
  | waited _ ended ih =>
      exact ih.proceed (World.proceeds_wait ended) fun _ _ hattends => hattends.wait ended
  | @happened up a w _ event apart ih =>
      exact ih.proceed (.of_tasks rfl) fun queue hreads hattends =>
        hattends.of_calm rfl (w.brokers.reaches_on event).keeps
          (streamOf_on (apart queue hreads) w.brokers)

/-- What has become of the consumer of an endpoint, once it has had its first turn. -/
theorem Staffed.outcome (hs : Staffed a₀ up a w) {queue : String}
    (hreads : a₀.ReadsFrom queue) {i : Nat} (hi : i ∈ a.forwarding.tasks)
    {state : Consuming} (hx : w.reader? queue i = some ⟨state, .none⟩)
    (hpolled : state ≠ .starting) :
    w.Consumes queue i ∨ w.Refused queue i ∧ ∃ j, j ≠ i ∧
      (j ∈ a.forwarding.tasks ∧ w.Consumes queue j ∨
        j ∉ a.forwarding.tasks ∧ w.Retired queue j) := by
  have hattended := (hs.attends queue hreads).attended
  have hloyal : ∀ j x, j ∈ a.forwarding.tasks → w.reader? queue j = some x → x.stop = .none := by
    intro j x hj hx
    obtain ⟨t, ht, hreader⟩ := Option.bind_eq_some_iff.mp hx
    have hstop := hs.loyal j hj
    rw [ht] at hstop
    exact (Task.stop_of_reader? hreader).symm.trans (Option.some.inj hstop)
  -- one that has had its turn and is without the stream was refused
  have hrefused : Reader.Without queue ⟨state, .none⟩ → w.Refused queue i := by
    intro hwithout
    cases hwithout with
    | unpolled => exact absurd rfl hpolled
    | refused => exact hx
  cases hstream : w.brokers.rabbit.streamOf queue with
  | idle =>
      rw [hstream] at hattended
      cases hattended with
      | free unpolled => exact absurd (unpolled i _ hx) hpolled
  | taken =>
      rw [hstream] at hattended
      cases hattended with
      | @consumed j underway stop holder others =>
          by_cases hj : j ∈ a.forwarding.tasks
          · obtain rfl : stop = .none := hloyal j _ hj holder
            by_cases hji : j = i
            · subst hji
              exact .inl ⟨hstream, underway, holder⟩
            · exact .inr ⟨hrefused (others i _ (Ne.symm hji) hx), j, hji,
                .inl ⟨hj, hstream, underway, holder⟩⟩
          · obtain ⟨_, result, hfinished⟩ := hs.former queue hreads j _ holder hj
            cases hfinished
  | dropped =>
      rw [hstream] at hattended
      cases hattended with
      | @dropped j state' holder leaving others =>
          by_cases hj : j ∈ a.forwarding.tasks
          · cases hloyal j _ hj holder
          · have hji : j ≠ i := fun h => hj (h ▸ hi)
            obtain ⟨_, result, hfinished⟩ := hs.former queue hreads j _ holder hj
            have hdone : state' = .finished (.ok ()) := by
              rcases leaving with ⟨underway, rfl⟩ | hdone
              · cases hfinished
              · exact hdone
            subst hdone
            exact .inr ⟨hrefused (others i _ (Ne.symm hji) hx), j, hji,
              .inr ⟨hj, hstream, holder⟩⟩

/-- While a service is up, each of its endpoints has a task of its own, that of a
consumer for its bridge. Once the consumer has had its first turn it consumes the
queue of the bridge, or it was refused, and then another consumer of the service has
had the stream of the queue: one of the same run, which consumes the queue, or one of
a former run, which has finished. -/
theorem attended_or_refused (a₀ : App) (w₀ : World) (hidle : a₀.forwarding = {})
    (hfree : a₀.FreeFor w₀) (hs : Served a₀ w₀ up a w) :
    a.forwarding.running = up ∧ (up = true →
      a.endpointIds.length = (Bridge.forwardable a₀.bridges).length ∧
      a.forwarding.tasks.Nodup ∧
      ∀ k id, a.endpointIds[k]? = some id → ∃ source i, Attendant a₀ a w k id source i ∧
        (w.Polled i → w.Consumes source.queueName i ∨
          w.Refused source.queueName i ∧ ∃ j, j ≠ i ∧
            (j ∈ a.forwarding.tasks ∧ w.Consumes source.queueName j ∨
              j ∉ a.forwarding.tasks ∧ w.Retired source.queueName j))) := by
  have hstaffed := hs.staffed hidle hfree
  refine ⟨hstaffed.running, fun hup => ?_⟩
  obtain ⟨hlength, hstaff⟩ := hstaffed.staff hup
  refine ⟨hlength, hstaffed.distinct, fun k id hid => ?_⟩
  obtain ⟨source, i, hattendant⟩ := hstaff k id hid
  refine ⟨source, i, hattendant, fun hpolled => ?_⟩
  obtain ⟨⟨bridge, hbridge, hsource⟩, htask, c, hc, _, hqueue⟩ := hattendant
  have hi : i ∈ a.forwarding.tasks := List.mem_of_getElem? htask
  obtain ⟨t, ht, hconsumer⟩ := Option.bind_eq_some_iff.mp hc
  obtain ⟨state, hreader⟩ := Task.reader?_of_consumer? hconsumer hqueue
  have hstop : t.stop = .none := by
    have hloyal := hstaffed.loyal i hi
    rw [ht] at hloyal
    exact Option.some.inj hloyal
  have hx : w.reader? source.queueName i = some ⟨state, .none⟩ := by
    rw [World.reader?, ht, ← hstop]
    exact hreader
  exact hstaffed.outcome ⟨bridge, source, List.mem_of_getElem? hbridge, hsource, rfl⟩
    hi hx (hpolled _ _ hx)

/-! ## Orders that nobody waits for -/

/-- Each endpoint of the service has a task that consumes a queue. -/
def Attentive (a : App) (w : World) : Prop :=
  ∀ (k : Nat) (id : String), a.endpointIds[k]? = some id →
    ∃ i queue, a.forwarding.tasks[k]? = some i ∧ w.Consumes queue i

/-- Start the service and give its tasks their first turns. -/
def startAndWait (a : App) (w : World) : Option (App × World) :=
  match a.startForwarding w with
  | (.error _, _) => none
  | (.ok a, w) => (w.sleepUntil (w.brokers.now + 1)).map fun w => (a, w)

/-- Start the service, stop it, and start it again. -/
def restart (a : App) (w : World) : Option (App × World) := do
  let (a, w) ← a.startAndWait w
  let (a, w) ← a.stopForwarding w
  a.startAndWait w

theorem Served.startAndWait (hs : Served a₀ w₀ up a w) (h : a.startAndWait w = some (a', w')) :
    Served a₀ w₀ true a' w' := by
  unfold App.startAndWait at h
  split at h
  · cases h
  · next hstart =>
      obtain ⟨w₂, hslept, heq⟩ := Option.map_eq_some_iff.mp h
      cases heq
      exact (hs.started hstart).waited hslept

theorem served_restart (h : a.restart w = some (a', w')) : Served a w true a' w' := by
  obtain ⟨⟨a₁, w₁⟩, hfirst, h⟩ := Option.bind_eq_some_iff.mp h
  obtain ⟨⟨a₂, w₂⟩, hstop, hsecond⟩ := Option.bind_eq_some_iff.mp h
  exact ((Served.begun.startAndWait hfirst).stopped hstop).startAndWait hsecond

/-- The bridges can be defined, nobody else reads from their queues, and yet the
service may come to be up with an endpoint that consumes nothing, after all of its
tasks have had their first turns. -/
def Neglects (a₀ : App) (w₀ : World) : Prop :=
  (∃ definitions, Definition.validate definitions = .ok a₀.bridges) ∧ a₀.FreeFor w₀ ∧
    ∃ a w, Served a₀ w₀ true a w ∧ (∀ i ∈ a.forwarding.tasks, w.Polled i) ∧ ¬ a.Attentive w

/-- Whether all tasks of a service have had their first turns, and the one of the
endpoint at a position is alive or not. -/
def shows (k : Nat) (alive : Bool) : Option (App × World) → Bool
  | none => false
  | some (a, w) =>
    a.forwarding.tasks.all (fun i => (w.tasks[i]?).all fun t =>
      match t.work with
      | .consuming _ .starting => false
      | _ => true) &&
    (a.endpointIds[k]?).isSome &&
    ((a.forwarding.tasks[k]?).bind (w.tasks[·]?)).any fun t => t.isAlive == alive

theorem of_shows {k : Nat} {alive : Bool} {run : Option (App × World)}
    (h : shows k alive run = true) :
    ∃ a w id i t, run = some (a, w) ∧ (∀ i ∈ a.forwarding.tasks, w.Polled i) ∧
      a.endpointIds[k]? = some id ∧ a.forwarding.tasks[k]? = some i ∧
      w.tasks[i]? = some t ∧ t.isAlive = alive := by
  cases run with
  | none => cases h
  | some run =>
      obtain ⟨a, w⟩ := run
      simp only [shows, Bool.and_eq_true] at h
      obtain ⟨⟨hbegun, hid⟩, htask⟩ := h
      obtain ⟨id, hid⟩ := Option.isSome_iff_exists.mp hid
      obtain ⟨t, hbound, halive⟩ := (Option.any_eq_true _ _).mp htask
      obtain ⟨i, hi, ht⟩ := Option.bind_eq_some_iff.mp hbound
      refine ⟨a, w, id, i, t, rfl, ?_, hid, hi, ht, beq_iff_eq.mp halive⟩
      rintro j hj queue ⟨state, stop⟩ hx hstarting
      obtain ⟨u, hu, hreader⟩ := Option.bind_eq_some_iff.mp hx
      have hturn := List.all_eq_true.mp hbegun j hj
      obtain ⟨work, stop'⟩ := u
      rw [hu] at hturn
      cases work with
      | polling p state' => cases hreader
      | consuming c state' =>
          simp only [Task.reader?] at hreader
          split at hreader
          · cases hreader
            cases hstarting
            cases hturn
          · cases hreader

theorem neglects_of_shows {k : Nat} {run : Option (App × World)}
    (hdefined : ∃ definitions, Definition.validate definitions = .ok a₀.bridges)
    (hfree : a₀.FreeFor w₀) (hserved : ∀ a w, run = some (a, w) → Served a₀ w₀ true a w)
    (h : shows k false run = true) : a₀.Neglects w₀ := by
  obtain ⟨a, w, id, i, t, hrun, hpolled, hid, hi, ht, hover⟩ := of_shows h
  refine ⟨hdefined, hfree, a, w, hserved a w hrun, hpolled, fun hattentive => ?_⟩
  obtain ⟨j, queue, hj, hconsumes⟩ := hattentive k id hid
  cases hi.symm.trans hj
  cases hover.symm.trans (hconsumes.isAlive ht)

/-- The entry of a bridge file for the bridge of `ordersApp`. -/
def ordersDefinition : Definition where
  source := some { rabbit := some ⟨"orders", "orders-q", "#"⟩ }
  destination := some { sqs := some "out" }

/-- An app that takes orders to an Amazon queue twice. -/
def twinsApp : App where
  bridges := [Consumer.ordersBridge, Consumer.ordersBridge]
  rabbit := {}
  poller := {}

/-- There is nothing yet but the Amazon queue. -/
def outWorld : World where
  brokers := { amazon := { queues := [("out", [])] } }

theorem freeFor_outWorld (a : App) : a.FreeFor outWorld :=
  fun _ _ => ⟨rfl, fun _ => rfl⟩

/-- After a restart nobody consumes the orders any more. And when two bridges read
orders from the same queue, the second one never does. -/
theorem orders_unattended : ordersApp.Neglects outWorld ∧ twinsApp.Neglects outWorld := by
  constructor
  · exact neglects_of_shows (k := 0) ⟨[ordersDefinition], rfl⟩ (freeFor_outWorld _)
      (fun _ _ hrun => served_restart hrun) (by decide +kernel)
  · exact neglects_of_shows (k := 1) ⟨[ordersDefinition, ordersDefinition], rfl⟩
      (freeFor_outWorld _) (fun _ _ hrun => Served.begun.startAndWait hrun) (by decide +kernel)

/-- After the first start the orders are consumed. -/
theorem orders_attended :
    ∃ a w i, Served ordersApp outWorld true a w ∧ a.forwarding.tasks[0]? = some i ∧
      w.Consumes "orders-q" i := by
  have hshows : shows 0 true (ordersApp.startAndWait outWorld) = true := by decide +kernel
  obtain ⟨a, w, id, i, t, hrun, hpolled, hid, hi, ht, halive⟩ := of_shows hshows
  have hserved : Served ordersApp outWorld true a w := Served.begun.startAndWait hrun
  obtain ⟨_, hup⟩ := attended_or_refused ordersApp outWorld rfl (freeFor_outWorld _) hserved
  obtain ⟨source, j, ⟨⟨bridge, hbridge, hsource⟩, htask, _⟩, houtcome⟩ := (hup rfl).2.2 0 id hid
  cases hi.symm.trans htask
  cases hbridge
  cases hsource
  refine ⟨a, w, i, hserved, hi, ?_⟩
  rcases houtcome (hpolled i (List.mem_of_getElem? hi)) with hconsumes | ⟨hrefused, _⟩
  · exact hconsumes
  · cases halive.symm.trans (hrefused.not_isAlive ht)

end App

end MessageBridge
