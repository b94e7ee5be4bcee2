import MessageBridge.Proofs.Forward.Ledger
import MessageBridge.Proofs.Forward.Settlement
import MessageBridge.Proofs.Process.Deeds
import MessageBridge.Proofs.Process.Queueing

/-!
# The counters of a listener add up

What one turn counts is what it enters in the ledger, and this is all that counts for a
listener whose deliveries are handled by consumers alone. So the counters and the ledger
agree after any list of deeds, as long as nothing else is done in the listener's name.
Deliveries that are in hand, in the foreground or in a task, are received and not settled
yet. When none is in hand, the counters add up.
-/

namespace MessageBridge

variable {listener : String}

/-! ## Tasks -/

/-- The deliveries of a listener that a task has taken and not settled. -/
def Work.inHand (listener : String) : Work → Nat
  | .consuming c state => c.share listener state.inHand
  | .polling _ _ => 0

namespace Task

def lines (t : Task) (number : Nat) (b : Brokers) : List Line :=
  match t.work with
  | .consuming c state => state.lines c t.stop number b
  | .polling _ _ => []

theorem balances_turn (listener : String) (t : Task) (number : Nat) (b : Brokers) :
    Balances listener (b.metrics.tally listener) (t.lines number b) (t.work.inHand listener)
      ((t.turn number b).2.metrics.tally listener) ((t.turn number b).1.work.inHand listener) := by
  obtain ⟨work, stop⟩ := t
  cases work with
  | consuming c state => exact state.balances_turn listener c stop number b
  | polling p state => exact .of_eq ((Polling.quiet_turn p stop number state b).metrics listener) 0

theorem Fresh.inHand {t : Task} (h : t.Fresh) : t.work.inHand listener = 0 := by
  rcases h with ⟨c, rfl⟩ | ⟨p, rfl⟩
  · exact ite_self 0
  · rfl

end Task

namespace World

/-- The deliveries of a listener that the tasks have taken and not settled. -/
def inHand (listener : String) (w : World) : Nat :=
  ((w.tasks.map Task.work).map (Work.inHand listener)).sum

theorem inHand_spawn (w : World) {t : Task} (h : t.work.inHand listener = 0) :
    (w.spawn t).2.inHand listener = w.inHand listener := by
  simp [spawn, notice, inHand, h]

theorem inHand_signal (w : World) (ids : List Nat) (stop : StopSignal) :
    (w.signal ids stop).inHand listener = w.inHand listener := by
  rw [inHand, works_signal]
  rfl

def lines (w : World) (id : Nat) : List Line :=
  match w.tasks[id]? with
  | none => []
  | some t => t.lines w.turns w.brokers

theorem balances_turn (listener : String) (w : World) (id : Nat) :
    Balances listener (w.brokers.metrics.tally listener) (w.lines id) (w.inHand listener)
      ((w.turn id).brokers.metrics.tally listener) ((w.turn id).inHand listener) := by
  unfold lines
  cases ht : w.tasks[id]? with
  | none =>
      rw [turn_of_none ht]
      exact .refl listener _ _
  | some t =>
      rw [turn_eq ht]
      have hset := sum_map_set (fun t => t.work.inHand listener) (t.turn w.turns w.brokers).1
        w.tasks id ht
      refine (t.balances_turn listener w.turns w.brokers).shift ?_
      simp only [inHand, List.map_map]
      exact hset

end World

/-! ## Deeds -/

/-- Nothing else is counted for the listener, and a new task has nothing in hand. -/
def Deed.Spares (listener : String) : Deed → Prop
  | .act f => ∀ b, (f b).metrics.of listener = b.metrics.of listener
  | .spawn t => t.work.inHand listener = 0
  | _ => True

namespace Scene

/-- The deliveries of a listener that are being handled. -/
def inHand (listener : String) (s : Scene) : Nat :=
  s.world.inHand listener + s.hand.elim 0 fun (c, _) => c.share listener 1

def lines (s : Scene) : Deed → List Line
  | .turn id => if id ∈ s.world.ready then s.world.lines id else []
  | .goOn => s.hand.elim [] fun (c, handling) => handling.lines c s.world.brokers
  | _ => []

/-- The ledger of a list of deeds. -/
def ledger (s : Scene) : List Deed → List Line
  | [] => []
  | deed :: rest => s.lines deed ++ (s.after deed).ledger rest

theorem balances_after (s : Scene) (deed : Deed) (h : deed.Spares listener) :
    Balances listener (s.world.brokers.metrics.tally listener) (s.lines deed) (s.inHand listener)
      ((s.after deed).world.brokers.metrics.tally listener) ((s.after deed).inHand listener) := by
  cases deed with
  | act f => exact .of_eq (h s.world.brokers) _
  | spawn t =>
      simp only [inHand, after, s.world.inHand_spawn h]
      exact .refl listener _ _
  | signal ids stop =>
      simp only [inHand, after, s.world.inHand_signal ids stop]
      exact .refl listener _ _
  | turn id =>
      simp only [lines, after]
      split
      · have hturn := World.balances_turn listener
          { s.world with ready := s.world.ready.erase id } id
        exact hturn.beside _
      · exact .refl listener _ _
  | jump t => exact .refl listener _ _
  | begin c d =>
      obtain ⟨w, hand⟩ := s
      cases hand with
      | some x => exact .refl listener _ _
      | none => exact (Handling.balances_start listener c d w.brokers).shift rfl
  | goOn =>
      obtain ⟨w, hand⟩ := s
      cases hand with
      | none => exact .refl listener _ _
      | some x =>
          obtain ⟨c, handling⟩ := x
          have hturn := handling.balances_turn listener c w.brokers
          simp only [lines, after]
          unfold World.act
          rcases hturned : handling.turn c w.brokers with ⟨turned, b⟩
          rw [hturned] at hturn
          cases turned with
          | done outcome => exact hturn.shift (Nat.add_right_comm _ _ _)
          | asleep sleep next => exact hturn.shift rfl

theorem balances_run (deeds : List Deed) : ∀ s : Scene, (∀ deed ∈ deeds, deed.Spares listener) →
    Balances listener (s.world.brokers.metrics.tally listener) (s.ledger deeds) (s.inHand listener)
      ((s.run deeds).world.brokers.metrics.tally listener) ((s.run deeds).inHand listener) := by
  induction deeds with
  | nil => exact fun s _ => .refl listener _ _
  | cons deed rest ih =>
      intro s h
      have hfirst := s.balances_after deed (h deed List.mem_cons_self)
      exact hfirst.trans (ih (s.after deed) fun x hx => h x (List.mem_cons_of_mem _ hx))

end Scene

/-! ## Sessions -/

/-- What an attempt counts is counted for its listener. -/
theorem Endpoint.metrics_attempt (e : Endpoint) (d : Rabbit.Delivery) (b : Brokers)
    (h : e.id ≠ listener) : (e.attempt d b).2.metrics.of listener = b.metrics.of listener := by
  rcases e.attempt_cases d with ⟨failure, _, hattempt⟩ | ⟨text, _, hattempt⟩
  · rw [hattempt]
  · rcases hattempt b with ⟨_, hattempt⟩ | ⟨failure, _, hattempt⟩
    · rw [hattempt, Brokers.record, Metrics.of_raise (by simp [Metric.listener?, h]), metrics_send]
    · rw [hattempt, metrics_send]

namespace Session

/-- The command does not call the listener itself. -/
def Leaves (listener : String) (s : Session) (command : Command) : Prop :=
  ∀ consumer ref c, command = .onMessage consumer ref → s.consumers[consumer]? = some c →
    c.id ≠ listener

/-- Commands lead from one session to the other, and the deliveries of the listener are
handled by consumers alone. -/
inductive Led (listener : String) (s₀ : Session) : Session → Prop where
  | start : Led listener s₀ s₀
  | step {s s' : Session} {command : Command} {reply : Except Failure Answer}
      (led : Led listener s₀ s) (leaves : s.Leaves listener command)
      (answered : s.step command = some (reply, s')) : Led listener s₀ s'

theorem Undertakes.spares {s : Session} {command : Command} {deed : Deed}
    (h : s.Undertakes command deed) (hleaves : s.Leaves listener command) :
    deed.Spares listener := by
  cases h with
  | works f quiet => exact fun b => (quiet b).metrics listener
  | attempts consumer ref c asked held =>
      exact fun b => c.endpoint.metrics_attempt _ b (hleaves consumer ref c asked held)
  | spawns t fresh => exact fresh.inHand
  | signals | turns | jumps | begins | goesOn => trivial

theorem Led.goes {s₀ s : Session} (h : Led listener s₀ s) :
    Scene.Goes (Deed.Spares listener) ⟨s₀.world, none⟩ ⟨s.world, none⟩ := by
  induction h with
  | start => exact .refl _
  | step _ leaves answered ih =>
      exact ih.trans ((goes_step answered).mono fun deed hdeed => hdeed.spares leaves)

end Session

/-- The counters of a listener add up, and agree with what was entered. -/
structure Metrics.AddsUp (listener : String) (ms : Metrics) (lines : List Line) : Prop where
  received : ms.count (.received listener) =
    ms.total (Metric.isForwarded listener) + ms.total (Metric.isDeadLettered listener)
  retried : ms.count (.retried listener) + ms.count (.received listener) =
    lines.countP (Line.isCall listener)
  settleFailed : ms.total (Metric.isSettleFailed listener) =
    lines.countP (Line.isUnsettled listener)
  labelled : ∀ label, ms.count (.deadLettered listener label) =
    lines.countP (Line.isDeadLetter listener label)

theorem Scene.addsUp {s : Scene} {deeds : List Deed} (htasks : s.world.tasks = [])
    (hhand : s.hand = none) (hnew : s.world.brokers.metrics.of listener = [])
    (hspares : ∀ deed ∈ deeds, deed.Spares listener)
    (hidle : (s.run deeds).inHand listener = 0) :
    (s.run deeds).world.brokers.metrics.AddsUp listener (s.ledger deeds) := by
  have hbefore : s.inHand listener = 0 := by
    rw [inHand, World.inHand, htasks, hhand]
    rfl
  have hnone : s.world.brokers.metrics.of listener = Metrics.of listener [] := hnew
  have hzero : s.world.brokers.metrics.tally listener = ⟨0, 0, 0, 0, 0, fun _ => 0⟩ :=
    Metrics.tally_of_eq hnone
  have hrun := s.balances_run deeds hspares
  rw [hzero, hbefore, hidle] at hrun
  have hreceived := hrun.received
  have hsettled := hrun.settled
  have hretried := hrun.retried
  have hfailed := hrun.settleFailed
  simp only [Nat.zero_add, Nat.add_zero] at hreceived hsettled hretried hfailed
  refine ⟨hreceived.trans hsettled.symm, ?_, hfailed, fun label => ?_⟩
  · rw [← hreceived] at hretried
    exact hretried
  · have hlabelled := hrun.labelled label
    rwa [Nat.zero_add] at hlabelled

/-- The listener is called once for each attempt. -/
theorem Consumer.Tries.calls_eq {c : Consumer} {d : Rabbit.Delivery} {attempt : Nat}
    {b last : Brokers} {earlier : List Brokers} (h : c.Tries d attempt b earlier last) :
    c.calls d attempt b = earlier.length + 1 := by
  induction h with
  | @last attempt b alone =>
      rw [calls]
      rcases hattempt : c.endpoint.attempt d b with ⟨result, b₁⟩
      cases result with
      | ok => rfl
      | error failure =>
          simp only []
          split
          · rfl
          · next hno =>
              split
              · next hretry =>
                  have hlater : ¬ (c.policy.delay attempt).millisUp = 0 := fun hzero =>
                    alone _ ⟨failure, b₁, hattempt, by simpa using hno, hretry, hzero, rfl⟩
                  rw [if_neg hlater]
                  rfl
              · rfl
  | again once rest ih =>
      obtain ⟨failure, b₁, hattempt, hno, hretry, hzero, rfl⟩ := once
      rw [calls, hattempt]
      simp only []
      rw [if_neg (by simpa using hno), dif_pos hretry, if_pos hzero, ih, List.length_cons]

/-- When no delivery of a listener is being handled, its counters add up: after any list of
deeds that leaves the listener to its consumers, and so at every moment of every session that
does. The calls that are entered are the attempts, and the label of a dead letter is that of
the failure at the bottom of it, which is not a rejection. -/
theorem counters_add_up (listener : String) :
    (∀ (scene : Scene) deeds, scene.world.tasks = [] → scene.hand = none →
      scene.world.brokers.metrics.of listener = [] →
      (∀ deed ∈ deeds, deed.Spares listener) → (scene.run deeds).inHand listener = 0 →
      (scene.run deeds).world.brokers.metrics.AddsUp listener (scene.ledger deeds)) ∧
    (∀ s₀ s : Session, s₀.world.tasks = [] → s₀.world.brokers.metrics.of listener = [] →
      s₀.Led listener s →
      let scene : Scene := ⟨s₀.world, none⟩
      ∃ deeds, scene.run deeds = ⟨s.world, none⟩ ∧ ∀ moment, moment <+: deeds →
        (scene.run moment).inHand listener = 0 →
        (scene.run moment).world.brokers.metrics.AddsUp listener (scene.ledger moment)) ∧
    (∀ (c : Consumer) d attempt b earlier last, c.Tries d attempt b earlier last →
      c.calls d attempt b = earlier.length + 1) ∧
    ∀ failure : Failure, failure.innermost.isRejection = false ∧
      ∃ depth, failure = Nat.iterate .rejected depth failure.innermost := by
  refine ⟨?_, ?_, fun c d attempt b earlier last h => h.calls_eq, Failure.innermost_spec⟩
  · intro scene deeds htasks hhand hnew hspares hidle
    exact Scene.addsUp htasks hhand hnew hspares hidle
  · intro s₀ s htasks hnew hled scene
    obtain ⟨deeds, hspares, hrun⟩ := hled.goes
    refine ⟨deeds, hrun, fun moment hmoment hidle => ?_⟩
    exact Scene.addsUp (s := scene) htasks rfl hnew
      (fun deed hdeed => hspares deed (hmoment.subset hdeed)) hidle

/-- A shop whose orders cannot be forwarded, since the queue that they go to is missing. -/
def closedShop : Session where
  world := { brokers := { Consumer.orderTaken with amazon := {} } }
  consumers := [Consumer.ordersConsumer]

/-- An order is given up after three attempts, in two deeds as well as by a command. -/
theorem closedShop_adds_up :
    let listener := Endpoint.listenerId 0
    let scene : Scene := ⟨closedShop.world, none⟩
    let deeds : List Deed := [.begin Consumer.ordersConsumer Consumer.order, .goOn]
    let ms := (scene.run deeds).world.brokers.metrics
    ms.AddsUp listener (scene.ledger deeds) ∧
      (ms.count (.received listener), ms.count (.retried listener),
        ms.count (.deadLettered listener "amazon")) = (1, 2, 1) ∧
      (∃ s lines, closedShop.Led listener s ∧ s.world.brokers.metrics.AddsUp listener lines) ∧
      ∃ earlier last, Consumer.ordersConsumer.Tries Consumer.order 1 closedShop.world.brokers
        earlier last ∧
          Consumer.ordersConsumer.calls Consumer.order 1 closedShop.world.brokers =
            earlier.length + 1 := by
  intro listener scene deeds ms
  obtain ⟨hdeeds, hsessions, hcalls, _⟩ := counters_add_up listener
  refine ⟨?_, by decide +kernel, ?_, ?_⟩
  · exact hdeeds scene deeds rfl rfl rfl (by simp [deeds, Deed.Spares]) (by decide +kernel)
  · have hhandled : ((closedShop.step (.handle 0 ⟨Consumer.order, false⟩)).map fun x =>
        x.2.world.inHand listener) = some 0 := by decide +kernel
    obtain ⟨⟨reply, s⟩, hstep, hidle⟩ := Option.map_eq_some_iff.mp hhandled
    have hleaves : closedShop.Leaves listener (.handle 0 ⟨Consumer.order, false⟩) := by
      intro consumer ref c hasked
      cases hasked
    have hled : closedShop.Led listener s := .step .start hleaves hstep
    obtain ⟨deeds, hrun, hmoments⟩ := hsessions closedShop s rfl rfl hled
    have hadds := hmoments deeds (List.prefix_refl deeds)
    rw [hrun] at hadds
    exact ⟨s, _, hled, hadds hidle⟩
  · obtain ⟨earlier, last, htries⟩ := Consumer.ordersConsumer.exists_tries Consumer.order 1
      closedShop.world.brokers
    exact ⟨earlier, last, htries, hcalls _ _ _ _ _ _ htries⟩

end MessageBridge
