import MessageBridge.Proofs.Forward.Endpoints
import MessageBridge.Proofs.Metrics
import MessageBridge.Proofs.Process.Turns

/-!
# The clock and the counters

Nothing that is done moves the clock; only waiting does. And most of what is done counts
for no listener: declarations count nothing at all, and the reverse direction counts for
its queues. `Quiet` says both.

What a running consumer does in a turn is put together from a few things that it does to
the brokers, so what holds of each of them holds of its turns.
-/

namespace MessageBridge

/-! ## Things that no listener counts -/

/-- The clock stands still, and nothing is counted for any listener. -/
structure Quiet (b b' : Brokers) : Prop where
  now : b'.now = b.now
  metrics : ∀ listener, b'.metrics.of listener = b.metrics.of listener

theorem Quiet.refl (b : Brokers) : Quiet b b :=
  ⟨rfl, fun _ => rfl⟩

theorem Quiet.trans {a b c : Brokers} (hab : Quiet a b) (hbc : Quiet b c) : Quiet a c :=
  ⟨hbc.now.trans hab.now, fun listener => (hbc.metrics listener).trans (hab.metrics listener)⟩

theorem Quiet.of_eq {b b' : Brokers} (hnow : b'.now = b.now) (hmetrics : b'.metrics = b.metrics) :
    Quiet b b' :=
  ⟨hnow, fun _ => by rw [hmetrics]⟩

theorem Quiet.record (b : Brokers) {m : Metric} (h : m.listener? = none) (amount : Nat) :
    Quiet b { b with metrics := b.metrics.raise m amount } :=
  ⟨rfl, fun _ => Metrics.of_raise (by simp [h]) amount b.metrics⟩

theorem Declares.quiet {past : List Moment} {b b' : Brokers} (h : Declares past b b') :
    Quiet b b' := by
  obtain ⟨h, hcourse⟩ := h
  induction hcourse with
  | start => exact .refl b
  | next _ event allowed ih => cases allowed <;> exact ih.trans (.of_eq rfl rfl)

namespace Dispatcher

theorem quiet_forward (d : Dispatcher) (m : Amazon.Message) (b : Brokers) :
    Quiet b (d.forward m b).2 := by
  rcases d.forward_cases m b with ⟨failure, _, h⟩ | ⟨text, _, ⟨failure, _, h⟩ | ⟨_, h⟩⟩
  · rw [h]
    exact .refl b
  · rw [h]
    exact .of_eq rfl rfl
  · rw [h]
    exact .of_eq rfl rfl

theorem quiet_forwardAll (d : Dispatcher) (batch : List Amazon.Message) :
    ∀ b : Brokers, Quiet b (d.forwardAll batch b).2 := by
  induction batch with
  | nil => exact fun b => .refl b
  | cons m rest ih =>
      intro b
      have hforward := d.quiet_forward m b
      rw [forwardAll]
      rcases hresult : d.forward m b with ⟨result, b₁⟩
      rw [hresult] at hforward
      cases result with
      | ok => exact (hforward.trans (.record b₁ rfl 1)).trans (ih _)
      | error failure =>
          have hcounted := hforward.trans
            (.record b₁ (m := .pollFailed d.queueName failure.label) rfl 1)
          exact hcounted.trans (.of_eq rfl rfl)

end Dispatcher

theorem Receiver.quiet_turn (r : Receiver) (deadline : Instant) (b : Brokers) :
    Quiet b (r.turn deadline b).2 := by
  rw [(r.turn_cases deadline b).1]
  exact .of_eq rfl rfl

theorem Dispatcher.quiet_turn (d : Dispatcher) (deadline : Instant) (b : Brokers) :
    Quiet b (d.turn deadline b).2 := by
  have hreceive := d.receiver.quiet_turn deadline b
  unfold turn
  rcases hturn : d.receiver.turn deadline b with ⟨turned, b₁⟩
  rw [hturn] at hreceive
  cases turned with
  | asleep sleep deadline => exact hreceive
  | done received =>
      have hdispatch : Quiet b₁ (d.dispatch received b₁).2 := by
        match received with
        | .error failure => exact .refl b₁
        | .ok [] => exact .refl b₁
        | .ok (m :: rest) =>
            exact (Quiet.record b₁ (m := .polled d.queueName) rfl _).trans
              (d.quiet_forwardAll (m :: rest) _)
      exact (hreceive.trans hdispatch).trans (.record _ rfl 1)

theorem Polling.quiet_turn (p : Poller) (stop : StopSignal) (number : Nat) (state : Polling)
    (b : Brokers) : Quiet b (state.turn p stop number b).2 := by
  have hgoOn : ∀ deadline, Quiet b (goOn p stop number deadline b).2 := by
    intro deadline
    have hturn := p.dispatcher.quiet_turn deadline b
    unfold goOn
    rcases hturned : p.dispatcher.turn deadline b with ⟨turned, b₁⟩
    rw [hturned] at hturn
    cases turned with
    | asleep => exact hturn
    | done =>
        simp only []
        split <;> exact hturn
  cases state with
  | armed =>
      rw [turn]
      split
      · exact .refl b
      · exact hgoOn _
  | running deadline sleep since => exact hgoOn deadline
  | pausing sleep since =>
      rw [turn]
      split
      · exact .refl b
      · exact hgoOn _
  | finished => exact .refl b

/-! ## What a running consumer does to the brokers -/

theorem Course.now_le {rule : Rule} {past h : List Moment} {b₀ b : Brokers}
    (hc : Course rule past b₀ h b) : b₀.now ≤ b.now := by
  induction hc with
  | start => exact Nat.le_refl _
  | @next _ b _ event _ ih => exact Nat.le_trans ih (b.now_le_on event)

namespace Consuming

/-- What holds between the brokers before and after each thing that a running consumer
does holds between those before and after its turn. -/
theorem related_turn {R : Brokers → Brokers → Prop} {c : Consumer} (refl : ∀ b, R b b)
    (trans : ∀ {a b d}, R a b → R b d → R a d)
    (rabbit : ∀ (b : Brokers) (r : Rabbit.Broker), R b { b with rabbit := r })
    (starts : ∀ (d : Rabbit.Delivery) (b : Brokers), R b (Handling.start c d b).2)
    (handles : ∀ (handling : Handling) (b : Brokers), R b (handling.turn c b).2)
    (stop : StopSignal) (number : Nat) (state : Consuming) (b : Brokers) :
    R b (state.turn c stop number b).2 := by
  -- A turn takes what there is room for, and then works on what it has.
  have htake : ∀ streamOpen underway b, R b (take c stop number streamOpen underway b).2.2 := by
    intro streamOpen underway b
    unfold take
    split
    · split
      · exact rabbit b _
      · simp only [Brokers.onRabbit]
        rcases b.rabbit.next c.endpoint.queue with ⟨delivery, r⟩
        cases delivery with
        | none => exact rabbit b r
        | some d => exact trans (rabbit b r) (starts d _)
    · exact refl b
  have hwork : ∀ underway again b, R b (work c number again underway b).2 := by
    intro underway
    induction underway with
    | nil => exact fun again b => refl b
    | cons u rest ih =>
        intro again b
        rw [work]
        split
        · have hturn := handles u.handling b
          rcases hturned : Handling.turn c u.handling b with ⟨turned, b₁⟩
          rw [hturned] at hturn
          cases turned with
          | done outcome => exact hturn
          | asleep sleep handling => exact trans hturn (ih _ b₁)
        · exact ih again b
  cases state with
  | starting =>
      simp only [turn, Brokers.onRabbit]
      rcases b.rabbit.consume c.endpoint.queue with ⟨result, r⟩
      cases result <;> exact rabbit b r
  | running streamOpen underway =>
      simp only [turn]
      have hboth := trans (htake streamOpen underway b)
        (hwork (take c stop number streamOpen underway b).2.1 [] _)
      split <;> exact hboth
  | finished result => exact refl b

end Consuming

theorem Handling.now_le_turn (c : Consumer) (handling : Handling) (b : Brokers) :
    b.now ≤ (handling.turn c b).2.now := by
  obtain ⟨⟨h, hcourse⟩, _⟩ := Handling.course_turn c handling b []
  exact hcourse.now_le

/-- No task puts the clock back. -/
theorem Task.now_le_turn (t : Task) (number : Nat) (b : Brokers) :
    b.now ≤ (t.turn number b).2.now := by
  obtain ⟨work, stop⟩ := t
  cases work with
  | consuming c state =>
      exact Consuming.related_turn (R := fun b b' => b.now ≤ b'.now) (fun b => Nat.le_refl _)
        Nat.le_trans (fun b _ => Nat.le_refl _) (fun _ b => Nat.le_refl _)
        (Handling.now_le_turn c) stop number state b
  | polling p state => exact Nat.le_of_eq (Polling.quiet_turn p stop number state b).now.symm

end MessageBridge
