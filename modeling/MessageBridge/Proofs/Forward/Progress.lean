import MessageBridge.Forward.Consuming
import MessageBridge.Proofs.Forward.Destination
import MessageBridge.Proofs.Forward.Settlement
import MessageBridge.Proofs.Rabbit.Order

/-!
# How a consumer gets on with its deliveries

A turn of a running consumer has two parts. First it may take a delivery from its
stream, or drop the stream. Then it works on the deliveries that are awake until one
of them is settled; those that it comes to before go to sleep again.

A `Situation` is a consumer at some moment, together with the brokers and with what it
has done so far: the deliveries that it has taken, in this order, and those that it has
handled to the end. Between two turns of the consumer others do whatever they like, but
nobody else can take anything out of a queue as long as the consumer has its stream.
`Runs` lists everything that can happen.
-/

namespace MessageBridge

open Rabbit (Delivery)

/-- The event is for the holder of the stream of the queue alone. -/
def Event.Draws (queue : String) (event : Event) : Prop :=
  ∃ op, event.Orders op ∧ op.Draws queue

theorem Event.not_draws_settle (c : Consumer) (d : Delivery) (result : Except Failure Unit)
    (queue : String) : ¬ (Event.settle c d result).Draws queue := by
  rintro ⟨op, horders, hdraws⟩
  cases result <;> (cases horders; exact hdraws)

def Underway.delivery (u : Underway) : Delivery :=
  u.handling.delivery

namespace Consuming

def held : Consuming → List Delivery
  | running _ underway => underway.map Underway.delivery
  | starting | finished _ => []

def Reading : Consuming → Prop
  | running streamOpen _ => streamOpen = true
  | starting | finished _ => False

/-- The first part of a turn. -/
def afterTake (c : Consumer) (stop : StopSignal) (number : Nat) :
    Consuming → Brokers → Consuming × Brokers
  | running streamOpen underway, b =>
    let (streamOpen, underway, b) := take c stop number streamOpen underway b
    (running streamOpen underway, b)
  | starting, b => (starting, b)
  | finished result, b => (finished result, b)

/-- The delivery that is settled in the second part of a turn, with what its last
attempt comes to. -/
def ended? (c : Consumer) : List Underway → Brokers → Option (Delivery × Except Failure Unit)
  | [], _ => none
  | u :: rest, b =>
    if u.sleep.isOver b then
      match c.deliver u.handling.delivery u.handling.attempt b with
      | (.done result, _) => some (u.handling.delivery, result)
      | (.asleep _ _, b) => ended? c rest b
    else ended? c rest b

end Consuming

/-- A consumer at some moment, with what it has done so far. -/
structure Situation where
  state : Consuming
  brokers : Brokers
  /-- The deliveries that have been taken from the queue. -/
  taken : List Delivery
  /-- The deliveries that have been handled to the end, with what became of them. -/
  ended : List (Delivery × Except Failure Unit)

namespace Situation

def begin (b : Brokers) : Situation :=
  ⟨.starting, b, [], []⟩

def take (c : Consumer) (stop : StopSignal) (number : Nat) (x : Situation) : Situation where
  state := (x.state.afterTake c stop number x.brokers).1
  brokers := (x.state.afterTake c stop number x.brokers).2
  taken := x.taken ++ (x.state.afterTake c stop number x.brokers).1.held.drop x.state.held.length
  ended := x.ended

def turn (c : Consumer) (stop : StopSignal) (number : Nat) (x : Situation) : Situation where
  state := (x.state.turn c stop number x.brokers).1
  brokers := (x.state.turn c stop number x.brokers).2
  taken := (x.take c stop number).taken
  ended := x.ended ++
    match (x.take c stop number).state with
    | .running _ underway => (Consuming.ended? c underway (x.take c stop number).brokers).toList
    | .starting | .finished _ => []

/-- The deliveries whose last attempt was accepted. -/
def sent (x : Situation) : List Delivery :=
  (x.ended.filter (·.2.isOk)).map (·.1)

/-- The deliveries that have been taken and are unsettled on the broker. -/
def unsettled (x : Situation) : List Delivery :=
  x.taken.filter fun d => (x.brokers.rabbit.unacked? d.tag).isSome

/-- What has been taken, and behind it what is ready in the queue. -/
def line (queue : String) (x : Situation) : List Delivery :=
  x.taken ++ ((x.brokers.rabbit.queue? queue).map (·.ready)).getD []

/-- Turns of a consumer lead from one situation to another one, and between them
whatever the others may do. -/
inductive Runs (c : Consumer) (others : Event → Prop) (x : Situation) : Situation → Prop where
  | start : Runs c others x x
  | other {y : Situation} (before : Runs c others x y) (event : Event) (allowed : others event)
      (own : y.state.Reading → ¬ event.Draws c.endpoint.queue) :
    Runs c others x { y with brokers := y.brokers.on event }
  | turn {y : Situation} (before : Runs c others x y) (stop : StopSignal) (number : Nat) :
    Runs c others x (y.turn c stop number)

end Situation

/-! ## The attempts of a turn -/

namespace Consumer

variable {c : Consumer} {b b' : Brokers}

/-- Some deliveries have been tried in vain, and have gone to sleep. -/
def Dozes (c : Consumer) : Brokers → Brokers → Prop :=
  Relation.ReflTransGen fun b b' =>
    ∃ d attempt sleep next, c.deliver d attempt b = (.asleep sleep next, b')

/-- After some deliveries that were tried in vain, this one has had its last attempt. -/
def Finishes (c : Consumer) (d : Delivery) (result : Except Failure Unit) (b b' : Brokers) : Prop :=
  ∃ tried attempt done, c.Dozes b tried ∧ c.deliver d attempt tried = (.done result, done) ∧
    b' = done.record (.sendLatency c.id)

theorem rabbit_deliver (c : Consumer) (d : Delivery) (attempt : Nat) (b : Brokers) :
    (c.deliver d attempt b).2.rabbit = b.rabbit := by
  fun_induction Consumer.deliver c d attempt b with
  | case1 attempt b b₁ hattempt | case2 attempt b failure b₁ hattempt _
  | case4 attempt b failure b₁ hattempt _ _ _ _ _ | case5 attempt b failure b₁ hattempt _ _ =>
      have hsame := c.endpoint.rabbit_attempt d b
      rw [hattempt] at hsame
      exact hsame
  | case3 attempt b failure b₁ hattempt _ _ b₂ _ _ ih =>
      have hsame := c.endpoint.rabbit_attempt d b
      rw [hattempt] at hsame
      exact ih.trans hsame

theorem Dozes.rabbit (h : c.Dozes b b') : b'.rabbit = b.rabbit := by
  induction h with
  | refl => rfl
  | @tail b₁ b₂ _ step ih =>
      obtain ⟨d, attempt, sleep, next, hdeliver⟩ := step
      have hsame := c.rabbit_deliver d attempt b₁
      rw [hdeliver] at hsame
      exact hsame.trans ih

theorem Dozes.collects (h : c.Dozes b b') : c.endpoint.target.Collects [] b.amazon b'.amazon := by
  induction h with
  | refl => exact .refl _ _
  | @tail b₁ b₂ _ step ih =>
      obtain ⟨d, attempt, sleep, next, hdeliver⟩ := step
      have hcollects := (c.collects_deliver d attempt b₁).1
      rw [hdeliver] at hcollects
      exact ih.trans hcollects

variable {d : Delivery} {result : Except Failure Unit}

theorem Finishes.rabbit (h : c.Finishes d result b b') : b'.rabbit = b.rabbit := by
  obtain ⟨tried, attempt, done, hdozes, hdeliver, rfl⟩ := h
  have hsame := c.rabbit_deliver d attempt tried
  rw [hdeliver] at hsame
  exact hsame.trans hdozes.rabbit

/-- A delivery whose last attempt is accepted has arrived at the target, and no other
one has. -/
theorem Finishes.collects (h : c.Finishes d result b b') :
    c.endpoint.target.Collects [] b.amazon b'.amazon ∧
      (result = .ok () → ∃ text, c.endpoint.chain.transform d.bodyText = .ok text ∧
        c.endpoint.target.Collects [text] b.amazon b'.amazon ∧
        c.endpoint.target.EndsWith b'.amazon text) := by
  obtain ⟨tried, attempt, done, hdozes, hdeliver, rfl⟩ := h
  have hcollects := c.collects_deliver d attempt tried
  rw [hdeliver] at hcollects
  refine ⟨hdozes.collects.trans hcollects.1, ?_⟩
  rintro rfl
  obtain ⟨text, htext, harrived, hlast⟩ := hcollects.2 rfl
  exact ⟨text, htext, hdozes.collects.trans harrived, hlast⟩

end Consumer

namespace Consuming

/-- The second part of a turn either settles nothing, or it settles one delivery and is
over. Every other delivery that it was given it keeps. -/
theorem work_cases (c : Consumer) (number : Nat) (underway : List Underway) :
    ∀ (again : List Underway) (b : Brokers),
      (ended? c underway b = none ∧
        ((work c number again underway b).1.map Underway.delivery).Perm
          ((underway ++ again).map Underway.delivery) ∧
        c.Dozes b (work c number again underway b).2) ∨
      ∃ d result b', ended? c underway b = some (d, result) ∧
        (d :: (work c number again underway b).1.map Underway.delivery).Perm
          ((underway ++ again).map Underway.delivery) ∧
        c.Finishes d result b b' ∧
        (work c number again underway b).2 = b'.on (.settle c d result) := by
  -- along the list that is worked on, with what has gone to sleep again in general
  induction underway with
  | nil => exact fun again b => .inl ⟨rfl, .refl _, .refl⟩
  | cons u rest ih =>
      obtain ⟨⟨delivery, attempt⟩, sleep, since⟩ := u
      intro again b
      rw [work, ended?]
      split
      · rcases hdeliver : c.deliver delivery attempt b with ⟨turned, b₁⟩
        cases turned with
        | done result =>
            rw [Consumer.turn_of_done hdeliver]
            exact .inr ⟨delivery, result, b₁.record (.sendLatency c.id), rfl, .refl _,
              ⟨b, attempt, b₁, .refl, hdeliver, rfl⟩, rfl⟩
        | asleep sleep next =>
            rw [Consumer.turn_of_asleep hdeliver]
            have hdozes : c.Dozes b b₁ := .single ⟨delivery, attempt, sleep, next, hdeliver⟩
            have hmoved : (List.map Underway.delivery
                (rest ++ (again ++ [⟨⟨delivery, next⟩, sleep, number⟩]))).Perm
                  (delivery :: (rest ++ again).map Underway.delivery) := by
              rw [← List.append_assoc, List.map_append, List.map_singleton]
              exact List.perm_append_singleton delivery _
            rcases ih (again ++ [⟨⟨delivery, next⟩, sleep, number⟩]) b₁ with
              ⟨hnone, hperm, hrest⟩ | ⟨d, result, b', hsome, hperm, hfinishes, hsettled⟩
            · exact .inl ⟨hnone, hperm.trans hmoved, hdozes.trans hrest⟩
            · obtain ⟨tried, k, done, hrest, hlast, rfl⟩ := hfinishes
              exact .inr ⟨d, result, _, hsome, hperm.trans hmoved,
                ⟨tried, k, done, hdozes.trans hrest, hlast, rfl⟩, hsettled⟩
      · rcases ih again b with ⟨hnone, hperm, hdozes⟩ | ⟨d, result, b', hsome, hperm, hrest⟩
        · exact .inl ⟨hnone, hperm.cons _, hdozes⟩
        · refine .inr ⟨d, result, b', hsome, ?_, hrest⟩
          exact (List.Perm.swap _ _ _).trans (hperm.cons delivery)

end Consuming

/-! ## The two parts of a turn -/

namespace Situation

variable {c : Consumer} {x : Situation}

/-- In the first part of a turn nothing happens, or the stream is dropped, or the
delivery that is first in the queue is taken, if there is room for it. -/
theorem take_cases (c : Consumer) (stop : StopSignal) (number : Nat) (x : Situation) :
    x.take c stop number = x ∨
    (x.state.Reading ∧ ¬ (x.take c stop number).state.Reading ∧
      (x.take c stop number).state ≠ .starting ∧
      (x.take c stop number).state.held = x.state.held ∧
      (x.take c stop number).taken = x.taken ∧
      (x.take c stop number).brokers = x.brokers.on (.rabbit (.dropStream c.endpoint.queue))) ∨
    ∃ d, x.state.Reading ∧ (x.take c stop number).state.Reading ∧
      x.state.held.length < c.concurrency ∧
      (x.take c stop number).state.held = x.state.held ++ [d] ∧
      (x.take c stop number).taken = x.taken ++ [d] ∧
      x.brokers.rabbit.next c.endpoint.queue = (some d, (x.take c stop number).brokers.rabbit) ∧
      (x.take c stop number).brokers.amazon = x.brokers.amazon := by
  obtain ⟨state, b, taken, ended⟩ := x
  have hdrop : ∀ l : List Delivery, l.drop l.length = [] := fun l => List.drop_length
  cases state with
  | starting => exact .inl (by simp [take, Consuming.afterTake, hdrop])
  | finished result => exact .inl (by simp [take, Consuming.afterTake, hdrop])
  | running streamOpen underway =>
      simp only [take, Consuming.afterTake, Consuming.take]
      split
      · next hroom =>
          obtain ⟨rfl, hroom⟩ := hroom
          split
          · refine .inr (.inl ⟨rfl, Bool.noConfusion, Consuming.noConfusion, rfl, ?_, rfl⟩)
            simp [Consuming.held]
          · rcases hnext : b.rabbit.next c.endpoint.queue with ⟨delivery, rabbit⟩
            simp only [Brokers.onRabbit, hnext]
            cases delivery with
            | none =>
                have hsame := Rabbit.Broker.next_of_none (congrArg Prod.fst hnext)
                rw [hnext] at hsame
                obtain rfl : rabbit = b.rabbit := hsame
                exact .inl (by simp)
            | some d =>
                refine .inr (.inr ⟨d, rfl, rfl, ?_, ?_, ?_, rfl, rfl⟩)
                · simpa [Consuming.held] using hroom
                · simp [Consuming.held, Underway.delivery, Handling.start]
                · simp [Consuming.held, Underway.delivery, Handling.start]
      · exact .inl (by simp)

/-- A consumer that has not had a turn yet asks for the stream of its queue. -/
theorem turn_of_starting (stop : StopSignal) (number : Nat) (h : x.state = .starting) :
    (x.turn c stop number).state ≠ .starting ∧ (x.turn c stop number).state.held = [] ∧
      (x.turn c stop number).taken = x.taken ∧ (x.turn c stop number).ended = x.ended ∧
      (x.turn c stop number).brokers = x.brokers.on (.rabbit (.consume c.endpoint.queue)) ∧
      ((x.turn c stop number).state.Reading →
        (x.brokers.rabbit.consume c.endpoint.queue).1 = .ok ()) := by
  obtain ⟨state, b, taken, ended⟩ := x
  obtain rfl : state = .starting := h
  simp only [turn, take, Consuming.afterTake, Consuming.turn, Consuming.held, Brokers.onRabbit,
    Brokers.on, Rabbit.Broker.after]
  rcases b.rabbit.consume c.endpoint.queue with ⟨result, rabbit⟩
  cases result with
  | ok => exact ⟨Consuming.noConfusion, rfl, by simp, by simp, rfl, fun _ => rfl⟩
  | error failure => exact ⟨Consuming.noConfusion, rfl, by simp, by simp, rfl, False.elim⟩

/-- In the second part of a turn one delivery is settled, or none. -/
theorem turn_cases (stop : StopSignal) (number : Nat) (h : x.state ≠ .starting) :
    (x.turn c stop number).state ≠ .starting ∧
      ((x.turn c stop number).state.Reading ↔ (x.take c stop number).state.Reading) ∧
      (x.turn c stop number).taken = (x.take c stop number).taken ∧
      (((x.turn c stop number).ended = x.ended ∧
          (x.turn c stop number).state.held.Perm (x.take c stop number).state.held ∧
          c.Dozes (x.take c stop number).brokers (x.turn c stop number).brokers) ∨
        ∃ d result b, (x.turn c stop number).ended = x.ended ++ [(d, result)] ∧
          (d :: (x.turn c stop number).state.held).Perm (x.take c stop number).state.held ∧
          c.Finishes d result (x.take c stop number).brokers b ∧
          (x.turn c stop number).brokers = b.on (.settle c d result)) := by
  obtain ⟨state, b, taken, ended⟩ := x
  cases state with
  | starting => exact absurd rfl h
  | finished result =>
      refine ⟨Consuming.noConfusion, .rfl, rfl, .inl ⟨by simp [turn, take, Consuming.afterTake],
        .refl _, .refl⟩⟩
  | running streamOpen underway =>
      simp only [turn, take, Consuming.afterTake, Consuming.turn]
      rcases Consuming.take c stop number streamOpen underway b with ⟨streamOpen', underway', b₁⟩
      simp only []
      have hwork := Consuming.work_cases c number underway' [] b₁
      rcases hworked : Consuming.work c number [] underway' b₁ with ⟨underway'', b₂⟩
      rw [hworked, List.append_nil] at hwork
      -- a consumer that ends is not busy with anything
      have hstate : ∀ state, state = (if !streamOpen' && underway''.isEmpty
            then Consuming.finished (.ok ()) else .running streamOpen' underway'') →
          state ≠ .starting ∧ (state.Reading ↔ streamOpen' = true) ∧
            state.held = underway''.map Underway.delivery := by
        rintro state rfl
        split
        · next hended =>
            simp only [Bool.and_eq_true, Bool.not_eq_true', List.isEmpty_iff] at hended
            obtain ⟨rfl, rfl⟩ := hended
            exact ⟨Consuming.noConfusion, by simp [Consuming.Reading], rfl⟩
        · exact ⟨Consuming.noConfusion, .rfl, rfl⟩
      have hbrokers : (if !streamOpen' && underway''.isEmpty then
          (Consuming.finished (.ok ()), b₂) else (.running streamOpen' underway'', b₂)) =
            (if !streamOpen' && underway''.isEmpty then
              Consuming.finished (.ok ()) else .running streamOpen' underway'', b₂) := by
        split <;> rfl
      simp only [hbrokers]
      obtain ⟨hstarting, hreading, hheld⟩ := hstate _ rfl
      rw [hheld]
      refine ⟨hstarting, hreading, trivial, ?_⟩
      rcases hwork with ⟨hnone, hperm, hdozes⟩ | ⟨d, result, b', hsome, hperm, hfinishes, hafter⟩
      · exact .inl ⟨by rw [hnone]; simp, hperm, hdozes⟩
      · exact .inr ⟨d, result, b', by rw [hsome]; rfl, hperm, hfinishes, hafter⟩

end Situation

end MessageBridge
