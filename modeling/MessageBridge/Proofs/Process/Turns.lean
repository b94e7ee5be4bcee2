import MessageBridge.Proofs.History
import MessageBridge.Process.Task

/-!
# What a task does in a turn

A turn of a task is a long affair: several deliveries may be worked on in it,
with several attempts each, or a whole batch of messages may be taken to rabbit.
Taken apart into events it is simple, and two rules say all there is to say.

A consumer keeps to its own queue. It makes attempts at what it has taken from
there and settles it, and it acknowledges nothing that it has not just sent. A
dispatcher keeps to the address of its receiver, and takes to rabbit, or
releases, what it was handed out there.

The theorems of this module say that every turn is a course under the rule of
its task. A running consumer carries deliveries from turn to turn, so its theorem
needs them to be `Accounted` for in the past, and says that they still are.
-/

namespace MessageBridge

/-- What the handling of one delivery does. -/
inductive Consumer.Handles (c : Consumer) (d : Rabbit.Delivery) (h : List Moment) :
    Event → Prop where
  | counts (m : Metric) (amount : Nat) : Handles c d h (.counted m amount)
  | attempts : Handles c d h (.attempt c.endpoint d)
  | settles (result : Except Failure Unit) (sent : result = .ok () → Sent h c.endpoint d) :
    Handles c d h (.settle c d result)

/-- What a running consumer does. -/
inductive Consumer.Does (c : Consumer) (h : List Moment) : Event → Prop where
  | consumes : Does c h (.rabbit (.consume c.endpoint.queue))
  | takes : Does c h (.rabbit (.next c.endpoint.queue))
  | leaves : Does c h (.rabbit (.dropStream c.endpoint.queue))
  | counts (m : Metric) (amount : Nat) : Does c h (.counted m amount)
  | handles {d : Rabbit.Delivery} {event : Event} (took : Took h c.endpoint.queue d)
      (handled : c.Handles d h event) : Does c h event

/-- What a dispatcher does. -/
inductive Dispatcher.Does (d : Dispatcher) (h : List Moment) : Event → Prop where
  | counts (m : Metric) (amount : Nat) : Does d h (.counted m amount)
  | looks (max : Nat) : Does d h (.amazon (.look d.receiver.url max))
  | forwards {m : Amazon.Message} (out : HandedOut h d.receiver.url m) :
    Does d h (.forward d m)
  | releases {m : Amazon.Message} (out : HandedOut h d.receiver.url m) :
    Does d h (.amazon (.changeVisibility d.receiver.url m.receipt 0))

/-! ## Handling a delivery -/

theorem Consumer.course_attempt {c : Consumer} {d : Rabbit.Delivery} {b b' : Brokers}
    {result : Except Failure Unit} (hattempt : c.endpoint.attempt d b = (result, b'))
    (past : List Moment) :
    Course (c.Handles d) past b [⟨b, .attempt c.endpoint d⟩] b' := by
  refine .single .attempts ?_
  rw [Brokers.on, hattempt]

theorem Consumer.course_deliver (c : Consumer) (d : Rabbit.Delivery) (attempt : Nat)
    (b : Brokers) (past : List Moment) :
    ∃ h, Course (c.Handles d) past b h (c.deliver d attempt b).2 ∧
      ((c.deliver d attempt b).1 = .done (.ok ()) → Sent h c.endpoint d) := by
  fun_induction Consumer.deliver c d attempt b generalizing past with
  | case1 attempt b b' hattempt =>
      refine ⟨_, course_attempt hattempt past, fun _ => ?_⟩
      exact ⟨[], _, [], rfl, (fun y hy => nomatch hy), rfl, by rw [hattempt]⟩
  | case2 attempt b failure b' hattempt _ | case5 attempt b failure b' hattempt _ _ =>
      exact ⟨_, course_attempt hattempt past, fun h => nomatch h⟩
  | case3 attempt b failure b₁ hattempt _ _ b₂ _ _ ih =>
      obtain ⟨h, hcourse, hsent⟩ :=
        ih (past ++ [⟨b, .attempt c.endpoint d⟩] ++ [⟨b₁, .counted (.retried c.id) 1⟩])
      have hcount : Course (c.Handles d) (past ++ [⟨b, .attempt c.endpoint d⟩]) b₁ _ _ :=
        .cons (.counts (.retried c.id) 1) rfl hcourse
      exact ⟨_, (course_attempt hattempt past).trans hcount,
        fun hdone => (hsent hdone).after [_, _]⟩
  | case4 attempt b failure b₁ hattempt _ _ b₂ millis _ =>
      have hcount : Course (c.Handles d) (past ++ [⟨b, .attempt c.endpoint d⟩]) b₁
          [⟨b₁, .counted (.retried c.id) 1⟩] b₂ := .single (.counts (.retried c.id) 1) rfl
      exact ⟨_, (course_attempt hattempt past).trans hcount, fun h => nomatch h⟩

/-- A delivery that is handled stays the same, and the turn that settles it
acknowledges it only after a successful attempt. -/
theorem Handling.course_turn (c : Consumer) (handling : Handling) (b : Brokers)
    (past : List Moment) :
    (∃ h, Course (c.Handles handling.delivery) past b h (Handling.turn c handling b).2) ∧
      ∀ sleep next, (Handling.turn c handling b).1 = .asleep sleep next →
        next.delivery = handling.delivery := by
  obtain ⟨h, hcourse, hsent⟩ :=
    c.course_deliver handling.delivery handling.attempt b past
  unfold Handling.turn
  rcases hdeliver : c.deliver handling.delivery handling.attempt b with ⟨turn, b₁⟩
  rw [hdeliver] at hcourse hsent
  cases turn with
  | asleep sleep attempt =>
      refine ⟨⟨h, hcourse⟩, ?_⟩
      intro sleep' next hnext
      injection hnext with _ hnext
      rw [← hnext]
  | done result =>
      refine ⟨?_, fun _ _ hnext => nomatch hnext⟩
      have hsettle : Course (c.Handles handling.delivery)
          (past ++ h ++ [⟨b₁, .counted (.sendLatency c.id) 1⟩])
          (b₁.record (.sendLatency c.id))
          [⟨b₁.record (.sendLatency c.id), .settle c handling.delivery result⟩]
          (c.settle handling.delivery result (b₁.record (.sendLatency c.id))).2 := by
        refine .single (.settles result fun hr => ?_) rfl
        exact ((hsent (by rw [hr])).after past).counted b₁ (.sendLatency c.id) 1
      exact ⟨_, hcourse.trans (.cons (.counts (.sendLatency c.id) 1) rfl hsettle)⟩

/-! ## A running consumer -/

/-- Every delivery that a running consumer is busy with was taken from its queue. -/
def Consuming.Accounted (h : List Moment) (c : Consumer) : Consuming → Prop
  | .running _ underway => ∀ u ∈ underway, Took h c.endpoint.queue u.handling.delivery
  | .starting | .finished _ => True

theorem Consuming.Accounted.mono {h h' : List Moment} (hsub : h ⊆ h') {c : Consumer}
    {state : Consuming} (ha : state.Accounted h c) : state.Accounted h' c := by
  cases state with
  | running streamOpen underway => exact fun u hu => (ha u hu).mono hsub
  | starting | finished => trivial

theorem Consuming.course_take (c : Consumer) (stop : StopSignal) (turn : Nat)
    (streamOpen : Bool) (underway : List Underway) (b : Brokers) (past : List Moment)
    (ha : ∀ u ∈ underway, Took past c.endpoint.queue u.handling.delivery) :
    ∃ h, Course c.Does past b h (Consuming.take c stop turn streamOpen underway b).2.2 ∧
      ∀ u ∈ (Consuming.take c stop turn streamOpen underway b).2.1,
        Took (past ++ h) c.endpoint.queue u.handling.delivery := by
  have hsame : ∀ h, ∀ u ∈ underway, Took (past ++ h) c.endpoint.queue u.handling.delivery :=
    fun h u hu => (ha u hu).mono (List.subset_append_left _ _)
  unfold Consuming.take
  split
  · split
    · exact ⟨_, .single .leaves rfl, hsame _⟩
    · rcases hnext : b.rabbit.next c.endpoint.queue with ⟨delivery, rabbit⟩
      have htook : b.on (.rabbit (.next c.endpoint.queue)) = { b with rabbit } := by
        simp only [Brokers.on, Rabbit.Broker.after, hnext]
      simp only [Brokers.onRabbit, hnext]
      cases delivery with
      | none => exact ⟨_, .single .takes htook, hsame _⟩
      | some d =>
          refine ⟨_, .cons .takes htook (.single (.counts (.received c.id) 1) rfl), ?_⟩
          intro u hu
          rcases List.mem_append.mp hu with hu | hu
          · exact hsame _ u hu
          · rw [List.mem_singleton] at hu
            subst hu
            refine ⟨⟨b, .rabbit (.next c.endpoint.queue)⟩, ?_, rfl, by rw [hnext]; rfl⟩
            exact List.mem_append_right _ List.mem_cons_self
  · exact ⟨_, .start, hsame _⟩

theorem Consuming.course_work (c : Consumer) (turn : Nat) (underway : List Underway) :
    ∀ (again : List Underway) (b : Brokers) (past : List Moment),
      (∀ u ∈ again ++ underway, Took past c.endpoint.queue u.handling.delivery) →
      ∃ h, Course c.Does past b h (Consuming.work c turn again underway b).2 ∧
        ∀ u ∈ (Consuming.work c turn again underway b).1,
          Took (past ++ h) c.endpoint.queue u.handling.delivery := by
  induction underway with
  | nil =>
      intro again b past ha
      refine ⟨_, .start, ?_⟩
      intro u hu
      exact (ha u (List.mem_append_left _ hu)).mono (List.subset_append_left _ _)
  | cons u rest ih =>
      intro again b past ha
      have hu : Took past c.endpoint.queue u.handling.delivery :=
        ha u (List.mem_append_right _ List.mem_cons_self)
      have hother : ∀ x ∈ again ++ rest, Took past c.endpoint.queue x.handling.delivery := by
        intro x hx
        rcases List.mem_append.mp hx with hx | hx
        · exact ha x (List.mem_append_left _ hx)
        · exact ha x (List.mem_append_right _ (List.mem_cons_of_mem _ hx))
      rw [Consuming.work]
      split
      · obtain ⟨⟨h, hturn⟩, hnext⟩ := Handling.course_turn c u.handling b past
        have hdoes : Course c.Does past b h (Handling.turn c u.handling b).2 :=
          hturn.imp fun _ _ hsub hhandles => .handles (hu.mono hsub) hhandles
        rcases hhandle : Handling.turn c u.handling b with ⟨turned, b₁⟩
        rw [hhandle] at hdoes hnext
        cases turned with
        | done outcome =>
            refine ⟨h, hdoes, ?_⟩
            intro x hx
            refine (hother x ?_).mono (List.subset_append_left _ _)
            exact List.mem_append.mpr (List.mem_append.mp hx).symm
        | asleep sleep handling =>
            have hsame : handling.delivery = u.handling.delivery := hnext sleep handling rfl
            have hagain : ∀ x ∈ (again ++ [⟨handling, sleep, turn⟩]) ++ rest,
                Took (past ++ h) c.endpoint.queue x.handling.delivery := by
              intro x hx
              rw [List.append_assoc, List.singleton_append, List.mem_append,
                List.mem_cons] at hx
              rcases hx with hx | rfl | hx
              · exact (hother x (List.mem_append_left _ hx)).mono (List.subset_append_left _ _)
              · rw [hsame]
                exact hu.mono (List.subset_append_left _ _)
              · exact (hother x (List.mem_append_right _ hx)).mono (List.subset_append_left _ _)
            obtain ⟨h', hcourse, hrest⟩ := ih _ b₁ (past ++ h) hagain
            refine ⟨h ++ h', hdoes.trans hcourse, ?_⟩
            rw [← List.append_assoc]
            exact hrest
      · obtain ⟨h, hcourse, hrest⟩ := ih again b past hother
        refine ⟨h, hcourse, ?_⟩
        intro x hx
        rcases List.mem_cons.mp hx with rfl | hx
        · exact hu.mono (List.subset_append_left _ _)
        · exact hrest x hx

theorem Consuming.course_turn (c : Consumer) (stop : StopSignal) (number : Nat)
    (state : Consuming) (b : Brokers) (past : List Moment) (ha : state.Accounted past c) :
    ∃ h, Course c.Does past b h (state.turn c stop number b).2 ∧
      (state.turn c stop number b).1.Accounted (past ++ h) c := by
  cases state with
  | starting =>
      rw [Consuming.turn]
      rcases hconsume : b.rabbit.consume c.endpoint.queue with ⟨result, rabbit⟩
      have hconsumed : b.on (.rabbit (.consume c.endpoint.queue)) = { b with rabbit } := by
        simp only [Brokers.on, Rabbit.Broker.after, hconsume]
      simp only [Brokers.onRabbit, hconsume]
      cases result with
      | error failure => exact ⟨_, .single .consumes hconsumed, trivial⟩
      | ok => exact ⟨_, .single .consumes hconsumed, fun u hu => (List.not_mem_nil hu).elim⟩
  | running streamOpen underway =>
      rw [Consuming.turn]
      obtain ⟨h, htake, htaken⟩ :=
        course_take c stop number streamOpen underway b past ha
      rcases htook : Consuming.take c stop number streamOpen underway b with
        ⟨streamOpen', underway', b₁⟩
      rw [htook] at htake htaken
      obtain ⟨h', hwork, hworked⟩ := course_work c number underway' [] b₁ (past ++ h) htaken
      simp only []
      rcases hdone : Consuming.work c number [] underway' b₁ with ⟨underway'', b₂⟩
      rw [hdone] at hwork hworked
      have hcourse := htake.trans hwork
      rw [List.append_assoc] at hworked
      split
      · exact ⟨h ++ h', hcourse, trivial⟩
      · exact ⟨h ++ h', hcourse, hworked⟩
  | finished result => exact ⟨_, .start, trivial⟩

/-! ## A dispatcher and its poller -/

/-- Whether a receive waits or not, it has looked once. -/
theorem Receiver.turn_cases (r : Receiver) (deadline : Instant) (b : Brokers) :
    (r.turn deadline b).2 = b.on (.amazon (.look r.url r.maxMessages)) ∧
      ∀ received, (r.turn deadline b).1 = .done received →
        (b.amazon.look b.now r.url r.maxMessages).1 = received := by
  have hlook : ∀ (wait : Prop) [Decidable wait] (sleep : Sleep)
      (found : Except Failure (List Amazon.Message)) (b' : Brokers)
      (turned : Turn Instant (Except Failure (List Amazon.Message)) × Brokers),
      turned = (if wait then (.asleep sleep deadline, b') else (.done found, b')) →
      turned.2 = b' ∧ ∀ received, turned.1 = .done received → found = received := by
    intro wait _ sleep found b' turned hturned
    split at hturned <;> subst hturned
    · exact ⟨rfl, fun received hdone => nomatch hdone⟩
    · refine ⟨rfl, fun received hdone => ?_⟩
      injection hdone
  exact hlook _ _ _ _ _ rfl

theorem Receiver.course_turn {rule : Rule} (r : Receiver) (deadline : Instant) (b : Brokers)
    (past : List Moment) (hlook : rule past (.amazon (.look r.url r.maxMessages))) :
    ∃ h, Course rule past b h (r.turn deadline b).2 ∧
      ∀ received, (r.turn deadline b).1 = .done (.ok received) →
        ∀ m ∈ received, HandedOut (past ++ h) r.url m := by
  obtain ⟨hafter, hfound⟩ := r.turn_cases deadline b
  refine ⟨_, .single hlook hafter.symm, ?_⟩
  intro received hdone m hm
  exact ⟨_, List.mem_append_right _ (List.mem_singleton_self _), r.maxMessages, received,
    rfl, hfound _ hdone, hm⟩

theorem Dispatcher.course_forwardAll (d : Dispatcher) (batch : List Amazon.Message) :
    ∀ (b : Brokers) (past : List Moment),
      (∀ m ∈ batch, HandedOut past d.receiver.url m) →
      ∃ h, Course d.Does past b h (d.forwardAll batch b).2 := by
  induction batch with
  | nil => intro b past _; exact ⟨_, .start⟩
  | cons m rest ih =>
      intro b past hbatch
      have hm : HandedOut past d.receiver.url m := hbatch m List.mem_cons_self
      rw [forwardAll]
      rcases hforward : d.forward m b with ⟨result, b₁⟩
      have hforwarded : b.on (.forward d m) = b₁ := by
        rw [Brokers.on, hforward]
      cases result with
      | ok =>
          obtain ⟨h, hcourse⟩ := ih (b₁.record (.pollForwarded d.queueName))
            (past ++ [⟨b, .forward d m⟩] ++ [⟨b₁, .counted (.pollForwarded d.queueName) 1⟩]) (by
              intro x hx
              refine (hbatch x (List.mem_cons_of_mem _ hx)).mono ?_
              rw [List.append_assoc]
              exact List.subset_append_left _ _)
          exact ⟨_, .cons (.forwards hm) hforwarded
            (.cons (.counts (.pollForwarded d.queueName) 1) rfl hcourse)⟩
      | error failure =>
          refine ⟨_, .cons (.forwards hm) hforwarded
            (.cons (.counts (.pollFailed d.queueName failure.label) 1) rfl
              (.single (.releases (hm.mono ?_)) rfl))⟩
          rw [List.append_assoc]
          exact List.subset_append_left _ _

/-- Whatever a run does follows the rule of its dispatcher. -/
theorem Dispatcher.course_turn (d : Dispatcher) (deadline : Instant) (b : Brokers)
    (past : List Moment) : ∃ h, Course d.Does past b h (d.turn deadline b).2 := by
  obtain ⟨h, hcourse, hout⟩ :=
    d.receiver.course_turn deadline b past (Does.looks (d := d) d.receiver.maxMessages)
  unfold Dispatcher.turn
  rcases hreceived : d.receiver.turn deadline b with ⟨turned, b₁⟩
  rw [hreceived] at hcourse hout
  have hduration : ∀ b past, Course d.Does past b _ (b.record (.runDuration d.queueName)) :=
    fun b past => .single (.counts (.runDuration d.queueName) 1) rfl
  cases turned with
  | asleep sleep deadline => exact ⟨h, hcourse⟩
  | done received =>
      simp only []
      cases received with
      | error failure => exact ⟨_, hcourse.trans (hduration b₁ _)⟩
      | ok batch =>
          cases batch with
          | nil => exact ⟨_, hcourse.trans (hduration b₁ _)⟩
          | cons m rest =>
              obtain ⟨h', hall⟩ := d.course_forwardAll (m :: rest)
                { b₁ with metrics := b₁.metrics.raise (.polled d.queueName) (m :: rest).length }
                (past ++ h ++ [⟨b₁, .counted (.polled d.queueName) (m :: rest).length⟩]) (by
                  intro x hx
                  exact (hout (m :: rest) rfl x hx).mono (List.subset_append_left _ _))
              have hcounted : Course d.Does (past ++ h) b₁ _ _ :=
                .cons (.counts (.polled d.queueName) (m :: rest).length) rfl hall
              exact ⟨_, (hcourse.trans hcounted).trans (hduration _ _)⟩

theorem Polling.course_turn (p : Poller) (stop : StopSignal) (number : Nat) (state : Polling)
    (b : Brokers) (past : List Moment) :
    ∃ h, Course p.dispatcher.Does past b h (state.turn p stop number b).2 := by
  have hgoOn : ∀ deadline, ∃ h,
      Course p.dispatcher.Does past b h (Polling.goOn p stop number deadline b).2 := by
    intro deadline
    obtain ⟨h, hcourse⟩ := p.dispatcher.course_turn deadline b past
    refine ⟨h, ?_⟩
    unfold Polling.goOn
    rcases hturn : p.dispatcher.turn deadline b with ⟨turned, b₁⟩
    rw [hturn] at hcourse
    cases turned with
    | asleep sleep deadline => exact hcourse
    | done result =>
        simp only []
        split <;> exact hcourse
  cases state with
  | armed =>
      rw [Polling.turn]
      split
      · exact ⟨_, .start⟩
      · exact hgoOn _
  | running deadline sleep since => exact hgoOn deadline
  | pausing sleep since =>
      rw [Polling.turn]
      split
      · exact ⟨_, .start⟩
      · exact hgoOn _
  | finished => exact ⟨_, .start⟩

/-! ## Any task -/

/-- What the work of a task does. -/
def Work.Does : Work → Rule
  | .consuming c _ => c.Does
  | .polling p _ => p.dispatcher.Does

/-- Every delivery that a task is busy with was taken from its queue. -/
def Work.Accounted (h : List Moment) : Work → Prop
  | .consuming c state => state.Accounted h c
  | .polling _ _ => True

theorem Work.Accounted.mono {h h' : List Moment} (hsub : h ⊆ h') {w : Work}
    (ha : w.Accounted h) : w.Accounted h' := by
  cases w with
  | consuming c state => exact Consuming.Accounted.mono hsub ha
  | polling p state => trivial

/-- A turn of a task keeps to the rule of its work, which stays the same. -/
theorem Task.course_turn (t : Task) (number : Nat) (b : Brokers) (past : List Moment)
    (ha : t.work.Accounted past) :
    ∃ h, Course t.work.Does past b h (t.turn number b).2 ∧
      (t.turn number b).1.work.Does = t.work.Does ∧
      (t.turn number b).1.work.Accounted (past ++ h) := by
  obtain ⟨work, stop⟩ := t
  cases work with
  | consuming c state =>
      obtain ⟨h, hcourse, hafter⟩ := Consuming.course_turn c stop number state b past ha
      exact ⟨h, hcourse, rfl, hafter⟩
  | polling p state =>
      obtain ⟨h, hcourse⟩ := Polling.course_turn p stop number state b past
      exact ⟨h, hcourse, rfl, trivial⟩

end MessageBridge
