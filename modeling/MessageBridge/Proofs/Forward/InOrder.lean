import MessageBridge.Proofs.Forward.Progress

/-!
# A consumer takes its deliveries in order and loses none

Whatever others do between the turns of a consumer, and whenever it is told to stop,
its books stay `Orderly`. What it has taken it has handled to the end, or it is busy
with it, and it is busy with no more deliveries than it may be. The tags of what it has
taken ascend, and as long as it reads, everything that is ready in its queue has a
higher tag: so nothing is taken twice, and nothing is taken before what stands in front
of it. What has been handled to the end is gone from the broker.

A consumer that handles one delivery at a time comes to the end of each before it takes
the next one. Its accepted messages arrive in the order of the queue then, however
many attempts each of them needs.
-/

namespace MessageBridge

open Rabbit (Delivery)
open Rabbit.Broker (Changes)

/-- Nobody but the holder of the stream takes anything out of a queue. -/
theorem queue?_on_of_taken {b : Brokers} {event : Event} {queue : String} {q : Rabbit.Queue}
    (h : ¬ event.Draws queue) (hq : b.rabbit.queue? queue = some q) (hs : q.stream = .taken) :
    ∃ added, (b.on event).rabbit.queue? queue = some { q with ready := q.ready ++ added } := by
  rcases b.rabbit_on event with hsame | ⟨op, horders, hop⟩
  · exact ⟨[], by rw [hsame, hq, List.append_nil]⟩
  · rw [hop]
    exact Rabbit.Broker.queue?_after_of_taken (fun hdraws => h ⟨op, horders, hdraws⟩) hq hs

/-- What a consumer has settled is gone, whether the broker knew it or not. -/
theorem gone_settle {c : Consumer} {d : Delivery} {result : Except Failure Unit} {b : Brokers}
    (hw : b.rabbit.WellFormed) (ho : b.rabbit.Out d.tag) :
    (b.on (.settle c d result)).rabbit.Gone d.tag := by
  rw [Brokers.on, Consumer.rabbit_settle]
  cases result with
  | ok => exact (hw.gone_of_out ho false).1
  | error failure => exact (hw.gone_of_out ho false).2

namespace Situation

/-- The books of a consumer are in order. -/
structure Orderly (c : Consumer) (x : Situation) : Prop where
  wellFormed : x.brokers.rabbit.WellFormed
  ascending : x.taken.Pairwise fun d d' => d.tag < d'.tag
  accounted : x.taken.Perm (x.ended.map (·.1) ++ x.state.held)
  out : ∀ d ∈ x.taken, x.brokers.rabbit.Out d.tag
  gone : ∀ p ∈ x.ended, x.brokers.rabbit.Gone p.1.tag
  room : x.state.held.length ≤ c.concurrency
  /-- The stream belongs to a consumer that reads, and it comes to what is ready after
  all that it has taken. -/
  reading : x.state.Reading → ∃ q, x.brokers.rabbit.queue? c.endpoint.queue = some q ∧
    q.stream = .taken ∧ ∀ d ∈ x.taken, ∀ d' ∈ q.ready, d.tag < d'.tag
  unstarted : x.state = .starting → x.taken = []
  /-- Who handles one delivery at a time handles them in their order. -/
  single : c.concurrency = 1 → x.taken = x.ended.map (·.1) ++ x.state.held

variable {c : Consumer} {x y : Situation}

theorem orderly_begin (c : Consumer) {b : Brokers} (h : b.rabbit.Reachable) :
    (begin b).Orderly c where
  wellFormed := h.wellFormed
  ascending := .nil
  accounted := .refl _
  out := nofun
  gone := nofun
  room := Nat.zero_le _
  reading := False.elim
  unstarted := fun _ => rfl
  single := fun _ => rfl

/-- What changes the brokers alone, and takes nothing out of a queue that is read,
leaves the books in order. -/
theorem Orderly.on (h : x.Orderly c) (event : Event)
    (hown : x.state.Reading → ¬ event.Draws c.endpoint.queue) :
    ({ x with brokers := x.brokers.on event } : Situation).Orderly c := by
  have hchanges : Changes x.brokers.rabbit (x.brokers.on event).rabbit :=
    (x.brokers.reaches_on event).changes
  refine { h with
    wellFormed := hchanges.wellFormed h.wellFormed
    out := fun d hd => hchanges.out (h.out d hd)
    gone := fun p hp => hchanges.gone (h.gone p hp)
    reading := fun hreading => ?_ }
  obtain ⟨q, hq, hs, hahead⟩ := h.reading hreading
  obtain ⟨added, hadded⟩ := queue?_on_of_taken (hown hreading) hq hs
  refine ⟨_, hadded, hs, fun d hd d' hd' => ?_⟩
  have hready : (x.brokers.on event).rabbit.IsReady c.endpoint.queue d' := ⟨_, hadded, hd'⟩
  rcases hchanges.ready_new hready with ⟨q', hq', hd'⟩ | hnew
  · obtain rfl : q = q' := Option.some.inj (hq.symm.trans hq')
    exact hahead d hd d' hd'
  · exact Nat.lt_of_le_of_lt (h.out d hd).drawn hnew

/-- Deliveries may be moved from those that are being handled to those that have been,
once they are gone. -/
theorem Orderly.rebook (h : x.Orderly c) (new : List (Delivery × Except Failure Unit))
    (hrabbit : y.brokers.rabbit = x.brokers.rabbit) (htaken : y.taken = x.taken)
    (hended : y.ended = x.ended ++ new)
    (hheld : (new.map (·.1) ++ y.state.held).Perm x.state.held)
    (hgone : ∀ p ∈ new, x.brokers.rabbit.Gone p.1.tag)
    (hreading : y.state.Reading → x.state.Reading)
    (hstarting : y.state = .starting → x.state = .starting) : y.Orderly c := by
  have hlength := hheld.length_eq
  rw [List.length_append] at hlength
  have hroom := h.room
  have hbooks : y.ended.map (·.1) ++ y.state.held =
      x.ended.map (·.1) ++ (new.map (·.1) ++ y.state.held) := by
    rw [hended, List.map_append, List.append_assoc]
  refine ⟨?_, ?_, ?_, ?_, ?_, by omega, ?_, fun hs => htaken.trans (h.unstarted (hstarting hs)),
    fun hone => ?_⟩
  · rw [hrabbit]
    exact h.wellFormed
  · rw [htaken]
    exact h.ascending
  · rw [htaken, hbooks]
    exact h.accounted.trans (hheld.symm.append_left _)
  · rw [htaken, hrabbit]
    exact h.out
  · intro p hp
    rw [hended] at hp
    rw [hrabbit]
    rcases List.mem_append.mp hp with hp | hp
    · exact h.gone p hp
    · exact hgone p hp
  · rw [hrabbit, htaken]
    exact fun hr => h.reading (hreading hr)
  · rw [htaken, hbooks, h.single hone]
    congr 1
    match x.state.held, hheld, hone ▸ hroom with
    | [], hheld, _ => exact (List.perm_nil.mp hheld).symm
    | [d], hheld, _ => exact (List.perm_singleton.mp hheld).symm

theorem Orderly.finishes {d : Delivery} {result : Except Failure Unit} {b : Brokers}
    (h : x.Orderly c) (hfinishes : c.Finishes d result x.brokers b) :
    Orderly c { x with brokers := b } :=
  h.rebook [] hfinishes.rabbit rfl (List.append_nil _).symm (.refl _) nofun id id

/-- A delivery that is taken comes from the front of the queue, and everything that stays
ready there has a higher tag. -/
theorem Orderly.takes {d : Delivery} (h : x.Orderly c) (hopen : x.state.Reading)
    (hstill : y.state.Reading) (hroom : x.state.held.length < c.concurrency)
    (hheld : y.state.held = x.state.held ++ [d]) (htaken : y.taken = x.taken ++ [d])
    (hended : y.ended = x.ended)
    (hnext : x.brokers.rabbit.next c.endpoint.queue = (some d, y.brokers.rabbit)) :
    y.Orderly c := by
  obtain ⟨q, hq, hs, hahead⟩ := h.reading hopen
  obtain ⟨rest, hready, hq', hd⟩ := Rabbit.Broker.next_of_some hq hnext
  have hchanges : Changes x.brokers.rabbit y.brokers.rabbit := by
    have hchanges := x.brokers.rabbit.changes_next c.endpoint.queue
    rwa [hnext] at hchanges
  have hw := hchanges.wellFormed h.wellFormed
  have hascending := h.wellFormed.ascending q (Rabbit.Broker.mem_queues_of_queue? hq).1
  rw [hready] at hahead hascending
  rw [List.pairwise_cons] at hascending
  -- what is known of all that was taken is shown of the new delivery alone
  have htakes : ∀ {P : Delivery → Prop}, (∀ d' ∈ x.taken, P d') → P d → ∀ d' ∈ y.taken, P d' := by
    intro P hold hnew d' hd'
    rw [htaken] at hd'
    rcases List.mem_append.mp hd' with hd' | hd'
    · exact hold d' hd'
    · exact List.mem_singleton.mp hd' ▸ hnew
  refine {
    wellFormed := hw
    ascending := ?ascending
    accounted := ?accounted
    out := htakes (fun d' hd' => hchanges.out (h.out d' hd')) (hw.out_of_unacked hd)
    gone := fun p hp => hchanges.gone (h.gone p (hended ▸ hp))
    room := ?room
    reading := fun _ => ⟨_, hq', hs, htakes
      (fun d' hd' d₁ hd₁ => hahead d' hd' d₁ (List.mem_cons_of_mem d hd₁)) hascending.1⟩
    unstarted := fun hs => ?unstarted
    single := fun hone => ?single }
  case ascending =>
    rw [htaken, List.pairwise_append]
    refine ⟨h.ascending, List.pairwise_singleton _ _, fun d₀ hd₀ d₁ hd₁ => ?_⟩
    rw [List.mem_singleton.mp hd₁]
    exact hahead d₀ hd₀ d List.mem_cons_self
  case accounted =>
    rw [htaken, hheld, hended, ← List.append_assoc]
    exact h.accounted.append_right [d]
  case room =>
    rw [hheld, List.length_append]
    exact hroom
  case unstarted =>
    rw [hs] at hstill
    exact hstill.elim
  case single =>
    rw [htaken, hheld, hended, h.single hone, List.append_assoc]

theorem Orderly.take (h : x.Orderly c) (stop : StopSignal) (number : Nat) :
    (x.take c stop number).Orderly c := by
  rcases x.take_cases c stop number with hsame | ⟨_, hclosed, hstate, hheld, htaken, hbrokers⟩ |
    ⟨d, hopen, hstill, hroom, hheld, htaken, hnext, _⟩
  · rw [hsame]
    exact h
  · -- without its stream the consumer has nothing to lose in the queue
    have hclosing : Orderly c { x with state := (x.take c stop number).state } :=
      h.rebook [] rfl rfl (List.append_nil _).symm (.of_eq hheld) nofun
        (fun hr => absurd hr hclosed) (fun hs => absurd hs hstate)
    have hdropped := hclosing.on (.rabbit (.dropStream c.endpoint.queue))
      (fun hr => absurd hr hclosed)
    exact hdropped.rebook [] (by rw [hbrokers]) htaken (List.append_nil _).symm
      (.refl _) nofun id id
  · exact h.takes hopen hstill hroom hheld htaken rfl hnext

theorem Orderly.turn (h : x.Orderly c) (stop : StopSignal) (number : Nat) :
    (x.turn c stop number).Orderly c := by
  by_cases hstarting : x.state = .starting
  · obtain ⟨hstate, hheld, htaken, hended, hbrokers, hok⟩ :=
      turn_of_starting (c := c) stop number hstarting
    have hon := h.on (.rabbit (.consume c.endpoint.queue))
      (fun hr => by rw [hstarting] at hr; exact hr.elim)
    rw [← hbrokers] at hon
    have hnothing : x.taken = [] := h.unstarted hstarting
    have hnone : x.ended.map (·.1) ++ x.state.held = [] :=
      List.nil_perm.mp (hnothing ▸ h.accounted)
    have hended' : (x.turn c stop number).ended.map (·.1) ++ (x.turn c stop number).state.held =
        [] := by
      rw [hended, hheld, List.append_nil]
      exact (List.append_eq_nil_iff.mp hnone).1
    rw [hnothing] at htaken
    refine { hon with
      ascending := by rw [htaken]; exact .nil
      accounted := by rw [htaken, hended']
      out := by rw [htaken]; nofun
      gone := by rw [hended]; exact hon.gone
      room := by rw [hheld]; exact Nat.zero_le _
      reading := fun hr => ?_
      unstarted := fun _ => htaken
      single := fun _ => by rw [htaken, hended'] }
    obtain ⟨q, hq, hs⟩ := Rabbit.Broker.consume_ok (hok hr)
    exact ⟨q, by rw [hbrokers]; exact hq, hs, by rw [htaken]; nofun⟩
  · obtain ⟨hstate, hreading, htaken, hcases⟩ := turn_cases (c := c) stop number hstarting
    have hbusy := h.take (c := c) stop number
    rcases hcases with ⟨hended, hheld, hdozes⟩ | ⟨d, result, b, hended, hheld, hfinishes, hbrokers⟩
    · exact hbusy.rebook [] hdozes.rabbit htaken (hended.trans (List.append_nil _).symm)
        hheld nofun hreading.mp (fun hs => absurd hs hstate)
    · -- the attempts leave the broker alone, the delivery is settled, and then it moves
      have hd : d ∈ (x.take c stop number).taken :=
        hbusy.accounted.mem_iff.mpr
          (List.mem_append_right _ (hheld.mem_iff.mp List.mem_cons_self))
      have htried := hbusy.finishes hfinishes
      have hsettled := htried.on (.settle c d result) fun _ => Event.not_draws_settle c d result _
      refine hsettled.rebook [(d, result)] (by rw [hbrokers]) htaken hended hheld ?_ hreading.mp
        fun hs => absurd hs hstate
      intro p hp
      rw [List.mem_singleton.mp hp]
      exact gone_settle htried.wellFormed (htried.out d hd)

theorem Runs.orderly {others : Event → Prop} (h : Runs c others x y) (hx : x.Orderly c) :
    y.Orderly c := by
  induction h with
  | start => exact hx
  | other _ event _ own ih => exact ih.on event own
  | turn _ stop number ih => exact ih.turn stop number

theorem Runs.trans {z : Situation} {others : Event → Prop} (h : Runs c others x y)
    (h' : Runs c others y z) : Runs c others x z := by
  induction h' with
  | start => exact h
  | other _ event allowed own ih => exact .other ih event allowed own
  | turn _ stop number ih => exact .turn ih stop number

/-! ## What the books say -/

theorem Orderly.unsettled_le (h : x.Orderly c) : x.unsettled.length ≤ x.state.held.length := by
  have hsettled : (x.ended.map (·.1)).filter
      (fun d => (x.brokers.rabbit.unacked? d.tag).isSome) = [] := by
    refine List.filter_eq_nil_iff.mpr fun d hd => ?_
    obtain ⟨p, hp, rfl⟩ := List.mem_map.mp hd
    simp [(h.gone p hp).unacked?]
  have hperm := h.accounted.filter fun d => (x.brokers.rabbit.unacked? d.tag).isSome
  rw [List.filter_append, hsettled, List.nil_append] at hperm
  exact hperm.length_eq ▸ List.length_filter_le _ _

theorem Orderly.sent_sublist (h : x.Orderly c) (hone : c.concurrency = 1) :
    x.sent.Sublist x.taken := by
  rw [h.single hone]
  exact (List.filter_sublist.map _).trans (List.sublist_append_left _ _)

/-- The consumer has taken the front of a line that begins like this one, and while it
reads, the rest of the line is what is ready in its queue. -/
def Follows (queue : String) (line : List Delivery) (x : Situation) : Prop :=
  ∃ arrived, line <+: arrived ∧ x.taken <+: arrived ∧
    (x.state.Reading → x.line queue = arrived)

variable {queue : String} {line : List Delivery}

theorem line_of_some {q : Rabbit.Queue} (hq : x.brokers.rabbit.queue? queue = some q) :
    x.line queue = x.taken ++ q.ready := by
  rw [Situation.line, hq]
  rfl

theorem Follows.congr (h : x.Follows queue line) (htaken : y.taken = x.taken)
    (hrabbit : y.brokers.rabbit = x.brokers.rabbit)
    (hreading : y.state.Reading → x.state.Reading) : y.Follows queue line := by
  obtain ⟨arrived, hline, hprefix, hready⟩ := h
  refine ⟨arrived, hline, htaken ▸ hprefix, fun hr => ?_⟩
  rw [← hready (hreading hr), Situation.line, Situation.line, htaken, hrabbit]

/-- What others put into the queue stands at the end of the line. -/
theorem Follows.on (h : x.Follows c.endpoint.queue line) (hx : x.Orderly c) (event : Event)
    (hown : x.state.Reading → ¬ event.Draws c.endpoint.queue) :
    ({ x with brokers := x.brokers.on event } : Situation).Follows c.endpoint.queue line := by
  obtain ⟨arrived, hline, hprefix, hready⟩ := h
  by_cases hr : x.state.Reading
  · obtain ⟨q, hq, hs, _⟩ := hx.reading hr
    obtain ⟨added, hadded⟩ := queue?_on_of_taken (hown hr) hq hs
    refine ⟨arrived ++ added, hline.trans (List.prefix_append _ _),
      hprefix.trans (List.prefix_append _ _), fun _ => ?_⟩
    rw [line_of_some (x := { x with brokers := x.brokers.on event }) hadded, ← hready hr,
      line_of_some hq, List.append_assoc]
  · exact ⟨arrived, hline, hprefix, fun hr' => absurd hr' hr⟩

theorem Follows.take (h : x.Follows c.endpoint.queue line) (hx : x.Orderly c)
    (stop : StopSignal) (number : Nat) :
    (x.take c stop number).Follows c.endpoint.queue line := by
  rcases x.take_cases c stop number with hsame | ⟨_, hclosed, _, _, htaken, _⟩ |
    ⟨d, hopen, _, _, _, htaken, hnext, _⟩
  · rw [hsame]
    exact h
  · obtain ⟨arrived, hline, hprefix, _⟩ := h
    exact ⟨arrived, hline, htaken ▸ hprefix, fun hr => absurd hr hclosed⟩
  · obtain ⟨arrived, hline, _, hready⟩ := h
    obtain ⟨q, hq, _⟩ := hx.reading hopen
    obtain ⟨rest, hfirst, hq', _⟩ := Rabbit.Broker.next_of_some hq hnext
    have hsplit : arrived = (x.take c stop number).taken ++ rest := by
      rw [← hready hopen, line_of_some hq, hfirst, htaken, List.append_assoc]
      rfl
    exact ⟨arrived, hline, hsplit ▸ List.prefix_append _ _,
      fun _ => (line_of_some hq').trans hsplit.symm⟩

theorem Follows.turn (h : x.Follows c.endpoint.queue line) (hx : x.Orderly c)
    (hstarting : x.state ≠ .starting) (stop : StopSignal) (number : Nat) :
    (x.turn c stop number).Follows c.endpoint.queue line := by
  obtain ⟨_, hreading, htaken, hcases⟩ := turn_cases (c := c) stop number hstarting
  have htook := h.take hx stop number
  rcases hcases with ⟨_, _, hdozes⟩ | ⟨d, result, b, _, _, hfinishes, hbrokers⟩
  · exact htook.congr htaken hdozes.rabbit hreading.mp
  · have htried : Orderly c { x.take c stop number with brokers := b } :=
      (hx.take stop number).rebook [] hfinishes.rabbit rfl (List.append_nil _).symm (.refl _)
        nofun id id
    have hfollows : Follows c.endpoint.queue line { x.take c stop number with brokers := b } :=
      htook.congr rfl hfinishes.rabbit id
    have hsettled := hfollows.on htried (.settle c d result)
      fun _ => Event.not_draws_settle c d result _
    exact hsettled.congr htaken (by rw [hbrokers]) hreading.mp

/-- From any moment at which a consumer reads, it goes on along the line. -/
theorem Runs.follows {others : Event → Prop} (h : Runs c others x y) (hx : x.Orderly c)
    (hreading : x.state.Reading) :
    y.state ≠ .starting ∧ y.Follows c.endpoint.queue (x.line c.endpoint.queue) := by
  induction h with
  | start =>
      refine ⟨fun hs => ?_, _, List.prefix_refl _, List.prefix_append _ _, fun _ => rfl⟩
      rw [hs] at hreading
      exact hreading
  | other before event _ own ih => exact ⟨ih.1, ih.2.on (before.orderly hx) event own⟩
  | turn before stop number ih =>
      exact ⟨(turn_cases stop number ih.1).1, ih.2.turn (before.orderly hx) ih.1 stop number⟩

/-! ## What arrives -/

theorem sent_append (x : Situation) (d : Delivery) (result : Except Failure Unit)
    (h : y.ended = x.ended ++ [(d, result)]) :
    y.sent = x.sent ++ if result.isOk then [d] else [] := by
  rw [sent, sent, h, List.filter_append, List.map_append]
  cases result <;> rfl

theorem sent_congr (h : y.ended = x.ended) : y.sent = x.sent := by
  rw [sent, sent, h]

theorem amazon_take (c : Consumer) (stop : StopSignal) (number : Nat) (x : Situation) :
    (x.take c stop number).brokers.amazon = x.brokers.amazon := by
  rcases x.take_cases c stop number with hsame | ⟨_, _, _, _, _, hbrokers⟩ |
    ⟨_, _, _, _, _, _, _, hamazon⟩
  · rw [hsame]
  · rw [hbrokers]
    rfl
  · exact hamazon

/-- In a turn one message at most arrives at the target. It is that of the delivery whose
last attempt was accepted, and it comes last. -/
theorem turn_arrives (c : Consumer) (stop : StopSignal) (number : Nat) (x : Situation) :
    (x.turn c stop number).sent = x.sent ∧ c.endpoint.target.Collects [] x.brokers.amazon
        (x.turn c stop number).brokers.amazon ∨
      ∃ d text, (x.turn c stop number).sent = x.sent ++ [d] ∧
        c.endpoint.chain.transform d.bodyText = .ok text ∧
        c.endpoint.target.Collects [text] x.brokers.amazon
          (x.turn c stop number).brokers.amazon ∧
        c.endpoint.target.EndsWith (x.turn c stop number).brokers.amazon text := by
  by_cases hstarting : x.state = .starting
  · obtain ⟨_, _, _, hended, hbrokers, _⟩ := turn_of_starting (c := c) stop number hstarting
    refine .inl ⟨sent_congr hended, ?_⟩
    rw [hbrokers]
    exact .refl _ _
  · obtain ⟨_, _, _, ⟨hended, _, hdozes⟩ | ⟨d, result, b, hended, _, hfinishes, hbrokers⟩⟩ :=
      turn_cases (c := c) stop number hstarting
    · exact .inl ⟨sent_congr hended, x.amazon_take c stop number ▸ hdozes.collects⟩
    · have hamazon : (x.turn c stop number).brokers.amazon = b.amazon := by
        rw [hbrokers]
        exact c.amazon_settle d result b
      have hsent := sent_append x d result hended
      obtain ⟨hkept, harrives⟩ := x.amazon_take c stop number ▸ hfinishes.collects
      rw [hamazon]
      cases result with
      | error failure => exact .inl ⟨hsent.trans (List.append_nil _), hkept⟩
      | ok =>
          obtain ⟨text, htext, harrived, hlast⟩ := harrives rfl
          exact .inr ⟨d, text, hsent, htext, harrived, hlast⟩

/-- As long as nobody deletes anything at the target, the messages of the deliveries that
were accepted arrive there one after the other. -/
theorem Runs.arrives {others : Event → Prop} (h : Runs c others x y)
    (hkeeps : ∀ event, others event → event.Keeps c.endpoint.target) :
    ∃ new texts, y.sent = x.sent ++ new ∧
      List.Forall₂ (fun (d : Delivery) text => c.endpoint.chain.transform d.bodyText = .ok text)
        new texts ∧
      c.endpoint.target.Collects texts x.brokers.amazon y.brokers.amazon := by
  induction h with
  | start => exact ⟨[], [], (List.append_nil _).symm, .nil, .refl _ _⟩
  | @other y _ event allowed _ ih =>
      obtain ⟨new, texts, hsent, htexts, harrived⟩ := ih
      refine ⟨new, texts, hsent, htexts, ?_⟩
      have hboth := harrived.trans ((hkeeps event allowed).collects y.brokers)
      rwa [List.append_nil] at hboth
  | @turn y _ stop number ih =>
      obtain ⟨new, texts, hsent, htexts, harrived⟩ := ih
      rcases y.turn_arrives c stop number with ⟨hsame, hcollects⟩ |
        ⟨d, text, hone, htext, hcollects, _⟩
      · have hboth := harrived.trans hcollects
        rw [List.append_nil] at hboth
        exact ⟨new, texts, hsame.trans hsent, htexts, hboth⟩
      · refine ⟨new ++ [d], texts ++ [text], ?_, ?_, harrived.trans hcollects⟩
        · rw [hone, hsent, List.append_assoc]
        · exact List.rel_append htexts (.cons htext .nil)

/-- At any moment of a run of a consumer, whatever others do and whenever it is told to
stop: it has no more unsettled deliveries than its concurrency allows, also in the middle
of a turn; it goes through its queue from the front, and takes each delivery once; what
it has taken it has handled to the end once, or it is busy with it; once it has come to
its end nothing that it took is unsettled; and with a concurrency of one the deliveries
that were accepted have arrived at the target in the order of the queue. -/
theorem runs_in_order {c : Consumer} {e : Endpoint} {settings : RabbitSettings}
    {policy : RetryPolicy} {others : Event → Prop} {b₀ : Brokers} {x y : Situation}
    (hc : c = { Consumer.ofEndpoint e settings with policy })
    (hreachable : b₀.rabbit.Reachable) (hx : Runs c others (begin b₀) x)
    (hy : Runs c others x y) :
    y.unsettled.length ≤ max settings.listener.concurrency 1 ∧
    (∀ stop number,
      (y.take c stop number).unsettled.length ≤ max settings.listener.concurrency 1) ∧
    (x.state.Reading → y.Follows e.queue (x.line e.queue)) ∧
    y.taken.Pairwise (fun d d' => d.tag < d'.tag) ∧
    y.taken.Perm (y.ended.map (·.1) ++ y.state.held) ∧
    (∀ result, y.state = .finished result →
      y.unsettled = [] ∧ y.taken.Perm (y.ended.map (·.1))) ∧
    (settings.listener.concurrency ≤ 1 → y.sent.Sublist y.taken ∧
      (∀ stop number d, (y.turn c stop number).sent = y.sent ++ [d] →
        ∃ text, e.chain.transform d.bodyText = .ok text ∧
          e.target.EndsWith (y.turn c stop number).brokers.amazon text) ∧
      ((∀ event, others event → event.Keeps e.target) → ∃ texts,
        List.Forall₂ (fun (d : Delivery) text => e.chain.transform d.bodyText = .ok text)
          y.sent texts ∧
        e.target.Collects texts b₀.amazon y.brokers.amazon)) := by
  have hconcurrency : c.concurrency = max settings.listener.concurrency 1 := by rw [hc]; rfl
  have hendpoint : c.endpoint = e := by rw [hc]; rfl
  have horderlyx := hx.orderly (orderly_begin c hreachable)
  have horderly := hy.orderly horderlyx
  have hrun := hx.trans hy
  rw [← hconcurrency, ← hendpoint]
  refine ⟨horderly.unsettled_le.trans horderly.room, fun stop number => ?_,
    fun hr => (hy.follows horderlyx hr).2, horderly.ascending, horderly.accounted, ?_, ?_⟩
  · have hbusy := horderly.take stop number
    exact hbusy.unsettled_le.trans hbusy.room
  · intro result hfinished
    have hheld : y.state.held = [] := by rw [hfinished]; rfl
    have hle := horderly.unsettled_le
    have haccounted := horderly.accounted
    rw [hheld] at hle haccounted
    rw [List.append_nil] at haccounted
    exact ⟨List.length_eq_zero_iff.mp (Nat.le_zero.mp hle), haccounted⟩
  · intro hone
    have hone : c.concurrency = 1 := hconcurrency.trans (Nat.max_eq_right hone)
    refine ⟨horderly.sent_sublist hone, fun stop number d hsent => ?_, fun hkeeps => ?_⟩
    · rcases y.turn_arrives c stop number with ⟨hsame, _⟩ | ⟨d', text, hd, htext, _, hlast⟩
      · rw [hsame] at hsent
        simp at hsent
      · rw [hd] at hsent
        obtain ⟨_, hlist⟩ := List.append_inj' hsent rfl
        injection hlist with hlist
        exact ⟨text, hlist ▸ htext, hlast⟩
    · obtain ⟨new, texts, hsent, htexts, harrived⟩ := hrun.arrives hkeeps
      obtain rfl : y.sent = new := hsent
      exact ⟨texts, htexts, harrived⟩

/-- A consumer with a delay between two attempts. Its settings ask for no concurrency,
so it handles one delivery at a time. -/
def patientConsumer : Consumer :=
  { Consumer.ofEndpoint Consumer.ordersConsumer.endpoint { listener := ⟨0⟩ } with
    policy := .standard }

def twoOrders : Brokers where
  rabbit := (Consumer.ordersMade.2.rabbit.after (.send "orders" "created" "[1]".toUTF8)).after
    (.send "orders" "created" "[2]".toUTF8)
  amazon := Consumer.ordersMade.2.amazon

/-- The first attempt at the first order fails, and the second order waits until the
first one has been sent. -/
theorem orders_in_order :
    ∃ x y, Runs patientConsumer (·.Keeps (.queue "out")) (begin twoOrders) x ∧
      Runs patientConsumer (·.Keeps (.queue "out")) x y ∧
      (x.line "orders-q").map (·.tag) = [1, 2] ∧ y.Follows "orders-q" (x.line "orders-q") ∧
      y.unsettled = [] ∧ y.sent.map (·.tag) = [1, 2] ∧ y.sent.Sublist y.taken ∧
      y.brokers.amazon.bodies "out" = ["[1]", "[2]"] := by
  have hreachable : twoOrders.rabbit.Reachable := by
    obtain ⟨_, hcourse⟩ := Endpoint.declares_ofBridge [] 0 true Consumer.ordersBridge
      { amazon := { queues := [("out", [])] } }
    have hmade : Consumer.ordersMade.2.rabbit.Reachable := ⟨1024, hcourse.reaches⟩
    exact (hmade.tail (.send "orders" "created" "[1]".toUTF8)).tail
      (.send "orders" "created" "[2]".toUTF8)
  have hfailing : (Event.amazon (.failNext (.amazon "throttled" none))).Keeps (.queue "out") := by
    rintro op rfl name m _ htakes
    exact htakes
  have hx : Runs patientConsumer (·.Keeps (.queue "out")) (begin twoOrders) _ :=
    .turn .start .none 0
  have hfails : Runs patientConsumer (·.Keeps (.queue "out"))
      ((begin twoOrders).turn patientConsumer .none 0) _ :=
    .turn (.other .start _ hfailing fun _ ⟨_, horders, _⟩ => horders) .none 1
  have hsends : Runs patientConsumer (·.Keeps (.queue "out"))
      ((begin twoOrders).turn patientConsumer .none 0) _ :=
    .turn (.turn (.other hfails (.clock 1000) nofun fun _ ⟨_, horders, _⟩ => horders) .none 2)
      .none 3
  have hy := hsends.turn .requested 4
  obtain ⟨_, _, hfollows, _, _, _, hone⟩ := runs_in_order rfl hreachable hx hy
  refine ⟨_, _, hx, hy, by decide +kernel, hfollows rfl, ?_, by decide +kernel,
    (hone (by decide)).1, by decide +kernel⟩
  rw [← List.length_eq_zero_iff]
  decide +kernel

end Situation

end MessageBridge
