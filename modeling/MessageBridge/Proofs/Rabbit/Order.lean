import MessageBridge.Proofs.Rabbit.Streams
import MessageBridge.Proofs.Rabbit.Tags

/-!
# A queue is read in its order

As long as the stream of a queue is taken, what is ready in the queue changes in two
ways only. Whoever holds the stream takes the first delivery, and everybody else puts
deliveries behind the last one. Nobody consumes the queue again, and nobody empties it.

A delivery that was taken is out of all queues for good. It is `Out`: new deliveries
get new tags, so nothing that is ready ever has its tag. Settling it leaves its tag
`Gone`, also when the broker refuses because it does not know the tag any more.
-/

namespace MessageBridge.Rabbit

/-- The operation is for the holder of the stream of the queue alone. -/
def Operation.Draws (queue : String) : Operation → Prop
  | .next name | .dropStream name => name = queue
  | _ => False

namespace Broker

variable {b b' : Broker} {queue : String} {q : Queue}

/-! ## What is ready while the stream is taken -/

theorem queue?_route_of_taken (exchange routingKey : String) (body : ByteArray)
    (hq : b.queue? queue = some q) (hs : q.stream = .taken) :
    ∃ added, (b.route exchange routingKey body).queue? queue =
      some { q with ready := q.ready ++ added } := by
  obtain ⟨tag, _, hrouted⟩ := b.queue?_route exchange routingKey body queue
  rw [hrouted, hq, Option.map_some]
  split
  · refine ⟨_, congrArg some (Queue.push_of_open _ ?_)⟩
    rw [hs]
    exact Stream.noConfusion
  · exact ⟨[], by rw [List.append_nil]⟩

theorem queue?_send_of_taken (exchange routingKey : String) (body : ByteArray)
    (hq : b.queue? queue = some q) (hs : q.stream = .taken) :
    ∃ added, (b.send exchange routingKey body).2.queue? queue =
      some { q with ready := q.ready ++ added } := by
  unfold send
  split
  · exact ⟨[], by rw [List.append_nil]; exact hq⟩
  · split
    · exact ⟨[], by rw [List.append_nil]; exact hq⟩
    · exact queue?_route_of_taken exchange routingKey body hq hs

theorem queue?_reject_of_taken (tag : Nat) (requeue : Bool)
    (hq : b.queue? queue = some q) (hs : q.stream = .taken) :
    ∃ added, (b.reject tag requeue).2.queue? queue =
      some { q with ready := q.ready ++ added } := by
  have hsettled : (b.settle tag).queue? queue = some q := hq
  have hsame : some q = some { q with ready := q.ready ++ [] } := by rw [List.append_nil]
  unfold reject
  split
  · exact ⟨[], hq.trans hsame⟩
  · next d _ =>
      cases requeue with
      | true =>
          simp only [if_true]
          rw [queue?_enqueue, hsettled, Option.map_some]
          split
          · refine ⟨_, congrArg some (Queue.push_of_open _ ?_)⟩
            rw [hs]
            exact Stream.noConfusion
          · exact ⟨[], hsame⟩
      | false =>
          simp only [Bool.false_eq_true, if_false, deadLetter]
          split
          · exact ⟨[], hsettled.trans hsame⟩
          · exact queue?_route_of_taken _ _ _ hsettled hs

/-- Nobody but the holder of the stream takes anything out of a queue. -/
theorem queue?_after_of_taken {op : Operation} (h : ¬ op.Draws queue)
    (hq : b.queue? queue = some q) (hs : q.stream = .taken) :
    ∃ added, (b.after op).queue? queue = some { q with ready := q.ready ++ added } := by
  have hsame : ∀ {b' : Broker}, b'.queue? queue = some q →
      ∃ added, b'.queue? queue = some { q with ready := q.ready ++ added } :=
    fun hq' => ⟨[], by rw [List.append_nil]; exact hq'⟩
  have hother : ∀ {b' : Broker} {name : String} {f : Queue → Queue}, queue ≠ name →
      b'.queue? queue = (b.queue? queue).map (fun q => if queue = name then f q else q) →
      ∃ added, b'.queue? queue = some { q with ready := q.ready ++ added } := by
    intro b' name f hname hq'
    exact hsame (by rw [hq', hq, Option.map_some, if_neg hname])
  cases op with
  | declareExchange e =>
      refine hsame ?_
      show (b.declareExchange e).2.queue? queue = some q
      unfold declareExchange
      split
      · split <;> exact hq
      · exact hq
  | declareQueue spec =>
      refine hsame ?_
      show (b.declareQueue spec).2.queue? queue = some q
      unfold declareQueue
      split
      · split <;> exact hq
      · show (b.queues ++ [_]).find? _ = some q
        rw [List.find?_append, show b.queues.find? _ = some q from hq]
        rfl
  | declareBinding x =>
      refine hsame ?_
      show (b.declareBinding x).2.queue? queue = some q
      unfold declareBinding
      split
      · exact hq
      · split
        · exact hq
        · split <;> exact hq
  | failNext failure => exact hsame hq
  | send exchange routingKey body => exact queue?_send_of_taken exchange routingKey body hq hs
  | consume name =>
      show ∃ added, (b.consume name).2.queue? queue = _
      by_cases hname : queue = name
      · subst hname
        refine hsame ?_
        unfold consume
        simp only [hq, hs]
      · unfold consume
        split
        · exact hsame hq
        · split
          · exact hother hname (queue?_taken b name queue)
          · exact hsame hq
          · exact hsame hq
  | next name =>
      have hname : queue ≠ name := fun heq => h heq.symm
      show ∃ added, (b.next name).2.queue? queue = _
      unfold next
      split
      · exact hsame hq
      · split
        · exact hsame hq
        · next d rest _ => exact hother hname (queue?_handedOut b name rest _ queue)
  | dropStream name =>
      have hname : queue ≠ name := fun heq => h heq.symm
      exact hother hname (queue?_emptied b name true queue)
  | takeReady name =>
      show ∃ added, (b.takeReady name).2.queue? queue = _
      unfold takeReady
      split
      · exact hsame hq
      · next q' hq' =>
          split
          · next hidle =>
              refine hother (fun hname => ?_) (queue?_emptied b name false queue)
              rw [← hname, hq] at hq'
              cases hq'
              rw [hs] at hidle
              cases hidle
          · exact hsame hq
  | ack tag =>
      refine hsame ?_
      show (b.ack tag).2.queue? queue = some q
      unfold ack
      split <;> exact hq
  | reject tag requeue => exact queue?_reject_of_taken tag requeue hq hs

/-- Who consumes a queue successfully has taken its stream. -/
theorem consume_ok (h : (b.consume queue).1 = .ok ()) :
    ∃ q, (b.consume queue).2.queue? queue = some q ∧ q.stream = .taken := by
  unfold consume at h ⊢
  split
  · next hnone =>
      rw [hnone] at h
      cases h
  · next q hq =>
      rw [hq] at h
      split
      · refine ⟨{ q with stream := .taken }, ?_, rfl⟩
        rw [queue?_taken, hq, Option.map_some, if_pos rfl]
      · next hs =>
          simp only [hs] at h
          cases h
      · next hs =>
          simp only [hs] at h
          cases h

/-- Whoever gets a delivery from the stream gets the first one that is ready. -/
theorem next_of_some {d : Delivery} (hq : b.queue? queue = some q)
    (h : b.next queue = (some d, b')) :
    ∃ rest, q.ready = d :: rest ∧ b'.queue? queue = some { q with ready := rest } ∧
      d ∈ b'.unacked := by
  unfold next at h
  simp only [hq] at h
  split at h
  · cases h
  · next first rest hready =>
      cases h
      refine ⟨rest, hready, ?_, List.mem_append_right _ (List.mem_singleton_self d)⟩
      rw [queue?_handedOut, hq, Option.map_some, if_pos rfl]

theorem next_of_none (h : (b.next queue).1 = none) : (b.next queue).2 = b := by
  unfold next at h ⊢
  split
  · rfl
  · next q hq =>
      rw [hq] at h
      split
      · rfl
      · next d rest hready =>
          simp only [hready] at h
          cases h

/-! ## Tags that are out of the queues -/

theorem Changes.lastTag_le (h : Changes b b') : b.lastTag ≤ b'.lastTag := by
  induction h with
  | refl => exact Nat.le_refl _
  | tail _ step ih => exact Nat.le_trans ih step.has.1

/-- What is ready was ready before, or it has a new tag. -/
theorem Changes.ready_new (h : Changes b b') {d : Delivery} (hd : b'.IsReady queue d) :
    b.IsReady queue d ∨ b.lastTag < d.tag := by
  induction h with
  | refl => exact .inl hd
  | tail hchanges step ih =>
      obtain ⟨_, new, hnew, hready, _⟩ := step.has
      rcases hready queue d hd with hd | ⟨rfl, _, _⟩
      · exact ih hd
      · exact .inr (Nat.lt_of_le_of_lt (Changes.lastTag_le hchanges) hnew)

/-- The tag has been drawn, and nothing that is ready has it. -/
structure Out (b : Broker) (tag : Nat) : Prop where
  drawn : tag ≤ b.lastTag
  unready : ∀ queue d, b.IsReady queue d → d.tag ≠ tag

theorem Changes.out {tag : Nat} (h : Changes b b') (ho : b.Out tag) : b'.Out tag where
  drawn := Nat.le_trans ho.drawn (Changes.lastTag_le h)
  unready := by
    intro queue d hd
    have := ho.drawn
    rcases Changes.ready_new h hd with hd | hnew
    · exact ho.unready queue d hd
    · omega

theorem WellFormed.out_of_unacked {d : Delivery} (hw : b.WellFormed) (hd : d ∈ b.unacked) :
    b.Out d.tag where
  drawn := hw.drawn d (List.mem_append_right _ hd)
  unready := fun _ _ hx => hw.tag_ne_of_ready hd hx

theorem Out.gone {tag : Nat} (ho : b.Out tag) (hu : b.unacked? tag = none) : b.Gone tag where
  drawn := ho.drawn
  unused := by
    rintro d (⟨queue, hd⟩ | hd)
    · exact ho.unready queue d hd
    · simpa using List.find?_eq_none.mp hu d hd

/-- A tag that is out of the queues is gone when it has been settled, whether the
broker knows it or not. -/
theorem WellFormed.gone_of_out {tag : Nat} (hw : b.WellFormed) (ho : b.Out tag)
    (requeue : Bool) : (b.ack tag).2.Gone tag ∧ (b.reject tag requeue).2.Gone tag := by
  cases hu : b.unacked? tag with
  | none =>
      have hgone := ho.gone hu
      rw [(hgone.refuses requeue).1, (hgone.refuses requeue).2]
      exact ⟨hgone, hgone⟩
  | some d =>
      have hack : b.ack tag = (.ok (), (b.ack tag).2) := by
        unfold ack
        rw [hu]
      have hreject : b.reject tag requeue = (.ok (), (b.reject tag requeue).2) := by
        unfold reject
        rw [hu]
        cases requeue <;> rfl
      exact ⟨Settles.gone (.acked hack) hw, Settles.gone (.rejected requeue hreject) hw⟩

end Broker

end MessageBridge.Rabbit
