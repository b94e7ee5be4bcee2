import MessageBridge.Proofs.Rabbit.Standing

/-!
# What a rabbit broker lets go of

Hardly anything takes a delivery out of a broker. Declarations, publications and
taking a stream lose nothing that is ready and nothing that is unsettled: what
they add comes behind what is there. So of all operations only three have to be
looked at closely. The next delivery of a queue becomes unsettled, a delivery
that is settled goes, and with a stream goes all that is ready in its queue.
-/

namespace MessageBridge.Rabbit.Broker

/-- What is ready or unsettled in the first broker is so in the second one. -/
structure Retains (b b' : Broker) : Prop where
  ready : ∀ queue d, b.IsReady queue d → b'.IsReady queue d
  unacked : ∀ d ∈ b.unacked, d ∈ b'.unacked

theorem Retains.refl (b : Broker) : Retains b b :=
  ⟨fun _ _ h => h, fun _ h => h⟩

theorem Retains.trans {a b c : Broker} (hab : Retains a b) (hbc : Retains b c) : Retains a c :=
  ⟨fun queue d h => hbc.ready queue d (hab.ready queue d h),
    fun d h => hbc.unacked d (hab.unacked d h)⟩

/-- Queues may be changed one by one, as long as each of them keeps what is ready. -/
theorem Retains.of_map {b b' : Broker} (f : String → Queue → Queue)
    (hq : ∀ name, b'.queue? name = (b.queue? name).map (f name))
    (hf : ∀ name q, ∀ d ∈ q.ready, d ∈ (f name q).ready)
    (hu : b'.unacked = b.unacked) : Retains b b' where
  ready := by
    rintro queue d ⟨q, h, hd⟩
    exact (isReady_iff_of_map hq).mpr ⟨q, h, hf queue q d hd⟩
  unacked := fun d h => hu ▸ h

/-! ## Operations that lose nothing -/

theorem retains_declareExchange (b : Broker) (e : Exchange) :
    Retains b (b.declareExchange e).2 := by
  unfold declareExchange
  split
  · split <;> exact .refl b
  · exact ⟨fun _ _ h => h, fun _ h => h⟩

theorem retains_declareQueue (b : Broker) (spec : QueueSpec) :
    Retains b (b.declareQueue spec).2 := by
  unfold declareQueue
  split
  · split <;> exact .refl b
  · refine ⟨?_, fun _ h => h⟩
    rintro queue d ⟨q, hq, hd⟩
    refine ⟨q, ?_, hd⟩
    unfold queue? at hq ⊢
    rw [List.find?_append, hq]
    rfl

theorem retains_declareBinding (b : Broker) (x : Binding) :
    Retains b (b.declareBinding x).2 := by
  unfold declareBinding
  split
  · exact .refl b
  · split
    · exact .refl b
    · split
      · exact .refl b
      · exact ⟨fun _ _ h => h, fun _ h => h⟩

theorem retains_enqueue (b : Broker) (queue exchange routingKey : String) (body : ByteArray)
    (redelivered : Bool) :
    Retains b (b.enqueue queue exchange routingKey body redelivered) := by
  refine .of_map _ (queue?_enqueue b queue exchange routingKey body redelivered) ?_
    (unacked_enqueue ..)
  intro name q d hd
  split
  · exact Queue.mem_push_of_mem _ hd
  · exact hd

theorem retains_route (b : Broker) (exchange routingKey : String) (body : ByteArray) :
    Retains b (b.route exchange routingKey body) := by
  unfold route
  generalize b.targets exchange routingKey = queues
  induction queues generalizing b with
  | nil => exact .refl b
  | cons queue rest ih =>
      exact (retains_enqueue b queue exchange routingKey body false).trans (ih _)

theorem retains_send (b : Broker) (exchange routingKey : String) (body : ByteArray) :
    Retains b (b.send exchange routingKey body).2 := by
  unfold send
  split
  · exact ⟨fun _ _ h => h, fun _ h => h⟩
  · split
    · exact .refl b
    · have hroute := retains_route b exchange routingKey body
      exact ⟨hroute.ready, hroute.unacked⟩

theorem retains_consume (b : Broker) (queue : String) : Retains b (b.consume queue).2 := by
  unfold consume
  split
  · exact .refl b
  · split
    · refine .of_map _ (queue?_taken b queue) ?_ rfl
      intro name q d hd
      split <;> exact hd
    · exact .refl b
    · exact .refl b

theorem retains_deadLetter (b : Broker) (d : Delivery) : Retains b (b.deadLetter d) := by
  unfold deadLetter
  simp only []
  split
  · exact .refl b
  · exact retains_route _ _ _ _

/-! ## Operations that let go of something -/

/-- Handing out a delivery makes it unsettled and loses none. -/
theorem handedOut_or_ready {b : Broker} {name : String} {d : Delivery} (queue : String)
    (h : b.IsReady name d) :
    (b.next queue).2.IsReady name d ∨ (name = queue ∧ d ∈ (b.next queue).2.unacked) := by
  obtain ⟨q, hq, hd⟩ := h
  unfold next
  split
  · exact Or.inl ⟨q, hq, hd⟩
  · next q' hq' =>
      split
      · exact Or.inl ⟨q, hq, hd⟩
      · next d' rest hr =>
          have hview := queue?_handedOut b queue rest (b.unacked ++ [d'])
          by_cases hn : name = queue
          · subst hn
            rw [hq] at hq'
            injection hq' with hq'
            subst hq'
            rw [hr] at hd
            rcases List.mem_cons.mp hd with rfl | hd
            · exact Or.inr ⟨rfl, List.mem_append_right _ (List.mem_singleton_self _)⟩
            · refine Or.inl ((isReady_iff_of_map hview).mpr ⟨q, hq, ?_⟩)
              rw [if_pos rfl]
              exact hd
          · refine Or.inl ((isReady_iff_of_map hview).mpr ⟨q, hq, ?_⟩)
            rw [if_neg hn]
            exact hd

theorem unacked_next {b : Broker} {d : Delivery} (queue : String) (h : d ∈ b.unacked) :
    d ∈ (b.next queue).2.unacked := by
  unfold next
  split
  · exact h
  · split
    · exact h
    · exact List.mem_append_left _ h

theorem ready_of_next {b : Broker} {queue : String} {d : Delivery}
    (h : (b.next queue).1 = some d) : b.IsReady queue d := by
  unfold next at h
  split at h
  · cases h
  · next q hq =>
      split at h
      · cases h
      · next d' rest hr =>
          injection h with h
          refine ⟨q, hq, ?_⟩
          rw [hr, ← h]
          exact List.mem_cons_self

/-- Another queue does not mind that a stream is dropped. -/
theorem ready_dropStream {b : Broker} {name queue : String} {d : Delivery}
    (hne : name ≠ queue) (h : b.IsReady name d) : (b.dropStream queue).IsReady name d := by
  obtain ⟨q, hq, hd⟩ := h
  refine (isReady_iff_of_map (queue?_emptied b queue true)).mpr ⟨q, hq, ?_⟩
  rw [if_neg hne]
  exact hd

theorem retains_of_settled {b b' : Broker} {tag : Nat} (h : Retains (b.settle tag) b') :
    (∀ queue d, b.IsReady queue d → b'.IsReady queue d) ∧
      ∀ d ∈ b.unacked, d.tag ≠ tag → d ∈ b'.unacked := by
  refine ⟨fun queue d hd => h.ready queue d hd, fun d hd htag => h.unacked d ?_⟩
  exact List.mem_filter.mpr ⟨hd, by simpa using htag⟩

/-- Settling lets go of nothing but the delivery that it settles. -/
theorem retains_ack (b : Broker) (tag : Nat) :
    (∀ queue d, b.IsReady queue d → (b.ack tag).2.IsReady queue d) ∧
      ∀ d ∈ b.unacked, d.tag ≠ tag → d ∈ (b.ack tag).2.unacked := by
  unfold ack
  split
  · exact ⟨fun _ _ h => h, fun _ h _ => h⟩
  · exact retains_of_settled (.refl _)

theorem retains_reject (b : Broker) (tag : Nat) :
    (∀ queue d, b.IsReady queue d → (b.reject tag false).2.IsReady queue d) ∧
      ∀ d ∈ b.unacked, d.tag ≠ tag → d ∈ (b.reject tag false).2.unacked := by
  unfold reject
  split
  · exact ⟨fun _ _ h => h, fun _ h _ => h⟩
  · exact retains_of_settled (retains_deadLetter _ _)

end MessageBridge.Rabbit.Broker
