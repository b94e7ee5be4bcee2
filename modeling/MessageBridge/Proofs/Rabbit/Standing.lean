import MessageBridge.Proofs.Rabbit.Operations

/-!
# What stands on a rabbit broker once it is there

Two things are stable under every operation, and most theorems about bridges
rest on them.

Declarations stay. An exchange or a queue is never declared anew with other
properties, a binding is never taken back, and a stream that has been dropped
stays dropped. `Keeps` says so of two brokers, and every reached broker keeps.

Tags are drawn once. In a sound broker a tag names one delivery only, among all
that are ready anywhere or unsettled, and a ready delivery names the queue it is
ready in. `Knows` is the same for a single delivery that somebody holds on to:
whatever the broker still has under its tag is this very delivery. That is
stable even when the broker has long settled it, because a new delivery gets a
tag that was never drawn.
-/

namespace MessageBridge.Rabbit

namespace Broker

/-! ## The queues after a change -/

theorem queue?_modifyQueue {f : Queue → Queue} (hf : ∀ q, (f q).spec = q.spec)
    (b : Broker) (queue name : String) :
    (b.modifyQueue queue f).queue? name =
      (b.queue? name).map fun q => if name = queue then f q else q := by
  unfold modifyQueue queue?
  simp only []
  induction b.queues with
  | nil => rfl
  | cons q qs ih =>
      simp only [List.map_cons, List.find?_cons]
      by_cases hq : q.spec.name = queue
      · rw [if_pos hq, hf, hq]
        by_cases hn : queue = name
        · simp [hn]
        · simp only [hn, decide_false, ih]
      · rw [if_neg hq]
        by_cases hn : q.spec.name = name
        · have hne : name ≠ queue := fun h => hq (hn.trans h)
          simp [hn, hne]
        · simp only [hn, decide_false, ih]

theorem queue?_taken (b : Broker) (queue name : String) :
    (b.modifyQueue queue fun q => { q with stream := .taken }).queue? name =
      (b.queue? name).map fun q => if name = queue then { q with stream := .taken } else q :=
  queue?_modifyQueue (fun _ => by rfl) b queue name

theorem queue?_handedOut (b : Broker) (queue : String) (rest unacked : List Delivery)
    (name : String) :
    Broker.queue? { b.modifyQueue queue fun q => { q with ready := rest } with unacked } name =
      (b.queue? name).map fun q => if name = queue then { q with ready := rest } else q :=
  queue?_modifyQueue (fun _ => by rfl) b queue name

theorem queue?_emptied (b : Broker) (queue : String) (dropped : Bool) (name : String) :
    (b.modifyQueue queue fun q =>
        { q with ready := [], stream := if dropped then .dropped else q.stream }).queue? name =
      (b.queue? name).map fun q =>
        if name = queue then
          { q with ready := [], stream := if dropped then .dropped else q.stream }
        else q :=
  queue?_modifyQueue (fun _ => by rfl) b queue name

/-- The delivery that is put into a queue next. -/
def newDelivery (b : Broker) (queue exchange routingKey : String) (body : ByteArray)
    (redelivered : Bool) : Delivery :=
  ⟨b.lastTag + 1, exchange, routingKey, queue, body, redelivered⟩

theorem enqueue_of_none {b : Broker} {queue : String} (h : b.queue? queue = none)
    (exchange routingKey : String) (body : ByteArray) (redelivered : Bool) :
    b.enqueue queue exchange routingKey body redelivered = b := by
  unfold enqueue
  rw [h]
  rfl

theorem enqueue_of_some {b : Broker} {queue : String} {q : Queue}
    (h : b.queue? queue = some q) (exchange routingKey : String) (body : ByteArray)
    (redelivered : Bool) :
    b.enqueue queue exchange routingKey body redelivered =
      { b.modifyQueue queue
          (·.push (b.newDelivery queue exchange routingKey body redelivered)) with
        lastTag := b.lastTag + 1 } := by
  unfold enqueue
  rw [h]
  rfl

theorem queue?_enqueue (b : Broker) (queue exchange routingKey : String) (body : ByteArray)
    (redelivered : Bool) (name : String) :
    (b.enqueue queue exchange routingKey body redelivered).queue? name =
      (b.queue? name).map fun q =>
        if name = queue then q.push (b.newDelivery queue exchange routingKey body redelivered)
        else q := by
  cases h : b.queue? queue with
  | none =>
      rw [enqueue_of_none h]
      by_cases hn : name = queue
      · rw [hn, h]; rfl
      · simp [hn]
  | some q =>
      rw [enqueue_of_some h]
      exact queue?_modifyQueue (fun _ => Queue.push_spec _ _) b queue name

theorem lastTag_enqueue_le (b : Broker) (queue exchange routingKey : String)
    (body : ByteArray) (redelivered : Bool) :
    b.lastTag ≤ (b.enqueue queue exchange routingKey body redelivered).lastTag := by
  unfold enqueue
  split
  · exact Nat.le_refl _
  · exact Nat.le_succ _

@[simp] theorem exchanges_enqueue (b : Broker) (queue exchange routingKey : String)
    (body : ByteArray) (redelivered : Bool) :
    (b.enqueue queue exchange routingKey body redelivered).exchanges = b.exchanges := by
  unfold enqueue
  split <;> rfl

@[simp] theorem bindings_enqueue (b : Broker) (queue exchange routingKey : String)
    (body : ByteArray) (redelivered : Bool) :
    (b.enqueue queue exchange routingKey body redelivered).bindings = b.bindings := by
  unfold enqueue
  split <;> rfl

@[simp] theorem unacked_enqueue (b : Broker) (queue exchange routingKey : String)
    (body : ByteArray) (redelivered : Bool) :
    (b.enqueue queue exchange routingKey body redelivered).unacked = b.unacked := by
  unfold enqueue
  split <;> rfl

/-! ## Declarations stay -/

/-- Whatever is declared in the first broker is declared in the second one, and
the streams dropped there are dropped here. -/
structure Keeps (b b' : Broker) : Prop where
  exchange : ∀ name e, b.exchange? name = some e → b'.exchange? name = some e
  queue : ∀ name q, b.queue? name = some q →
    ∃ q', b'.queue? name = some q' ∧ q'.spec = q.spec ∧
      (q.stream = .dropped → q'.stream = .dropped)
  binding : ∀ x ∈ b.bindings, x ∈ b'.bindings

theorem Keeps.refl (b : Broker) : Keeps b b :=
  ⟨fun _ _ h => h, fun _ q h => ⟨q, h, rfl, id⟩, fun _ h => h⟩

theorem Keeps.trans {a b c : Broker} (hab : Keeps a b) (hbc : Keeps b c) : Keeps a c where
  exchange := fun name e h => hbc.exchange name e (hab.exchange name e h)
  queue := by
    intro name q h
    obtain ⟨q', h', hspec', hdrop'⟩ := hab.queue name q h
    obtain ⟨q'', h'', hspec'', hdrop''⟩ := hbc.queue name q' h'
    exact ⟨q'', h'', hspec''.trans hspec', fun hd => hdrop'' (hdrop' hd)⟩
  binding := fun x h => hbc.binding x (hab.binding x h)

/-- A change that leaves the declarations alone and acts on the queues one by one
keeps, as long as it undoes no dropping. -/
theorem Keeps.of_map {b b' : Broker} (f : String → Queue → Queue)
    (hx : b'.exchanges = b.exchanges) (hb : b'.bindings = b.bindings)
    (hq : ∀ name, b'.queue? name = (b.queue? name).map (f name))
    (hspec : ∀ name q, (f name q).spec = q.spec)
    (hdrop : ∀ name q, q.stream = .dropped → (f name q).stream = .dropped) :
    Keeps b b' where
  exchange := by
    intro name e h
    unfold exchange? at h ⊢
    rw [hx]
    exact h
  queue := by
    intro name q h
    refine ⟨f name q, ?_, hspec name q, hdrop name q⟩
    rw [hq, h]
    rfl
  binding := by
    intro x h
    rw [hb]
    exact h

theorem Keeps.of_change {b b' : Broker} (h : Change b b') : Keeps b b' := by
  cases h with
  | noted => exact ⟨fun _ _ h => h, fun _ q h => ⟨q, h, rfl, id⟩, fun _ h => h⟩
  | newExchange e _ =>
      refine ⟨?_, fun _ q h => ⟨q, h, rfl, id⟩, fun _ h => h⟩
      intro name e' h
      unfold exchange? at h ⊢
      rw [List.find?_append, h]
      rfl
  | newQueue spec _ =>
      refine ⟨fun _ _ h => h, ?_, fun _ h => h⟩
      intro name q h
      refine ⟨q, ?_, rfl, id⟩
      unfold queue? at h ⊢
      rw [List.find?_append, h]
      rfl
  | newBinding x _ _ _ =>
      exact ⟨fun _ _ h => h, fun _ q h => ⟨q, h, rfl, id⟩,
        fun _ h => List.mem_append_left _ h⟩
  | enqueued queue exchange routingKey body redelivered =>
      refine .of_map _ (exchanges_enqueue ..) (bindings_enqueue ..)
        (queue?_enqueue b queue exchange routingKey body redelivered) ?_ ?_
      · intro name q
        split
        · exact Queue.push_spec _ _
        · rfl
      · intro name q hd
        split
        · rw [Queue.push_stream]; exact hd
        · exact hd
  | settled tag => exact ⟨fun _ _ h => h, fun _ q h => ⟨q, h, rfl, id⟩, fun _ h => h⟩
  | taken queue q hq hs =>
      refine ⟨fun _ _ h => h, ?_, fun _ h => h⟩
      intro name q₁ h
      refine ⟨_, by rw [queue?_taken, h]; rfl, ?_, ?_⟩
      · split <;> rfl
      · intro hd
        by_cases hn : name = queue
        · subst hn
          rw [hq] at h
          injection h with h
          rw [← h, hs] at hd
          cases hd
        · simp only [if_neg hn]
          exact hd
  | handedOut queue q d rest hq hr =>
      refine .of_map _ rfl rfl (queue?_handedOut b queue rest _) ?_ ?_
      · intro name q
        split <;> rfl
      · intro name q hd
        split <;> exact hd
  | emptied queue dropped =>
      refine .of_map _ rfl rfl (queue?_emptied b queue dropped) ?_ ?_
      · intro name q
        split <;> rfl
      · intro name q hd
        split
        · cases dropped with
          | true => rfl
          | false => exact hd
        · exact hd

theorem Keeps.of_changes {b b' : Broker} (h : Changes b b') : Keeps b b' := by
  induction h with
  | refl => exact .refl b
  | tail _ step ih => exact ih.trans (.of_change step)

theorem Reaches.keeps {b b' : Broker} (h : Reaches b b') : Keeps b b' :=
  .of_changes h.changes

/-! ## Tags name deliveries -/

/-- The delivery is ready in the queue of this name. -/
def IsReady (b : Broker) (queue : String) (d : Delivery) : Prop :=
  ∃ q, b.queue? queue = some q ∧ d ∈ q.ready

/-- Where queues are changed one by one, what is ready in a queue is decided there. -/
theorem isReady_iff_of_map {b b' : Broker} {f : String → Queue → Queue}
    (hq : ∀ name, b'.queue? name = (b.queue? name).map (f name)) {name : String}
    {d : Delivery} :
    b'.IsReady name d ↔ ∃ q, b.queue? name = some q ∧ d ∈ (f name q).ready := by
  constructor
  · rintro ⟨q', hq', hd⟩
    rw [hq] at hq'
    obtain ⟨q, hold, rfl⟩ := Option.map_eq_some_iff.mp hq'
    exact ⟨q, hold, hd⟩
  · rintro ⟨q, hold, hd⟩
    refine ⟨f name q, ?_, hd⟩
    rw [hq, hold]
    rfl

/-- The delivery is ready somewhere or unsettled. -/
def Has (b : Broker) (d : Delivery) : Prop :=
  (∃ queue, b.IsReady queue d) ∨ d ∈ b.unacked

/-- The delivery was put into some queue under a tag that the broker has drawn,
and nothing else has this tag. -/
structure Knows (b : Broker) (d : Delivery) : Prop where
  drawn : d.tag ≤ b.lastTag
  only : ∀ x, b.Has x → x.tag = d.tag → x = d

structure Sound (b : Broker) : Prop where
  known : ∀ d, b.Has d → b.Knows d
  placed : ∀ queue d, b.IsReady queue d → d.queue = queue

/-- A change of the broker draws new tags for what it adds, and what it adds is
one delivery, ready in the queue that it names. -/
theorem Change.has {b b' : Broker} (h : Change b b') :
    b.lastTag ≤ b'.lastTag ∧
      ∃ new : Delivery, b.lastTag < new.tag ∧
        (∀ queue x, b'.IsReady queue x →
          b.IsReady queue x ∨ (x = new ∧ x.queue = queue ∧ x.tag ≤ b'.lastTag)) ∧
        (∀ x ∈ b'.unacked, b.Has x) := by
  have hnew : b.lastTag < (b.newDelivery "" "" "" default false).tag := Nat.lt_succ_self _
  cases h with
  | noted | newExchange | newBinding =>
      exact ⟨Nat.le_refl _, _, hnew, fun _ _ h => Or.inl h, fun _ h => Or.inr h⟩
  | newQueue spec hnone =>
      refine ⟨Nat.le_refl _, _, hnew, ?_, fun _ h => Or.inr h⟩
      rintro queue x ⟨q, hq, hx⟩
      unfold queue? at hq
      rw [List.find?_append] at hq
      cases hold : b.queues.find? (·.spec.name = queue) with
      | some q₀ =>
          rw [hold] at hq
          injection hq with hq
          exact Or.inl ⟨q₀, hold, hq ▸ hx⟩
      | none =>
          rw [hold] at hq
          have := List.mem_of_find?_eq_some hq
          rw [List.mem_singleton] at this
          rw [this] at hx
          cases hx
  | enqueued queue exchange routingKey body redelivered =>
      refine ⟨lastTag_enqueue_le .., b.newDelivery queue exchange routingKey body redelivered,
        Nat.lt_succ_self _, ?_, ?_⟩
      · intro name x hx
        have hview := queue?_enqueue b queue exchange routingKey body redelivered
        obtain ⟨q, hq, hx⟩ := (isReady_iff_of_map hview).mp hx
        by_cases hn : name = queue
        · subst hn
          simp only [if_true] at hx
          rcases Queue.mem_push hx with hx | rfl
          · exact Or.inl ⟨q, hq, hx⟩
          · refine Or.inr ⟨rfl, rfl, ?_⟩
            rw [enqueue_of_some hq]
            exact Nat.le_refl _
        · simp only [if_neg hn] at hx
          exact Or.inl ⟨q, hq, hx⟩
      · intro x hx
        rw [unacked_enqueue] at hx
        exact Or.inr hx
  | settled tag =>
      refine ⟨Nat.le_refl _, _, hnew, fun _ _ h => Or.inl h, ?_⟩
      intro x hx
      exact Or.inr (List.mem_filter.mp hx).1
  | taken queue q hq hs =>
      refine ⟨Nat.le_refl _, _, hnew, ?_, fun _ h => Or.inr h⟩
      intro name x hx
      obtain ⟨q₀, hq₀, hx⟩ := (isReady_iff_of_map (queue?_taken b queue)).mp hx
      refine Or.inl ⟨q₀, hq₀, ?_⟩
      by_cases hn : name = queue
      · simpa [hn] using hx
      · simpa [hn] using hx
  | handedOut queue q d rest hq hr =>
      refine ⟨Nat.le_refl _, _, hnew, ?_, ?_⟩
      · intro name x hx
        obtain ⟨q₀, hq₀, hx⟩ := (isReady_iff_of_map (queue?_handedOut b queue rest _)).mp hx
        refine Or.inl ⟨q₀, hq₀, ?_⟩
        by_cases hn : name = queue
        · subst hn
          rw [hq] at hq₀
          injection hq₀ with hq₀
          simp only [if_true] at hx
          rw [← hq₀, hr]
          exact List.mem_cons_of_mem _ hx
        · simpa [hn] using hx
      · intro x hx
        rcases List.mem_append.mp hx with hx | hx
        · exact Or.inr hx
        · rw [List.mem_singleton] at hx
          refine Or.inl ⟨queue, q, hq, ?_⟩
          rw [hr, hx]
          exact List.mem_cons_self
  | emptied queue dropped =>
      refine ⟨Nat.le_refl _, _, hnew, ?_, fun _ h => Or.inr h⟩
      intro name x hx
      obtain ⟨q₀, hq₀, hx⟩ := (isReady_iff_of_map (queue?_emptied b queue dropped)).mp hx
      refine Or.inl ⟨q₀, hq₀, ?_⟩
      by_cases hn : name = queue
      · simp [hn] at hx
      · simpa [hn] using hx

theorem Change.knows {b b' : Broker} (h : Change b b') {d : Delivery} (hd : b.Knows d) :
    b'.Knows d := by
  obtain ⟨hle, new, hnew, hready, hunacked⟩ := h.has
  refine ⟨Nat.le_trans hd.drawn hle, ?_⟩
  rintro x (⟨queue, hx⟩ | hx) htag
  · rcases hready queue x hx with hx | ⟨rfl, _, _⟩
    · exact hd.only x (Or.inl ⟨queue, hx⟩) htag
    · have := hd.drawn
      omega
  · exact hd.only x (hunacked x hx) htag

theorem Change.sound {b b' : Broker} (h : Change b b') (hb : b.Sound) : b'.Sound := by
  obtain ⟨_, new, hnew, hready, hunacked⟩ := h.has
  have hold : ∀ x, b.Has x → b'.Knows x := fun x hx => h.knows (hb.known x hx)
  refine ⟨?_, ?_⟩
  · rintro d (⟨queue, hd⟩ | hd)
    · rcases hready queue d hd with hd | ⟨rfl, _, hle⟩
      · exact hold d (Or.inl ⟨queue, hd⟩)
      · refine ⟨hle, ?_⟩
        rintro x (⟨queue', hx⟩ | hx) htag
        · rcases hready queue' x hx with hx | ⟨rfl, _, _⟩
          · have := (hb.known x (Or.inl ⟨queue', hx⟩)).drawn
            omega
          · rfl
        · have := (hb.known x (hunacked x hx)).drawn
          omega
    · exact hold d (hunacked d hd)
  · intro queue d hd
    rcases hready queue d hd with hd | ⟨_, hqueue, _⟩
    · exact hb.placed queue d hd
    · exact hqueue

theorem Reaches.knows {b b' : Broker} (h : Reaches b b') {d : Delivery} (hd : b.Knows d) :
    b'.Knows d := by
  have hc := h.changes
  clear h
  induction hc with
  | refl => exact hd
  | tail _ step ih => exact step.knows ih

theorem Reaches.sound {b b' : Broker} (h : Reaches b b') (hb : b.Sound) : b'.Sound := by
  have hc := h.changes
  clear h
  induction hc with
  | refl => exact hb
  | tail _ step ih => exact step.sound ih

theorem sound_empty (logCapacity : Nat) : Sound { logCapacity } := by
  have hnone : ∀ queue d, ¬ IsReady { logCapacity } queue d := by
    rintro queue d ⟨q, hq, _⟩
    cases hq
  refine ⟨?_, fun queue d h => absurd h (hnone queue d)⟩
  rintro d (⟨queue, h⟩ | h)
  · exact absurd h (hnone queue d)
  · cases h

/-- A tag names one delivery at a broker that has come about by operations. -/
theorem Reachable.sound {b : Broker} (h : b.Reachable) : b.Sound := by
  obtain ⟨logCapacity, hr⟩ := h
  exact hr.sound (sound_empty logCapacity)

end Broker

end MessageBridge.Rabbit
