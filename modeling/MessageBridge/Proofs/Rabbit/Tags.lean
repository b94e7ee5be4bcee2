import MessageBridge.Proofs.Rabbit.DeadLetter
import Mathlib.Data.List.Nodup
import Mathlib.Data.List.Perm.Subperm

/-!
# A tag is drawn once and settled once

Whatever is asked of a broker, its lists stay in order. `WellFormed` says what
that means: every declaration stands once, bindings have two ends that are
declared, a delivery names the queue that it was put in, and no two deliveries
share a tag, wherever the broker keeps them.

The last point is about the broker as a whole, because deliveries move: one that
is handed out leaves its queue and is unsettled from then on. So the proofs look
at all `deliveries` at once and do not care about their order. An elementary
change permutes them, drops some, or adds a single one under the next tag.

A tag that has been settled is `Gone`. It has been drawn and no delivery has it,
and since new deliveries get new tags, no delivery ever has it again.
-/

namespace MessageBridge.Rabbit.Broker

/-- All deliveries of the broker, those that are ready and those that are
unsettled. -/
def deliveries (b : Broker) : List Delivery :=
  b.queues.flatMap (·.ready) ++ b.unacked

/-- The lists of a broker are in order. -/
structure WellFormed (b : Broker) : Prop where
  exchangeNames : (b.exchanges.map (·.name)).Nodup
  queueNames : (b.queues.map (·.spec.name)).Nodup
  bindings : b.bindings.Nodup
  bindingEnds : ∀ x ∈ b.bindings,
    (b.exchange? x.exchange).isSome ∧ (b.queue? x.queue).isSome
  tags : (b.deliveries.map (·.tag)).Nodup
  drawn : ∀ d ∈ b.deliveries, d.tag ≤ b.lastTag
  /-- The tags inside a queue ascend. -/
  ascending : ∀ q ∈ b.queues, q.ready.Pairwise fun d d' => d.tag < d'.tag
  placed : ∀ q ∈ b.queues, ∀ d ∈ q.ready, d.queue = q.spec.name
  unackedPlaced : ∀ d ∈ b.unacked, (b.queue? d.queue).isSome

variable {b b' : Broker}

theorem mem_queues_of_queue? {name : String} {q : Queue} (h : b.queue? name = some q) :
    q ∈ b.queues ∧ q.spec.name = name :=
  ⟨List.mem_of_find?_eq_some h, by simpa using List.find?_some h⟩

theorem not_mem_names_of_queue? {name : String} (h : b.queue? name = none) :
    name ∉ b.queues.map (·.spec.name) := by
  rintro hname
  obtain ⟨q, hq, hspec⟩ := List.mem_map.mp hname
  exact (List.find?_eq_none.mp h q hq) (by simpa using hspec)

theorem not_mem_names_of_exchange? {name : String} (h : b.exchange? name = none) :
    name ∉ b.exchanges.map (·.name) := by
  rintro hname
  obtain ⟨e, he, hspec⟩ := List.mem_map.mp hname
  exact (List.find?_eq_none.mp h e he) (by simpa using hspec)

/-! ## One queue among the others -/

/-- Without a queue of the name nothing is changed. -/
theorem map_of_not_mem_names {name : String} (f : Queue → Queue) {qs : List Queue}
    (h : name ∉ qs.map (·.spec.name)) :
    qs.map (fun q => if q.spec.name = name then f q else q) = qs := by
  induction qs with
  | nil => rfl
  | cons q qs ih =>
      rw [List.map_cons, List.mem_cons, not_or] at h
      rw [List.map_cons, ih h.2, if_neg (Ne.symm h.1)]

theorem split_modifyQueue (hn : (b.queues.map (·.spec.name)).Nodup) {name : String} {q : Queue}
    (hq : b.queue? name = some q) :
    ∃ before later, b.queues = before ++ q :: later ∧
      ∀ f, (b.modifyQueue name f).queues = before ++ f q :: later := by
  obtain ⟨hmem, hname⟩ := mem_queues_of_queue? hq
  obtain ⟨before, later, hsplit⟩ := List.append_of_mem hmem
  refine ⟨before, later, hsplit, fun f => ?_⟩
  rw [hsplit, List.map_append, List.map_cons, hname] at hn
  obtain ⟨_, hlater, hapart⟩ := List.nodup_append.mp hn
  have hnotBefore : name ∉ before.map (·.spec.name) := fun h =>
    hapart name h name List.mem_cons_self rfl
  unfold modifyQueue
  simp only [hsplit, List.map_append, List.map_cons, hname, if_true]
  rw [map_of_not_mem_names f hnotBefore,
    map_of_not_mem_names f (List.nodup_cons.mp hlater).1]

theorem mem_modifyQueue (hn : (b.queues.map (·.spec.name)).Nodup) {name : String}
    {q q' : Queue} {f : Queue → Queue} (hq : b.queue? name = some q)
    (h : q' ∈ (b.modifyQueue name f).queues) : q' ∈ b.queues ∨ q' = f q := by
  obtain ⟨before, later, hold, hnew⟩ := split_modifyQueue hn hq
  rw [hnew] at h
  rw [hold]
  rcases List.mem_append.mp h with h | h
  · exact .inl (List.mem_append_left _ h)
  · rcases List.mem_cons.mp h with h | h
    · exact .inr h
    · exact .inl (List.mem_append_right _ (List.mem_cons_of_mem _ h))

/-- The deliveries, with those of one queue and the unsettled ones in front. -/
theorem perm_deliveries {before later : List Queue} {q : Queue}
    (h : b.queues = before ++ q :: later) :
    b.deliveries.Perm
      ((q.ready ++ b.unacked) ++ (before.flatMap (·.ready) ++ later.flatMap (·.ready))) := by
  have hsplit : b.deliveries = before.flatMap (·.ready) ++
      (q.ready ++ (later.flatMap (·.ready) ++ b.unacked)) := by
    unfold deliveries
    rw [h]
    simp
  rw [hsplit]
  refine List.perm_append_comm_assoc _ _ _ |>.trans ?_
  rw [List.append_assoc]
  refine List.Perm.append_left _ ?_
  rw [← List.append_assoc]
  exact List.perm_append_comm

/-- Where only one queue and the unsettled deliveries change, nothing else is to be
compared. -/
theorem subperm_deliveries {before later : List Queue} {q q' : Queue}
    (hold : b.queues = before ++ q :: later) (hnew : b'.queues = before ++ q' :: later)
    (added : List Delivery)
    (h : (q'.ready ++ b'.unacked).Subperm (added ++ (q.ready ++ b.unacked))) :
    b'.deliveries.Subperm (added ++ b.deliveries) := by
  have hfront := h.append (List.Subperm.refl
    (before.flatMap (·.ready) ++ later.flatMap (·.ready)))
  refine (perm_deliveries hnew).subperm.trans (hfront.trans ?_)
  rw [List.append_assoc]
  exact ((perm_deliveries hold).symm.append_left added).subperm

/-- What an elementary change does to the deliveries, wherever they are: it adds one
under a new tag, or none. -/
theorem Change.deliveries (h : Change b b') (hn : (b.queues.map (·.spec.name)).Nodup) :
    b.lastTag ≤ b'.lastTag ∧ ∃ added : List Delivery, added.length ≤ 1 ∧
      (∀ d ∈ added, b.lastTag < d.tag ∧ d.tag ≤ b'.lastTag) ∧
      b'.deliveries.Subperm (added ++ b.deliveries) := by
  have hnone : ∀ {lastTag : Nat} {ds : List Delivery}, ds.Subperm b.deliveries →
      ∃ added : List Delivery, added.length ≤ 1 ∧
        (∀ d ∈ added, b.lastTag < d.tag ∧ d.tag ≤ lastTag) ∧
        ds.Subperm (added ++ b.deliveries) :=
    fun hsub => ⟨[], Nat.zero_le _, (fun d hd => nomatch hd), hsub⟩
  cases h with
  | noted | newExchange | newBinding => exact ⟨Nat.le_refl _, hnone (.refl _)⟩
  | newQueue spec _ =>
      refine ⟨Nat.le_refl _, hnone (List.Perm.subperm (.of_eq ?_))⟩
      unfold Broker.deliveries
      simp
  | settled tag =>
      refine ⟨Nat.le_refl _, hnone (List.Sublist.subperm ?_)⟩
      exact (List.Sublist.refl _).append List.filter_sublist
  | enqueued queue exchange routingKey body redelivered =>
      refine ⟨lastTag_enqueue_le .., ?_⟩
      cases hq : b.queue? queue with
      | none =>
          rw [enqueue_of_none hq]
          exact hnone (.refl _)
      | some q =>
          rw [enqueue_of_some hq]
          obtain ⟨before, later, hold, hnew⟩ := split_modifyQueue hn hq
          by_cases hopen : q.stream = .dropped
          · refine hnone (subperm_deliveries hold (hnew _) [] ?_)
            rw [Queue.push_of_dropped _ hopen]
            exact .refl _
          · refine ⟨[b.newDelivery queue exchange routingKey body redelivered], Nat.le_refl _,
              ?_, subperm_deliveries hold (hnew _) _ ?_⟩
            · intro d hd
              rw [List.mem_singleton.mp hd]
              exact ⟨Nat.lt_succ_self _, Nat.le_refl _⟩
            · rw [Queue.push_ready _ hopen, ← List.append_assoc]
              exact (List.perm_append_comm.append_right _).subperm
  | taken queue q hq hs =>
      obtain ⟨before, later, hold, hnew⟩ := split_modifyQueue hn hq
      exact ⟨Nat.le_refl _, hnone (subperm_deliveries hold (hnew _) [] (.refl _))⟩
  | handedOut queue q d rest hq hr =>
      obtain ⟨before, later, hold, hnew⟩ := split_modifyQueue hn hq
      have hnew' : Broker.queues { b.modifyQueue queue fun q => { q with ready := rest } with
          unacked := b.unacked ++ [d] } = before ++ { q with ready := rest } :: later := hnew _
      refine ⟨Nat.le_refl _, hnone (subperm_deliveries hold hnew' [] ?_)⟩
      rw [hr]
      simp only [List.nil_append, ← List.append_assoc]
      exact (List.perm_append_singleton d _).subperm
  | emptied queue dropped =>
      refine ⟨Nat.le_refl _, ?_⟩
      cases hq : b.queue? queue with
      | none =>
          refine hnone (List.Perm.subperm (.of_eq ?_))
          unfold Broker.deliveries Broker.modifyQueue
          simp only []
          rw [map_of_not_mem_names _ (not_mem_names_of_queue? hq)]
      | some q =>
          obtain ⟨before, later, hold, hnew⟩ := split_modifyQueue hn hq
          refine hnone (subperm_deliveries hold (hnew _) [] ?_)
          exact (List.sublist_append_right _ _).subperm

/-- What an elementary change does to a queue: nothing is ready in it afterwards, or
the queue was there before and has lost some deliveries, or got a new one last. -/
theorem Change.queue (h : Change b b') (hn : (b.queues.map (·.spec.name)).Nodup) {q' : Queue}
    (hq' : q' ∈ b'.queues) :
    q'.ready = [] ∨ ∃ q ∈ b.queues, q'.spec = q.spec ∧
      (q'.ready.Sublist q.ready ∨
        ∃ d, d.queue = q.spec.name ∧ b.lastTag < d.tag ∧ q'.ready = q.ready ++ [d]) := by
  have hsame : q' ∈ b.queues → q'.ready = [] ∨ ∃ q ∈ b.queues, q'.spec = q.spec ∧
      (q'.ready.Sublist q.ready ∨
        ∃ d, d.queue = q.spec.name ∧ b.lastTag < d.tag ∧ q'.ready = q.ready ++ [d]) :=
    fun hq => .inr ⟨q', hq, rfl, .inl (.refl _)⟩
  cases h with
  | noted | newExchange | newBinding | settled => exact hsame hq'
  | newQueue spec _ =>
      rcases List.mem_append.mp hq' with hq' | hq'
      · exact hsame hq'
      · rw [List.mem_singleton] at hq'
        exact .inl (by rw [hq'])
  | enqueued queue exchange routingKey body redelivered =>
      cases hq : b.queue? queue with
      | none =>
          rw [enqueue_of_none hq] at hq'
          exact hsame hq'
      | some q =>
          rw [enqueue_of_some hq] at hq'
          obtain ⟨hmem, hname⟩ := mem_queues_of_queue? hq
          rcases mem_modifyQueue hn hq hq' with hq' | rfl
          · exact hsame hq'
          · refine .inr ⟨q, hmem, Queue.push_spec _ _, ?_⟩
            by_cases hopen : q.stream = .dropped
            · rw [Queue.push_of_dropped _ hopen]
              exact .inl (.refl _)
            · exact .inr ⟨_, hname.symm, Nat.lt_succ_self _, Queue.push_ready _ hopen⟩
  | taken queue q hq hs =>
      rcases mem_modifyQueue hn hq hq' with hq' | rfl
      · exact hsame hq'
      · exact .inr ⟨q, (mem_queues_of_queue? hq).1, rfl, .inl (.refl _)⟩
  | handedOut queue q d rest hq hr =>
      have hmodified : q' ∈ (b.modifyQueue queue fun q => { q with ready := rest }).queues := hq'
      rcases mem_modifyQueue hn hq hmodified with hq' | rfl
      · exact hsame hq'
      · refine .inr ⟨q, (mem_queues_of_queue? hq).1, rfl, .inl ?_⟩
        rw [hr]
        exact List.sublist_cons_self _ _
  | emptied queue dropped =>
      obtain ⟨q, hq, rfl⟩ := List.mem_map.mp hq'
      by_cases hname : q.spec.name = queue
      · exact .inl (by rw [if_pos hname])
      · rw [if_neg hname] at hsame ⊢
        exact hsame hq

/-! ## Every change leaves the lists in order -/

theorem Change.exchangeNames (h : Change b b') (hw : (b.exchanges.map (·.name)).Nodup) :
    (b'.exchanges.map (·.name)).Nodup := by
  cases h with
  | newExchange e hnone =>
      rw [List.map_append, List.map_singleton, ← List.concat_eq_append]
      exact .concat (not_mem_names_of_exchange? hnone) hw
  | enqueued => rw [exchanges_enqueue]; exact hw
  | _ => exact hw

theorem names_modifyQueue {f : Queue → Queue} (hf : ∀ q, (f q).spec = q.spec) (b : Broker)
    (name : String) :
    (b.modifyQueue name f).queues.map (·.spec.name) = b.queues.map (·.spec.name) := by
  unfold modifyQueue
  rw [List.map_map]
  refine List.map_congr_left fun q _ => ?_
  simp only [Function.comp_apply]
  split
  · rw [hf]
  · rfl

theorem Change.queueNames (h : Change b b') (hw : (b.queues.map (·.spec.name)).Nodup) :
    (b'.queues.map (·.spec.name)).Nodup := by
  cases h with
  | noted | newExchange | newBinding | settled => exact hw
  | newQueue spec hnone =>
      rw [List.map_append, List.map_singleton, ← List.concat_eq_append]
      exact .concat (not_mem_names_of_queue? hnone) hw
  | enqueued queue exchange routingKey body redelivered =>
      cases hq : b.queue? queue with
      | none => rw [enqueue_of_none hq]; exact hw
      | some q =>
          rw [enqueue_of_some hq]
          exact (names_modifyQueue (fun _ => Queue.push_spec _ _) b queue).symm ▸ hw
  | taken queue =>
      have hnames := names_modifyQueue (f := fun q => { q with stream := .taken })
        (fun _ => by rfl) b queue
      exact hnames.symm ▸ hw
  | handedOut queue q d rest =>
      have hnames := names_modifyQueue (f := fun q => { q with ready := rest })
        (fun _ => by rfl) b queue
      exact hnames.symm ▸ hw
  | emptied queue dropped =>
      have hnames := names_modifyQueue (f := fun q =>
        { q with ready := [], stream := if dropped then .dropped else q.stream })
        (fun _ => by rfl) b queue
      exact hnames.symm ▸ hw

theorem Keeps.isSome_exchange? (h : Keeps b b') {name : String}
    (he : (b.exchange? name).isSome) : (b'.exchange? name).isSome := by
  obtain ⟨e, he⟩ := Option.isSome_iff_exists.mp he
  rw [h.exchange name e he]
  rfl

theorem Keeps.isSome_queue? (h : Keeps b b') {name : String}
    (hq : (b.queue? name).isSome) : (b'.queue? name).isSome := by
  obtain ⟨q, hq⟩ := Option.isSome_iff_exists.mp hq
  obtain ⟨q', hq', _⟩ := h.queue name q hq
  rw [hq']
  rfl

theorem Change.bindings (h : Change b b') (hb : b.bindings.Nodup)
    (hends : ∀ x ∈ b.bindings, (b.exchange? x.exchange).isSome ∧ (b.queue? x.queue).isSome) :
    b'.bindings.Nodup ∧
      ∀ x ∈ b'.bindings, (b'.exchange? x.exchange).isSome ∧ (b'.queue? x.queue).isSome := by
  have hkeeps : ∀ x : Binding, (b.exchange? x.exchange).isSome ∧ (b.queue? x.queue).isSome →
      (b'.exchange? x.exchange).isSome ∧ (b'.queue? x.queue).isSome :=
    fun x hx => ⟨(Keeps.of_change h).isSome_exchange? hx.1,
      (Keeps.of_change h).isSome_queue? hx.2⟩
  have hsame : b'.bindings = b.bindings → b'.bindings.Nodup ∧
      ∀ x ∈ b'.bindings, (b'.exchange? x.exchange).isSome ∧ (b'.queue? x.queue).isSome := by
    intro heq
    rw [heq]
    exact ⟨hb, fun x hx => hkeeps x (hends x hx)⟩
  cases h with
  | newBinding x hx hq hnew =>
      refine ⟨List.concat_eq_append ▸ hb.concat hnew, ?_⟩
      intro y hy
      rcases List.mem_append.mp hy with hy | hy
      · exact hkeeps y (hends y hy)
      · rw [List.mem_singleton.mp hy]
        exact ⟨hx, hq⟩
  | enqueued => exact hsame (bindings_enqueue ..)
  | _ => exact hsame rfl

theorem mem_deliveries_of_ready {q : Queue} {d : Delivery} (hq : q ∈ b.queues)
    (hd : d ∈ q.ready) : d ∈ b.deliveries :=
  List.mem_append_left _ (List.mem_flatMap.mpr ⟨q, hq, hd⟩)

theorem Change.wellFormed (h : Change b b') (hw : b.WellFormed) : b'.WellFormed := by
  obtain ⟨hle, added, hone, hnew, hsub⟩ := h.deliveries hw.queueNames
  obtain ⟨hbindings, hends⟩ := h.bindings hw.bindings hw.bindingEnds
  refine ⟨h.exchangeNames hw.exchangeNames, h.queueNames hw.queueNames, hbindings, hends,
    ?_, ?_, ?_, ?_, ?_⟩
  · -- What is added has a tag that was not drawn before.
    have htags : ((added ++ b.deliveries).map (·.tag)).Nodup := by
      rw [List.map_append]
      refine List.nodup_append.mpr ⟨?_, hw.tags, ?_⟩
      · match added, hone with
        | [], _ => exact List.nodup_nil
        | [d], _ => exact List.pairwise_singleton _ _
      · intro t ht t' ht' heq
        obtain ⟨d, hd, rfl⟩ := List.mem_map.mp ht
        obtain ⟨d', hd', rfl⟩ := List.mem_map.mp ht'
        have := (hnew d hd).1
        have := hw.drawn d' hd'
        omega
    obtain ⟨ds, hperm, hsublist⟩ := hsub
    exact (hperm.map _).nodup_iff.mp (htags.sublist (hsublist.map _))
  · intro d hd
    rcases List.mem_append.mp (hsub.subset hd) with hd | hd
    · exact (hnew d hd).2
    · exact Nat.le_trans (hw.drawn d hd) hle
  · intro q' hq'
    rcases h.queue hw.queueNames hq' with hnil | ⟨q, hq, _, hready | ⟨d, _, htag, hready⟩⟩
    · rw [hnil]
      exact List.Pairwise.nil
    · exact (hw.ascending q hq).sublist hready
    · rw [hready, List.pairwise_append]
      refine ⟨hw.ascending q hq, List.pairwise_singleton _ _, ?_⟩
      intro x hx y hy
      rw [List.mem_singleton.mp hy]
      exact Nat.lt_of_le_of_lt (hw.drawn x (mem_deliveries_of_ready hq hx)) htag
  · intro q' hq' d hd
    rcases h.queue hw.queueNames hq' with hnil | ⟨q, hq, hspec, hready | ⟨d', hplace, _, hready⟩⟩
    · rw [hnil] at hd
      cases hd
    · rw [hspec]
      exact hw.placed q hq d (hready.subset hd)
    · rw [hspec]
      rw [hready] at hd
      rcases List.mem_append.mp hd with hd | hd
      · exact hw.placed q hq d hd
      · rw [List.mem_singleton.mp hd]
        exact hplace
  · intro d hd
    refine (Keeps.of_change h).isSome_queue? ?_
    obtain ⟨_, _, _, _, hunacked⟩ := h.has
    rcases hunacked d hd with ⟨name, q, hq, hready⟩ | hd
    · obtain ⟨hmem, hname⟩ := mem_queues_of_queue? hq
      rw [hw.placed q hmem d hready, hname, hq]
      rfl
    · exact hw.unackedPlaced d hd

theorem wellFormed_empty (logCapacity : Nat) : WellFormed { logCapacity } where
  exchangeNames := List.nodup_nil
  queueNames := List.nodup_nil
  bindings := List.nodup_nil
  bindingEnds := nofun
  tags := List.nodup_nil
  drawn := nofun
  ascending := nofun
  placed := nofun
  unackedPlaced := nofun

theorem Changes.wellFormed (h : Changes b b') (hw : b.WellFormed) : b'.WellFormed := by
  induction h with
  | refl => exact hw
  | tail _ step ih => exact step.wellFormed ih

theorem Reachable.wellFormed (h : b.Reachable) : b.WellFormed := by
  obtain ⟨logCapacity, hr⟩ := h
  exact Changes.wellFormed hr.changes (wellFormed_empty logCapacity)

/-! ## Where unsettled deliveries come from -/

theorem mem_unacked_next {queue : String} {d : Delivery} (hd : d ∈ (b.next queue).2.unacked) :
    d ∈ b.unacked ∨ b.IsReady queue d := by
  unfold next at hd
  split at hd
  · exact .inl hd
  · next q hq =>
      split at hd
      · exact .inl hd
      · next d' rest hr =>
          rcases List.mem_append.mp hd with hd | hd
          · exact .inl hd
          · rw [List.mem_singleton.mp hd]
            exact .inr ⟨q, hq, hr ▸ List.mem_cons_self⟩

theorem mem_unacked_reject {tag : Nat} {requeue : Bool} {d : Delivery}
    (hd : d ∈ (b.reject tag requeue).2.unacked) : d ∈ b.unacked := by
  unfold reject at hd
  split at hd
  · exact hd
  · next d' _ =>
      have hsettled : d ∈ (b.settle tag).unacked := by
        cases requeue with
        | true =>
            simp only [if_true, unacked_enqueue] at hd
            exact hd
        | false =>
            simp only [Bool.false_eq_true, if_false] at hd
            unfold deadLetter at hd
            simp only [] at hd
            split at hd
            · exact hd
            · rw [unacked_route] at hd
              exact hd
      exact (List.mem_filter.mp hsettled).1

/-- A delivery becomes unsettled when it is handed out of a queue, and never
otherwise. -/
theorem mem_unacked_after {op : Operation} {d : Delivery} (hd : d ∈ (b.after op).unacked) :
    d ∈ b.unacked ∨ ∃ queue, op = .next queue ∧ b.IsReady queue d := by
  cases op with
  | declareExchange exchange =>
      have hsame : (b.declareExchange exchange).2.unacked = b.unacked := by
        unfold declareExchange
        split
        · split <;> rfl
        · rfl
      exact .inl (hsame ▸ hd)
  | declareQueue spec =>
      have hsame : (b.declareQueue spec).2.unacked = b.unacked := by
        unfold declareQueue
        split
        · split <;> rfl
        · rfl
      exact .inl (hsame ▸ hd)
  | declareBinding binding =>
      have hsame : (b.declareBinding binding).2.unacked = b.unacked := by
        unfold declareBinding
        split
        · rfl
        · split
          · rfl
          · split <;> rfl
      exact .inl (hsame ▸ hd)
  | failNext failure => exact .inl hd
  | send exchange routingKey body =>
      have hsame : (b.send exchange routingKey body).2.unacked = b.unacked := by
        unfold send
        split
        · rfl
        · split
          · rfl
          · exact unacked_route b exchange routingKey body
      exact .inl (hsame ▸ hd)
  | consume queue =>
      have hsame : (b.consume queue).2.unacked = b.unacked := by
        unfold consume
        split
        · rfl
        · split <;> rfl
      exact .inl (hsame ▸ hd)
  | next queue => exact (mem_unacked_next hd).imp_right fun hready => ⟨queue, rfl, hready⟩
  | dropStream queue => exact .inl hd
  | takeReady queue =>
      have hsame : (b.takeReady queue).2.unacked = b.unacked := by
        unfold takeReady
        split
        · rfl
        · split <;> rfl
      exact .inl (hsame ▸ hd)
  | ack tag =>
      have hsub : (b.ack tag).2.unacked ⊆ b.unacked := by
        unfold ack
        split
        · exact List.Subset.refl _
        · exact List.filter_subset_self _
      exact .inl (hsub hd)
  | reject tag requeue => exact .inl (mem_unacked_reject hd)

/-- The delivery was ready in the queue that it names, at some time that leads to the
broker. -/
def WasReady (b : Broker) (d : Delivery) : Prop :=
  ∃ b₁ : Broker, b₁.Reachable ∧ b₁.Reaches b ∧ b₁.IsReady d.queue d

theorem WasReady.after {d : Delivery} (h : b.WasReady d) (op : Operation) :
    (b.after op).WasReady d := by
  obtain ⟨b₁, hreachable, hreaches, hready⟩ := h
  exact ⟨b₁, hreachable, hreaches.tail ⟨op, rfl⟩, hready⟩

theorem Reachable.wasReady (h : b.Reachable) {d : Delivery} (hd : d ∈ b.unacked) :
    b.WasReady d := by
  obtain ⟨logCapacity, hr⟩ := h
  induction hr with
  | refl => cases hd
  | @tail b _ hr step ih =>
      obtain ⟨op, rfl⟩ := step
      have hreachable : b.Reachable := ⟨logCapacity, hr⟩
      rcases mem_unacked_after hd with hd | ⟨queue, rfl, hready⟩
      · exact (ih hd).after op
      · have hqueue : d.queue = queue := hreachable.sound.placed queue d hready
        exact ⟨b, hreachable, .of_after b _, hqueue ▸ hready⟩

/-! ## Settling -/

/-- The tag has been drawn, and no delivery has it. -/
structure Gone (b : Broker) (tag : Nat) : Prop where
  drawn : tag ≤ b.lastTag
  unused : ∀ d, b.Has d → d.tag ≠ tag

theorem Change.gone {tag : Nat} (h : Change b b') (hg : b.Gone tag) : b'.Gone tag := by
  obtain ⟨hle, new, hnew, hready, hunacked⟩ := h.has
  refine ⟨Nat.le_trans hg.drawn hle, ?_⟩
  rintro d (⟨queue, hd⟩ | hd)
  · rcases hready queue d hd with hd | ⟨rfl, _, _⟩
    · exact hg.unused d (.inl ⟨queue, hd⟩)
    · have := hg.drawn
      omega
  · exact hg.unused d (hunacked d hd)

theorem Changes.gone {tag : Nat} (h : Changes b b') (hg : b.Gone tag) : b'.Gone tag := by
  induction h with
  | refl => exact hg
  | tail _ step ih => exact step.gone ih

/-- No delivery that is ready shares its tag with an unsettled one. -/
theorem WellFormed.tag_ne_of_ready {queue : String} {d x : Delivery} (hw : b.WellFormed)
    (hd : d ∈ b.unacked) (hx : b.IsReady queue x) : x.tag ≠ d.tag := by
  obtain ⟨q, hq, hx⟩ := hx
  have hready : x.tag ∈ (b.queues.flatMap (·.ready)).map (·.tag) :=
    List.mem_map_of_mem (List.mem_flatMap.mpr ⟨q, (mem_queues_of_queue? hq).1, hx⟩)
  have hapart := hw.tags
  rw [Broker.deliveries, List.map_append, List.nodup_append] at hapart
  exact hapart.2.2 _ hready _ (List.mem_map_of_mem hd)

/-- When a delivery is struck, its tag is gone. -/
theorem WellFormed.gone_settle {tag : Nat} {d : Delivery} (hw : b.WellFormed)
    (hu : b.unacked? tag = some d) : (b.settle tag).Gone tag := by
  have hmem : d ∈ b.unacked := List.mem_of_find?_eq_some hu
  have htag : d.tag = tag := by simpa using List.find?_some hu
  refine ⟨htag ▸ hw.drawn d (List.mem_append_right _ hmem), ?_⟩
  rintro x (⟨queue, hx⟩ | hx)
  · exact htag ▸ hw.tag_ne_of_ready hmem hx
  · simpa using (List.mem_filter.mp hx).2

/-- Settling a delivery under its tag, in any of the ways there are, leads from one
broker to the other. -/
inductive Settles (b : Broker) (tag : Nat) : Broker → Prop where
  | acked {b' : Broker} (h : b.ack tag = (.ok (), b')) : Settles b tag b'
  | rejected {b' : Broker} (requeue : Bool) (h : b.reject tag requeue = (.ok (), b')) :
    Settles b tag b'

theorem Settles.gone {tag : Nat} (h : b.Settles tag b') (hw : b.WellFormed) : b'.Gone tag := by
  cases h with
  | acked h =>
      unfold ack at h
      split at h
      · cases h
      · next d hu =>
          cases h
          exact hw.gone_settle hu
  | rejected requeue h =>
      unfold reject at h
      split at h
      · cases h
      · next d hu =>
          have hgone := hw.gone_settle hu
          cases requeue with
          | true =>
              cases h
              exact (Change.enqueued ..).gone hgone
          | false =>
              cases h
              exact Changes.gone (changes_deadLetter _ d) hgone

theorem Gone.unacked? {tag : Nat} (hg : b.Gone tag) : b.unacked? tag = none :=
  List.find?_eq_none.mpr fun d hd => by simpa using hg.unused d (.inr hd)

theorem Gone.refuses {tag : Nat} (hg : b.Gone tag) (requeue : Bool) :
    b.ack tag = (.error (Refusal.unknownTag tag).failure, b) ∧
      b.reject tag requeue = (.error (Refusal.unknownTag tag).failure, b) := by
  unfold ack reject
  rw [hg.unacked?]
  exact ⟨rfl, rfl⟩

/-- Whatever has been asked of a broker since it was empty, its lists are in order;
every unsettled delivery was put in the queue that it names, and this queue is
declared; nothing that is declared is ever declared otherwise; and a tag that has
been settled cannot be settled again, whatever happens in between. -/
theorem reachable_in_order (h : b.Reachable) :
    b.WellFormed ∧ (∀ d ∈ b.unacked, b.WasReady d) ∧
      (∀ b', b.Reaches b' →
        (∀ name e, b.exchange? name = some e → b'.exchange? name = some e) ∧
        ∀ name q, b.queue? name = some q →
          ∃ q', b'.queue? name = some q' ∧ q'.spec = q.spec) ∧
      ∀ tag b₁, b.Settles tag b₁ → ∀ b', b₁.Reaches b' → ∀ requeue,
        b'.ack tag = (.error (Refusal.unknownTag tag).failure, b') ∧
        b'.reject tag requeue = (.error (Refusal.unknownTag tag).failure, b') := by
  refine ⟨h.wellFormed, fun d hd => h.wasReady hd, ?_, ?_⟩
  · intro b' hr
    refine ⟨hr.keeps.exchange, fun name q hq => ?_⟩
    obtain ⟨q', hq', hspec, _⟩ := hr.keeps.queue name q hq
    exact ⟨q', hq', hspec⟩
  · intro tag b₁ hsettles b' hr requeue
    exact (Changes.gone hr.changes (hsettles.gone h.wellFormed)).refuses requeue

/-- A queue of which one delivery has been taken. -/
def orderTaken : Broker :=
  (((({} : Broker).after (.declareQueue (.standard "orders"))).after
    (.send "" "orders" "null".toUTF8))).after (.next "orders")

/-- The delivery is put back and taken again. It has another tag then, and its old
tag does not settle it. -/
theorem orderTaken_settled_once :
    orderTaken.Reachable ∧ orderTaken.WellFormed ∧
      ∃ b₁, orderTaken.reject 1 true = (.ok (), b₁) ∧
        (b₁.after (.next "orders")).unacked.map (·.tag) = [2] ∧
        (b₁.after (.next "orders")).ack 1 =
          (.error (Refusal.unknownTag 1).failure, b₁.after (.next "orders")) := by
  have hreachable : orderTaken.Reachable :=
    .tail (.tail (.tail ⟨1024, .refl⟩ _) _) _
  obtain ⟨hwell, _, _, hsettled⟩ := reachable_in_order hreachable
  have hrejected : orderTaken.reject 1 true = (.ok (), (orderTaken.reject 1 true).2) := rfl
  exact ⟨hreachable, hwell, _, hrejected, rfl,
    (hsettled 1 _ (.rejected true hrejected) _ (.of_after _ _) false).1⟩

end MessageBridge.Rabbit.Broker
