import MessageBridge.Proofs.Amazon.Arrival

/-!
# Publications that fail

A publication writes the message into the log of the topic and then goes through the
subscribed queues. A subscription outlives its queue, and at the first queue that is
missing the publication fails: the log and the queues before that one keep what they
have got by then, the queues behind it get nothing. Publishing once more puts second
copies where the first ones are.

A publication that fails for another reason, an injected failure or a topic that is
not there, has left no trace. So where no queue is ever deleted, a failed publication
publishes nothing.
-/

namespace MessageBridge.Amazon

/-- The queues that the operation subscribes to a topic. -/
def Operation.subscribed (topic : String) : Operation → List String
  | .subscribe name queue => if name = topic then [queue] else []
  | _ => []

namespace Service

variable {s s' : Service} {now : Instant} {topic body queue : String}

/-- The queues that get a copy of what is published to a topic. -/
def subscribers (s : Service) (topic : String) : List String :=
  (Entries.get? topic s.subscriptions).getD []

/-- A message has gone into the log of a topic and into some of the queues, and that
is all that has changed in logs and queues. -/
structure Delivered (s : Service) (now : Instant) (topic body : String)
    (queues : List String) (s' : Service) : Prop where
  logs : ∀ name, s'.topicMessages name =
    if name = topic then Log.push s.logCapacity (s.topicMessages topic) body
    else s.topicMessages name
  queues : ∀ name, s'.queue? name = (s.queue? name).map (· ++
    ((copies topic body (s.clockStart + now) s.drawn queues).filter
      (·.queue = name)).map Deposit.stored)

/-- What a publication comes to. -/
inductive Publication (s : Service) (now : Instant) (topic body : String) :
    Except Failure Unit × Service → Prop where
  | prevented (failure : Failure) (failures : List Failure)
    (injected : s.failures = failure :: failures) :
    Publication s now topic body (.error failure, { s with failures })
  | unknown (calm : s.failures = []) (missing : Entries.get? topic s.topics = none) :
    Publication s now topic body (.error (Refusal.noTopic topic).failure, s)
  | complete (s' : Service) (calm : s.failures = [])
    (there : ∀ queue ∈ s.subscribers topic, Entries.has queue s.queues = true)
    (delivered : Delivered s now topic body (s.subscribers topic) s') :
    Publication s now topic body (.ok (), s')
  | cutShort (first : List String) (gone : String) (rest : List String) (s' : Service)
    (calm : s.failures = []) (subscribers : s.subscribers topic = first ++ gone :: rest)
    (there : ∀ queue ∈ first, Entries.has queue s.queues = true)
    (missing : Entries.has gone s.queues = false)
    (delivered : Delivered s now topic body first s') :
    Publication s now topic body (.error (Refusal.noQueue gone).failure, s')

/-! ## One publication -/

theorem Gains.queue?_eq {ds : List Deposit} (h : Gains s ds s') (name : String) :
    s'.queue? name =
      (s.queue? name).map (· ++ (ds.filter (·.queue = name)).map Deposit.stored) := by
  cases hms : s.queue? name with
  | some ms => exact h.queue? hms
  | none =>
      have hsame := h.has_iff name
      rw [has_queues, has_queues, hms] at hsame
      exact Option.isNone_iff_eq_none.mp (by simpa using hsame)

theorem store_of_missing (h : Entries.has queue s.queues = false) (body : String) :
    s.store queue body = (.error (Refusal.noQueue queue).failure, s) := by
  rw [has_queues] at h
  have hmissing : s.queue? queue = none := by simpa using h
  simp only [store, hmissing]

/-- The copies are handed out until a queue is missing, and its name is what the failure
tells. -/
theorem notifyAll_result (now : Instant) (topic body : String) :
    ∀ (queues : List String) (s : Service),
      (∀ queue ∈ queues, Entries.has queue s.queues = true) ∧
          (s.notifyAll now topic body queues).1 = .ok () ∨
        ∃ first gone rest, queues = first ++ gone :: rest ∧
          (∀ queue ∈ first, Entries.has queue s.queues = true) ∧
          Entries.has gone s.queues = false ∧
          (s.notifyAll now topic body queues).1 = .error (Refusal.noQueue gone).failure := by
  intro queues
  induction queues with
  | nil => exact fun s => .inl ⟨nofun, rfl⟩
  | cons queue rest ih =>
      intro s
      let text := (notification s.draw.1 topic body (s.draw.2.clockStart + now)).write
      rcases store_cases s.draw.2 queue text with
        ⟨hmissing, _⟩ | ⟨hthere, s', hstore, hgains, _, _⟩
      · refine .inr ⟨[], queue, rest, rfl, nofun, hmissing, ?_⟩
        simp only [notifyAll, store_of_missing hmissing]
      · have hthere : Entries.has queue s.queues = true := hthere
        have hkept : ∀ name, Entries.has name s'.queues = Entries.has name s.queues :=
          hgains.has_iff
        have hnext : s.notifyAll now topic body (queue :: rest) =
            s'.notifyAll now topic body rest := by
          rw [notifyAll]
          simp only []
          rw [hstore]
        rw [hnext]
        rcases ih s' with ⟨hall, hok⟩ | ⟨first, gone, later, hrest, hall, hmissing, hfails⟩
        · left
          refine ⟨fun name hname => ?_, hok⟩
          rcases List.mem_cons.mp hname with rfl | hname
          · exact hthere
          · exact hkept name ▸ hall name hname
        · right
          refine ⟨queue :: first, gone, later, by rw [hrest]; rfl, fun name hname => ?_,
            hkept gone ▸ hmissing, hfails⟩
          rcases List.mem_cons.mp hname with rfl | hname
          · exact hthere
          · exact hkept name ▸ hall name hname

theorem delivered_notifyAll {log : List String} (hlog : Entries.get? topic s.topics = some log)
    (now : Instant) (body : String) (queues : List String) :
    Delivered s now topic body (queues.takeWhile fun queue => Entries.has queue s.queues)
      (notifyAll { s with topics := Entries.set topic (Log.push s.logCapacity log body) s.topics }
        now topic body queues).2 := by
  let logged : Service :=
    { s with topics := Entries.set topic (Log.push s.logCapacity log body) s.topics }
  obtain ⟨htopics, _⟩ := sameLogs_notifyAll now topic body queues logged
  refine ⟨fun name => ?_, fun name => ?_⟩
  · rw [topicMessages, htopics, Entries.get?_set, topicMessages, topicMessages, hlog]
    split <;> rfl
  · exact (gains_notifyAll now topic body queues logged).queue?_eq name

theorem publication (s : Service) (now : Instant) (topic body : String) :
    Publication s now topic body (s.sendToTopic now topic body) := by
  cases hfailures : s.failures with
  | cons failure failures =>
      rw [show s.sendToTopic now topic body = (.error failure, { s with failures }) by
        simp only [sendToTopic, hfailures]]
      exact .prevented failure failures hfailures
  | nil =>
      cases hlog : Entries.get? topic s.topics with
      | none =>
          rw [show s.sendToTopic now topic body = (.error (Refusal.noTopic topic).failure, s) by
            simp only [sendToTopic, hfailures, hlog]]
          exact .unknown hfailures hlog
      | some log =>
          let logged : Service :=
            { s with topics := Entries.set topic (Log.push s.logCapacity log body) s.topics }
          have hsend : s.sendToTopic now topic body =
              logged.notifyAll now topic body (s.subscribers topic) := by
            simp only [sendToTopic, hfailures, hlog, logged, subscribers]
          have hdelivered := delivered_notifyAll hlog now body (s.subscribers topic)
          rw [hsend]
          rcases notifyAll_result now topic body (s.subscribers topic) logged with
            ⟨hthere, hok⟩ | ⟨first, gone, rest, hsubscribers, hthere, hmissing, hfails⟩
          · rw [List.takeWhile_eq_self_iff.mpr hthere] at hdelivered
            rw [← Prod.eta (logged.notifyAll now topic body (s.subscribers topic)), hok]
            exact .complete _ hfailures hthere hdelivered
          · rw [hsubscribers, List.takeWhile_append_of_pos hthere,
              List.takeWhile_cons_of_neg (by simp [hmissing]), List.append_nil,
              ← hsubscribers] at hdelivered
            rw [← Prod.eta (logged.notifyAll now topic body (s.subscribers topic)), hfails]
            exact .cutShort first gone rest _ hfailures hsubscribers hthere hmissing hdelivered

/-! ## Subscriptions and queues along a run -/

theorem subscribers_createTopic (s : Service) (name topic : String) :
    (s.createTopic name).subscribers topic = s.subscribers topic := by
  unfold createTopic
  split <;> rfl

theorem subscribers_createQueue (s : Service) (name topic : String) :
    (s.createQueue name).subscribers topic = s.subscribers topic := by
  unfold createQueue
  split <;> rfl

theorem subscriptions_store (s : Service) (queue body : String) :
    (s.store queue body).2.subscriptions = s.subscriptions := by
  unfold store
  split <;> rfl

theorem subscriptions_putMessage (s : Service) (queue body : String) :
    (s.putMessage queue body).2.subscriptions = s.subscriptions := by
  have hstore := subscriptions_store s queue body
  unfold putMessage
  split <;> next h => rw [h] at hstore; exact hstore

theorem subscriptions_notifyAll (now : Instant) (topic body : String) :
    ∀ (queues : List String) (s : Service),
      (s.notifyAll now topic body queues).2.subscriptions = s.subscriptions := by
  intro queues
  induction queues with
  | nil => intro s; rfl
  | cons queue rest ih =>
      intro s
      have hstore := subscriptions_store s.draw.2 queue
        (notification s.draw.1 topic body (s.draw.2.clockStart + now)).write
      rw [notifyAll]
      simp only []
      split
      · next h => rw [h] at hstore; exact hstore
      · next h => rw [h] at hstore; exact (ih _).trans hstore

/-- Only subscribing adds to the subscribers of a topic, and nothing takes one away. -/
theorem subscribers_after (s : Service) (now : Instant) (op : Operation) (topic : String) :
    (s.after now op).subscribers topic = s.subscribers topic ++ op.subscribed topic := by
  have hsame : ∀ {s' : Service}, s'.subscriptions = s.subscriptions →
      s'.subscribers topic = s.subscribers topic ++ [] := by
    intro s' h
    rw [subscribers, h, List.append_nil]
    rfl
  cases op with
  | createQueue name =>
      show (s.createQueue name).subscribers topic = s.subscribers topic ++ []
      rw [subscribers_createQueue, List.append_nil]
  | createTopic name =>
      show (s.createTopic name).subscribers topic = s.subscribers topic ++ []
      rw [subscribers_createTopic, List.append_nil]
  | subscribe name queue =>
      have hcreated : ∀ topic, ((s.createTopic name).createQueue queue).subscribers topic =
          s.subscribers topic := fun topic =>
        (subscribers_createQueue _ queue topic).trans (subscribers_createTopic s name topic)
      show (Entries.get? topic (Entries.set name
        (((s.createTopic name).createQueue queue).subscribers name ++ [queue])
        ((s.createTopic name).createQueue queue).subscriptions)).getD [] = _
      rw [Entries.get?_set, hcreated, Operation.subscribed]
      by_cases hname : topic = name
      · subst hname
        simp
      · rw [if_neg hname, if_neg (Ne.symm hname), List.append_nil]
        exact hcreated topic
  | deleteQueue | failNext => exact hsame rfl
  | putMessage queue body => exact hsame (subscriptions_putMessage s queue body)
  | sendToQueue queue body =>
      refine hsame ?_
      have hput := subscriptions_putMessage s queue body
      show (s.sendToQueue queue body).2.subscriptions = _
      unfold sendToQueue
      split
      · rfl
      · split <;> next h => rw [h] at hput; exact hput
  | sendToTopic name body =>
      refine hsame ?_
      show (s.sendToTopic now name body).2.subscriptions = _
      unfold sendToTopic
      split
      · rfl
      · split
        · rfl
        · exact subscriptions_notifyAll now name body _ _
  | look url max =>
      rcases look_cases s now url max with ⟨_, h⟩ | ⟨_, _, _, _, _, _, _, _, h⟩ <;>
        exact hsame (by rw [after, h])
  | deleteMessage url receipt =>
      rcases deleteMessage_cases s url receipt with ⟨_, h⟩ | ⟨_, _, _, _, _, h⟩ <;>
        exact hsame (by rw [after, h])
  | changeVisibility url receipt seconds =>
      rcases changeVisibility_cases s now url receipt seconds with
        ⟨_, h⟩ | ⟨_, _, _, _, _, _, h⟩
      · exact hsame (by rw [after, h])
      · exact hsame (by rw [after, h]; rfl)

theorem has_of_set {name : String} {new : List Stored}
    (h : s'.queues = Entries.set name new s.queues) (hthere : Entries.has queue s.queues = true) :
    Entries.has queue s'.queues = true := by
  rw [has_queues, queue?_of_set h]
  split
  · rfl
  · exact hthere

theorem has_createQueue (s : Service) (name queue : String) :
    Entries.has queue (s.createQueue name).queues =
      (Entries.has queue s.queues || decide (queue = name)) := by
  rw [has_queues, has_queues, queue?_createQueue]
  by_cases hname : queue = name <;> simp [hname]

theorem queues_createTopic (s : Service) (name : String) :
    (s.createTopic name).queues = s.queues := by
  unfold createTopic
  split <;> rfl

/-- A queue goes only when it is deleted. -/
theorem has_after (now : Instant) {op : Operation} (hkept : op ≠ .deleteQueue queue)
    (h : Entries.has queue s.queues = true) : Entries.has queue (s.after now op).queues = true := by
  cases op with
  | createQueue name =>
      show Entries.has queue (s.createQueue name).queues = true
      rw [has_createQueue, h, Bool.true_or]
  | createTopic name =>
      show Entries.has queue (s.createTopic name).queues = true
      rw [queues_createTopic, h]
  | subscribe topic name =>
      show Entries.has queue ((s.createTopic topic).createQueue name).queues = true
      rw [has_createQueue, queues_createTopic, h, Bool.true_or]
  | failNext => exact h
  | deleteQueue name =>
      have hname : queue ≠ name := fun hname => hkept (hname ▸ rfl)
      show (Entries.get? queue (Entries.erase name s.queues)).isSome = true
      rw [Entries.get?_erase, if_neg hname]
      exact h
  | putMessage | sendToQueue | sendToTopic =>
      rw [(gains_after s now _ (by trivial)).has_iff, h]
  | look url max =>
      rcases look_cases s now url max with ⟨_, hl⟩ | ⟨_, _, _, _, _, _, _, _, hl⟩
      · rw [after, hl, h]
      · exact has_of_set (by rw [after, hl]) h
  | deleteMessage url receipt =>
      rcases deleteMessage_cases s url receipt with ⟨_, hl⟩ | ⟨_, _, _, _, _, hl⟩
      · rw [after, hl, h]
      · exact has_of_set (by rw [after, hl]) h
  | changeVisibility url receipt seconds =>
      rcases changeVisibility_cases s now url receipt seconds with
        ⟨_, hl⟩ | ⟨_, _, _, _, _, _, hl⟩
      · rw [after, hl, h]
      · exact has_of_set (by rw [after, hl]; rfl) h

theorem has_of_subscribed (s : Service) (now : Instant) {op : Operation}
    (h : queue ∈ op.subscribed topic) : Entries.has queue (s.after now op).queues = true := by
  cases op with
  | subscribe name new =>
      rw [Operation.subscribed] at h
      split at h
      · rw [List.mem_singleton.mp h]
        show Entries.has new ((s.createTopic name).createQueue new).queues = true
        rw [has_createQueue, decide_eq_true rfl, Bool.or_true]
      · cases h
  | _ => cases h

end Service

namespace Run

variable {t now : Instant} {s₀ s s' : Service} {calls : List Call} {topic body queue : String}

/-- A subscribed queue that is missing has been deleted. -/
theorem subscriber_there (h : Run t s₀ calls s) (hnew : s₀.subscriptions = [])
    (hkept : ∀ c ∈ calls, c.op ≠ .deleteQueue queue) (hsubscribed : queue ∈ s.subscribers topic) :
    Entries.has queue s.queues = true := by
  refine h.invariant (p := fun s => queue ∈ s.subscribers topic →
    Entries.has queue s.queues = true) ?_ ?_ hsubscribed
  · rw [Service.subscribers, hnew]
    nofun
  · intro c hc ih hsubscribed
    rw [Call.after, Service.subscribers_after] at hsubscribed
    rcases List.mem_append.mp hsubscribed with hbefore | hnow
    · exact Service.has_after c.now (hkept c hc) (ih hbefore)
    · exact Service.has_of_subscribed c.before c.now hnow

/-- A failed publication has published nothing, or it is cut short: a subscribed queue
has been deleted, and the log of the topic and the queues subscribed before it have what
the publication put into them. -/
theorem failed_publication {failure : Failure} (hrun : Run t s₀ calls s)
    (hnew : s₀.subscriptions = [])
    (hfails : s.sendToTopic now topic body = (.error failure, s')) :
    (s'.topics = s.topics ∧ s'.queues = s.queues ∧
        (s.failures.head? = some failure ∨ s.failures = [] ∧
          Entries.get? topic s.topics = none ∧ failure = (Refusal.noTopic topic).failure)) ∨
      s.failures = [] ∧ ∃ first gone rest, s.subscribers topic = first ++ gone :: rest ∧
        (∀ queue ∈ first, Entries.has queue s.queues = true) ∧
        Entries.has gone s.queues = false ∧ (∃ c ∈ calls, c.op = .deleteQueue gone) ∧
        failure = (Refusal.noQueue gone).failure ∧
        Service.Delivered s now topic body first s' := by
  have hpublication := s.publication now topic body
  rw [hfails] at hpublication
  cases hpublication with
  | prevented _ _ injected => exact .inl ⟨rfl, rfl, .inl (by rw [injected]; rfl)⟩
  | unknown calm missing => exact .inl ⟨rfl, rfl, .inr ⟨calm, missing, rfl⟩⟩
  | cutShort first gone rest _ calm subscribers there missing delivered =>
      refine .inr ⟨calm, first, gone, rest, subscribers, there, missing, ?_, rfl, delivered⟩
      by_contra hnone
      have hgone := hrun.subscriber_there hnew (fun c hc hop => hnone ⟨c, hc, hop⟩)
        (show gone ∈ s.subscribers topic by rw [subscribers]; simp)
      rw [missing] at hgone
      cases hgone

/-- Two queues are subscribed to a topic and the second one is deleted again. -/
def stockWithoutAudit : Service :=
  ((({} : Service).subscribe "orders" "stock").subscribe "orders" "audit").deleteQueue "audit"

theorem run_stockWithoutAudit : ∃ calls, Run 0 {} calls stockWithoutAudit :=
  ⟨_, .call (Nat.le_refl 0) (.subscribe "orders" "stock")
    (.call (Nat.le_refl 0) (.subscribe "orders" "audit")
      (.call (Nat.le_refl 0) (.deleteQueue "audit") (.done 0 _)))⟩

theorem stock_keeps_its_copy : ∃ s',
    stockWithoutAudit.sendToTopic 0 "orders" "null" =
      (.error (Refusal.noQueue "audit").failure, s') ∧
    Service.Delivered stockWithoutAudit 0 "orders" "null" ["stock"] s' := by
  obtain ⟨calls, hrun⟩ := run_stockWithoutAudit
  have hfails : (stockWithoutAudit.sendToTopic 0 "orders" "null").1 =
      .error (Refusal.noQueue "audit").failure := by decide +kernel
  refine ⟨(stockWithoutAudit.sendToTopic 0 "orders" "null").2, Prod.ext hfails rfl, ?_⟩
  rcases failed_publication hrun rfl (Prod.ext hfails rfl) with
    ⟨_, _, hinjected | ⟨_, hunknown, _⟩⟩ |
    ⟨_, first, gone, rest, hsubscribers, hthere, hmissing, _, _, hdelivered⟩
  · cases hinjected
  · cases hunknown
  · have hstock : ["stock", "audit"] = first ++ gone :: rest := hsubscribers
    match first, hstock with
    | [], hstock =>
        injection hstock with hgone
        subst hgone
        exact absurd hmissing (by decide +kernel)
    | [_], hstock =>
        injection hstock with hfirst
        subst hfirst
        exact hdelivered
    | _ :: _ :: first, hstock =>
        have hlength := congrArg List.length hstock
        simp at hlength

-- the publication is repeated once the queue is there again
example : (((stockWithoutAudit.sendToTopic 0 "orders" "null").2.createQueue "audit").sendToTopic
    0 "orders" "null").2.topicMessages "orders" = ["null", "null"] := by
  decide +kernel

/-- It is not so that a failed publication always publishes nothing. -/
theorem failed_publication_leaves_copies :
    ¬ ∀ calls s, Run 0 {} calls s → ∀ now topic body failure s',
      s.sendToTopic now topic body = (.error failure, s') →
        (∀ name, s'.topicMessages name = s.topicMessages name) ∧
          ∀ name, s'.queue? name = s.queue? name := by
  intro h
  obtain ⟨calls, hrun⟩ := run_stockWithoutAudit
  have hfails : (stockWithoutAudit.sendToTopic 0 "orders" "null").1 =
      .error (Refusal.noQueue "audit").failure := by decide +kernel
  have hsame := (h calls _ hrun 0 "orders" "null" _ _ (Prod.ext hfails rfl)).1 "orders"
  revert hsame
  decide +kernel

end Run

end MessageBridge.Amazon
