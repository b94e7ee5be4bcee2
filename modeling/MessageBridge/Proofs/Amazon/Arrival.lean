import MessageBridge.Proofs.Amazon.Contents

/-!
# Messages stand in the order of their arrival

What arrives in a queue comes behind what is there, and the same goes for the log of
a topic. Receiving a message and hiding it change its receipt and its visibility, but
not its place. So as long as nothing is deleted from a queue, the bodies in it grow at
the end and nowhere else, whatever is done to the service.

The log of a topic forgets. It keeps the latest messages, as many as its capacity, and
a log that is shorter than that has lost nothing.
-/

namespace MessageBridge.Amazon

/-- The operation neither receives nor deletes nor hides anything in the queue, and
does not drop it. -/
def Operation.Spares (queue : String) : Operation → Prop
  | .look url _ | .deleteMessage url _ | .changeVisibility url _ _ => queueOfUrl? url ≠ some queue
  | .deleteQueue name => name ≠ queue
  | _ => True

theorem Operation.Spares.not_takes {queue : String} {op : Operation} (h : op.Spares queue)
    (m : Stored) : ¬ op.Takes queue m := by
  cases op with
  | deleteQueue name => exact fun htakes => h htakes.symm
  | deleteMessage url receipt => exact fun htakes => h htakes.1
  | _ => exact id

namespace Service

variable {s s' : Service} {queue : String} {ms : List Stored}

/-! ## One queue -/

theorem queue?_of_not_touched {name : String} {new : List Stored}
    (hqueues : s'.queues = Entries.set name new s.queues) (hname : name ≠ queue)
    (hms : s.queue? queue = some ms) : s'.queue? queue = some ms := by
  rw [queue?_of_set hqueues, if_neg (Ne.symm hname), hms]

/-- Receiving changes neither what the messages are nor their order. -/
theorem content_receiveFrom (now again : Nat) : ∀ (max drawn : Nat) (ms : List Stored),
    (receiveFrom now again drawn max ms).2.1.map Stored.content = ms.map Stored.content := by
  intro max drawn ms
  induction ms generalizing max drawn with
  | nil => cases max <;> rfl
  | cons m rest ih =>
      cases max with
      | zero => rfl
      | succ max =>
          rw [receiveFrom]
          split
          · exact congrArg (m.content :: ·) (ih max (drawn + 1))
          · exact congrArg (m.content :: ·) (ih (max + 1) drawn)

/-- An operation that deletes nothing from a queue puts messages behind those that are
there. What the messages are stays the same, and so do their receipts unless it receives
or hides some of them. -/
theorem queue?_after_of_not_takes (now : Instant) {op : Operation}
    (hkept : ∀ m, ¬ op.Takes queue m) (hms : s.queue? queue = some ms) :
    ∃ ms' added, (s.after now op).queue? queue = some (ms' ++ added) ∧
      ms'.map Stored.content = ms.map Stored.content ∧ (op.Spares queue → ms' = ms) := by
  have hsame : ∀ {s' : Service}, s'.queue? queue = some ms →
      ∃ ms' added, s'.queue? queue = some (ms' ++ added) ∧
        ms'.map Stored.content = ms.map Stored.content ∧ (op.Spares queue → ms' = ms) :=
    fun hs' => ⟨ms, [], by rw [List.append_nil]; exact hs', rfl, fun _ => rfl⟩
  have hset : ∀ {s' : Service} {name : String} {old new : List Stored},
      s'.queues = Entries.set name new s.queues → s.queue? name = some old →
      new.map Stored.content = old.map Stored.content → (op.Spares queue → name ≠ queue) →
      ∃ ms' added, s'.queue? queue = some (ms' ++ added) ∧
        ms'.map Stored.content = ms.map Stored.content ∧ (op.Spares queue → ms' = ms) := by
    intro s' name old new hqueues hold hcontent hspares
    by_cases hname : name = queue
    · subst hname
      obtain rfl : old = ms := Option.some.inj (hold.symm.trans hms)
      refine ⟨new, [], ?_, hcontent, fun h => absurd rfl (hspares h)⟩
      rw [queue?_of_set hqueues, if_pos rfl, List.append_nil]
    · exact hsame (queue?_of_not_touched hqueues hname hms)
  have hcreate : ∀ {s' : Service} name, s'.queue? queue = some ms →
      (s'.createQueue name).queue? queue = some ms := by
    intro s' name hs'
    rw [queue?_createQueue, hs']
    rfl
  have htopic : ∀ name, (s.createTopic name).queue? queue = some ms := by
    intro name
    unfold createTopic
    split <;> exact hms
  cases op with
  | createQueue name => exact hsame (hcreate name hms)
  | createTopic name => exact hsame (htopic name)
  | subscribe topic name => exact hsame (hcreate name (htopic topic))
  | failNext failure => exact hsame hms
  | putMessage | sendToQueue | sendToTopic =>
      refine ⟨ms, _, (gains_after s now _ ?_).queue? hms, rfl, fun _ => rfl⟩
      trivial
  | deleteQueue name =>
      have herase : (s.deleteQueue name).queue? queue =
          if queue = name then none else s.queue? queue :=
        Entries.get?_erase name queue s.queues
      have hname : queue ≠ name := hkept default
      exact hsame (by rw [after, herase, if_neg hname, hms])
  | look url max =>
      rw [after]
      rcases look_cases s now url max with
        ⟨_, hl⟩ | ⟨name, old, hurl, hold, out, new, drawn, hreceive, hl⟩ <;> rw [hl]
      · exact hsame hms
      · have hcontent := content_receiveFrom now (now + s.visibilityMillis) max s.drawn old
        rw [hreceive] at hcontent
        exact hset rfl hold hcontent fun h hname => h (hname ▸ hurl)
  | deleteMessage url receipt =>
      rw [after]
      rcases deleteMessage_cases s url receipt with ⟨_, hl⟩ | ⟨name, old, hurl, _, _, hl⟩ <;>
        rw [hl]
      · exact hsame hms
      · refine hsame (queue?_of_not_touched rfl (fun hname => ?_) hms)
        exact hkept { id := "", body := "", receipt := some receipt } ⟨hname ▸ hurl, rfl⟩
  | changeVisibility url receipt seconds =>
      rw [after]
      rcases changeVisibility_cases s now url receipt seconds with
        ⟨_, hl⟩ | ⟨name, old, hurl, hold, _, invisibleUntil, hl⟩ <;> rw [hl]
      · exact hsame hms
      · refine hset rfl hold (map_eq_of_forall₂ ?_ (forall₂_modifyReceived _ _ _)).symm
          fun h hname => h (hname ▸ hurl)
        rintro m m' (rfl | ⟨_, rfl⟩) <;> rfl

/-- An operation that spares a queue does nothing to it but put messages behind those
that are there. -/
theorem queue?_after_of_spares (now : Instant) {op : Operation} (h : op.Spares queue)
    (hms : s.queue? queue = some ms) :
    ∃ added, (s.after now op).queue? queue = some (ms ++ added) := by
  obtain ⟨ms', added, hafter, _, hsame⟩ := queue?_after_of_not_takes now h.not_takes hms
  exact ⟨added, by rw [hafter, hsame h]⟩

theorem bodies_of_some (hms : s.queue? queue = some ms) :
    s.bodies queue = ms.map (·.body) := by
  rw [bodies, hms]
  rfl

/-- Where nothing is deleted the bodies in a queue grow at the end. -/
theorem bodies_after (s : Service) (now : Instant) {op : Operation}
    (hkept : ∀ m, ¬ op.Takes queue m) : s.bodies queue <+: (s.after now op).bodies queue := by
  cases hms : s.queue? queue with
  | none =>
      rw [bodies, hms]
      exact List.nil_prefix
  | some ms =>
      obtain ⟨ms', added, hafter, hcontent, _⟩ := queue?_after_of_not_takes now hkept hms
      have hbodies : ms'.map (·.body) = ms.map (·.body) := by
        have hsnd := congrArg (List.map Prod.snd) hcontent
        simpa only [List.map_map, Function.comp_def, Stored.content] using hsnd
      rw [bodies_of_some hms, bodies_of_some hafter, List.map_append, hbodies]
      exact List.prefix_append _ _

theorem bodies_sendToQueue {queue body : String} (h : s.sendToQueue queue body = (.ok (), s')) :
    s'.bodies queue = s.bodies queue ++ [body] := by
  unfold sendToQueue putMessage store at h
  split at h
  · cases h
  · cases hms : s.queue? queue with
    | none =>
        simp only [hms] at h
        cases h
    | some ms =>
        simp only [hms, draw] at h
        cases h
        rw [bodies_of_some hms, bodies_of_some (queue?_of_set rfl queue |>.trans (if_pos rfl)),
          List.map_append]
        rfl

/-! ## The log of one topic -/

/-- The topics and the capacity of their logs are the same. -/
def SameLogs (s s' : Service) : Prop :=
  s'.topics = s.topics ∧ s'.logCapacity = s.logCapacity

theorem sameLogs_store (s : Service) (queue body : String) : SameLogs s (s.store queue body).2 := by
  unfold store
  split <;> exact ⟨rfl, rfl⟩

theorem sameLogs_notifyAll (now : Instant) (topic body : String) :
    ∀ (queues : List String) (s : Service), SameLogs s (s.notifyAll now topic body queues).2 := by
  intro queues
  induction queues with
  | nil => intro s; exact ⟨rfl, rfl⟩
  | cons queue rest ih =>
      intro s
      rw [notifyAll]
      have hstore := sameLogs_store s.draw.2 queue
        (notification s.draw.1 topic body (s.draw.2.clockStart + now)).write
      simp only []
      split
      · next hs => rw [hs] at hstore; exact hstore
      · next s₁ hs =>
          rw [hs] at hstore
          exact ⟨(ih s₁).1.trans hstore.1, (ih s₁).2.trans hstore.2⟩

/-- The body that an operation puts into the log of a topic. A publication puts it there
also when a subscribed queue turns out to be missing afterwards. -/
def logged? (s : Service) (topic : String) : Operation → Option String
  | .sendToTopic name body =>
    if name = topic ∧ s.failures = [] ∧ Entries.has topic s.topics then some body else none
  | _ => none

/-- Publishing ends in a failure before anything is written down, or it puts the message
into the log of the topic. -/
theorem sendToTopic_logs (s : Service) (now : Instant) (topic body : String) :
    (s.sendToTopic now topic body).2.logCapacity = s.logCapacity ∧
      ∀ name, (s.sendToTopic now topic body).2.topicMessages name =
        (s.logged? name (.sendToTopic topic body)).toList.foldl
          (Log.push s.logCapacity) (s.topicMessages name) := by
  have hlogged : ∀ name, s.logged? name (.sendToTopic topic body) =
      if topic = name ∧ s.failures = [] ∧ Entries.has name s.topics then some body else none :=
    fun _ => rfl
  simp only [hlogged]
  unfold sendToTopic
  split
  · next hfailures =>
      refine ⟨rfl, fun name => ?_⟩
      rw [if_neg (by simp [hfailures])]
      rfl
  · next hfailures =>
      split
      · next hnone =>
          refine ⟨rfl, fun name => ?_⟩
          rw [if_neg]
          · rfl
          · rintro ⟨rfl, -, hhas⟩
            simp [Entries.has, hnone] at hhas
      · next log hlog =>
          obtain ⟨htopics, hcapacity⟩ := sameLogs_notifyAll now topic body
            ((Entries.get? topic s.subscriptions).getD [])
            { s with topics := Entries.set topic (Log.push s.logCapacity log body) s.topics }
          refine ⟨hcapacity, fun name => ?_⟩
          rw [topicMessages, htopics, Entries.get?_set, topicMessages]
          by_cases hname : name = topic
          · subst hname
            have hhas : Entries.has name s.topics = true := by simp [Entries.has, hlog]
            rw [if_pos rfl, if_pos ⟨rfl, hfailures, hhas⟩, hlog]
            rfl
          · rw [if_neg hname, if_neg fun h => hname h.1.symm]
            rfl

theorem topicMessages_sendToTopic {now : Instant} {topic body : String}
    (h : s.sendToTopic now topic body = (.ok (), s')) :
    s'.topicMessages topic = Log.push s.logCapacity (s.topicMessages topic) body := by
  have hlogged : s.logged? topic (.sendToTopic topic body) = some body := by
    unfold sendToTopic at h
    split at h
    · cases h
    · next hfailures =>
        split at h
        · cases h
        · next hlog => exact if_pos ⟨rfl, hfailures, by simp [Entries.has, hlog]⟩
  have hlogs := (s.sendToTopic_logs now topic body).2 topic
  rw [h, hlogged] at hlogs
  exact hlogs

/-- The log of a topic gets what an operation puts into it, and changes by nothing else. -/
theorem logs_after (s : Service) (now : Instant) (op : Operation) (topic : String) :
    (s.after now op).logCapacity = s.logCapacity ∧
      (s.after now op).topicMessages topic =
        (s.logged? topic op).toList.foldl (Log.push s.logCapacity) (s.topicMessages topic) := by
  have hsame : ∀ {s' : Service}, SameLogs s s' → s'.logCapacity = s.logCapacity ∧
      s'.topicMessages topic = s.topicMessages topic := by
    rintro s' ⟨htopics, hcapacity⟩
    exact ⟨hcapacity, by rw [topicMessages, topicMessages, htopics]⟩
  have hput : ∀ queue body, SameLogs s (s.putMessage queue body).2 := by
    intro queue body
    have hstore := sameLogs_store s queue body
    unfold putMessage
    split
    · next hs => rw [hs] at hstore; exact hstore
    · next hs => rw [hs] at hstore; exact hstore
  have hcreate : ∀ name, (s.createTopic name).logCapacity = s.logCapacity ∧
      (s.createTopic name).topicMessages topic = s.topicMessages topic := by
    intro name
    unfold createTopic
    split
    · exact ⟨rfl, rfl⟩
    · refine ⟨rfl, ?_⟩
      rw [topicMessages, topicMessages, Entries.get?_append]
      cases Entries.get? topic s.topics with
      | some log => rfl
      | none => rw [Option.none_or]; split <;> rfl
  have hqueue : ∀ (s' : Service) name, SameLogs s' (s'.createQueue name) := by
    intro s' name
    unfold createQueue
    split <;> exact ⟨rfl, rfl⟩
  cases op with
  | createQueue name => exact hsame (hqueue s name)
  | createTopic name => exact hcreate name
  | subscribe name queue =>
      obtain ⟨htopics, hcapacity⟩ := hqueue (s.createTopic name) queue
      refine ⟨hcapacity.trans (hcreate name).1, ?_⟩
      refine Eq.trans ?_ (hcreate name).2
      show (Entries.get? topic ((s.createTopic name).createQueue queue).topics).getD [] = _
      rw [htopics]
      rfl
  | failNext | deleteQueue => exact hsame ⟨rfl, rfl⟩
  | putMessage queue body => exact hsame (hput queue body)
  | sendToQueue queue body =>
      refine hsame ?_
      have hput := hput queue body
      show SameLogs s (s.sendToQueue queue body).2
      unfold sendToQueue
      split
      · exact ⟨rfl, rfl⟩
      · split
        · next hs => rw [hs] at hput; exact hput
        · next hs => rw [hs] at hput; exact hput
  | sendToTopic name body =>
      obtain ⟨hcapacity, hlogs⟩ := s.sendToTopic_logs now name body
      exact ⟨hcapacity, hlogs topic⟩
  | look url max =>
      rcases look_cases s now url max with ⟨_, hl⟩ | ⟨_, _, _, _, _, _, _, _, hl⟩ <;>
        (rw [after, hl]; exact hsame ⟨rfl, rfl⟩)
  | deleteMessage url receipt =>
      rcases deleteMessage_cases s url receipt with ⟨_, hl⟩ | ⟨_, _, _, _, _, hl⟩ <;>
        (rw [after, hl]; exact hsame ⟨rfl, rfl⟩)
  | changeVisibility url receipt seconds =>
      rcases changeVisibility_cases s now url receipt seconds with
        ⟨_, hl⟩ | ⟨_, _, _, _, _, _, hl⟩ <;>
        (rw [after, hl]; exact hsame ⟨rfl, rfl⟩)

/-- The log of a topic changes only by messages that are put in at the end. -/
theorem topicMessages_after (s : Service) (now : Instant) (op : Operation) (topic : String) :
    (s.after now op).logCapacity = s.logCapacity ∧
      ((s.after now op).topicMessages topic = s.topicMessages topic ∨
        ∃ body, (s.after now op).topicMessages topic =
          Log.push s.logCapacity (s.topicMessages topic) body) := by
  obtain ⟨hcapacity, hlog⟩ := s.logs_after now op topic
  refine ⟨hcapacity, ?_⟩
  cases hlogged : s.logged? topic op with
  | none => exact .inl (hlog.trans (by rw [hlogged]; rfl))
  | some body => exact .inr ⟨body, hlog.trans (by rw [hlogged]; rfl)⟩

end Service

end MessageBridge.Amazon
