import MessageBridge.Proofs.Metrics
import MessageBridge.Proofs.Reverse.Receiving

/-!
# A run takes a prefix of its batch to rabbit

The messages of a batch are taken to rabbit in the order in which they were received,
until one of them cannot be converted or is refused. Those before it are at rabbit and
deleted, the one that failed is visible again, and those behind it have not been touched
since they were received. Deleting and making visible never fail on the way: the handles
have just been drawn and nobody else has its turn before the run is over.

The run may have to wait for its batch. A turn that finds nothing has changed nothing, and
so the last turn is the whole run.
-/

namespace MessageBridge

open Amazon (Service Stored Message)

/-- What a run leaves of a stored message. What was taken to rabbit is deleted, what
failed is visible at once, and what was behind it is invisible until the timeout of its
receipt. A message that was not received is left as it is. -/
def Amazon.Stored.fate (done : List Message) (failed : Option Message) (behind : List Message)
    (visibleAgain : Instant) (m : Stored) : Option Stored :=
  if m.id ∈ done.map (·.id) then none
  else
    match failed.filter (·.id = m.id), behind.find? (·.id = m.id) with
    | some x, _ => some { m.handedOut x visibleAgain with invisibleUntil := none }
    | none, some x => some (m.handedOut x visibleAgain)
    | none, none => some m

/-- What forwarding a batch leaves of a message that has been received before. -/
def Amazon.Stored.remains (done : List Message) (failed : Option Message) (m : Stored) :
    Option Stored :=
  if m.id ∈ done.map (·.id) then none
  else if m.id ∈ failed.toList.map (·.id) then some { m with invisibleUntil := none }
  else some m

theorem Amazon.Stored.remains_nothing : Stored.remains [] none = some := by
  funext m
  simp [Stored.remains]

theorem Amazon.Stored.remains_failed (x : Message) :
    Stored.remains [] (some x) = fun m : Stored =>
      some (if m.id = x.id then { m with invisibleUntil := none } else m) := by
  funext m
  by_cases hid : x.id = m.id
  · simp [Stored.remains, hid]
  · simp [Stored.remains, Ne.symm hid]

namespace Dispatcher

variable {d : Dispatcher} {queue text : String} {texts : List String} {x : Message}
  {batch done behind rest : List Message} {stop : Option (Message × Failure)}
  {r r₁ r' : Rabbit.Broker} {b b' : Brokers} {ms : List Stored}

/-- Rabbit accepts what becomes of some messages, one after the other: the texts. -/
inductive Accepts (d : Dispatcher) :
    Rabbit.Broker → List Message → List String → Rabbit.Broker → Prop where
  | nothing (r : Rabbit.Broker) : Accepts d r [] [] r
  | more {r r₁ r' : Rabbit.Broker} {x : Message} {rest : List Message} {text : String}
    {texts : List String} (converted : d.convert x = .ok text)
    (sent : r.send d.destination.exchange d.destination.routingKey text.toUTF8 = (.ok (), r₁))
    (later : Accepts d r₁ rest texts r') : Accepts d r (x :: rest) (text :: texts) r'

/-- A message cannot be converted, or it is refused. Rabbit has used up a failure that
somebody asked for, or not even that. -/
def Fails (d : Dispatcher) (r : Rabbit.Broker) (x : Message) (failure : Failure)
    (r' : Rabbit.Broker) : Prop :=
  (d.convert x = .error failure ∧ r' = r ∨ ∃ text, d.convert x = .ok text ∧
    r.send d.destination.exchange d.destination.routingKey text.toUTF8 = (.error failure, r')) ∧
  r' = { r with failures := r'.failures }

/-- A batch is taken to rabbit as a whole, or up to the first message that fails. -/
inductive Conveys (d : Dispatcher) (r : Rabbit.Broker) (batch : List Message) :
    List Message → List String → Option (Message × Failure) → List Message → Rabbit.Broker →
      Prop where
  | all {texts : List String} {r' : Rabbit.Broker} (accepted : d.Accepts r batch texts r') :
    Conveys d r batch batch texts none [] r'
  | cut {done behind : List Message} {texts : List String} {x : Message} {failure : Failure}
    {r₁ r' : Rabbit.Broker} (order : batch = done ++ x :: behind)
    (accepted : d.Accepts r done texts r₁) (fails : d.Fails r₁ x failure r') :
    Conveys d r batch done texts (some (x, failure)) behind r'

/-- A run succeeds unless a message has failed. -/
def conclusion {α : Type} (a : α) : Option (Message × Failure) → Except Failure α
  | none => .ok a
  | some (_, failure) => .error failure

/-- By how much a run raises a metric, its duration apart. -/
def raised (d : Dispatcher) (received forwarded : Nat) (stop : Option (Message × Failure))
    (m : Metric) : Nat :=
  (if .polled d.queueName = m then received else 0)
    + (if .pollForwarded d.queueName = m then forwarded else 0)
    + if stop.any (fun s => .pollFailed d.queueName s.2.label = m) then 1 else 0

/-! ## At rabbit -/

theorem Conveys.cons (converted : d.convert x = .ok text)
    (sent : r.send d.destination.exchange d.destination.routingKey text.toUTF8 = (.ok (), r₁))
    (h : d.Conveys r₁ rest done texts stop behind r') :
    d.Conveys r (x :: rest) (x :: done) (text :: texts) stop behind r' := by
  cases h with
  | all accepted => exact .all (.more converted sent accepted)
  | cut order accepted fails =>
      exact .cut (by rw [order, List.cons_append]) (.more converted sent accepted) fails

theorem Conveys.split (h : d.Conveys r batch done texts stop behind r') :
    batch = done ++ (stop.map Prod.fst).toList ++ behind := by
  cases h with
  | all => simp
  | cut order => simp [order]

theorem send_refused {exchange routingKey : String} {body : ByteArray} {failure : Failure}
    (h : r.send exchange routingKey body = (.error failure, r')) :
    r' = { r with failures := r'.failures } := by
  unfold Rabbit.Broker.send at h
  split at h
  · cases h
    rfl
  · split at h <;> cases h
    rfl

/-! ## One message, and all of them -/

/-- One message of a batch that has just been received: it fails and stays where it is, or
it is at rabbit and deleted. -/
theorem forward_pending (hurl : Amazon.queueOfUrl? d.receiver.url = some queue)
    (h : b.amazon.Pending queue ms (x :: rest)) :
    (∃ failure r', d.Fails b.rabbit x failure r' ∧
      d.forward x b = (.error failure, { b with rabbit := r' })) ∨
    ∃ text r₁ s', d.convert x = .ok text ∧
      b.rabbit.send d.destination.exchange d.destination.routingKey text.toUTF8 = (.ok (), r₁) ∧
      d.forward x b = (.ok (), { b with rabbit := r₁, amazon := s' }) ∧
      s'.Pending queue (ms.filter (·.id ≠ x.id)) rest ∧
      ∀ name, name ≠ queue → s'.queue? name = b.amazon.queue? name := by
  rcases d.forward_cases x b with
    ⟨failure, hconvert, hforward⟩ | ⟨text, hconvert, ⟨failure, hsend, hforward⟩ | ⟨hsend, hforward⟩⟩
  · exact .inl ⟨failure, b.rabbit, ⟨.inl ⟨hconvert, rfl⟩, rfl⟩, hforward⟩
  · refine .inl ⟨failure, _, ⟨.inr ⟨text, hconvert, Prod.ext hsend rfl⟩, ?_⟩, hforward⟩
    exact send_refused (Prod.ext hsend rfl)
  · obtain ⟨s', hdelete, hpending, hothers⟩ := h.delete hurl
    refine .inr ⟨text, _, s', hconvert, Prod.ext hsend rfl, ?_, hpending, hothers⟩
    rw [hforward, Receiver.delete]
    simp only [Brokers.onAmazon, hdelete]

theorem filterMap_remains_cons (x : Message) (done : List Message) (failed : Option Message)
    (ms : List Stored) :
    (ms.filter (·.id ≠ x.id)).filterMap (Stored.remains done failed) =
      ms.filterMap (Stored.remains (x :: done) failed) := by
  rw [List.filterMap_filter]
  congr 1
  funext m
  by_cases hid : x.id = m.id
  · simp [Stored.remains, hid]
  · simp [Stored.remains, Ne.symm hid]

theorem forwardAll_pending (hurl : Amazon.queueOfUrl? d.receiver.url = some queue) :
    ∀ (batch : List Message) (b : Brokers) (ms : List Stored),
      b.amazon.Pending queue ms batch →
      ∃ done texts stop behind b', d.forwardAll batch b = (conclusion () stop, b') ∧
        d.Conveys b.rabbit batch done texts stop behind b'.rabbit ∧
        b'.amazon.queue? queue =
          some (ms.filterMap (Stored.remains done (stop.map Prod.fst))) ∧
        (∀ name, name ≠ queue → b'.amazon.queue? name = b.amazon.queue? name) ∧
        (∀ m, b'.metrics.count m = b.metrics.count m + d.raised 0 done.length stop m) ∧
        b'.now = b.now := by
  intro batch
  induction batch with
  | nil =>
      intro b ms h
      refine ⟨[], [], none, [], b, rfl, .all (.nothing _), ?_, fun _ _ => rfl, fun m => ?_, rfl⟩
      · show b.amazon.queue? queue = some (ms.filterMap (Stored.remains [] none))
        rw [Stored.remains_nothing, List.filterMap_some]
        exact h.there
      · simp [raised]
  | cons x rest ih =>
      intro b ms h
      rcases forward_pending hurl h with
        ⟨failure, r', hfails, hforward⟩ |
        ⟨text, r₁, s', hconvert, hsend, hforward, hpending, hothers⟩
      · -- the message is made visible again and ends the run
        obtain ⟨s', hrelease, hqueue, hothers⟩ := h.release List.mem_cons_self hurl b.now
        refine ⟨[], [], some (x, failure), rest, { b with
          rabbit := r'
          amazon := s'
          metrics := b.metrics.raise (.pollFailed d.queueName failure.label) 1 }, ?_,
          .cut rfl (.nothing _) hfails, ?_, hothers, fun m => ?_, rfl⟩
        · simp only [forwardAll, hforward, Receiver.release, Brokers.onAmazon, Brokers.record,
            hrelease, conclusion]
        · show s'.queue? queue = some (ms.filterMap (Stored.remains [] (some x)))
          rw [hqueue, Stored.remains_failed, List.filterMap_eq_map']
        · simp [raised]
      · obtain ⟨done, texts, stop, behind, b', hall, hconveys, hqueue, hrest, hcounts, hnow⟩ :=
          ih ({ b with rabbit := r₁, amazon := s' }.record (.pollForwarded d.queueName)) _ hpending
        refine ⟨x :: done, text :: texts, stop, behind, b', ?_, .cons hconvert hsend hconveys,
          ?_, fun name hname => (hrest name hname).trans (hothers name hname), fun m => ?_, hnow⟩
        · simp only [forwardAll, hforward]
          exact hall
        · rw [hqueue, filterMap_remains_cons]
        · rw [hcounts]
          simp only [Brokers.record, Metrics.count_raise, raised, List.length_cons]
          split <;> omega

/-! ## One turn -/

/-- What a turn of a run comes to. It waits or ends without having done anything, or it
has received a batch: then this is taken to rabbit as far as possible, and each message of
the queue has met its fate. -/
inductive Comes (d : Dispatcher) (b : Brokers) :
    Turn Instant (Except Failure Nat) → Brokers → Prop where
  | waits (sleep : Sleep) (deadline : Instant)
    (nothing : (b.amazon.look b.now d.receiver.url d.receiver.maxMessages).1 = .ok []) :
    Comes d b (.asleep sleep deadline) b
  | empty (nothing : (b.amazon.look b.now d.receiver.url d.receiver.maxMessages).1 = .ok []) :
    Comes d b (.done (.ok 0)) (b.record (.runDuration d.queueName))
  | refused (failure : Failure)
    (fails : (b.amazon.look b.now d.receiver.url d.receiver.maxMessages).1 = .error failure) :
    Comes d b (.done (.error failure)) (b.record (.runDuration d.queueName))
  | received {batch done behind : List Message} {texts : List String}
    {stop : Option (Message × Failure)} {queue : String} {ms : List Stored} {b' : Brokers}
    (received : (b.amazon.look b.now d.receiver.url d.receiver.maxMessages).1 = .ok batch)
    (nonempty : batch ≠ [])
    (url : Amazon.queueOfUrl? d.receiver.url = some queue)
    (there : b.amazon.queue? queue = some ms) (ids : (ms.map (·.id)).Nodup)
    (shows : List.Forall₂ (fun m x => x.Shows m)
      ((ms.filter (·.isVisible b.now)).take d.receiver.maxMessages) batch)
    (conveyed : d.Conveys b.rabbit batch done texts stop behind b'.rabbit)
    (left : b'.amazon.queue? queue = some (ms.filterMap
      (Stored.fate done (stop.map Prod.fst) behind (b.now + b.amazon.visibilityMillis))))
    (others : ∀ name, name ≠ queue → b'.amazon.queue? name = b.amazon.queue? name)
    (counts : ∀ m, b'.metrics.count m = b.metrics.count m
      + d.raised batch.length done.length stop m
      + if .runDuration d.queueName = m then 1 else 0)
    (now : b'.now = b.now) :
    Comes d b (.done (conclusion batch.length stop)) b'

/-- A message that was seen by the receive comes to the same by what the batch leaves of
it as by what the whole run leaves of it. -/
theorem filterMap_fate {failed : Option Message} {visibleAgain : Instant} {seen : List Stored}
    (hsplit : batch = done ++ failed.toList ++ behind) (hapart : (batch.map (·.id)).Nodup)
    (hseen : List.Forall₂ (Stored.Seen batch visibleAgain) ms seen) :
    seen.filterMap (Stored.remains done failed) =
      ms.filterMap (Stored.fate done failed behind visibleAgain) := by
  have hunique : ∀ x ∈ batch, ∀ y ∈ batch, y.id = x.id → y = x :=
    fun x hx y hy hid => List.inj_on_of_nodup_map hapart hy hx hid
  have hids : batch.map (·.id) =
      done.map (·.id) ++ failed.toList.map (·.id) ++ behind.map (·.id) := by
    rw [hsplit, List.map_append, List.map_append]
  rw [hids, List.nodup_append, List.nodup_append] at hapart
  obtain ⟨⟨_, _, hdone⟩, _, hbefore⟩ := hapart
  -- A message was not received, or it is done, or failed, or behind the one that failed.
  refine (Amazon.filterMap_eq_of_forall₂ (fun m m' hm => ?_) hseen).symm
  rcases hm with ⟨hnot, rfl⟩ | ⟨x, hx, hshows, rfl⟩
  · rw [hids, List.mem_append, List.mem_append, not_or, not_or] at hnot
    obtain ⟨⟨hnot₁, hnot₂⟩, hnot₃⟩ := hnot
    have hfailed : failed.filter (·.id = m'.id) = none := by
      cases failed with
      | none => rfl
      | some x =>
          have hid : ¬ x.id = m'.id := fun hid => hnot₂ (by simp [hid])
          simp [hid]
    have hbehind : behind.find? (·.id = m'.id) = none := by simpa using hnot₃
    simp only [Stored.fate, Stored.remains, hnot₁, hnot₂, hfailed, hbehind, if_false]
  · have hid := hshows.id
    have hpart := hx
    rw [hsplit, List.mem_append, List.mem_append] at hpart
    rcases hpart with (hpart | hpart) | hpart
    · have hmem : m.id ∈ done.map (·.id) := List.mem_map.mpr ⟨x, hpart, hid⟩
      simp only [Stored.fate, Stored.remains, Stored.handedOut, hmem, if_true]
    · obtain rfl : failed = some x := by simpa using hpart
      have hnot : m.id ∉ done.map (·.id) :=
        fun hmem => hdone m.id hmem m.id (by simp [hid]) rfl
      have hfailed : (some x).filter (·.id = m.id) = some x := by simp [hid]
      have hmem : m.id ∈ (some x).toList.map (·.id) := by simp [hid]
      simp only [Stored.fate, Stored.remains, Stored.handedOut, hnot, hfailed, hmem, if_false,
        if_true]
    · have hmem : m.id ∈ behind.map (·.id) := List.mem_map.mpr ⟨x, hpart, hid⟩
      have hnot₁ : m.id ∉ done.map (·.id) := fun h =>
        hbefore m.id (List.mem_append_left _ h) m.id hmem rfl
      have hnot₂ : m.id ∉ failed.toList.map (·.id) := fun h =>
        hbefore m.id (List.mem_append_right _ h) m.id hmem rfl
      have hfailed : failed.filter (·.id = m.id) = none := by
        cases failed with
        | none => rfl
        | some y =>
            have hne : ¬ y.id = m.id := fun h => hnot₂ (by simp [h])
            simp [hne]
      have hbehind : behind.find? (·.id = m.id) = some x := by
        cases hfind : behind.find? (·.id = m.id) with
        | none => exact absurd hid (by simpa using List.find?_eq_none.mp hfind x hpart)
        | some y =>
            have hy : y.id = m.id := by simpa using List.find?_some hfind
            have hmem : y ∈ batch := by
              rw [hsplit]
              exact List.mem_append_right _ (List.mem_of_find?_eq_some hfind)
            rw [hunique x hx y hmem (hy.trans hid.symm)]
      simp only [Stored.fate, Stored.remains, Stored.handedOut, hnot₁, hnot₂, hfailed, hbehind,
        if_false]

/-! ## One turn, and a whole run -/

theorem comes_turn (hd : b.amazon.Distinct) (deadline : Instant) :
    d.Comes b (d.turn deadline b).1 (d.turn deadline b).2 := by
  cases hfound : (b.amazon.look b.now d.receiver.url d.receiver.maxMessages).1 with
  | error failure =>
      simp only [turn, Receiver.turn_of_error hfound, dispatch]
      exact .refused failure hfound
  | ok batch =>
      cases batch with
      | nil =>
          by_cases hwait : b.now < deadline
          · simp only [turn, Receiver.turn_of_nothing hfound, if_pos hwait]
            exact .waits _ _ hfound
          · simp only [turn, Receiver.turn_of_nothing hfound, if_neg hwait, dispatch]
            exact .empty hfound
      | cons x rest =>
          obtain ⟨queue, ms, hurl, hms⟩ : ∃ queue ms,
              Amazon.queueOfUrl? d.receiver.url = some queue ∧ b.amazon.queue? queue = some ms := by
            rcases b.amazon.look_cases b.now d.receiver.url d.receiver.maxMessages with
              ⟨_, hl⟩ | ⟨queue, ms, hurl, hms, _⟩
            · rw [hl] at hfound
              cases hfound
            · exact ⟨queue, ms, hurl, hms⟩
          obtain ⟨seen, hshows, hpending, hseen, hothers⟩ :=
            Service.pending_of_look hd hurl hms hfound
          rcases hlook : b.amazon.look b.now d.receiver.url d.receiver.maxMessages with ⟨found, s₁⟩
          rw [hlook] at hfound hpending hothers
          obtain rfl : found = .ok (x :: rest) := hfound
          obtain ⟨done, texts, stop, behind, b', hall, hconveys, hqueue, hrest, hcounts, hnow⟩ :=
            forwardAll_pending hurl (x :: rest) { b with
              amazon := s₁
              metrics := b.metrics.raise (.polled d.queueName) (x :: rest).length } seen hpending
          have hturn : d.turn deadline b = (.done (conclusion (x :: rest).length stop),
              b'.record (.runDuration d.queueName)) := by
            simp only [turn, Receiver.turn_of_batch hlook, dispatch, hall]
            cases stop <;> rfl
          rw [hturn]
          have hreceived : (b.amazon.look b.now d.receiver.url d.receiver.maxMessages).1 =
              .ok (x :: rest) := by rw [hlook]
          have hleft : ∀ name, name ≠ queue → b'.amazon.queue? name = b.amazon.queue? name :=
            fun name hname => (hrest name hname).trans (hothers name hname)
          refine .received hreceived nofun hurl hms (hd.queue_ids hms).nodup hshows hconveys ?_
            hleft (fun m => ?_) hnow
          · show b'.amazon.queue? queue = _
            rw [hqueue, filterMap_fate hconveys.split hpending.apart hseen]
          · have hm := hcounts m
            simp only [Brokers.record, Metrics.count_raise, raised, ite_self] at hm ⊢
            rw [hm]
            omega

/-- A whole run: some turns that find nothing, while the brokers may change as the relation
says, and a last one. -/
inductive Ran (d : Dispatcher) (meanwhile : Brokers → Brokers → Prop) :
    Brokers → Except Failure Nat → Brokers → Prop where
  | last {b b' : Brokers} {result : Except Failure Nat} (comes : d.Comes b (.done result) b') :
    Ran d meanwhile b result b'
  | waited {b b₁ b₂ b' : Brokers} {sleep : Sleep} {deadline : Instant}
    {result : Except Failure Nat} (comes : d.Comes b (.asleep sleep deadline) b₁)
    (between : meanwhile b₁ b₂) (rest : Ran d meanwhile b₂ result b') :
    Ran d meanwhile b result b'

theorem ran_of_driveFrom {rules : List Rule} {result : Except Failure Nat} {w' : World} :
    ∀ (budget : Nat) (deadline : Instant) (w : World) (past : List Moment),
      w.brokers.amazon.Distinct → w.Accounted past → w.rules = rules →
      World.driveFrom d.turn budget deadline w = some (result, w') →
      d.Ran (fun x y => ∃ past h, Course (MessageBridge.Interleaved rules) past x h y)
        w.brokers result w'.brokers := by
  intro budget
  induction budget with
  | zero => intro deadline w past _ _ _ h; cases h
  | succ budget ih =>
      intro deadline w past hd ha hrules h
      have hcomes := comes_turn (d := d) hd deadline
      rw [World.driveFrom] at h
      unfold World.act at h
      rcases hturn : d.turn deadline w.brokers with ⟨turned, b₁⟩
      rw [hturn] at hcomes h
      cases turned with
      | done out =>
          cases h
          exact .last hcomes
      | asleep sleep next =>
          obtain ⟨w₂, hwait, hrest⟩ := Option.bind_eq_some_iff.mp h
          have hsame : b₁ = w.brokers := by
            cases hcomes
            rfl
          have ha₁ : World.Accounted past (World.notice { w with brokers := b₁ }) := ha
          obtain ⟨h₂, hslept, hrules₂, ha₂⟩ := World.passes_wait ha₁ hwait
          have hslept : Course (MessageBridge.Interleaved rules) past b₁ h₂ w₂.brokers :=
            hrules ▸ hslept
          refine .waited hcomes ⟨past, h₂, hslept⟩
            (ih next w₂ _ ?_ ha₂ (hrules₂.trans hrules) hrest)
          refine hslept.invariant (P := fun _ b => b.amazon.Distinct) ?_ (hsame ▸ hd)
          intro h b event _ hb
          rcases Moment.amazon_cases ⟨b, event⟩ with hsame | ⟨op, _, hop⟩
          · have hsame : (b.on event).amazon = b.amazon := hsame
            rw [hsame]
            exact hb
          · have hop : (b.on event).amazon = b.amazon.after b.now op := hop
            rw [hop]
            exact hb.after b.now op

/-- A run takes a prefix of its batch to rabbit, from every state that the service can
reach: each of its turns does nothing but wait, or ends the run, and a run that the
foreground drives is made of such turns. -/
theorem runs_take_prefix {s₀ : Service} (hnew : s₀.queues = []) (d : Dispatcher) :
    (∀ t calls b deadline, Amazon.Run t s₀ calls b.amazon →
      d.Comes b (d.turn deadline b).1 (d.turn deadline b).2) ∧
    ∀ t calls (w w' : World) past result, Amazon.Run t s₀ calls w.brokers.amazon →
      w.Accounted past → w.drive d.turn (d.receiver.deadline w.brokers) = some (result, w') →
      d.Ran (fun x y => ∃ past h, Course (MessageBridge.Interleaved w.rules) past x h y)
        w.brokers result w'.brokers := by
  have hdistinct : s₀.Distinct := .of_no_queues hnew
  refine ⟨fun t calls b deadline hrun => comes_turn (hrun.distinct hdistinct) deadline, ?_⟩
  intro t calls w w' past result hrun ha hdrive
  exact ran_of_driveFrom _ _ w past (hrun.distinct hdistinct) ha rfl hdrive

def stampingStock : Dispatcher :=
  ⟨⟨"stock", Amazon.queueUrl "stock", .zero, 10⟩, ⟨"", "stock-changes"⟩, true⟩

/-- The second of three messages is `null`, which has no place for a stamp. -/
def threeChanges : Brokers where
  amazon := Service.after (Service.after (Service.after (Service.after {} 0 (.createQueue "stock"))
    0 (.putMessage "stock" "\x7b\x7d")) 0 (.putMessage "stock" "null"))
    0 (.putMessage "stock" "\x7b\x7d")

theorem run_threeChanges : ∃ calls, Amazon.Run 0 {} calls threeChanges.amazon :=
  ⟨_, .call (Nat.le_refl 0) (.createQueue "stock")
    (.call (Nat.le_refl 0) (.putMessage "stock" "\x7b\x7d")
      (.call (Nat.le_refl 0) (.putMessage "stock" "null")
        (.call (Nat.le_refl 0) (.putMessage "stock" "\x7b\x7d") (.done 0 _))))⟩

/-- The first message goes to rabbit, the second one is visible again and the third one is
not, in a turn as well as in a run. -/
theorem second_change_fails :
    stampingStock.Comes threeChanges (stampingStock.turn 0 threeChanges).1
        (stampingStock.turn 0 threeChanges).2 ∧
      (∃ result w', stampingStock.Ran
        (fun x y => ∃ past h, Course (MessageBridge.Interleaved []) past x h y)
        threeChanges result w') ∧
      ((stampingStock.turn 0 threeChanges).2.amazon.queue? "stock").map
          (List.map fun m => (m.id, m.invisibleUntil)) =
        some [(Amazon.identifier 2, none), (Amazon.identifier 3, some 30000)] := by
  obtain ⟨calls, hrun⟩ := run_threeChanges
  obtain ⟨hturns, hruns⟩ := runs_take_prefix (rfl : ({} : Service).queues = []) stampingStock
  have hcomes := hturns 0 calls threeChanges 0 hrun
  have hthere : (threeChanges.amazon.look 0 (Amazon.queueUrl "stock") 10).1 ≠ .ok [] := by
    decide +kernel
  refine ⟨hcomes, ?_, by decide +kernel⟩
  rcases hturn : stampingStock.turn 0 threeChanges with ⟨turned, b'⟩
  rw [hturn] at hcomes
  cases turned with
  | asleep sleep deadline =>
      cases hcomes with
      | waits _ _ nothing => exact absurd nothing hthere
  | done result =>
      have hdrive : ({ brokers := threeChanges } : World).drive stampingStock.turn
          (stampingStock.receiver.deadline threeChanges) =
            some (result, World.notice { brokers := b' }) := by
        show World.driveFrom stampingStock.turn (99999999 + 1) 0 { brokers := threeChanges } = _
        rw [World.driveFrom, World.act, hturn]
      exact ⟨_, _, hruns 0 calls { brokers := threeChanges } _ [] _ hrun
        (World.accounted_of_idle rfl []) hdrive⟩

end Dispatcher

end MessageBridge
