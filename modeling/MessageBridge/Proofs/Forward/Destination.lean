import MessageBridge.Proofs.Amazon.Arrival
import MessageBridge.Proofs.History

/-!
# What has arrived at a destination

A message that is accepted lies behind everything that was at its target before: in
the queue, or in the log of the topic. From then on others may put messages behind it.
`Collects` says which messages have arrived one after the other between two moments,
with those of others in between. Nobody changes their order, and as long as nobody
deletes from the queue, and the log of the topic is not full, none of them is lost.
-/

namespace MessageBridge

open Amazon (Service)

theorem Log.push_of_lt {α : Type} {capacity : Nat} {log : List α} {entry : α}
    (h : (Log.push capacity log entry).length < capacity) :
    log.length < capacity ∧ Log.push capacity log entry = log ++ [entry] := by
  have hlength : (log ++ [entry]).length = log.length + 1 := by simp
  unfold push latest at h ⊢
  rw [List.length_drop, hlength] at h
  rw [hlength]
  have hnone : log.length + 1 - capacity = 0 := by omega
  rw [hnone]
  exact ⟨by omega, rfl⟩

/-- A new entry is the last one of its log, unless the log keeps nothing. -/
theorem Log.push_cases {α : Type} (capacity : Nat) (log : List α) (entry : α) :
    capacity = 0 ∧ Log.push capacity log entry = [] ∨
      ∃ earlier, Log.push capacity log entry = earlier ++ [entry] := by
  unfold push latest
  cases capacity with
  | zero => exact .inl ⟨rfl, by simp⟩
  | succ n =>
      refine .inr ⟨log.drop ((log ++ [entry]).length - (n + 1)), ?_⟩
      exact List.drop_append_of_le_length (by simp)

namespace Target

/-- What lies at a target: the bodies in the queue, or the latest messages of the topic. -/
def holds (t : Target) (s : Service) : List String :=
  match t with
  | topic name => s.topicMessages name
  | queue name => s.bodies name

/-- The log of the topic holds as much as it can, so it may have forgotten messages. -/
def IsFull (t : Target) (s : Service) : Prop :=
  match t with
  | topic name => s.logCapacity ≤ (s.topicMessages name).length
  | queue _ => False

/-- The operation deletes nothing at the target. -/
def Keeps (t : Target) (op : Amazon.Operation) : Prop :=
  ∀ name m, t = queue name → ¬ op.Takes name m

/-- The text has come last to the target. A log without any capacity has forgotten it. -/
def EndsWith (t : Target) (s : Service) (text : String) : Prop :=
  (∃ earlier, t.holds s = earlier ++ [text]) ∨ t.IsFull s ∧ t.holds s = []

/-- The texts have arrived at the target in this order, behind what was there. -/
structure Collects (t : Target) (texts : List String) (s s' : Service) : Prop where
  room : ¬ t.IsFull s' → ¬ t.IsFull s
  arrived : ¬ t.IsFull s' → (t.holds s ++ texts).Sublist (t.holds s')

variable {t : Target} {texts texts' : List String} {s s' s'' : Service} {body : String}

theorem Collects.refl (t : Target) (s : Service) : t.Collects [] s s :=
  ⟨id, fun _ => by rw [List.append_nil]⟩

theorem Collects.trans (h : t.Collects texts s s') (h' : t.Collects texts' s' s'') :
    t.Collects (texts ++ texts') s s'' where
  room := fun hfull => h.room (h'.room hfull)
  arrived := by
    intro hfull
    rw [← List.append_assoc]
    exact ((h.arrived (h'.room hfull)).append_right texts').trans (h'.arrived hfull)

theorem Collects.nothing (h : t.Collects texts s s') : t.Collects [] s s' :=
  ⟨h.room, fun hfull => by
    rw [List.append_nil]
    exact (List.sublist_append_left _ _).trans (h.arrived hfull)⟩

theorem collects_of_push {name : String} (hcapacity : s'.logCapacity = s.logCapacity)
    (h : s'.topicMessages name = Log.push s.logCapacity (s.topicMessages name) body) :
    Collects (topic name) [body] s s' := by
  have hpush : ¬ IsFull (topic name) s' → (s.topicMessages name).length < s.logCapacity ∧
      s'.topicMessages name = s.topicMessages name ++ [body] := by
    intro hfull
    rw [IsFull, Nat.not_le, hcapacity, h] at hfull
    rw [h]
    exact Log.push_of_lt hfull
  exact ⟨fun hfull => Nat.not_le.mpr (hpush hfull).1,
    fun hfull => (hpush hfull).2 ▸ List.Sublist.refl _⟩

theorem Keeps.collects {op : Amazon.Operation} (h : t.Keeps op) (now : Instant) (s : Service) :
    t.Collects [] s (s.after now op) := by
  cases t with
  | queue name =>
      refine ⟨fun _ => id, fun _ => ?_⟩
      rw [List.append_nil]
      exact (s.bodies_after now fun m => h name m rfl).sublist
  | topic name =>
      obtain ⟨hcapacity, hsame | ⟨body, hpushed⟩⟩ := s.topicMessages_after now op name
      · refine ⟨fun hfull => ?_, fun _ => ?_⟩
        · rwa [IsFull, hcapacity, hsame] at hfull
        · rw [List.append_nil, holds, holds, hsame]
      · exact (collects_of_push hcapacity hpushed).nothing

theorem keeps_operation (t t' : Target) (text : String) : t.Keeps (t'.operation text) := by
  intro name m _
  cases t' <;> exact id

/-- A message that is accepted has come last to the target. -/
theorem collects_send {b : Brokers} {text : String} (h : (t.send text b).1 = .ok ()) :
    t.Collects [text] b.amazon (t.send text b).2.amazon ∧
      t.EndsWith (t.send text b).2.amazon text := by
  cases t with
  | queue name =>
      have hsent : b.amazon.sendToQueue name text =
          (.ok (), (b.amazon.sendToQueue name text).2) := Prod.ext h rfl
      have hbodies := Service.bodies_sendToQueue hsent
      exact ⟨⟨fun _ => id, fun _ => hbodies ▸ List.Sublist.refl _⟩, .inl ⟨_, hbodies⟩⟩
  | topic name =>
      have hsent : b.amazon.sendToTopic b.now name text =
          (.ok (), (b.amazon.sendToTopic b.now name text).2) := Prod.ext h rfl
      have hcapacity := (b.amazon.sendToTopic_logs b.now name text).1
      have hpushed := Service.topicMessages_sendToTopic hsent
      refine ⟨collects_of_push hcapacity hpushed, ?_⟩
      rcases Log.push_cases b.amazon.logCapacity (b.amazon.topicMessages name) text with
        ⟨hzero, hnil⟩ | ⟨earlier, hearlier⟩
      · refine .inr ⟨?_, hpushed.trans hnil⟩
        show (b.amazon.sendToTopic b.now name text).2.logCapacity ≤ _
        rw [hcapacity, hzero]
        exact Nat.zero_le _
      · exact .inl ⟨earlier, hpushed.trans hearlier⟩

end Target

/-- The event deletes nothing at the target. -/
def Event.Keeps (t : Target) (event : Event) : Prop :=
  ∀ op, event.Asks op → t.Keeps op

theorem Event.Keeps.collects {t : Target} {event : Event} (h : event.Keeps t) (b : Brokers) :
    t.Collects [] b.amazon (b.on event).amazon := by
  rcases Moment.amazon_cases ⟨b, event⟩ with hsame | ⟨op, hasks, hop⟩
  · have hsame : (b.on event).amazon = b.amazon := hsame
    rw [hsame]
    exact .refl t b.amazon
  · have hop : (b.on event).amazon = b.amazon.after b.now op := hop
    rw [hop]
    exact (h op hasks).collects b.now b.amazon

/-- A successful attempt puts what the endpoint makes of the delivery behind everything
that is at its target; no attempt takes anything away. -/
theorem Endpoint.collects_attempt (e : Endpoint) (d : Rabbit.Delivery) (b : Brokers) :
    e.target.Collects [] b.amazon (e.attempt d b).2.amazon ∧
      ((e.attempt d b).1 = .ok () → ∃ text, e.chain.transform d.bodyText = .ok text ∧
        e.target.Collects [text] b.amazon (e.attempt d b).2.amazon ∧
        e.target.EndsWith (e.attempt d b).2.amazon text) := by
  have hkeeps : (Event.attempt e d).Keeps e.target := by
    rintro op ⟨text, rfl⟩
    exact e.target.keeps_operation e.target text
  refine ⟨hkeeps.collects b, fun hok => ?_⟩
  rcases e.attempt_cases d with ⟨failure, _, h⟩ | ⟨text, htext, h⟩
  · rw [h] at hok
    cases hok
  · rcases h b with ⟨hsend, h⟩ | ⟨failure, _, h⟩
    · rw [h]
      exact ⟨text, htext, Target.collects_send hsend⟩
    · rw [h] at hok
      cases hok

theorem Consumer.collects_deliver (c : Consumer) (d : Rabbit.Delivery) (attempt : Nat)
    (b : Brokers) :
    c.endpoint.target.Collects [] b.amazon (c.deliver d attempt b).2.amazon ∧
      ((c.deliver d attempt b).1 = .done (.ok ()) →
        ∃ text, c.endpoint.chain.transform d.bodyText = .ok text ∧
          c.endpoint.target.Collects [text] b.amazon (c.deliver d attempt b).2.amazon ∧
          c.endpoint.target.EndsWith (c.deliver d attempt b).2.amazon text) := by
  fun_induction Consumer.deliver c d attempt b with
  | case1 attempt b b₁ hattempt =>
      have hcollects := c.endpoint.collects_attempt d b
      rw [hattempt] at hcollects
      exact ⟨hcollects.1, fun _ => hcollects.2 rfl⟩
  | case2 attempt b failure b₁ hattempt _ | case5 attempt b failure b₁ hattempt _ _
  | case4 attempt b failure b₁ hattempt _ _ _ _ _ =>
      have hcollects := c.endpoint.collects_attempt d b
      rw [hattempt] at hcollects
      exact ⟨hcollects.1, fun h => nomatch h⟩
  | case3 attempt b failure b₁ hattempt _ _ b₂ _ _ ih =>
      have hcollects := c.endpoint.collects_attempt d b
      rw [hattempt] at hcollects
      refine ⟨hcollects.1.trans ih.1, fun h => ?_⟩
      obtain ⟨text, htext, harrived, hlast⟩ := ih.2 h
      exact ⟨text, htext, hcollects.1.trans harrived, hlast⟩

end MessageBridge
