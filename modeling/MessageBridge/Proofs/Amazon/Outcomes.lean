import MessageBridge.Proofs.Amazon.Operations
import Mathlib.Data.List.Forall2
import Mathlib.Data.List.TakeWhile

/-!
# What an operation comes to

An operation on a service fails and leaves the queues alone, or it does the one
thing that it is for. Here this is said once for each of them, with the outcome
beside the queues afterwards.

What puts messages into queues is described by its `deposits`: which messages, in
which queues, under which ids. A publication to a topic deposits a copy in each
subscribed queue until one is missing, and what it has deposited by then stays, so
a failed publication can have deposits. `Gains` is a service that has got such
deposits and nothing else.

What is handed out by a look is the beginning of what is visible. The messages
themselves stay where they are, and the ones that were handed out have their new
receipts.
-/

namespace MessageBridge.Amazon

/-- A message that has been put into a queue. -/
structure Deposit where
  queue : String
  id : String
  body : String
  deriving DecidableEq, Repr

/-- The message as it is stored until it is received for the first time. -/
def Deposit.stored (d : Deposit) : Stored where
  id := d.id
  body := d.body

/-- The copies of a publication that go to some queues. A copy takes two
identifiers, the first one for the notification that is its body. -/
def copies (topic body : String) (millis : Nat) : Nat → List String → List Deposit
  | _, [] => []
  | drawn, queue :: rest =>
    ⟨queue, identifier (drawn + 2),
      (Service.notification (identifier (drawn + 1)) topic body millis).write⟩
        :: copies topic body millis (drawn + 2) rest

/-- The message as it is stored once it has been handed out. -/
def Stored.handedOut (m : Stored) (x : Message) (visibleAgain : Instant) : Stored :=
  { m with
    receipt := some x.receipt
    invisibleUntil := some visibleAgain
    receiveCount := m.receiveCount + 1 }

/-- What is handed out is the stored message, received once more. -/
structure Message.Shows (x : Message) (m : Stored) : Prop where
  id : x.id = m.id
  body : x.body = m.body
  receiveCount : x.receiveCount = m.receiveCount + 1

/-- What a look that has handed out some messages makes of a stored one. -/
def Stored.Seen (out : List Message) (visibleAgain : Instant) (m m' : Stored) : Prop :=
  (m.id ∉ out.map (·.id) ∧ m' = m) ∨ ∃ x ∈ out, x.Shows m ∧ m' = m.handedOut x visibleAgain

theorem Stored.Seen.id {out : List Message} {visibleAgain : Instant} {m m' : Stored}
    (h : m.Seen out visibleAgain m') : m.id = m'.id := by
  rcases h with ⟨_, rfl⟩ | ⟨_, _, _, rfl⟩ <;> rfl

theorem Stored.Seen.body {out : List Message} {visibleAgain : Instant} {m m' : Stored}
    (h : m.Seen out visibleAgain m') : m.body = m'.body := by
  rcases h with ⟨_, rfl⟩ | ⟨_, _, _, rfl⟩ <;> rfl

/-! ## Lists side by side -/

theorem map_eq_of_forall₂ {α β γ : Type} {r : α → β → Prop} {f : α → γ} {g : β → γ}
    (hr : ∀ a b, r a b → f a = g b) {as : List α} {bs : List β} (h : List.Forall₂ r as bs) :
    as.map f = bs.map g := by
  induction h with
  | nil => rfl
  | cons hab _ ih => rw [List.map_cons, List.map_cons, hr _ _ hab, ih]

theorem filterMap_eq_of_forall₂ {α β γ : Type} {r : α → β → Prop} {f : α → Option γ}
    {g : β → Option γ} (hr : ∀ a b, r a b → f a = g b) {as : List α} {bs : List β}
    (h : List.Forall₂ r as bs) : as.filterMap f = bs.filterMap g := by
  induction h with
  | nil => rfl
  | cons hab _ ih => rw [List.filterMap_cons, List.filterMap_cons, hr _ _ hab, ih]

theorem exists_left_of_forall₂ {α β : Type} {r : α → β → Prop} {as : List α} {bs : List β}
    (h : List.Forall₂ r as bs) {b : β} (hb : b ∈ bs) : ∃ a ∈ as, r a b := by
  induction h with
  | nil => cases hb
  | @cons a₀ b₀ as bs hab _ ih =>
      rcases List.mem_cons.mp hb with rfl | hb
      · exact ⟨a₀, List.mem_cons_self, hab⟩
      · obtain ⟨a, ha, h⟩ := ih hb
        exact ⟨a, List.mem_cons_of_mem _ ha, h⟩

namespace Service

variable {s s' s'' : Service}

/-- The messages that an operation puts into queues. -/
def deposits (s : Service) (now : Instant) : Operation → List Deposit
  | .putMessage queue body =>
    match (s.putMessage queue body).1 with
    | .ok id => [⟨queue, id, body⟩]
    | .error _ => []
  | .sendToQueue queue body =>
    match (s.sendToQueue queue body).1 with
    | .ok () => [⟨queue, identifier (s.drawn + 1), body⟩]
    | .error _ => []
  | .sendToTopic topic body =>
    match s.failures, Entries.get? topic s.topics with
    | [], some _ =>
      copies topic body (s.clockStart + now) s.drawn
        (((Entries.get? topic s.subscriptions).getD []).takeWhile fun queue =>
          Entries.has queue s.queues)
    | _, _ => []
  | _ => []

/-- Only sending puts messages into queues. -/
def Sends : Operation → Prop
  | .putMessage .. | .sendToQueue .. | .sendToTopic .. => True
  | _ => False

/-- The service has got these deposits, in this order, and its queues have not
changed otherwise. -/
inductive Gains : Service → List Deposit → Service → Prop where
  | idle {s s' : Service} (queues : s'.queues = s.queues) (drawn : s.drawn ≤ s'.drawn) :
    Gains s [] s'
  | stored {s s' : Service} {ms : List Stored} {d : Deposit}
    (there : s.queue? d.queue = some ms)
    (queues : s'.queues = Entries.set d.queue (ms ++ [d.stored]) s.queues)
    (id : d.id = identifier (s.drawn + 1)) (drawn : s'.drawn = s.drawn + 1) :
    Gains s [d] s'
  | trans {s s' s'' : Service} {ds ds' : List Deposit}
    (first : Gains s ds s') (rest : Gains s' ds' s'') : Gains s (ds ++ ds') s''

theorem Gains.refl (s : Service) : Gains s [] s :=
  .idle rfl (Nat.le_refl _)

theorem Gains.trans_idle {ds : List Deposit} (first : Gains s ds s')
    (queues : s''.queues = s'.queues) (drawn : s'.drawn ≤ s''.drawn) : Gains s ds s'' := by
  simpa using Gains.trans first (.idle queues drawn)

/-! ## Looking up queues -/

theorem queue?_of_set {queue : String} {ms : List Stored}
    (h : s'.queues = Entries.set queue ms s.queues) (name : String) :
    s'.queue? name = if name = queue then some ms else s.queue? name := by
  unfold queue?
  rw [h]
  exact Entries.get?_set queue name ms s.queues

theorem has_queues {name : String} :
    Entries.has name s.queues = (s.queue? name).isSome := rfl

/-- No queue comes or goes when messages are put into queues. -/
theorem Gains.has_iff {ds : List Deposit} (h : Gains s ds s') (name : String) :
    Entries.has name s'.queues = Entries.has name s.queues := by
  induction h with
  | idle queues _ => rw [queues]
  | stored there queues _ _ =>
      rw [has_queues, has_queues, queue?_of_set queues]
      split
      · next hname => rw [hname, there]; rfl
      · rfl
  | trans _ _ ih₁ ih₂ => rw [ih₂, ih₁]

/-! ## Sending -/

theorem store_cases (s : Service) (queue body : String) :
    (Entries.has queue s.queues = false ∧ ∃ failure, s.store queue body = (.error failure, s)) ∨
      Entries.has queue s.queues = true ∧
      ∃ s', s.store queue body = (.ok (identifier (s.drawn + 1)), s') ∧
        Gains s [⟨queue, identifier (s.drawn + 1), body⟩] s' ∧
        s'.drawn = s.drawn + 1 ∧ s'.clockStart = s.clockStart := by
  unfold store
  rw [has_queues]
  cases hms : s.queue? queue with
  | none => exact .inl ⟨rfl, _, rfl⟩
  | some ms => exact .inr ⟨rfl, _, rfl, .stored hms rfl rfl rfl, rfl, rfl⟩

theorem putMessage_cases (s : Service) (queue body : String) :
    (∃ failure, s.putMessage queue body = (.error failure, s)) ∨
      ∃ s', s.putMessage queue body = (.ok (identifier (s.drawn + 1)), s') ∧
        Gains s [⟨queue, identifier (s.drawn + 1), body⟩] s' := by
  unfold putMessage
  rcases store_cases s queue body with ⟨_, failure, h⟩ | ⟨_, s', h, hgains, _⟩
  · exact .inl ⟨failure, by rw [h]⟩
  · exact .inr ⟨s'.announce, by rw [h], hgains.trans_idle rfl (Nat.le_refl _)⟩

theorem gains_notifyAll (now : Instant) (topic body : String) :
    ∀ (queues : List String) (s : Service),
      Gains s (copies topic body (s.clockStart + now) s.drawn
        (queues.takeWhile fun queue => Entries.has queue s.queues))
        (s.notifyAll now topic body queues).2 := by
  intro queues
  induction queues with
  | nil => intro s; exact .idle rfl (Nat.le_refl _)
  | cons queue rest ih =>
      intro s
      rw [notifyAll]
      simp only []
      rcases store_cases s.draw.2 queue
        (notification s.draw.1 topic body (s.draw.2.clockStart + now)).write with
        ⟨hmissing, failure, h⟩ | ⟨hthere, s', h, hgains, hdrawn, hclock⟩
      · have hmissing : Entries.has queue s.queues = false := hmissing
        rw [h, List.takeWhile_cons_of_neg (by simp [hmissing])]
        exact .idle rfl (Nat.le_succ _)
      · have hthere : Entries.has queue s.queues = true := hthere
        have hsame : (fun queue => Entries.has queue s'.queues) =
            fun queue => Entries.has queue s.queues := funext hgains.has_iff
        have hrest := ih s'
        rw [hsame, hclock, hdrawn] at hrest
        have hdraw : Gains s [] s.draw.2 := .idle rfl (Nat.le_succ _)
        rw [h, List.takeWhile_cons_of_pos (by simp only [hthere])]
        exact hdraw.trans (hgains.trans hrest)

/-- What is sent is deposited as the operation says, and that is all. -/
theorem gains_after (s : Service) (now : Instant) (op : Operation) (h : Sends op) :
    Gains s (s.deposits now op) (s.after now op) := by
  cases op with
  | putMessage queue body =>
      rw [deposits, after]
      rcases putMessage_cases s queue body with ⟨failure, h⟩ | ⟨s', h, hgains⟩
      · rw [h]
        exact .refl s
      · rw [h]
        exact hgains
  | sendToQueue queue body =>
      rw [deposits, after]
      unfold sendToQueue
      cases hfailures : s.failures with
      | cons failure failures => exact .idle rfl (Nat.le_refl _)
      | nil =>
          simp only []
          rcases putMessage_cases s queue body with ⟨failure, h⟩ | ⟨s', h, hgains⟩
          · rw [h]
            exact .refl s
          · rw [h]
            exact hgains
  | sendToTopic topic body =>
      rw [deposits, after]
      split
      · next log hfailures htopic =>
          let logged : Service :=
            { s with topics := Entries.set topic (Log.push s.logCapacity log body) s.topics }
          have hsend : s.sendToTopic now topic body =
              logged.notifyAll now topic body ((Entries.get? topic s.subscriptions).getD []) := by
            simp only [sendToTopic, hfailures, htopic, logged]
          have hlogged : Gains s [] logged := .idle rfl (Nat.le_refl _)
          rw [hsend]
          exact hlogged.trans (gains_notifyAll now topic body _ logged)
      · next hno =>
          unfold sendToTopic
          split
          · exact .idle rfl (Nat.le_refl _)
          · next hfailures =>
              split
              · exact .refl s
              · next log htopic => exact (hno log hfailures htopic).elim
  | _ => exact h.elim

theorem deposits_of_not_sends (s : Service) (now : Instant) {op : Operation}
    (h : ¬ Sends op) :
    s.deposits now op = [] := by
  cases op with
  | putMessage | sendToQueue | sendToTopic => exact absurd trivial h
  | _ => rfl

/-! ## Receiving -/

/-- What is handed out is the beginning of what is visible. -/
theorem shows_receiveFrom (now again : Nat) :
    ∀ (max drawn : Nat) (ms : List Stored),
      List.Forall₂ (fun m x => Message.Shows x m) ((ms.filter (·.isVisible now)).take max)
        (receiveFrom now again drawn max ms).1 := by
  intro max drawn ms
  induction ms generalizing max drawn with
  | nil => cases max <;> exact .nil
  | cons m rest ih =>
      cases max with
      | zero => exact .nil
      | succ max =>
          rw [receiveFrom]
          split
          · next hvisible =>
              rw [List.filter_cons_of_pos (by simp only [hvisible]), List.take_succ_cons]
              exact .cons ⟨rfl, rfl, rfl⟩ (ih max (drawn + 1))
          · next hvisible =>
              rw [List.filter_cons_of_neg (by simp only [hvisible]; decide)]
              exact ih (max + 1) drawn

theorem ids_receiveFrom (now again max drawn : Nat) (ms : List Stored) :
    ((receiveFrom now again drawn max ms).1.map (·.id)).Sublist (ms.map (·.id)) := by
  rw [← map_eq_of_forall₂ (fun _ _ hx => hx.id.symm) (shows_receiveFrom now again max drawn ms)]
  exact ((List.take_sublist _ _).trans List.filter_sublist).map _

/-- Exactly the messages that are handed out are changed. -/
theorem seen_receiveFrom (now again : Nat) :
    ∀ (max drawn : Nat) (ms : List Stored), (ms.map (·.id)).Nodup →
      List.Forall₂ (Stored.Seen (receiveFrom now again drawn max ms).1 again) ms
        (receiveFrom now again drawn max ms).2.1 := by
  intro max drawn ms
  induction ms generalizing max drawn with
  | nil => intro _; cases max <;> exact .nil
  | cons m rest ih =>
      intro hdistinct
      obtain ⟨hnew, hrest⟩ := List.nodup_cons.mp hdistinct
      cases max with
      | zero => exact List.forall₂_same.mpr fun x _ => .inl ⟨List.not_mem_nil, rfl⟩
      | succ max =>
          rw [receiveFrom]
          split
          · refine .cons (.inr ⟨_, List.mem_cons_self, ⟨rfl, rfl, rfl⟩, rfl⟩) ?_
            -- the other messages have other ids than the one that is handed out first
            have hother : ∀ m₁ ∈ rest, m₁.id ≠ m.id :=
              fun m₁ hm₁ h => hnew (List.mem_map.mpr ⟨m₁, hm₁, h⟩)
            refine ((List.forall₂_and_left _ _).mpr ⟨hother, ih max (drawn + 1) hrest⟩).imp ?_
            rintro m₁ m₂ ⟨hne, ⟨hout, h⟩ | ⟨x, hx, h⟩⟩
            · exact .inl ⟨by simpa [hne] using hout, h⟩
            · exact .inr ⟨x, List.mem_cons_of_mem _ hx, h⟩
          · refine .cons (.inl ⟨fun h => hnew ((ids_receiveFrom ..).subset h), rfl⟩) (ih _ _ hrest)

theorem look_cases (s : Service) (now : Instant) (url : String) (max : Nat) :
    (∃ message, s.look now url max = (.error (.amazon message none), s)) ∨
      ∃ queue ms, queueOfUrl? url = some queue ∧ s.queue? queue = some ms ∧
        ∃ out ms' drawn, receiveFrom now (now + s.visibilityMillis) s.drawn max ms =
            (out, ms', drawn) ∧
          s.look now url max =
            (.ok out, { s with queues := Entries.set queue ms' s.queues, drawn }) := by
  unfold look
  cases hqueue : queueOfUrl? url with
  | none => exact .inl ⟨_, rfl⟩
  | some queue =>
      simp only [takeVisible]
      cases hms : s.queue? queue with
      | none => exact .inl ⟨_, rfl⟩
      | some ms => exact .inr ⟨queue, ms, rfl, hms, _, _, _, rfl, rfl⟩

/-! ## Settling -/

/-- Deleting by a handle fails, or something lies under the handle and goes. -/
theorem deleteMessage_cases (s : Service) (url receipt : String) :
    (∃ message, s.deleteMessage url receipt = (.error (.amazon message none), s)) ∨
      ∃ queue ms, queueOfUrl? url = some queue ∧ s.queue? queue = some ms ∧
        (∃ m ∈ ms, m.receipt = some receipt) ∧
        s.deleteMessage url receipt = (.ok (), { s with
          queues := Entries.set queue (ms.filter (·.receipt ≠ some receipt)) s.queues }) := by
  unfold deleteMessage
  cases hqueue : queueOfUrl? url with
  | none => exact .inl ⟨_, rfl⟩
  | some queue =>
      simp only []
      cases hms : s.queue? queue with
      | none => exact .inl ⟨_, rfl⟩
      | some ms =>
          simp only []
          split
          · next hany => exact .inr ⟨queue, ms, rfl, hms, by simpa using hany, rfl⟩
          · exact .inl ⟨_, rfl⟩

theorem forall₂_modifyReceived (receipt : String) (f : Stored → Stored) (ms : List Stored) :
    List.Forall₂ (fun m m' => m' = m ∨ m.receipt = some receipt ∧ m' = f m) ms
      (modifyReceived receipt f ms) := by
  induction ms with
  | nil => exact .nil
  | cons m rest ih =>
      rw [modifyReceived]
      split
      · next h => exact .cons (.inr ⟨h, rfl⟩) (List.forall₂_same.mpr fun _ _ => .inl rfl)
      · exact .cons (.inl rfl) ih

theorem changeVisibility_cases (s : Service) (now : Instant) (url receipt : String)
    (seconds : Nat) :
    (∃ message, s.changeVisibility now url receipt seconds =
        (.error (.amazon message none), s)) ∨
      ∃ queue ms, queueOfUrl? url = some queue ∧ s.queue? queue = some ms ∧
        (∃ m ∈ ms, m.receipt = some receipt) ∧
        ∃ invisibleUntil, s.changeVisibility now url receipt seconds = (.ok (), announce { s with
          queues := Entries.set queue
            (modifyReceived receipt (fun m => { m with invisibleUntil }) ms) s.queues }) := by
  unfold changeVisibility
  cases hqueue : queueOfUrl? url with
  | none => exact .inl ⟨_, rfl⟩
  | some queue =>
      simp only []
      cases hms : s.queue? queue with
      | none => exact .inl ⟨_, rfl⟩
      | some ms =>
          simp only []
          split
          · next hany => exact .inr ⟨queue, ms, rfl, hms, by simpa using hany, _, rfl⟩
          · exact .inl ⟨_, rfl⟩

end Service

end MessageBridge.Amazon
