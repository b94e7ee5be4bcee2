import MessageBridge.Proofs.Amazon.Identifiers

/-!
# Runs of a service

A run is what clients ask of a service, call by call. Each call has its moment,
and the clock does not go back. Calls remember the service that they found, so a
run can be cut at any of its calls.

What a call does to the stored messages is said once, backwards: a message that is
there afterwards has just been handed out, has just been put in, or was there
before. In the last case the call has not received it, and its visibility is what
it was unless the call was made to change it. What is to hold of the messages of a
run is shown from these `Origin`s.
-/

namespace MessageBridge.Amazon

/-- Something that was asked of a service. -/
structure Call where
  before : Service
  now : Instant
  op : Operation

namespace Call

def after (c : Call) : Service :=
  c.before.after c.now c.op

/-- The call received the message from the queue of this name. -/
def HandsOut (c : Call) (queue : String) (x : Message) : Prop :=
  ∃ url max out, c.op = .look url max ∧ queueOfUrl? url = some queue ∧
    (c.before.look c.now url max).1 = .ok out ∧ x ∈ out

/-- The call received a message of this id. -/
def Receives (c : Call) (id : String) : Prop :=
  ∃ queue x, c.HandsOut queue x ∧ x.id = id

/-- The call changed the visibility of what lies under the receipt handle. -/
def ChangesVisibility (c : Call) (receipt : String) : Prop :=
  ∃ url seconds, c.op = .changeVisibility url receipt seconds ∧
    (c.before.changeVisibility c.now url receipt seconds).1 = .ok ()

end Call

/-- Calls one after the other, from some moment on. -/
inductive Run : Instant → Service → List Call → Service → Prop where
  | done (t : Instant) (s : Service) : Run t s [] s
  | call {t now : Instant} {s s' : Service} {calls : List Call} (later : t ≤ now)
    (op : Operation) (rest : Run now (s.after now op) calls s') :
    Run t s (⟨s, now, op⟩ :: calls) s'

namespace Run

variable {t : Instant} {s s' : Service} {calls : List Call}

theorem le_now (h : Run t s calls s') : ∀ c ∈ calls, t ≤ c.now := by
  induction h with
  | done => nofun
  | call later op _ ih =>
      intro c hc
      rcases List.mem_cons.mp hc with rfl | hc
      · exact later
      · exact Nat.le_trans later (ih c hc)

theorem split {first later : List Call} {c : Call} (h : Run t s (first ++ c :: later) s') :
    Run t s first c.before ∧ Run c.now c.after later s' := by
  induction first generalizing t s with
  | nil =>
      cases h with
      | call _ op rest => exact ⟨.done t s, rest⟩
  | cons c₀ first ih =>
      cases h with
      | call hle op rest => exact ⟨.call hle op (ih rest).1, (ih rest).2⟩

/-- What no call of the run breaks holds at its end. -/
theorem invariant {p : Service → Prop} (h : Run t s calls s') (hs : p s)
    (hstep : ∀ c ∈ calls, p c.before → p c.after) : p s' := by
  induction h with
  | done => exact hs
  | call _ op _ ih =>
      exact ih (hstep _ List.mem_cons_self hs) fun c hc => hstep c (List.mem_cons_of_mem _ hc)

theorem distinct (h : Run t s calls s') (hs : s.Distinct) : s'.Distinct :=
  h.invariant hs fun c _ hc => hc.after c.now c.op

end Run

namespace Service

variable {s s' : Service}

/-! ## Which messages are stored after an operation -/

theorem stores_of_set {queue name : String} {ms : List Stored} {m : Stored}
    (h : s'.queues = Entries.set queue ms s.queues) (hm : s'.Stores name m) :
    name = queue ∧ m ∈ ms ∨ name ≠ queue ∧ s.Stores name m := by
  obtain ⟨xs, hxs, hm⟩ := hm
  rw [queue?_of_set h] at hxs
  split at hxs
  · next hname =>
      injection hxs with hxs
      exact .inl ⟨hname, hxs ▸ hm⟩
  · next hname => exact .inr ⟨hname, xs, hxs, hm⟩

theorem stores_of_queues {queue : String} {m : Stored} (h : s'.queues = s.queues)
    (hm : s'.Stores queue m) : s.Stores queue m := by
  obtain ⟨ms, hms, hm⟩ := hm
  unfold queue? at hms
  exact ⟨ms, by rw [queue?, ← h, hms], hm⟩

theorem stores_createTopic {name queue : String} {m : Stored}
    (hm : (s.createTopic name).Stores queue m) : s.Stores queue m := by
  unfold createTopic at hm
  split at hm
  · exact hm
  · exact hm

theorem queue?_createQueue (s : Service) (name queue : String) :
    (s.createQueue name).queue? queue =
      (s.queue? queue).or (if queue = name then some [] else none) := by
  unfold createQueue
  split
  · next hthere =>
      rw [has_queues] at hthere
      obtain ⟨ms, hms⟩ := Option.isSome_iff_exists.mp hthere
      split
      · next hname => rw [hname, hms]; rfl
      · rw [Option.or_none]
  · exact Entries.get?_append queue name [] s.queues

theorem stores_createQueue {name queue : String} {m : Stored}
    (hm : (s.createQueue name).Stores queue m) : s.Stores queue m := by
  obtain ⟨ms, hms, hm⟩ := hm
  rw [queue?_createQueue] at hms
  cases hold : s.queue? queue with
  | some old =>
      rw [hold] at hms
      injection hms with hms
      exact ⟨old, hold, hms ▸ hm⟩
  | none =>
      rw [hold, Option.none_or] at hms
      split at hms
      · injection hms with hms
        subst hms
        cases hm
      · cases hms

theorem stores_deleteQueue {name queue : String} {m : Stored}
    (hm : (s.deleteQueue name).Stores queue m) : s.Stores queue m := by
  obtain ⟨ms, hms, hm⟩ := hm
  unfold deleteQueue queue? at hms
  rw [Entries.get?_erase] at hms
  split at hms
  · cases hms
  · exact ⟨ms, hms, hm⟩

theorem Gains.drawn_le {ds : List Deposit} (h : Gains s ds s') : s.drawn ≤ s'.drawn := by
  induction h with
  | idle _ hdrawn => exact hdrawn
  | stored _ _ _ hdrawn => omega
  | trans _ _ ih₁ ih₂ => exact Nat.le_trans ih₁ ih₂

/-- A message that was put in lies in a queue that was there, has a new id and has not
been received. -/
theorem Gains.stores {ds : List Deposit} (h : Gains s ds s') {queue : String} {m : Stored}
    (hm : s'.Stores queue m) :
    s.Stores queue m ∨ Entries.has queue s.queues = true ∧ m.receipt = none ∧
      ∃ k, s.drawn < k ∧ m.id = identifier k := by
  induction h with
  | idle hqueues _ => exact .inl (stores_of_queues hqueues hm)
  | @stored s s' ms d there queues hid _ =>
      rcases stores_of_set queues hm with ⟨rfl, hmem⟩ | ⟨_, hold⟩
      · rcases List.mem_append.mp hmem with hmem | hmem
        · exact .inl ⟨ms, there, hmem⟩
        · rw [List.mem_singleton] at hmem
          subst hmem
          exact .inr ⟨by rw [has_queues, there]; rfl, rfl, s.drawn + 1, Nat.lt_succ_self _, hid⟩
      · exact .inl hold
  | trans first _ ih₁ ih₂ =>
      rcases ih₂ hm with hm | ⟨hthere, hunread, k, hk, hid⟩
      · exact ih₁ hm
      · rw [first.has_iff] at hthere
        exact .inr ⟨hthere, hunread, k, Nat.lt_of_le_of_lt first.drawn_le hk, hid⟩

/-! ## The visibility timeout -/

theorem visibilityMillis_store (s : Service) (queue body : String) :
    (s.store queue body).2.visibilityMillis = s.visibilityMillis := by
  unfold store
  split <;> rfl

theorem visibilityMillis_notifyAll (now : Instant) (topic body : String) :
    ∀ (queues : List String) (s : Service),
      (s.notifyAll now topic body queues).2.visibilityMillis = s.visibilityMillis := by
  intro queues
  induction queues with
  | nil => intro s; rfl
  | cons queue rest ih =>
      intro s
      rw [notifyAll]
      simp only []
      have hstore := visibilityMillis_store s.draw.2 queue
        (notification s.draw.1 topic body (s.draw.2.clockStart + now)).write
      split
      · next h => rw [h] at hstore; exact hstore
      · next h => rw [h] at hstore; exact (ih _).trans hstore

theorem visibilityMillis_putMessage (s : Service) (queue body : String) :
    (s.putMessage queue body).2.visibilityMillis = s.visibilityMillis := by
  have hstore := visibilityMillis_store s queue body
  unfold putMessage
  split <;> next h => rw [h] at hstore; exact hstore

theorem visibilityMillis_after (s : Service) (now : Instant) (op : Operation) :
    (s.after now op).visibilityMillis = s.visibilityMillis := by
  have htopic : ∀ (s : Service) name,
      (s.createTopic name).visibilityMillis = s.visibilityMillis := by
    intro s name
    unfold createTopic
    split <;> rfl
  have hqueue : ∀ (s : Service) name,
      (s.createQueue name).visibilityMillis = s.visibilityMillis := by
    intro s name
    unfold createQueue
    split <;> rfl
  cases op with
  | createQueue queue => exact hqueue s queue
  | createTopic topic => exact htopic s topic
  | subscribe topic queue => exact (hqueue _ queue).trans (htopic s topic)
  | deleteQueue | failNext => rfl
  | putMessage queue body => exact visibilityMillis_putMessage s queue body
  | sendToQueue queue body =>
      rw [after]
      unfold sendToQueue
      have hput := visibilityMillis_putMessage s queue body
      split
      · rfl
      · split <;> next h => rw [h] at hput; exact hput
  | sendToTopic topic body =>
      rw [after]
      unfold sendToTopic
      split
      · rfl
      · split
        · rfl
        · exact visibilityMillis_notifyAll now topic body _ _
  | look url max =>
      rw [after]
      rcases look_cases s now url max with ⟨_, h⟩ | ⟨_, _, _, _, _, _, _, _, h⟩ <;> rw [h]
  | deleteMessage url receipt =>
      rw [after]
      rcases deleteMessage_cases s url receipt with ⟨_, h⟩ | ⟨_, _, _, _, _, h⟩ <;> rw [h]
  | changeVisibility url receipt seconds =>
      rw [after]
      rcases changeVisibility_cases s now url receipt seconds with
        ⟨_, h⟩ | ⟨_, _, _, _, _, _, h⟩
      · rw [h]
      · rw [h]
        rfl

end Service

/-! ## Where a stored message comes from -/

/-- Where a message that is stored after a call comes from. -/
inductive Origin (c : Call) (queue : String) (m : Stored) : Prop where
  | received (x : Message) (hands : c.HandsOut queue x) (id : m.id = x.id)
    (body : m.body = x.body) (receipt : m.receipt = some x.receipt)
    (hidden : m.invisibleUntil = some (c.now + c.before.visibilityMillis))
  | deposited (there : Entries.has queue c.before.queues = true)
    (fresh : ∃ k, c.before.drawn < k ∧ m.id = identifier k) (unread : m.receipt = none)
  | kept (m₀ : Stored) (stored : c.before.Stores queue m₀) (id : m.id = m₀.id)
    (body : m.body = m₀.body) (receipt : m.receipt = m₀.receipt)
    (untouched : ¬ c.Receives m.id)
    (visibility : m.invisibleUntil = m₀.invisibleUntil ∨
      ∃ r, m.receipt = some r ∧ c.ChangesVisibility r)

namespace Call

variable {c : Call}

theorem HandsOut.stored {queue : String} {x : Message} (h : c.HandsOut queue x) :
    ∃ m, c.before.Stores queue m ∧ m.isVisible c.now = true ∧ x.Shows m := by
  obtain ⟨url, max, out, _, hurl, hlook, hx⟩ := h
  rcases Service.look_cases c.before c.now url max with ⟨_, h⟩ |
    ⟨queue', ms, hurl', hms, out', ms', drawn, hreceive, h⟩
  · rw [h] at hlook
    cases hlook
  · rw [h] at hlook
    rw [hurl'] at hurl
    injection hlook with hlook
    injection hurl with hurl
    subst hlook hurl
    have hshows := Service.shows_receiveFrom c.now
      (c.now + c.before.visibilityMillis) max c.before.drawn ms
    rw [hreceive] at hshows
    obtain ⟨m, hm, hshow⟩ := exists_left_of_forall₂ hshows hx
    obtain ⟨hmem, hvisible⟩ := List.mem_filter.mp ((List.take_sublist _ _).subset hm)
    exact ⟨m, ⟨ms, hms, hmem⟩, hvisible, hshow⟩

theorem handsOut_iff {url : String} {max : Nat} {queue queue' : String} {out : List Message}
    {s : Service} {x : Message} (hop : c.op = .look url max)
    (hurl : queueOfUrl? url = some queue')
    (hlook : c.before.look c.now url max = (.ok out, s)) :
    c.HandsOut queue x ↔ queue = queue' ∧ x ∈ out := by
  constructor
  · rintro ⟨url₁, max₁, out₁, hop₁, hurl₁, hlook₁, hx⟩
    rw [hop] at hop₁
    injection hop₁ with hurl₂ hmax
    subst hurl₂ hmax
    rw [hurl] at hurl₁
    rw [hlook] at hlook₁
    injection hurl₁ with hqueue
    injection hlook₁ with hout
    exact ⟨hqueue.symm, hout ▸ hx⟩
  · rintro ⟨rfl, hx⟩
    exact ⟨url, max, out, hop, hurl, by rw [hlook], hx⟩

theorem not_receives (h : ∀ url max, c.op ≠ .look url max) (id : String) :
    ¬ c.Receives id := by
  rintro ⟨_, _, ⟨url, max, _, hop, _⟩, _⟩
  exact h url max hop

theorem origin_of_stored {queue : String} {m : Stored} (hm : c.before.Stores queue m)
    (h : ∀ url max, c.op ≠ .look url max) : Origin c queue m :=
  .kept m hm rfl rfl rfl (not_receives h m.id) (.inl rfl)

theorem origin_look (h : c.before.Distinct) {url : String} {max : Nat}
    (hop : c.op = .look url max) {queue : String} {m : Stored}
    (hm : c.after.Stores queue m) : Origin c queue m := by
  rw [after, hop, Service.after] at hm
  rcases Service.look_cases c.before c.now url max with ⟨_, hlook⟩ |
    ⟨queue', ms, hurl, hms, out, ms', drawn, hreceive, hlook⟩
  · rw [hlook] at hm
    refine .kept m hm rfl rfl rfl ?_ (.inl rfl)
    rintro ⟨_, _, ⟨url', max', out, hop', _, hok, _⟩, _⟩
    rw [hop] at hop'
    injection hop' with hurl hmax
    subst hurl hmax
    rw [hlook] at hok
    cases hok
  · have hhands : ∀ {q x}, c.HandsOut q x ↔ q = queue' ∧ x ∈ out := handsOut_iff hop hurl hlook
    rw [hlook] at hm
    rcases Service.stores_of_set rfl hm with ⟨rfl, hmem⟩ | ⟨hne, hstored⟩
    · have hseen := Service.seen_receiveFrom c.now (c.now + c.before.visibilityMillis) max
        c.before.drawn ms (h.queue_ids hms).nodup
      rw [hreceive] at hseen
      obtain ⟨m₀, hm₀, ⟨hnot, rfl⟩ | ⟨x, hx, hshows, rfl⟩⟩ := exists_left_of_forall₂ hseen hmem
      · refine .kept m ⟨ms, hms, hm₀⟩ rfl rfl rfl ?_ (.inl rfl)
        rintro ⟨_, x, hx, hid⟩
        exact hnot (List.mem_map.mpr ⟨x, (hhands.mp hx).2, hid⟩)
      · exact .received x (hhands.mpr ⟨rfl, hx⟩) hshows.id.symm hshows.body.symm rfl rfl
    · refine .kept m hstored rfl rfl rfl ?_ (.inl rfl)
      -- what was handed out lay in the other queue
      rintro ⟨_, x, hx, hid⟩
      obtain ⟨m₁, hm₁, _, hshows⟩ := hx.stored
      have hsame := h.eq_of_id hstored hm₁ (hid.symm.trans hshows.id)
      exact hne (hsame.1.trans (hhands.mp hx).1)

theorem origin_changeVisibility {url receipt : String} {seconds : Nat}
    (hop : c.op = .changeVisibility url receipt seconds) {queue : String} {m : Stored}
    (hm : c.after.Stores queue m) : Origin c queue m := by
  have hother : ∀ url max, c.op ≠ .look url max := by
    rw [hop]
    nofun
  rw [after, hop, Service.after] at hm
  rcases Service.changeVisibility_cases c.before c.now url receipt seconds with
    ⟨_, hchange⟩ | ⟨queue', ms, hurl, hms, _, invisibleUntil, hchange⟩
  · rw [hchange] at hm
    exact origin_of_stored hm hother
  · rw [hchange] at hm
    rcases Service.stores_of_set rfl hm with ⟨rfl, hmem⟩ | ⟨_, hstored⟩
    · obtain ⟨m₀, hm₀, rfl | ⟨hreceipt, rfl⟩⟩ :=
        exists_left_of_forall₂ (Service.forall₂_modifyReceived _ _ _) hmem
      · exact origin_of_stored ⟨ms, hms, hm₀⟩ hother
      · exact .kept m₀ ⟨ms, hms, hm₀⟩ rfl rfl rfl (not_receives hother _)
          (.inr ⟨receipt, hreceipt, url, seconds, hop, by rw [hchange]⟩)
    · exact origin_of_stored hstored hother

theorem stores_deleteMessage {s : Service} {url receipt queue : String} {m : Stored}
    (hm : (s.deleteMessage url receipt).2.Stores queue m) : s.Stores queue m := by
  rcases Service.deleteMessage_cases s url receipt with ⟨_, h⟩ | ⟨queue', ms, _, hms, _, h⟩
  · rw [h] at hm
    exact hm
  · rw [h] at hm
    rcases Service.stores_of_set rfl hm with ⟨rfl, hmem⟩ | ⟨_, hstored⟩
    · exact ⟨ms, hms, (List.mem_filter.mp hmem).1⟩
    · exact hstored

theorem origin (h : c.before.Distinct) {queue : String} {m : Stored}
    (hm : c.after.Stores queue m) : Origin c queue m := by
  obtain ⟨s, now, op⟩ := c
  cases op with
  | createQueue => exact origin_of_stored (Service.stores_createQueue hm) nofun
  | deleteQueue => exact origin_of_stored (Service.stores_deleteQueue hm) nofun
  | createTopic => exact origin_of_stored (Service.stores_createTopic hm) nofun
  | subscribe =>
      exact origin_of_stored (Service.stores_createTopic (Service.stores_createQueue hm)) nofun
  | failNext => exact origin_of_stored hm nofun
  | putMessage | sendToQueue | sendToTopic =>
      rcases (Service.gains_after s now _ (by trivial)).stores hm with
        hold | ⟨hthere, hunread, hfresh⟩
      · exact origin_of_stored hold nofun
      · exact .deposited hthere hfresh hunread
  | look => exact origin_look h rfl hm
  | deleteMessage => exact origin_of_stored (stores_deleteMessage hm) nofun
  | changeVisibility => exact origin_changeVisibility rfl hm

end Call

end MessageBridge.Amazon
