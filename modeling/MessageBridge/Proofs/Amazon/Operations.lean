import MessageBridge.Amazon.Service
import MessageBridge.Proofs.Entries

/-!
# What clients do to an Amazon service

Everything that can be asked of a service is an `Operation`. Messages stay until
they are deleted, and only two operations delete: one drops a queue with all its
messages, the other drops what lies under a receipt handle. `Operation.Takes`
says which messages that is.

`Follows` is what is left to say about the rest. Every other message stays in
its queue with its id and its body, whatever happens to its receipts, and a
receipt handle that was not there before has just been drawn. Several operations
do several things in a row, a publication to many queues above all, and so the
relation is transitive.
-/

namespace MessageBridge

namespace Amazon

/-- Something that a client asks of a service. -/
inductive Operation where
  | createQueue (queue : String)
  | deleteQueue (queue : String)
  | createTopic (topic : String)
  | subscribe (topic queue : String)
  /-- The next send is to end in a failure. -/
  | failNext (failure : Failure)
  | putMessage (queue body : String)
  | sendToQueue (queue body : String)
  | sendToTopic (topic body : String)
  | look (url : String) (max : Nat)
  | deleteMessage (url receipt : String)
  | changeVisibility (url receipt : String) (seconds : Nat)

namespace Operation

/-- Whether an operation deletes a message that is stored in a queue. -/
def Takes (op : Operation) (queue : String) (m : Stored) : Prop :=
  match op with
  | .deleteQueue name => queue = name
  | .deleteMessage url receipt => queueOfUrl? url = some queue ∧ m.receipt = some receipt
  | _ => False

/-- Whether an operation is a deletion at all. -/
def IsDeletion : Operation → Prop
  | .deleteQueue _ | .deleteMessage _ _ => True
  | _ => False

end Operation

namespace Service

/-- The service after an operation at some moment, whatever the operation has
come to. -/
def after (s : Service) (now : Instant) : Operation → Service
  | .createQueue queue => s.createQueue queue
  | .deleteQueue queue => s.deleteQueue queue
  | .createTopic topic => s.createTopic topic
  | .subscribe topic queue => s.subscribe topic queue
  | .failNext failure => { s with failures := s.failures ++ [failure] }
  | .putMessage queue body => (s.putMessage queue body).2
  | .sendToQueue queue body => (s.sendToQueue queue body).2
  | .sendToTopic topic body => (s.sendToTopic now topic body).2
  | .look url max => (s.look now url max).2
  | .deleteMessage url receipt => (s.deleteMessage url receipt).2
  | .changeVisibility url receipt seconds => (s.changeVisibility now url receipt seconds).2

/-- The message is stored in the queue of this name. -/
def Stores (s : Service) (queue : String) (m : Stored) : Prop :=
  ∃ ms, s.queue? queue = some ms ∧ m ∈ ms

/-- A message with this id and this body is stored in the queue of this name. -/
def Holds (s : Service) (queue id body : String) : Prop :=
  ∃ m, s.Stores queue m ∧ m.id = id ∧ m.body = body

/-- What happened to the stored messages from one service to another one. -/
structure Follows (taken : String → Stored → Prop) (s s' : Service) : Prop where
  drawn : s.drawn ≤ s'.drawn
  kept : ∀ queue m, s.Stores queue m → ¬ taken queue m → s'.Holds queue m.id m.body
  receipts : ∀ queue m r, s'.Stores queue m → m.receipt = some r →
    (∃ m₀, s.Stores queue m₀ ∧ m₀.receipt = some r ∧ m₀.id = m.id ∧ m₀.body = m.body) ∨
      ∃ k, s.drawn < k ∧ k ≤ s'.drawn ∧ r = identifier k

/-- Nothing is taken away. -/
abbrev Grows : Service → Service → Prop := Follows fun _ _ => False

theorem Follows.weaken {taken taken' : String → Stored → Prop} {s s' : Service}
    (h : Follows taken s s') (himp : ∀ queue m, taken queue m → taken' queue m) :
    Follows taken' s s' :=
  ⟨h.drawn, fun queue m hm hn => h.kept queue m hm fun ht => hn (himp queue m ht),
    h.receipts⟩

theorem Grows.follows {taken : String → Stored → Prop} {s s' : Service} (h : Grows s s') :
    Follows taken s s' :=
  h.weaken fun _ _ hf => hf.elim

theorem Grows.trans {a b c : Service} (hab : Grows a b) (hbc : Grows b c) : Grows a c where
  drawn := Nat.le_trans hab.drawn hbc.drawn
  kept := by
    intro queue m hm hn
    obtain ⟨m', hm', hid, hbody⟩ := hab.kept queue m hm hn
    rw [← hid, ← hbody]
    exact hbc.kept queue m' hm' id
  receipts := by
    intro queue m r hm hr
    rcases hbc.receipts queue m r hm hr with ⟨m', hm', hr', hid', hbody'⟩ | ⟨k, hlo, hhi, hk⟩
    · rcases hab.receipts queue m' r hm' hr' with ⟨m₀, hm₀, hr₀, hid₀, hbody₀⟩ | ⟨k, hlo, hhi, hk⟩
      · exact Or.inl ⟨m₀, hm₀, hr₀, hid₀.trans hid', hbody₀.trans hbody'⟩
      · exact Or.inr ⟨k, hlo, Nat.le_trans hhi hbc.drawn, hk⟩
    · exact Or.inr ⟨k, Nat.lt_of_le_of_lt hab.drawn hlo, hhi, hk⟩

/-- Whatever leaves the queues alone. -/
theorem Grows.of_queues {s s' : Service} (hq : s'.queues = s.queues)
    (hd : s.drawn ≤ s'.drawn) : Grows s s' := by
  have hview : ∀ name, s'.queue? name = s.queue? name := by
    intro name
    unfold queue?
    rw [hq]
  refine ⟨hd, ?_, ?_⟩
  · rintro queue m ⟨ms, hms, hm⟩ _
    exact ⟨m, ⟨ms, (hview queue).trans hms, hm⟩, rfl, rfl⟩
  · rintro queue m r ⟨ms, hms, hm⟩ hr
    exact Or.inl ⟨m, ⟨ms, (hview queue).symm.trans hms, hm⟩, hr, rfl, rfl⟩

theorem Grows.refl (s : Service) : Grows s s :=
  .of_queues rfl (Nat.le_refl _)

/-- Putting another list in the place of the messages of one queue. -/
theorem Follows.set {taken : String → Stored → Prop} {s s' : Service} {queue : String}
    {old new : List Stored} (hold : s.queue? queue = some old)
    (hq : s'.queues = Entries.set queue new s.queues) (hd : s.drawn ≤ s'.drawn)
    (hkept : ∀ m ∈ old, ¬ taken queue m → ∃ m' ∈ new, m'.id = m.id ∧ m'.body = m.body)
    (hreceipts : ∀ m ∈ new, ∀ r, m.receipt = some r →
      (∃ m₀ ∈ old, m₀.receipt = some r ∧ m₀.id = m.id ∧ m₀.body = m.body) ∨
        ∃ k, s.drawn < k ∧ k ≤ s'.drawn ∧ r = identifier k) :
    Follows taken s s' := by
  have hview : ∀ name, s'.queue? name = if name = queue then some new else s.queue? name := by
    intro name
    unfold queue?
    rw [hq]
    exact Entries.get?_set queue name new s.queues
  refine ⟨hd, ?_, ?_⟩
  · rintro name m ⟨ms, hms, hm⟩ hn
    by_cases hname : name = queue
    · subst hname
      rw [hold] at hms
      injection hms with hms
      subst hms
      obtain ⟨m', hm', hid, hbody⟩ := hkept m hm hn
      exact ⟨m', ⟨new, by rw [hview, if_pos rfl], hm'⟩, hid, hbody⟩
    · exact ⟨m, ⟨ms, by rw [hview, if_neg hname, hms], hm⟩, rfl, rfl⟩
  · rintro name m r ⟨ms, hms, hm⟩ hr
    rw [hview] at hms
    by_cases hname : name = queue
    · subst hname
      rw [if_pos rfl] at hms
      injection hms with hms
      subst hms
      rcases hreceipts m hm r hr with ⟨m₀, hm₀, h₀⟩ | hfresh
      · exact Or.inl ⟨m₀, ⟨old, hold, hm₀⟩, h₀⟩
      · exact Or.inr hfresh
    · rw [if_neg hname] at hms
      exact Or.inl ⟨m, ⟨ms, hms, hm⟩, hr, rfl, rfl⟩

/-! ## Sending and receiving take nothing away -/

theorem grows_createQueue (s : Service) (name : String) : Grows s (s.createQueue name) := by
  unfold createQueue
  split
  · exact .refl s
  · next hnew =>
      have hview : ∀ queue ms, s.queue? queue = some ms →
          Entries.get? queue (s.queues ++ [(name, ([] : List Stored))]) = some ms := by
        intro queue ms h
        unfold queue? at h
        rw [Entries.get?_append, h]
        rfl
      refine ⟨Nat.le_refl _, ?_, ?_⟩
      · rintro queue m ⟨ms, hms, hm⟩ _
        exact ⟨m, ⟨ms, hview queue ms hms, hm⟩, rfl, rfl⟩
      · rintro queue m r ⟨ms, hms, hm⟩ hr
        cases hold : s.queue? queue with
        | some ms₀ =>
            rw [queue?, hview queue ms₀ hold] at hms
            injection hms with hms
            exact Or.inl ⟨m, ⟨ms₀, hold, hms ▸ hm⟩, hr, rfl, rfl⟩
        | none =>
            unfold queue? at hold hms
            rw [Entries.get?_append, hold, Option.none_or] at hms
            split at hms
            · injection hms with hms
              subst hms
              cases hm
            · cases hms

theorem grows_createTopic (s : Service) (name : String) : Grows s (s.createTopic name) := by
  unfold createTopic
  split
  · exact .refl s
  · exact .of_queues rfl (Nat.le_refl _)

theorem grows_store (s : Service) (queue body : String) : Grows s (s.store queue body).2 := by
  unfold store
  split
  · exact .refl s
  · next ms hms =>
      refine .set hms rfl (Nat.le_succ _) ?_ ?_
      · intro m hm _
        exact ⟨m, List.mem_append_left _ hm, rfl, rfl⟩
      · intro m hm r hr
        rcases List.mem_append.mp hm with hm | hm
        · exact Or.inl ⟨m, hm, hr, rfl, rfl⟩
        · rw [List.mem_singleton] at hm
          subst hm
          cases hr

theorem grows_putMessage (s : Service) (queue body : String) :
    Grows s (s.putMessage queue body).2 := by
  have hstore := grows_store s queue body
  unfold putMessage
  split
  · next h =>
      rw [h] at hstore
      exact hstore.trans (.of_queues rfl (Nat.le_refl _))
  · next h =>
      rw [h] at hstore
      exact hstore

theorem grows_sendToQueue (s : Service) (queue body : String) :
    Grows s (s.sendToQueue queue body).2 := by
  unfold sendToQueue
  split
  · exact .of_queues rfl (Nat.le_refl _)
  · have hput := grows_putMessage s queue body
    split <;> next h => rw [h] at hput; exact hput

theorem grows_notifyAll (now : Instant) (topic body : String) :
    ∀ (queues : List String) (s : Service), Grows s (s.notifyAll now topic body queues).2 := by
  intro queues
  induction queues with
  | nil => intro s; exact .of_queues rfl (Nat.le_refl _)
  | cons queue rest ih =>
      intro s
      rw [notifyAll]
      simp only []
      have hdraw : Grows s s.draw.2 := .of_queues rfl (Nat.le_succ _)
      have hstore := grows_store s.draw.2 queue
        (notification s.draw.1 topic body (s.draw.2.clockStart + now)).write
      split
      · next h =>
          rw [h] at hstore
          exact hdraw.trans hstore
      · next h =>
          rw [h] at hstore
          exact (hdraw.trans hstore).trans (ih _)

theorem grows_sendToTopic (s : Service) (now : Instant) (topic body : String) :
    Grows s (s.sendToTopic now topic body).2 := by
  unfold sendToTopic
  split
  · exact .of_queues rfl (Nat.le_refl _)
  · split
    · exact .refl s
    · next log _ =>
        simp only []
        have htopic : Grows s
            { s with topics := Entries.set topic (Log.push s.logCapacity log body) s.topics } :=
          .of_queues rfl (Nat.le_refl _)
        exact htopic.trans (grows_notifyAll now topic body _ _)

theorem drawn_receiveFrom_le (now again : Nat) :
    ∀ (max drawn : Nat) (ms : List Stored),
      drawn ≤ (receiveFrom now again drawn max ms).2.2 := by
  intro max drawn ms
  induction ms generalizing max drawn with
  | nil => cases max <;> exact Nat.le_refl _
  | cons m rest ih =>
      cases max with
      | zero => exact Nat.le_refl _
      | succ max =>
          rw [receiveFrom]
          split
          · exact Nat.le_trans (Nat.le_succ _) (ih max (drawn + 1))
          · exact ih (max + 1) drawn

/-- A received message stays where it is. -/
theorem kept_receiveFrom (now again : Nat) :
    ∀ (max drawn : Nat) (ms : List Stored), ∀ m ∈ ms,
      ∃ m' ∈ (receiveFrom now again drawn max ms).2.1, m'.id = m.id ∧ m'.body = m.body := by
  intro max drawn ms
  induction ms generalizing max drawn with
  | nil => intro m hm; cases hm
  | cons m rest ih =>
      cases max with
      | zero => intro x hx; exact ⟨x, hx, rfl, rfl⟩
      | succ max =>
          intro x hx
          rw [receiveFrom]
          split
          · rcases List.mem_cons.mp hx with rfl | hx
            · exact ⟨_, List.mem_cons_self, rfl, rfl⟩
            · obtain ⟨x', hx', h⟩ := ih max (drawn + 1) x hx
              exact ⟨x', List.mem_cons_of_mem _ hx', h⟩
          · rcases List.mem_cons.mp hx with rfl | hx
            · exact ⟨_, List.mem_cons_self, rfl, rfl⟩
            · obtain ⟨x', hx', h⟩ := ih (max + 1) drawn x hx
              exact ⟨x', List.mem_cons_of_mem _ hx', h⟩

theorem receipts_receiveFrom (now again : Nat) :
    ∀ (max drawn : Nat) (ms : List Stored),
      ∀ m ∈ (receiveFrom now again drawn max ms).2.1, ∀ r, m.receipt = some r →
        (∃ m₀ ∈ ms, m₀.receipt = some r ∧ m₀.id = m.id ∧ m₀.body = m.body) ∨
          ∃ k, drawn < k ∧ k ≤ (receiveFrom now again drawn max ms).2.2 ∧ r = identifier k := by
  intro max drawn ms
  induction ms generalizing max drawn with
  | nil => cases max <;> exact fun m hm => nomatch hm
  | cons m rest ih =>
      cases max with
      | zero => intro x hx r hr; exact Or.inl ⟨x, hx, hr, rfl, rfl⟩
      | succ max =>
          intro x hx r hr
          rw [receiveFrom] at hx ⊢
          split
          · next hvisible =>
              rw [if_pos hvisible] at hx
              rcases List.mem_cons.mp hx with rfl | hx
              · injection hr with hr
                exact Or.inr ⟨drawn + 1, Nat.lt_succ_self _,
                  drawn_receiveFrom_le now again max (drawn + 1) rest, hr.symm⟩
              · rcases ih max (drawn + 1) x hx r hr with ⟨m₀, hm₀, h⟩ | ⟨k, hlo, hhi, hk⟩
                · exact Or.inl ⟨m₀, List.mem_cons_of_mem _ hm₀, h⟩
                · exact Or.inr ⟨k, Nat.lt_of_succ_lt hlo, hhi, hk⟩
          · next hvisible =>
              rw [if_neg hvisible] at hx
              rcases List.mem_cons.mp hx with rfl | hx
              · exact Or.inl ⟨_, List.mem_cons_self, hr, rfl, rfl⟩
              · rcases ih (max + 1) drawn x hx r hr with ⟨m₀, hm₀, h⟩ | hfresh
                · exact Or.inl ⟨m₀, List.mem_cons_of_mem _ hm₀, h⟩
                · exact Or.inr hfresh

theorem grows_look (s : Service) (now : Instant) (url : String) (max : Nat) :
    Grows s (s.look now url max).2 := by
  unfold look
  split
  · exact .refl s
  · next queue _ =>
      unfold takeVisible
      split
      · exact .refl s
      · next ms hms =>
          refine .set hms rfl (drawn_receiveFrom_le ..) ?_ (receipts_receiveFrom _ _ _ _ _)
          intro m hm _
          exact kept_receiveFrom _ _ _ _ _ m hm

theorem follows_deleteMessage (s : Service) (url receipt : String) :
    Follows (fun queue m => queueOfUrl? url = some queue ∧ m.receipt = some receipt) s
      (s.deleteMessage url receipt).2 := by
  unfold deleteMessage
  split
  · exact (Grows.refl s).follows
  · next queue hqueue =>
      split
      · exact (Grows.refl s).follows
      · next ms hms =>
          split
          · refine .set hms rfl (Nat.le_refl _) ?_ ?_
            · intro m hm hn
              have hne : m.receipt ≠ some receipt := fun h => hn ⟨hqueue, h⟩
              exact ⟨m, List.mem_filter.mpr ⟨hm, by simpa using hne⟩, rfl, rfl⟩
            · intro m hm r hr
              exact Or.inl ⟨m, (List.mem_filter.mp hm).1, hr, rfl, rfl⟩
          · exact (Grows.refl s).follows

theorem kept_modifyReceived (receipt : String) {f : Stored → Stored}
    (hf : ∀ m, (f m).id = m.id ∧ (f m).body = m.body ∧ (f m).receipt = m.receipt) :
    ∀ (ms : List Stored),
      (∀ m ∈ ms, ∃ m' ∈ modifyReceived receipt f ms, m'.id = m.id ∧ m'.body = m.body) ∧
      ∀ m' ∈ modifyReceived receipt f ms,
        ∃ m ∈ ms, m.receipt = m'.receipt ∧ m.id = m'.id ∧ m.body = m'.body := by
  intro ms
  induction ms with
  | nil => simp [modifyReceived]
  | cons m rest ih =>
      rw [modifyReceived]
      split
      · refine ⟨?_, ?_⟩
        · intro x hx
          rcases List.mem_cons.mp hx with rfl | hx
          · exact ⟨f x, List.mem_cons_self, (hf x).1, (hf x).2.1⟩
          · exact ⟨x, List.mem_cons_of_mem _ hx, rfl, rfl⟩
        · intro x hx
          rcases List.mem_cons.mp hx with rfl | hx
          · exact ⟨m, List.mem_cons_self, (hf m).2.2.symm, (hf m).1.symm, (hf m).2.1.symm⟩
          · exact ⟨x, List.mem_cons_of_mem _ hx, rfl, rfl, rfl⟩
      · refine ⟨?_, ?_⟩
        · intro x hx
          rcases List.mem_cons.mp hx with rfl | hx
          · exact ⟨x, List.mem_cons_self, rfl, rfl⟩
          · obtain ⟨x', hx', h⟩ := ih.1 x hx
            exact ⟨x', List.mem_cons_of_mem _ hx', h⟩
        · intro x hx
          rcases List.mem_cons.mp hx with rfl | hx
          · exact ⟨x, List.mem_cons_self, rfl, rfl, rfl⟩
          · obtain ⟨x₀, hx₀, h⟩ := ih.2 x hx
            exact ⟨x₀, List.mem_cons_of_mem _ hx₀, h⟩

theorem grows_changeVisibility (s : Service) (now : Instant) (url receipt : String)
    (seconds : Nat) : Grows s (s.changeVisibility now url receipt seconds).2 := by
  unfold changeVisibility
  split
  · exact .refl s
  · split
    · exact .refl s
    · next ms hms =>
        split
        · simp only []
          obtain ⟨hkept, hback⟩ := kept_modifyReceived receipt
            (f := fun m => { m with
              invisibleUntil := if seconds = 0 then none else some (now + seconds * 1000) })
            (fun m => ⟨rfl, rfl, rfl⟩) ms
          refine .set hms rfl (Nat.le_refl _) (fun m hm _ => hkept m hm) ?_
          intro m hm r hr
          obtain ⟨m₀, hm₀, hreceipt, h⟩ := hback m hm
          exact Or.inl ⟨m₀, hm₀, hreceipt.trans hr, h⟩
        · exact .refl s

theorem follows_deleteQueue (s : Service) (name : String) :
    Follows (fun queue _ => queue = name) s (s.deleteQueue name) := by
  have hview : ∀ queue, (s.deleteQueue name).queue? queue =
      if queue = name then none else s.queue? queue :=
    fun queue => Entries.get?_erase name queue s.queues
  refine ⟨Nat.le_refl _, ?_, ?_⟩
  · rintro queue m ⟨ms, hms, hm⟩ hn
    exact ⟨m, ⟨ms, by rw [hview, if_neg hn, hms], hm⟩, rfl, rfl⟩
  · rintro queue m r ⟨ms, hms, hm⟩ hr
    rw [hview] at hms
    split at hms
    · cases hms
    · exact Or.inl ⟨m, ⟨ms, hms, hm⟩, hr, rfl, rfl⟩

/-- No operation takes away more than it says. -/
theorem follows_after (s : Service) (now : Instant) (op : Operation) :
    Follows op.Takes s (s.after now op) := by
  cases op with
  | createQueue queue => exact grows_createQueue s queue
  | deleteQueue queue => exact follows_deleteQueue s queue
  | createTopic topic => exact grows_createTopic s topic
  | subscribe topic queue =>
      have hcreate := (grows_createTopic s topic).trans (grows_createQueue _ queue)
      exact hcreate.trans (.of_queues rfl (Nat.le_refl _))
  | failNext failure => exact Grows.of_queues rfl (Nat.le_refl _)
  | putMessage queue body => exact grows_putMessage s queue body
  | sendToQueue queue body => exact grows_sendToQueue s queue body
  | sendToTopic topic body => exact grows_sendToTopic s now topic body
  | look url max => exact grows_look s now url max
  | deleteMessage url receipt => exact follows_deleteMessage s url receipt
  | changeVisibility url receipt seconds =>
      exact grows_changeVisibility s now url receipt seconds

end Service

end Amazon

end MessageBridge
