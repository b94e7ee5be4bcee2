import MessageBridge.Proofs.Amazon.Outcomes
import MessageBridge.Proofs.Amazon.Receipts
import Mathlib.Data.List.Flatten
import Mathlib.Data.List.Nodup
import Mathlib.Data.List.Perm.Subperm

/-!
# Every identifier names one thing

The ids of messages and the handles of receipts come from one counter, and no
number is drawn twice. So among all messages of all queues no two share an id, and
no two lie under one receipt handle. `Distinct` says this of a service, and no
operation changes it.

Only one queue changes at a time, and what is new in it has just been drawn: that
is all that `Renews` remembers of an operation, wherever the queue stands among
the others.
-/

namespace MessageBridge

namespace Amazon

/-- The identifiers differ and have all been drawn. -/
structure Drawn (drawn : Nat) (xs : List String) : Prop where
  nodup : xs.Nodup
  drawn : ∀ x ∈ xs, ∃ k ≤ drawn, x = identifier k

/-- What is in the second list is in the first one, or it has been drawn meanwhile. -/
def Renews (drawn drawn' : Nat) (xs xs' : List String) : Prop :=
  ∃ ks : List Nat, ks.Nodup ∧ (∀ k ∈ ks, drawn < k ∧ k ≤ drawn') ∧
    xs'.Subperm (ks.map identifier ++ xs)

section

variable {drawn drawn' : Nat} {xs xs' : List String}

theorem Renews.of_sublist (h : xs'.Sublist xs) : Renews drawn drawn' xs xs' :=
  ⟨[], List.nodup_nil, nofun, h.subperm⟩

theorem Renews.frame (h : Renews drawn drawn' xs xs') (before later : List String) :
    Renews drawn drawn' (before ++ (xs ++ later)) (before ++ (xs' ++ later)) := by
  obtain ⟨ks, hks, hnew, hsub⟩ := h
  refine ⟨ks, hks, hnew, ?_⟩
  have hfront := hsub.append (List.Subperm.refl (before ++ later))
  refine (List.perm_append_comm_assoc _ _ _).subperm.trans (hfront.trans ?_)
  rw [List.append_assoc]
  exact ((List.perm_append_comm_assoc _ _ _).append_left _).subperm

theorem Drawn.renew (h : Drawn drawn xs) (hle : drawn ≤ drawn')
    (hr : Renews drawn drawn' xs xs') : Drawn drawn' xs' := by
  obtain ⟨ks, hks, hnew, hsub⟩ := hr
  obtain ⟨ys, hperm, hys⟩ := id hsub
  have hapart : (ks.map identifier ++ xs).Nodup := by
    refine List.nodup_append.mpr
      ⟨hks.map fun _ _ => identifier_injective, h.nodup, ?_⟩
    rintro x hx y hy rfl
    obtain ⟨k, hk, rfl⟩ := List.mem_map.mp hx
    obtain ⟨k', hk', heq⟩ := h.drawn _ hy
    have := identifier_injective heq
    have := (hnew k hk).1
    omega
  refine ⟨hperm.nodup_iff.mp (hapart.sublist hys), fun x hx => ?_⟩
  rcases List.mem_append.mp (hsub.subset hx) with hx | hx
  · obtain ⟨k, hk, rfl⟩ := List.mem_map.mp hx
    exact ⟨k, (hnew k hk).2, rfl⟩
  · obtain ⟨k, hk, heq⟩ := h.drawn x hx
    exact ⟨k, Nat.le_trans hk hle, heq⟩

theorem Drawn.sublist (h : Drawn drawn xs) (hsub : xs'.Sublist xs) : Drawn drawn xs' :=
  h.renew (Nat.le_refl _) (.of_sublist hsub)

end

namespace Service

/-- All messages that are stored, in any queue. -/
def messages (s : Service) : List Stored :=
  s.queues.flatMap (·.2)

/-- No two messages share an id, and no two lie under one receipt handle. -/
structure Distinct (s : Service) : Prop where
  ids : Drawn s.drawn (s.messages.map (·.id))
  receipts : Drawn s.drawn (s.messages.filterMap (·.receipt))

variable {s s' : Service}

theorem split_messages {queue : String} {old : List Stored} (h : s.queue? queue = some old) :
    ∃ before later : Entries (List Stored), s.queues = before ++ (queue, old) :: later ∧
      s.messages = before.flatMap (·.2) ++ (old ++ later.flatMap (·.2)) ∧
      ∀ (s' : Service) (new : List Stored), s'.queues = Entries.set queue new s.queues →
        s'.messages = before.flatMap (·.2) ++ (new ++ later.flatMap (·.2)) := by
  obtain ⟨before, later, hqueues, hset⟩ := Entries.split_of_get? h
  refine ⟨before, later, hqueues, ?_, fun s' new hs' => ?_⟩
  · rw [messages, hqueues, List.flatMap_append, List.flatMap_cons]
  · rw [messages, hs', hset, List.flatMap_append, List.flatMap_cons]

/-- Where one queue changes, nothing else is to be compared. -/
theorem Distinct.set {queue : String} {old new : List Stored} (h : s.Distinct)
    (hold : s.queue? queue = some old) (hnew : s'.queues = Entries.set queue new s.queues)
    (hdrawn : s.drawn ≤ s'.drawn)
    (hids : Renews s.drawn s'.drawn (old.map (·.id)) (new.map (·.id)))
    (hreceipts : Renews s.drawn s'.drawn (old.filterMap (·.receipt))
      (new.filterMap (·.receipt))) : s'.Distinct := by
  obtain ⟨before, later, _, hmessages, hset⟩ := split_messages hold
  have hmessages' := hset s' new hnew
  refine ⟨h.ids.renew hdrawn ?_, h.receipts.renew hdrawn ?_⟩
  · rw [hmessages, hmessages']
    simp only [List.map_append]
    exact hids.frame _ _
  · rw [hmessages, hmessages']
    simp only [List.filterMap_append]
    exact hreceipts.frame _ _

theorem Distinct.sublist (h : s.Distinct) (hmessages : s'.messages.Sublist s.messages)
    (hdrawn : s.drawn ≤ s'.drawn) : s'.Distinct :=
  ⟨h.ids.renew hdrawn (.of_sublist (hmessages.map _)),
    h.receipts.renew hdrawn (.of_sublist (hmessages.filterMap _))⟩

theorem Distinct.of_queues (h : s.Distinct) (hqueues : s'.queues = s.queues)
    (hdrawn : s.drawn ≤ s'.drawn) : s'.Distinct :=
  h.sublist (by rw [messages, messages, hqueues]) hdrawn

theorem Distinct.of_no_queues (h : s.queues = []) : s.Distinct := by
  have hnone : s.messages = [] := by rw [messages, h]; rfl
  refine ⟨?_, ?_⟩
  all_goals
    rw [hnone]
    exact ⟨List.nodup_nil, nofun⟩

/-! ## What the ids and the handles tell -/

theorem Distinct.queue_ids {queue : String} {ms : List Stored} (h : s.Distinct)
    (hms : s.queue? queue = some ms) : Drawn s.drawn (ms.map (·.id)) := by
  obtain ⟨before, later, _, hmessages, _⟩ := split_messages hms
  refine h.ids.sublist (List.Sublist.map _ ?_)
  rw [hmessages]
  exact (List.sublist_append_left ms _).trans (List.sublist_append_right _ _)

theorem Distinct.queue_receipts {queue : String} {ms : List Stored} (h : s.Distinct)
    (hms : s.queue? queue = some ms) : Drawn s.drawn (ms.filterMap (·.receipt)) := by
  obtain ⟨before, later, _, hmessages, _⟩ := split_messages hms
  refine h.receipts.sublist (List.Sublist.filterMap _ ?_)
  rw [hmessages]
  exact (List.sublist_append_left ms _).trans (List.sublist_append_right _ _)

theorem Distinct.id_drawn {queue : String} {m : Stored} (h : s.Distinct)
    (hm : s.Stores queue m) : ∃ k ≤ s.drawn, m.id = identifier k := by
  obtain ⟨ms, hms, hm⟩ := hm
  exact (h.queue_ids hms).drawn _ (List.mem_map_of_mem hm)

theorem Distinct.sound (h : s.Distinct) : s.Sound := by
  rintro queue m r ⟨ms, hms, hm⟩ hr
  exact (h.queue_receipts hms).drawn r (List.mem_filterMap.mpr ⟨m, hm, hr⟩)

/-- An id is the id of one message, in one queue. -/
theorem Distinct.eq_of_id {queue queue' : String} {m m' : Stored} (h : s.Distinct)
    (hm : s.Stores queue m) (hm' : s.Stores queue' m') (hid : m.id = m'.id) :
    queue = queue' ∧ m = m' := by
  obtain ⟨ms, hms, hm⟩ := hm
  obtain ⟨ms', hms', hm'⟩ := hm'
  by_cases hqueue : queue = queue'
  · subst hqueue
    rw [hms] at hms'
    injection hms' with hms'
    subst hms'
    exact ⟨rfl, List.inj_on_of_nodup_map (h.queue_ids hms).nodup hm hm' hid⟩
  · -- the other queue stands before this one, or behind it
    obtain ⟨before, later, hqueues, hmessages, _⟩ := split_messages hms
    have hother : (queue', ms') ∈ before ∨ (queue', ms') ∈ later := by
      have hmem := Entries.mem_of_get? hms'
      rw [hqueues, List.mem_append, List.mem_cons] at hmem
      rcases hmem with hmem | hmem | hmem
      · exact .inl hmem
      · exact (hqueue (congrArg Prod.fst hmem).symm).elim
      · exact .inr hmem
    have hnodup := h.ids.nodup
    rw [hmessages, List.map_append, List.map_append] at hnodup
    obtain ⟨_, hrest, hbefore⟩ := List.nodup_append.mp hnodup
    have hmine : m.id ∈ ms.map (·.id) := List.mem_map_of_mem hm
    rcases hother with hother | hother
    · have htheirs : m'.id ∈ (before.flatMap (·.2)).map (·.id) :=
        List.mem_map_of_mem (List.mem_flatMap.mpr ⟨_, hother, hm'⟩)
      exact (hbefore _ htheirs _ (List.mem_append_left _ hmine) hid.symm).elim
    · have htheirs : m'.id ∈ (later.flatMap (·.2)).map (·.id) :=
        List.mem_map_of_mem (List.mem_flatMap.mpr ⟨_, hother, hm'⟩)
      exact ((List.nodup_append.mp hrest).2.2 _ hmine _ htheirs hid).elim

/-! ## Every operation keeps them apart -/

theorem Gains.distinct {ds : List Deposit} (hg : Gains s ds s') (h : s.Distinct) :
    s'.Distinct := by
  induction hg with
  | idle hqueues hdrawn => exact h.of_queues hqueues hdrawn
  | @stored s s' ms d there queues hid hdrawn =>
      refine h.set there queues (by omega) ?_ ?_
      · refine ⟨[s.drawn + 1], List.nodup_singleton _, by simp [hdrawn], ?_⟩
        rw [List.map_append, List.map_singleton, List.map_singleton, ← hid]
        exact List.perm_append_comm.subperm
      · refine .of_sublist ?_
        rw [List.filterMap_append]
        simp [Deposit.stored]
  | trans _ _ ih₁ ih₂ => exact ih₂ (ih₁ h)

theorem distinct_createQueue (h : s.Distinct) (name : String) :
    (s.createQueue name).Distinct := by
  unfold createQueue
  split
  · exact h
  · refine h.sublist ?_ (Nat.le_refl _)
    simp [messages]

theorem distinct_createTopic (h : s.Distinct) (name : String) :
    (s.createTopic name).Distinct := by
  unfold createTopic
  split
  · exact h
  · exact h.of_queues rfl (Nat.le_refl _)

theorem renews_receiveFrom (now again : Nat) :
    ∀ (max drawn : Nat) (ms : List Stored),
      Renews drawn (receiveFrom now again drawn max ms).2.2 (ms.filterMap (·.receipt))
        ((receiveFrom now again drawn max ms).2.1.filterMap (·.receipt)) := by
  intro max drawn ms
  induction ms generalizing max drawn with
  | nil => cases max <;> exact .of_sublist (List.Sublist.refl _)
  | cons m rest ih =>
      cases max with
      | zero => exact .of_sublist (List.Sublist.refl _)
      | succ max =>
          rw [receiveFrom]
          split
          · obtain ⟨ks, hks, hnew, hsub⟩ := ih max (drawn + 1)
            have hle := drawn_receiveFrom_le now again max (drawn + 1) rest
            refine ⟨(drawn + 1) :: ks, List.nodup_cons.mpr ⟨?_, hks⟩, ?_, ?_⟩
            · intro h
              exact Nat.lt_irrefl _ (hnew _ h).1
            · intro k hk
              rcases List.mem_cons.mp hk with rfl | hk
              · exact ⟨Nat.lt_succ_self _, hle⟩
              · exact ⟨Nat.lt_of_succ_lt (hnew k hk).1, (hnew k hk).2⟩
            · refine ((List.subperm_cons _).mpr hsub).trans (List.Sublist.subperm ?_)
              refine .cons_cons _ (List.Sublist.append_left ?_ _)
              rw [List.filterMap_cons]
              split
              · exact List.Sublist.refl _
              · exact List.sublist_cons_self _ _
          · have hrest := ih (max + 1) drawn
            cases hreceipt : m.receipt with
            | none => simpa [List.filterMap_cons, hreceipt] using hrest
            | some r =>
                have hframe := hrest.frame [r] []
                simpa [List.filterMap_cons, hreceipt] using hframe

theorem distinct_look (h : s.Distinct) (now : Instant) (url : String) (max : Nat) :
    (s.look now url max).2.Distinct := by
  rcases look_cases s now url max with ⟨_, hlook⟩ |
    ⟨queue, ms, _, hms, out, ms', drawn, hreceive, hlook⟩
  · rw [hlook]
    exact h
  · have hseen := seen_receiveFrom now (now + s.visibilityMillis) max s.drawn ms
      (h.queue_ids hms).nodup
    have hreceipts := renews_receiveFrom now (now + s.visibilityMillis) max s.drawn ms
    have hdrawn := drawn_receiveFrom_le now (now + s.visibilityMillis) max s.drawn ms
    rw [hreceive] at hseen hreceipts hdrawn
    rw [hlook]
    refine h.set hms rfl hdrawn (.of_sublist ?_) hreceipts
    rw [map_eq_of_forall₂ (fun m m' hm => hm.id) hseen]

theorem distinct_deleteMessage (h : s.Distinct) (url receipt : String) :
    (s.deleteMessage url receipt).2.Distinct := by
  rcases deleteMessage_cases s url receipt with ⟨_, hdelete⟩ | ⟨queue, ms, _, hms, _, hdelete⟩
  · rw [hdelete]
    exact h
  · rw [hdelete]
    refine h.set hms rfl (Nat.le_refl _) (.of_sublist ?_) (.of_sublist ?_)
    · exact List.filter_sublist.map _
    · exact List.filter_sublist.filterMap _

theorem distinct_changeVisibility (h : s.Distinct) (now : Instant) (url receipt : String)
    (seconds : Nat) : (s.changeVisibility now url receipt seconds).2.Distinct := by
  rcases changeVisibility_cases s now url receipt seconds with ⟨_, hchange⟩ |
    ⟨queue, ms, _, hms, _, invisibleUntil, hchange⟩
  · rw [hchange]
    exact h
  · have hmodified :=
      forall₂_modifyReceived receipt (fun m => { m with invisibleUntil }) ms
    have hsame : ∀ m m' : Stored, m' = m ∨ m.receipt = some receipt ∧
        m' = { m with invisibleUntil } → m.id = m'.id ∧ m.receipt = m'.receipt := by
      rintro m m' (rfl | ⟨_, rfl⟩) <;> exact ⟨rfl, rfl⟩
    rw [hchange]
    refine h.set hms rfl (Nat.le_refl _) (.of_sublist ?_) (.of_sublist ?_)
    · rw [map_eq_of_forall₂ (fun m m' hm => (hsame m m' hm).1) hmodified]
    · rw [filterMap_eq_of_forall₂ (fun m m' hm => (hsame m m' hm).2) hmodified]

/-- No operation makes two messages share an id or a receipt handle. -/
theorem Distinct.after (h : s.Distinct) (now : Instant) (op : Operation) :
    (s.after now op).Distinct := by
  by_cases hsends : Sends op
  · exact (gains_after s now op hsends).distinct h
  · cases op with
    | createQueue queue => exact distinct_createQueue h queue
    | deleteQueue queue =>
        exact h.sublist (List.filter_sublist.flatMap _) (Nat.le_refl _)
    | createTopic topic => exact distinct_createTopic h topic
    | subscribe topic queue =>
        exact (distinct_createQueue (distinct_createTopic h topic) queue).of_queues rfl
          (Nat.le_refl _)
    | failNext failure => exact h.of_queues rfl (Nat.le_refl _)
    | putMessage | sendToQueue | sendToTopic => exact absurd trivial hsends
    | look url max => exact distinct_look h now url max
    | deleteMessage url receipt => exact distinct_deleteMessage h url receipt
    | changeVisibility url receipt seconds =>
        exact distinct_changeVisibility h now url receipt seconds

end Service

end Amazon

end MessageBridge
