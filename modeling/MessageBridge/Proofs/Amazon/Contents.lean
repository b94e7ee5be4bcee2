import MessageBridge.Proofs.Amazon.Runs

/-!
# What a queue contains

A queue contains what has been put into it since it was created, in this order,
without what has been deleted by a receipt handle. Receiving changes neither the
order nor what the messages are; and neither does anything that is done to other
queues.

A deletion names a handle and not a message. It removes everything that lies under
the handle, and this is exactly one message, because no two messages share a handle.
-/

namespace MessageBridge.Amazon

/-- What a message is, whatever becomes of its receipts. -/
def Stored.content (m : Stored) : String × String :=
  (m.id, m.body)

namespace Call

/-- What the call put into a queue. -/
def depositsIn (c : Call) (queue : String) : List (String × String) :=
  ((c.before.deposits c.now c.op).filter (·.queue = queue)).map fun d => (d.id, d.body)

/-- The ids of what the call deleted from a queue by a receipt handle. -/
def removedFrom (c : Call) (queue : String) : List String :=
  match c.op with
  | .deleteMessage url receipt =>
    if queueOfUrl? url = some queue then
      match (c.before.deleteMessage url receipt).1 with
      | .ok () =>
        (((c.before.queue? queue).getD []).filter (·.receipt = some receipt)).map (·.id)
      | .error _ => []
    else []
  | _ => []

/-- The call created the queue. -/
def Creates (c : Call) (queue : String) : Prop :=
  c.before.queue? queue = none ∧ c.after.queue? queue = some []

end Call

/-- What was put into a queue by some calls. -/
def depositsIn (queue : String) (calls : List Call) : List (String × String) :=
  calls.flatMap (·.depositsIn queue)

/-- The ids of what some calls deleted from a queue by receipt handles. -/
def removedFrom (queue : String) (calls : List Call) : List String :=
  calls.flatMap (·.removedFrom queue)

theorem depositsIn_cons (queue : String) (c : Call) (calls : List Call) :
    depositsIn queue (c :: calls) = c.depositsIn queue ++ depositsIn queue calls :=
  List.flatMap_cons

theorem removedFrom_cons (queue : String) (c : Call) (calls : List Call) :
    removedFrom queue (c :: calls) = c.removedFrom queue ++ removedFrom queue calls :=
  List.flatMap_cons

namespace Service

variable {s s' : Service}

/-! ## One queue after an operation -/

theorem Gains.fresh {ds : List Deposit} (h : Gains s ds s') :
    ∀ d ∈ ds, ∃ k, s.drawn < k ∧ k ≤ s'.drawn ∧ d.id = identifier k := by
  induction h with
  | idle => nofun
  | stored _ _ hid hdrawn =>
      intro d hd
      rw [List.mem_singleton] at hd
      subst hd
      exact ⟨_, Nat.lt_succ_self _, Nat.le_of_eq hdrawn.symm, hid⟩
  | trans first rest ih₁ ih₂ =>
      intro d hd
      rcases List.mem_append.mp hd with hd | hd
      · obtain ⟨k, hlo, hhi, hid⟩ := ih₁ d hd
        exact ⟨k, hlo, Nat.le_trans hhi rest.drawn_le, hid⟩
      · obtain ⟨k, hlo, hhi, hid⟩ := ih₂ d hd
        exact ⟨k, Nat.lt_of_le_of_lt first.drawn_le hlo, hhi, hid⟩

/-- What is put in comes behind what is there, as it is stored. -/
theorem Gains.queue? {ds : List Deposit} (h : Gains s ds s') {queue : String}
    {ms : List Stored} (hms : s.queue? queue = some ms) :
    s'.queue? queue = some (ms ++ (ds.filter (·.queue = queue)).map Deposit.stored) := by
  induction h generalizing ms with
  | idle hqueues _ =>
      have hsame : Service.queue? _ queue = some ms := hms
      rw [Service.queue?, hqueues, ← Service.queue?, hsame]
      simp
  | @stored s s' ms₀ d there hqueues _ _ =>
      rw [queue?_of_set hqueues]
      by_cases hqueue : queue = d.queue
      · subst hqueue
        rw [there] at hms
        injection hms with hms
        simp [hms]
      · simp [hqueue, Ne.symm hqueue, hms]
  | trans _ _ ih₁ ih₂ => rw [ih₂ (ih₁ hms), List.filter_append, List.map_append, List.append_assoc]

theorem Gains.content {ds : List Deposit} (h : Gains s ds s') {queue : String}
    {ms : List Stored} (hms : s.queue? queue = some ms) :
    ∃ ms', s'.queue? queue = some ms' ∧ ms'.map Stored.content =
      ms.map Stored.content ++ (ds.filter (·.queue = queue)).map fun d => (d.id, d.body) :=
  ⟨_, h.queue? hms, by simp [Deposit.stored, Stored.content, Function.comp_def]⟩

theorem look_of_queue (hd : s.Distinct) {now : Instant} {url queue : String} {max : Nat}
    {ms : List Stored} (hurl : queueOfUrl? url = some queue) (hms : s.queue? queue = some ms) :
    ∃ out ms', (s.look now url max).1 = .ok out ∧
      List.Forall₂ (fun m x => Message.Shows x m) ((ms.filter (·.isVisible now)).take max) out ∧
      (s.look now url max).2.queue? queue = some ms' ∧
      List.Forall₂ (Stored.Seen out (now + s.visibilityMillis)) ms ms' ∧
      ∀ name, name ≠ queue → (s.look now url max).2.queue? name = s.queue? name := by
  have hshows := shows_receiveFrom now (now + s.visibilityMillis) max s.drawn ms
  have hseen := seen_receiveFrom now (now + s.visibilityMillis) max s.drawn ms
    (hd.queue_ids hms).nodup
  have hlook : s.look now url max =
      (.ok (receiveFrom now (now + s.visibilityMillis) s.drawn max ms).1, { s with
        queues := Entries.set queue
          (receiveFrom now (now + s.visibilityMillis) s.drawn max ms).2.1 s.queues
        drawn := (receiveFrom now (now + s.visibilityMillis) s.drawn max ms).2.2 }) := by
    simp only [look, takeVisible, hurl, hms]
  rw [hlook]
  refine ⟨_, _, rfl, hshows, ?_, hseen, fun name hname => ?_⟩
  · rw [queue?_of_set rfl, if_pos rfl]
  · rw [queue?_of_set rfl, if_neg hname]

/-- Deleting by a handle fails, or removes the one message that lies under it. -/
theorem deleteMessage_removes_one (hd : s.Distinct) (url receipt : String) :
    (∃ message, s.deleteMessage url receipt = (.error (.amazon message none), s)) ∨
      ∃ queue before m later, queueOfUrl? url = some queue ∧
        s.queue? queue = some (before ++ m :: later) ∧ m.receipt = some receipt ∧
        (s.deleteMessage url receipt).1 = .ok () ∧
        (s.deleteMessage url receipt).2.queue? queue = some (before ++ later) ∧
        ∀ name, name ≠ queue → (s.deleteMessage url receipt).2.queue? name = s.queue? name := by
  rcases deleteMessage_cases s url receipt with
    hfails | ⟨queue, ms, hurl, hms, ⟨m, hm, hreceipt⟩, hdelete⟩
  · exact .inl hfails
  · obtain ⟨before, later, rfl⟩ := List.append_of_mem hm
    have hnodup := (hd.queue_receipts hms).nodup
    rw [List.filterMap_append, List.filterMap_cons_some hreceipt] at hnodup
    obtain ⟨_, hlater, hbefore⟩ := List.nodup_append.mp hnodup
    have hothers : ∀ x ∈ before ++ later, x.receipt ≠ some receipt := by
      intro x hx hr
      rcases List.mem_append.mp hx with hx | hx
      · exact hbefore receipt (List.mem_filterMap.mpr ⟨x, hx, hr⟩) receipt
          List.mem_cons_self rfl
      · exact (List.nodup_cons.mp hlater).1 (List.mem_filterMap.mpr ⟨x, hx, hr⟩)
    have hfilter : (before ++ m :: later).filter (·.receipt ≠ some receipt) =
        before ++ later := by
      have hself := List.filter_eq_self.mpr
        (fun x hx => decide_eq_true (hothers x hx))
      rw [List.filter_append] at hself ⊢
      rw [List.filter_cons_of_neg (by simp [hreceipt])]
      exact hself
    rw [hdelete]
    refine .inr ⟨queue, before, m, later, hurl, hms, hreceipt, rfl, ?_, fun name hname => ?_⟩
    · rw [queue?_of_set rfl, if_pos rfl, hfilter]
    · rw [queue?_of_set rfl, if_neg hname]

end Service

namespace Call

variable {c : Call} {queue : String}

theorem depositsIn_of_not_sends (h : ¬ Service.Sends c.op) : c.depositsIn queue = [] := by
  rw [depositsIn, Service.deposits_of_not_sends _ _ h]
  rfl

theorem depositsIn_fresh : ∀ p ∈ c.depositsIn queue,
    ∃ k, c.before.drawn < k ∧ k ≤ c.after.drawn ∧ p.1 = identifier k := by
  by_cases hsends : Service.Sends c.op
  · intro p hp
    obtain ⟨d, hd, rfl⟩ := List.mem_map.mp hp
    exact (Service.gains_after _ _ _ hsends).fresh d (List.mem_filter.mp hd).1
  · rw [depositsIn_of_not_sends hsends]
    nofun

theorem removedFrom_of_not_deletion (h : ∀ url receipt, c.op ≠ .deleteMessage url receipt) :
    c.removedFrom queue = [] := by
  unfold removedFrom
  split
  · next url receipt hop => exact (h url receipt hop).elim
  · rfl

theorem removedFrom_drawn (hd : c.before.Distinct) : ∀ id ∈ c.removedFrom queue,
    ∃ k ≤ c.before.drawn, id = identifier k := by
  intro id hid
  unfold removedFrom at hid
  split at hid
  · split at hid
    · split at hid
      · obtain ⟨m, hm, rfl⟩ := List.mem_map.mp hid
        have hmem := (List.mem_filter.mp hm).1
        cases hms : c.before.queue? queue with
        | none =>
            rw [hms] at hmem
            cases hmem
        | some ms =>
            rw [hms] at hmem
            exact hd.id_drawn ⟨ms, hms, hmem⟩
      · cases hid
    · cases hid
  · cases hid

end Call

namespace Service

variable {s s' : Service} {queue : String} {ms ms' : List Stored}

/-- Putting messages with the same ids and bodies in the place of those of a queue. -/
theorem content_of_set {name : String} {old new : List Stored}
    (hqueues : s'.queues = Entries.set name new s.queues) (hold : s.queue? name = some old)
    (hsame : new.map Stored.content = old.map Stored.content)
    (hms : s.queue? queue = some ms) (hms' : s'.queue? queue = some ms') :
    ms'.map Stored.content = ms.map Stored.content := by
  rw [queue?_of_set hqueues] at hms'
  split at hms'
  · next hname =>
      subst hname
      rw [hold] at hms
      injection hms with hms
      injection hms' with hms'
      rw [← hms, ← hms', hsame]
  · rw [hms] at hms'
    injection hms' with hms'
    rw [hms']

/-- Where nothing is put in and nothing is deleted by a handle, a queue that remains
contains what it did. -/
theorem content_after (hd : s.Distinct) (now : Instant) {op : Operation} (hsends : ¬ Sends op)
    (hdelete : ∀ url receipt, op ≠ .deleteMessage url receipt)
    (hms : s.queue? queue = some ms) (hms' : (s.after now op).queue? queue = some ms') :
    ms'.map Stored.content = ms.map Stored.content := by
  have hsame : ∀ {s₁ : Service}, s₁.queue? queue = s.queue? queue →
      s₁.queue? queue = some ms' → ms'.map Stored.content = ms.map Stored.content := by
    intro s₁ h h₁
    rw [h, hms] at h₁
    injection h₁ with h₁
    rw [h₁]
  have hcreate : ∀ (s₁ : Service) name, s₁.queue? queue = s.queue? queue →
      (s₁.createQueue name).queue? queue = s.queue? queue := by
    intro s₁ name h
    rw [queue?_createQueue, h, hms]
    rfl
  have htopic : ∀ name, (s.createTopic name).queue? queue = s.queue? queue := by
    intro name
    unfold createTopic
    split <;> rfl
  cases op with
  | createQueue name => exact hsame (hcreate s name rfl) hms'
  | createTopic name => exact hsame (htopic name) hms'
  | subscribe topic name => exact hsame (hcreate _ name (htopic topic)) hms'
  | failNext failure => exact hsame rfl hms'
  | deleteQueue name =>
      have herase : (s.deleteQueue name).queue? queue =
          if queue = name then none else s.queue? queue :=
        Entries.get?_erase name queue s.queues
      rw [after] at hms'
      by_cases hname : queue = name
      · rw [herase, if_pos hname] at hms'
        cases hms'
      · exact hsame (herase.trans (if_neg hname)) hms'
  | putMessage | sendToQueue | sendToTopic => exact (hsends trivial).elim
  | deleteMessage url receipt => exact (hdelete url receipt rfl).elim
  | look url max =>
      rw [after] at hms'
      rcases look_cases s now url max with ⟨_, h⟩ | ⟨name, old, _, hold, out, new, _, hreceive, h⟩
      · rw [h] at hms'
        exact hsame rfl hms'
      · have hseen := seen_receiveFrom now (now + s.visibilityMillis) max s.drawn old
          (hd.queue_ids hold).nodup
        rw [hreceive] at hseen
        rw [h] at hms'
        refine content_of_set rfl hold (map_eq_of_forall₂ ?_ hseen).symm hms hms'
        intro m m' hm
        rw [Stored.content, Stored.content, hm.id, hm.body]
  | changeVisibility url receipt seconds =>
      rw [after] at hms'
      rcases changeVisibility_cases s now url receipt seconds with
        ⟨_, h⟩ | ⟨name, old, _, hold, _, _, h⟩
      · rw [h] at hms'
        exact hsame rfl hms'
      · rw [h] at hms'
        refine content_of_set rfl hold
          (map_eq_of_forall₂ ?_ (forall₂_modifyReceived _ _ _)).symm hms hms'
        rintro m m' (rfl | ⟨_, rfl⟩) <;> rfl

end Service

namespace Call

variable {c : Call} {queue : String} {ms ms' : List Stored}

theorem content_deleteMessage (hd : c.before.Distinct) {url receipt : String}
    (hop : c.op = .deleteMessage url receipt) (hms : c.before.queue? queue = some ms)
    (hms' : c.after.queue? queue = some ms') :
    ms'.map Stored.content =
      (ms.map Stored.content).filter fun p => p.1 ∉ c.removedFrom queue := by
  rw [after, hop, Service.after] at hms'
  rcases Service.deleteMessage_cases c.before url receipt with
    ⟨_, h⟩ | ⟨name, old, hurl, hold, _, h⟩
  · have hnone : c.removedFrom queue = [] := by
      rw [removedFrom, hop]
      simp only [h]
      split <;> rfl
    rw [h, hms] at hms'
    injection hms' with hms'
    rw [hnone, hms']
    simp
  · rw [h, Service.queue?_of_set rfl] at hms'
    by_cases hname : queue = name
    · subst hname
      rw [if_pos rfl] at hms'
      rw [hms] at hold
      injection hold with hold
      injection hms' with hms'
      subst hold hms'
      have hremoved : c.removedFrom queue =
          (ms.filter (·.receipt = some receipt)).map (·.id) := by
        rw [removedFrom, hop]
        simp only [h, hurl, hms, if_true, Option.getD_some]
      rw [hremoved, List.filter_map]
      refine congrArg _ (List.filter_congr fun m hm => ?_)
      -- an id stands once in the queue, so it tells which message lies under the handle
      have hiff : m.receipt = some receipt ↔
          m.id ∈ (ms.filter (·.receipt = some receipt)).map (·.id) := by
        constructor
        · intro hr
          exact List.mem_map_of_mem (List.mem_filter.mpr ⟨hm, by simpa using hr⟩)
        · intro hid
          obtain ⟨m', hm', hid⟩ := List.mem_map.mp hid
          obtain ⟨hmem, hr⟩ := List.mem_filter.mp hm'
          obtain ⟨_, rfl⟩ := hd.eq_of_id ⟨ms, hms, hmem⟩ ⟨ms, hms, hm⟩ hid
          simpa using hr
      simp only [Function.comp, Stored.content, ← hiff, ne_eq]
    · have hnone : c.removedFrom queue = [] := by
        rw [removedFrom, hop]
        have hne : ¬ queueOfUrl? url = some queue := by
          rw [hurl]
          simpa using Ne.symm hname
        simp only [hne, if_false]
      rw [if_neg hname, hms] at hms'
      injection hms' with hms'
      rw [hnone, hms']
      simp

/-- What a queue that was there contains after a call. -/
theorem content_after (hd : c.before.Distinct) (hms : c.before.queue? queue = some ms)
    (hms' : c.after.queue? queue = some ms') :
    ms'.map Stored.content = (ms.map Stored.content ++ c.depositsIn queue).filter
      fun p => p.1 ∉ c.removedFrom queue := by
  by_cases hsends : Service.Sends c.op
  · have hnone : c.removedFrom queue = [] := by
      refine removedFrom_of_not_deletion fun url receipt hop => ?_
      rw [hop] at hsends
      exact hsends
    obtain ⟨ms₁, hms₁, hcontent⟩ :=
      (Service.gains_after c.before c.now c.op hsends).content hms
    have hsame : some ms₁ = some ms' := hms₁.symm.trans hms'
    injection hsame with hsame
    rw [hnone, ← hsame, hcontent]
    simp [depositsIn]
  · rw [depositsIn_of_not_sends hsends, List.append_nil]
    by_cases hdelete : ∃ url receipt, c.op = .deleteMessage url receipt
    · obtain ⟨url, receipt, hop⟩ := hdelete
      exact content_deleteMessage hd hop hms hms'
    · have hother : ∀ url receipt, c.op ≠ .deleteMessage url receipt :=
        fun url receipt hop => hdelete ⟨url, receipt, hop⟩
      rw [removedFrom_of_not_deletion hother,
        Service.content_after hd c.now hsends hother hms hms']
      simp

theorem creates_of_new (hd : c.before.Distinct) (hnone : c.before.queue? queue = none)
    (hms' : c.after.queue? queue = some ms') : c.Creates queue := by
  have hold : ∀ m, ¬ c.before.Stores queue m := by
    rintro m ⟨ms, hms, _⟩
    rw [hnone] at hms
    cases hms
  have hempty : ms' = [] := by
    refine List.eq_nil_iff_forall_not_mem.mpr fun m hm => ?_
    cases origin hd ⟨ms', hms', hm⟩ with
    | received x hands =>
        obtain ⟨m₀, hm₀, _⟩ := hands.stored
        exact hold m₀ hm₀
    | deposited there _ _ =>
        rw [Service.has_queues, hnone] at there
        cases there
    | kept m₀ stored => exact hold m₀ stored
  exact ⟨hnone, hempty ▸ hms'⟩

end Call

namespace Run

variable {t : Instant} {s s' : Service} {calls : List Call} {queue : String}

/-- What has just been put in is not struck by older removals, so all removals can be
taken together. -/
theorem filter_append_removed {xs ys zs : List (String × String)} {rs rs' : List String}
    (h : zs.filter (fun p => p.1 ∉ rs) = zs) :
    ((xs ++ ys).filter (fun p => p.1 ∉ rs) ++ zs).filter (fun p => p.1 ∉ rs') =
      (xs ++ (ys ++ zs)).filter fun p => p.1 ∉ rs ++ rs' := by
  have hfirst : (xs ++ ys).filter (fun p => p.1 ∉ rs) ++ zs =
      (xs ++ (ys ++ zs)).filter fun p => p.1 ∉ rs := by
    rw [← List.append_assoc, List.filter_append (xs ++ ys) zs, h]
  rw [hfirst, List.filter_filter]
  refine List.filter_congr fun p _ => ?_
  simp [Bool.and_comm]

theorem depositsIn_fresh (h : Run t s calls s') :
    ∀ p ∈ depositsIn queue calls, ∃ k, s.drawn < k ∧ p.1 = identifier k := by
  induction h with
  | done => nofun
  | @call _ now s _ calls _ op _ ih =>
      intro p hp
      rw [depositsIn_cons] at hp
      have hle : s.drawn ≤ (s.after now op).drawn := (Service.follows_after s now op).drawn
      rcases List.mem_append.mp hp with hp | hp
      · obtain ⟨k, hk, _, hid⟩ := Call.depositsIn_fresh p hp
        exact ⟨k, hk, hid⟩
      · obtain ⟨k, hk, hid⟩ := ih p hp
        exact ⟨k, Nat.lt_of_le_of_lt hle hk, hid⟩

/-- The contents of a queue after a run, from those before it or from the last call that
created it. -/
theorem contents (h : Run t s calls s') (hd : s.Distinct) {ms' : List Stored}
    (hms' : s'.queue? queue = some ms') :
    (∃ ms, s.queue? queue = some ms ∧ (∀ c ∈ calls, (c.before.queue? queue).isSome) ∧
      ms'.map Stored.content = (ms.map Stored.content ++ depositsIn queue calls).filter
        fun p => p.1 ∉ removedFrom queue calls) ∨
    ∃ first c later, calls = first ++ c :: later ∧ c.Creates queue ∧
      (∀ d ∈ later, (d.before.queue? queue).isSome) ∧
      ms'.map Stored.content =
        (depositsIn queue later).filter fun p => p.1 ∉ removedFrom queue later := by
  induction h with
  | done => exact .inl ⟨ms', hms', nofun, by simp [depositsIn, removedFrom]⟩
  | @call _ now s s' calls _ op rest ih =>
      rcases ih (hd.after now op) hms' with ⟨ms₁, hms₁, hthere, hcontent⟩ |
        ⟨first, c, later, hsplit, hlater⟩
      · cases hms : s.queue? queue with
        | none =>
            have hcreates := Call.creates_of_new (c := ⟨s, now, op⟩) hd hms hms₁
            have hempty : some ms₁ = some [] := hms₁.symm.trans hcreates.2
            injection hempty with hempty
            refine .inr ⟨[], _, calls, rfl, hcreates, hthere, ?_⟩
            rw [hcontent, hempty]
            rfl
        | some ms =>
            have hstep := Call.content_after (c := ⟨s, now, op⟩) hd hms hms₁
            -- what is put in later has other ids than what this call removes
            have hkept : (depositsIn queue calls).filter
                (fun p => p.1 ∉ (Call.mk s now op).removedFrom queue) =
                  depositsIn queue calls := by
              refine List.filter_eq_self.mpr fun p hp => decide_eq_true fun hremoved => ?_
              obtain ⟨k, hk, hid⟩ := rest.depositsIn_fresh p hp
              obtain ⟨k', hk', hid'⟩ := Call.removedFrom_drawn hd p.1 hremoved
              have hle : s.drawn ≤ (s.after now op).drawn := (Service.follows_after s now op).drawn
              have := identifier_injective (hid.symm.trans hid')
              have hk' : k' ≤ s.drawn := hk'
              omega
            refine .inl ⟨ms, rfl, ?_, ?_⟩
            · intro c hc
              rcases List.mem_cons.mp hc with rfl | hc
              · exact Option.isSome_iff_exists.mpr ⟨ms, hms⟩
              · exact hthere c hc
            · rw [hcontent, hstep, depositsIn_cons, removedFrom_cons]
              exact filter_append_removed hkept
      · exact .inr ⟨_ :: first, c, later, by rw [hsplit]; rfl, hlater⟩

end Run

/-- Whatever is asked of a service that had no queues: no two messages share an id; a
queue contains what was put into it since it was created, in this order, without what
was deleted by a handle; a deletion removes one message, or it fails and the service is
as before; and receiving from a queue hands out the first of its visible messages,
counts this for them and for no other, and leaves all messages what and where they
were. -/
theorem Run.stored_less_removed {s₀ s : Service} {calls : List Call} (hempty : s₀.queues = [])
    (h : Run 0 s₀ calls s) :
    (s.messages.map (·.id)).Nodup ∧
    (∀ queue ms, s.queue? queue = some ms →
      ∃ first c later, calls = first ++ c :: later ∧ c.Creates queue ∧
        (∀ d ∈ later, (d.before.queue? queue).isSome) ∧
        ms.map Stored.content =
          (depositsIn queue later).filter fun p => p.1 ∉ removedFrom queue later) ∧
    (∀ url receipt,
      (∃ message, s.deleteMessage url receipt = (.error (.amazon message none), s)) ∨
      ∃ queue before m later, queueOfUrl? url = some queue ∧
        s.queue? queue = some (before ++ m :: later) ∧ m.receipt = some receipt ∧
        (s.deleteMessage url receipt).1 = .ok () ∧
        (s.deleteMessage url receipt).2.queue? queue = some (before ++ later) ∧
        ∀ name, name ≠ queue → (s.deleteMessage url receipt).2.queue? name = s.queue? name) ∧
    ∀ now url queue max ms, queueOfUrl? url = some queue → s.queue? queue = some ms →
      ∃ out ms', (s.look now url max).1 = .ok out ∧
        List.Forall₂ (fun m x => Message.Shows x m)
          ((ms.filter (·.isVisible now)).take max) out ∧
        (s.look now url max).2.queue? queue = some ms' ∧
        List.Forall₂ (fun m m' => m'.id = m.id ∧ m'.body = m.body ∧ m'.receiveCount =
          if m.id ∈ out.map (·.id) then m.receiveCount + 1 else m.receiveCount) ms ms' ∧
        ∀ name, name ≠ queue → (s.look now url max).2.queue? name = s.queue? name := by
  have hd₀ : s₀.Distinct := .of_no_queues hempty
  have hd : s.Distinct := h.distinct hd₀
  refine ⟨hd.ids.nodup, ?_, fun url receipt => Service.deleteMessage_removes_one hd url receipt, ?_⟩
  · intro queue ms hms
    rcases h.contents hd₀ hms with ⟨ms₀, hms₀, _⟩ | hcreated
    · rw [Service.queue?, hempty] at hms₀
      cases hms₀
    · exact hcreated
  · intro now url queue max ms hurl hms
    obtain ⟨out, ms', hout, hshows, hms', hseen, hothers⟩ := Service.look_of_queue hd hurl hms
    refine ⟨out, ms', hout, hshows, hms', hseen.imp fun m m' hm => ?_, hothers⟩
    refine ⟨hm.id.symm, hm.body.symm, ?_⟩
    rcases hm with ⟨hnot, rfl⟩ | ⟨x, hx, hshow, rfl⟩
    · rw [if_neg hnot]
    · rw [if_pos (List.mem_map.mpr ⟨x, hx, hshow.id⟩)]
      rfl

/-- Of two messages the first one is received and deleted, and the second one is what
the queue contains. -/
theorem first_of_two_removed :
    ∃ calls s, Run 0 {} calls s ∧ (s.messages.map (·.id)).Nodup ∧
      ∃ ms, s.queue? "orders" = some ms ∧ ms.map Stored.content = [(identifier 2, "[2]")] ∧
        ∃ first c later, calls = first ++ c :: later ∧ c.Creates "orders" ∧
          ms.map Stored.content =
            (depositsIn "orders" later).filter fun p => p.1 ∉ removedFrom "orders" later := by
  have hrun : Run 0 {} _ _ :=
    .call (Nat.le_refl 0) (.createQueue "orders")
      (.call (Nat.le_refl 0) (.putMessage "orders" "[1]")
        (.call (Nat.le_refl 0) (.putMessage "orders" "[2]")
          (.call (Nat.le_refl 0) (.look (queueUrl "orders") 1)
            (.call (Nat.le_refl 0) (.deleteMessage (queueUrl "orders") (identifier 3))
              (.done _ _)))))
  obtain ⟨hids, hcontents, _, _⟩ := hrun.stored_less_removed rfl
  obtain ⟨first, c, later, hsplit, hcreates, _, hcontent⟩ := hcontents "orders" _ rfl
  exact ⟨_, _, hrun, hids, _, rfl, by decide +kernel, first, c, later, hsplit, hcreates, hcontent⟩

end MessageBridge.Amazon
