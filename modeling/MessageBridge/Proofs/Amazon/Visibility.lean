import MessageBridge.Proofs.Amazon.Runs

/-!
# A received message is hidden, and its latest handle settles it

Whoever receives a message has it alone until the visibility timeout is over. The
moment counts: at the end of the timeout the message can be received again, and
one millisecond before it cannot. Only who holds the latest handle can end this
time earlier.

Handles outlive their receipts. A handle is good as long as its message is in the
queue and has not been received again, at the address of this queue; otherwise
both ways to settle refuse it, and the service is as before. `Latest` is what is
known of the message while the handle is good, and `Spent` what is known of the
handle afterwards.
-/

namespace MessageBridge.Amazon

theorem queueOfUrl?_queueUrl (name : String) : queueOfUrl? (queueUrl name) = some name := by
  have hstrip : ∀ start rest : List Char, stripStart? start (start ++ rest) = some rest := by
    intro start rest
    induction start with
    | nil => rfl
    | cons c start ih => rw [List.cons_append, stripStart?, if_pos rfl, ih]
  rw [queueOfUrl?, queueUrl, String.toList_append, hstrip, Option.map_some, String.ofList_toList]

namespace Service

variable {s s' : Service}

/-- Both ways to settle succeed with the handle. -/
def Accepts (s : Service) (url receipt : String) : Prop :=
  (s.deleteMessage url receipt).1 = .ok () ∧
    ∀ now seconds, (s.changeVisibility now url receipt seconds).1 = .ok ()

/-- Both ways to settle fail with the handle and leave the service as it is. -/
def Refuses (s : Service) (url receipt : String) : Prop :=
  (∃ message, s.deleteMessage url receipt = (.error (.amazon message none), s)) ∧
    ∀ now seconds, ∃ message,
      s.changeVisibility now url receipt seconds = (.error (.amazon message none), s)

theorem refuses_of_unused {url receipt : String}
    (h : ∀ queue m, queueOfUrl? url = some queue → s.Stores queue m →
      m.receipt ≠ some receipt) : s.Refuses url receipt := by
  refine ⟨?_, fun now seconds => ?_⟩
  · rcases deleteMessage_cases s url receipt with hfails | ⟨queue, ms, hurl, hms, ⟨m, hm, hr⟩, _⟩
    · exact hfails
    · exact (h queue m hurl ⟨ms, hms, hm⟩ hr).elim
  · rcases changeVisibility_cases s now url receipt seconds with
      hfails | ⟨queue, ms, hurl, hms, ⟨m, hm, hr⟩, _⟩
    · exact hfails
    · exact (h queue m hurl ⟨ms, hms, hm⟩ hr).elim

theorem accepts_of_stored {url receipt queue : String} {m : Stored}
    (hurl : queueOfUrl? url = some queue) (hm : s.Stores queue m)
    (hreceipt : m.receipt = some receipt) : s.Accepts url receipt := by
  obtain ⟨ms, hms, hm⟩ := hm
  have hany : ms.any (·.receipt = some receipt) = true :=
    List.any_eq_true.mpr ⟨m, hm, by simpa using hreceipt⟩
  refine ⟨?_, fun now seconds => ?_⟩
  · unfold deleteMessage
    simp only [hurl, hms, hany, if_true]
  · unfold changeVisibility
    simp only [hurl, hms, hany, if_true]

/-- The message is in this queue if it is stored at all, and it has not been received
since. -/
structure Latest (s : Service) (queue : String) (x : Message) : Prop where
  drawn : ∃ k ≤ s.drawn, x.id = identifier k
  only : ∀ name m, s.Stores name m → m.id = x.id → name = queue ∧ m.receipt = some x.receipt

/-- A message of this id is invisible until that moment. -/
def Hidden (s : Service) (id : String) (moment : Instant) : Prop :=
  ∀ queue m, s.Stores queue m → m.id = id → m.invisibleUntil = some moment

/-- The handle was drawn, and nothing lies under it. -/
structure Spent (s : Service) (receipt : String) : Prop where
  drawn : ∃ k ≤ s.drawn, receipt = identifier k
  unused : ∀ queue m, s.Stores queue m → m.receipt ≠ some receipt

theorem Follows.spent {taken : String → Stored → Prop} {receipt : String}
    (h : Follows taken s s') (hspent : s.Spent receipt) : s'.Spent receipt := by
  obtain ⟨k, hk, hreceipt⟩ := hspent.drawn
  refine ⟨⟨k, Nat.le_trans hk h.drawn, hreceipt⟩, fun queue m hm hr => ?_⟩
  rcases h.receipts queue m receipt hm hr with ⟨m₀, hm₀, hr₀, _⟩ | ⟨k', hlo, _, hk'⟩
  · exact hspent.unused queue m₀ hm₀ hr₀
  · have := identifier_injective (hreceipt.symm.trans hk')
    omega

end Service

namespace Call

variable {c : Call}

theorem follows (c : Call) : Service.Follows c.op.Takes c.before c.after :=
  Service.follows_after c.before c.now c.op

/-! ## What a receipt establishes -/

theorem HandsOut.unique (hd : c.before.Distinct) {queue queue' : String} {x x' : Message}
    (h : c.HandsOut queue x) (h' : c.HandsOut queue' x') (hid : x.id = x'.id) :
    queue = queue' ∧ x = x' := by
  obtain ⟨url, max, out, hop, hurl, hlook, hx⟩ := h
  rcases Service.look_cases c.before c.now url max with ⟨_, hfail⟩ |
    ⟨queue₁, ms, hurl₁, hms, out₁, ms', drawn, hreceive, hlook₁⟩
  · rw [hfail] at hlook
    cases hlook
  · have hhands : ∀ {q x}, c.HandsOut q x ↔ q = queue₁ ∧ x ∈ out₁ := handsOut_iff hop hurl₁ hlook₁
    have hsub := Service.ids_receiveFrom c.now (c.now + c.before.visibilityMillis) max
      c.before.drawn ms
    rw [hreceive] at hsub
    have hids : (out₁.map (·.id)).Nodup := (hd.queue_ids hms).nodup.sublist hsub
    have h := hhands.mp ⟨url, max, out, hop, hurl, hlook, hx⟩
    have h' := hhands.mp h'
    exact ⟨h.1.trans h'.1.symm, List.inj_on_of_nodup_map hids h.2 h'.2 hid⟩

theorem HandsOut.fresh (hd : c.before.Distinct) {queue : String} {x : Message}
    (h : c.HandsOut queue x) : ∃ k, c.before.drawn < k ∧ x.receipt = identifier k := by
  obtain ⟨url, max, out, hop, hurl, hlook, hx⟩ := h
  rcases Service.look_cases c.before c.now url max with ⟨_, hfail⟩ |
    ⟨queue₁, ms, _, hms, out₁, ms', drawn, hreceive, hlook₁⟩
  · rw [hfail] at hlook
    cases hlook
  · rw [hlook₁] at hlook
    injection hlook with hout
    subst hout
    have hold : ∀ m ∈ ms, ∀ r, m.receipt = some r → ∃ k ≤ c.before.drawn, r = identifier k :=
      fun m hm r hr => hd.sound queue₁ m r ⟨ms, hms, hm⟩ hr
    have hnew := Service.handedOut_receiveFrom c.now (c.now + c.before.visibilityMillis) max
      c.before.drawn ms hold x
    rw [hreceive] at hnew
    obtain ⟨k, hlo, _, hk, _⟩ := hnew hx
    exact ⟨k, hlo, hk⟩

theorem HandsOut.id_drawn (hd : c.before.Distinct) {queue : String} {x : Message}
    (h : c.HandsOut queue x) : ∃ k ≤ c.before.drawn, x.id = identifier k := by
  obtain ⟨m, hm, _, hshows⟩ := h.stored
  obtain ⟨k, hk, hid⟩ := hd.id_drawn hm
  exact ⟨k, hk, hshows.id.trans hid⟩

/-- What is stored under the id of a message that has just been handed out. -/
theorem HandsOut.stored_after (hd : c.before.Distinct) {queue name : String} {x : Message}
    {m : Stored} (h : c.HandsOut queue x) (hm : c.after.Stores name m) (hid : m.id = x.id) :
    name = queue ∧ m.receipt = some x.receipt ∧
      m.invisibleUntil = some (c.now + c.before.visibilityMillis) := by
  cases origin hd hm with
  | received x' hands hid' _ hreceipt hhidden =>
      obtain ⟨rfl, rfl⟩ := h.unique hd hands (hid.symm.trans hid')
      exact ⟨rfl, hreceipt, hhidden⟩
  | deposited _ fresh _ =>
      obtain ⟨k, hk, hfresh⟩ := fresh
      obtain ⟨k', hk', hold⟩ := h.id_drawn hd
      have := identifier_injective (hfresh.symm.trans (hid.trans hold))
      omega
  | kept _ _ _ _ _ untouched _ => exact (untouched ⟨queue, x, h, hid.symm⟩).elim

theorem HandsOut.latest (hd : c.before.Distinct) {queue : String} {x : Message}
    (h : c.HandsOut queue x) : c.after.Latest queue x := by
  obtain ⟨k, hk, hid⟩ := h.id_drawn hd
  refine ⟨⟨k, Nat.le_trans hk c.follows.drawn, hid⟩, fun name m hm hid => ?_⟩
  obtain ⟨hname, hreceipt, _⟩ := h.stored_after hd hm hid
  exact ⟨hname, hreceipt⟩

theorem HandsOut.hidden (hd : c.before.Distinct) {queue : String} {x : Message}
    (h : c.HandsOut queue x) :
    c.after.Hidden x.id (c.now + c.before.visibilityMillis) :=
  fun _ _ hm hid => (h.stored_after hd hm hid).2.2

theorem HandsOut.knows (hd : c.before.Distinct) {queue : String} {x : Message}
    (h : c.HandsOut queue x) : c.after.Knows queue x := by
  obtain ⟨url, max, out, hop, hurl, hlook, hx⟩ := h
  obtain ⟨queue', hurl', hknows⟩ := Service.knows_of_look hd.sound hlook hx
  rw [hurl] at hurl'
  injection hurl' with hqueue
  rw [after, hop, Service.after, hqueue]
  exact hknows

theorem not_receives_of_hidden {id : String} {moment : Instant}
    (h : c.before.Hidden id moment) (hearly : c.now < moment) : ¬ c.Receives id := by
  rintro ⟨queue, x, hx, rfl⟩
  obtain ⟨m, hm, hvisible, hshows⟩ := hx.stored
  have huntil := h queue m hm hshows.id.symm
  rw [Stored.isVisible, huntil] at hvisible
  exact Nat.not_le.mpr hearly (by simpa using hvisible)

/-! ## What lasts until the next receipt -/

theorem latest_after (hd : c.before.Distinct) {queue : String} {x : Message}
    (h : c.before.Latest queue x) (hno : ¬ c.Receives x.id) : c.after.Latest queue x := by
  obtain ⟨k, hk, hdrawn⟩ := h.drawn
  refine ⟨⟨k, Nat.le_trans hk c.follows.drawn, hdrawn⟩, fun name m hm hid => ?_⟩
  cases origin hd hm with
  | received x' hands hid' => exact (hno ⟨name, x', hands, hid'.symm.trans hid⟩).elim
  | deposited _ fresh _ =>
      obtain ⟨k', hk', hfresh⟩ := fresh
      have := identifier_injective (hfresh.symm.trans (hid.trans hdrawn))
      omega
  | kept m₀ stored hid₀ _ hreceipt _ _ =>
      obtain ⟨hname, hr⟩ := h.only name m₀ stored (hid₀.symm.trans hid)
      exact ⟨hname, hreceipt.trans hr⟩

/-- The message stays hidden unless somebody changes this by its latest handle. -/
theorem hidden_after (hd : c.before.Distinct) {queue : String} {x : Message}
    {moment : Instant} (hlatest : c.before.Latest queue x)
    (h : c.before.Hidden x.id moment) (hno : ¬ c.Receives x.id)
    (hkeep : ¬ c.ChangesVisibility x.receipt) : c.after.Hidden x.id moment := by
  intro name m hm hid
  have hreceipt := ((latest_after hd hlatest hno).only name m hm hid).2
  cases origin hd hm with
  | received x' hands hid' => exact (hno ⟨name, x', hands, hid'.symm.trans hid⟩).elim
  | deposited _ _ hunread => rw [hunread] at hreceipt; cases hreceipt
  | kept m₀ stored hid₀ _ _ _ hvisibility =>
      rcases hvisibility with hsame | ⟨r, hr, hchange⟩
      · exact hsame.trans (h name m₀ stored (hid₀.symm.trans hid))
      · rw [hr] at hreceipt
        injection hreceipt with hr
        exact (hkeep (hr ▸ hchange)).elim

/-- A receipt makes the older handles of its message worthless. -/
theorem HandsOut.spends (hd : c.before.Distinct) {queue queue' : String} {x x' : Message}
    (h : c.HandsOut queue' x') (hknown : c.before.Knows queue x) (hid : x'.id = x.id) :
    c.after.Spent x.receipt := by
  obtain ⟨k, hk, hreceipt⟩ := hknown.drawn
  refine ⟨⟨k, Nat.le_trans hk c.follows.drawn, hreceipt⟩, fun name m hm hr => ?_⟩
  obtain ⟨_, hmid, _⟩ := (c.follows.knows hknown).only name m hm hr
  obtain ⟨_, hr', _⟩ := h.stored_after hd hm (hmid.trans hid.symm)
  rw [hr] at hr'
  injection hr' with hsame
  obtain ⟨k', hk', hfresh⟩ := h.fresh hd
  have := identifier_injective (hreceipt.symm.trans (hsame.trans hfresh))
  omega

end Call

namespace Run

variable {t : Instant} {s s' : Service} {calls : List Call}

theorem visibilityMillis (h : Run t s calls s') : ∀ c ∈ calls,
    c.before.visibilityMillis = s.visibilityMillis := by
  induction h with
  | done => nofun
  | call _ op _ ih =>
      intro c hc
      rcases List.mem_cons.mp hc with rfl | hc
      · rfl
      · exact (ih c hc).trans (Service.visibilityMillis_after ..)

theorem latest (h : Run t s calls s') (hd : s.Distinct) {queue : String} {x : Message}
    (hlatest : s.Latest queue x) (hno : ∀ c ∈ calls, ¬ c.Receives x.id) :
    s'.Latest queue x := by
  have hboth := h.invariant (p := fun s => s.Distinct ∧ s.Latest queue x) ⟨hd, hlatest⟩
    fun c hc hb => ⟨hb.1.after c.now c.op, Call.latest_after hb.1 hb.2 (hno c hc)⟩
  exact hboth.2

theorem knows (h : Run t s calls s') {queue : String} {x : Message} (hx : s.Knows queue x) :
    s'.Knows queue x :=
  h.invariant (p := fun s => s.Knows queue x) hx fun c _ hc => c.follows.knows hc

/-- A message that is received while its last receipt still hides it was made visible
in between, by the handle of this receipt. -/
theorem changed_before_receipt {between later : List Call} {c : Call} {queue : String}
    {x : Message} {moment : Instant} (h : Run t s (between ++ c :: later) s')
    (hd : s.Distinct) (hlatest : s.Latest queue x) (hhidden : s.Hidden x.id moment)
    (hc : c.Receives x.id) (hearly : c.now < moment) :
    ∃ first change rest, between = first ++ change :: rest ∧
      change.ChangesVisibility x.receipt ∧ ∀ d ∈ first, ¬ d.Receives x.id := by
  induction between generalizing t s with
  | nil =>
      cases h with
      | call => exact (Call.not_receives_of_hidden hhidden hearly hc).elim
  | cons d between ih =>
      cases h with
      | @call _ now _ _ _ hle op rest =>
          have hnow : now ≤ c.now :=
            rest.le_now c (List.mem_append_right _ List.mem_cons_self)
          have hno : ¬ (Call.mk s now op).Receives x.id :=
            Call.not_receives_of_hidden hhidden (Nat.lt_of_le_of_lt hnow hearly)
          by_cases hchange : (Call.mk s now op).ChangesVisibility x.receipt
          · exact ⟨[], _, between, rfl, hchange, nofun⟩
          · obtain ⟨first, change, rest, hsplit, hchanges, hfirst⟩ :=
              ih rest (hd.after now op) (Call.latest_after hd hlatest hno)
                (Call.hidden_after hd hlatest hhidden hno hchange)
            refine ⟨_ :: first, change, rest, by rw [hsplit]; rfl, hchanges, ?_⟩
            intro d hd
            rcases List.mem_cons.mp hd with rfl | hd
            · exact hno
            · exact hfirst d hd

/-- When a known message is received, its known handle is spent, and remains so. -/
theorem spent (h : Run t s calls s') (hd : s.Distinct) {queue : String} {x : Message}
    (hknown : s.Knows queue x) (hc : ∃ c ∈ calls, c.Receives x.id) : s'.Spent x.receipt := by
  obtain ⟨c, hc, queue', x', hx', hid⟩ := hc
  obtain ⟨first, later, rfl⟩ := List.append_of_mem hc
  obtain ⟨hfirst, hlater⟩ := h.split
  have hspent := hx'.spends (hfirst.distinct hd) (hfirst.knows hknown) hid
  exact hlater.invariant (p := fun s => s.Spent x.receipt) hspent fun d _ hd => d.follows.spent hd

/-- The handle of a stored message is the one of its latest receipt. -/
theorem handed_out (h : Run t s calls s') (hd : s.Distinct) {queue : String} {m : Stored}
    {receipt : String} (hm : s'.Stores queue m) (hr : m.receipt = some receipt) :
    (∃ m₀, s.Stores queue m₀ ∧ m₀.id = m.id ∧ m₀.receipt = some receipt ∧
      ∀ c ∈ calls, ¬ c.Receives m.id) ∨
    ∃ first c later x, calls = first ++ c :: later ∧ c.HandsOut queue x ∧ x.id = m.id ∧
      x.receipt = receipt ∧ ∀ d ∈ later, ¬ d.Receives m.id := by
  induction h with
  | done => exact .inl ⟨m, hm, rfl, hr, nofun⟩
  | @call _ now s _ calls _ op _ ih =>
      rcases ih (hd.after now op) hm with ⟨m₀, hm₀, hid₀, hr₀, hno⟩ |
        ⟨first, c, later, x, hsplit, hx⟩
      · -- the message was there after this call, so look where it came from
        cases Call.origin (c := ⟨s, now, op⟩) hd hm₀ with
        | received x hands hid _ hreceipt _ =>
            rw [hr₀] at hreceipt
            injection hreceipt with hreceipt
            exact .inr ⟨[], _, calls, x, rfl, hands, hid.symm.trans hid₀, hreceipt.symm, hno⟩
        | deposited _ _ hunread =>
            rw [hr₀] at hunread
            cases hunread
        | kept m₁ stored hid _ hreceipt untouched _ =>
            refine .inl ⟨m₁, stored, hid.symm.trans hid₀, hreceipt.symm.trans hr₀, ?_⟩
            intro c hc
            rcases List.mem_cons.mp hc with rfl | hc
            · exact hid₀ ▸ untouched
            · exact hno c hc
      · exact .inr ⟨_ :: first, c, later, x, by rw [hsplit]; rfl, hx⟩

end Run

/-- The message was received from the queue under this handle, it has not been received
again since, and it is still there. -/
def LatestReceipt (calls : List Call) (s : Service) (queue : String) (x : Message) : Prop :=
  ∃ first c later, calls = first ++ c :: later ∧ c.HandsOut queue x ∧
    (∀ d ∈ later, ¬ d.Receives x.id) ∧ ∃ m, s.Stores queue m ∧ m.id = x.id

namespace Service

variable {s : Service}

/-- A look that asks for as many messages as there are hands out all that is visible. -/
theorem receives_of_visible {now : Instant} {queue : String} {ms : List Stored} {m : Stored}
    (hms : s.queue? queue = some ms) (hm : m ∈ ms) (hvisible : m.isVisible now = true) :
    (Call.mk s now (.look (queueUrl queue) ms.length)).Receives m.id := by
  have hlook : s.look now (queueUrl queue) ms.length = s.takeVisible now queue ms.length := by
    rw [look, queueOfUrl?_queueUrl]
  have hids := map_eq_of_forall₂ (fun _ _ hx => hx.id.symm)
    (shows_receiveFrom now (now + s.visibilityMillis) ms.length s.drawn ms)
  rw [List.take_of_length_le (List.length_filter_le _ _)] at hids
  have hmem : m.id ∈ (ms.filter (·.isVisible now)).map (·.id) :=
    List.mem_map_of_mem (List.mem_filter.mpr ⟨hm, hvisible⟩)
  rw [hids] at hmem
  obtain ⟨x, hx, hid⟩ := List.mem_map.mp hmem
  refine ⟨queue, x, ⟨_, _, _, rfl, queueOfUrl?_queueUrl queue, ?_, hx⟩, hid⟩
  rw [hlook, takeVisible, hms]

/-- The invisible messages of a queue are the ones that no look at this moment hands
out, however many messages it asks for. -/
theorem inFlight_eq (hd : s.Distinct) (now : Instant) (queue : String) :
    ∃ hidden : List Stored, hidden.Sublist ((s.queue? queue).getD []) ∧
      s.inFlight now queue = hidden.length ∧
      ∀ m ∈ (s.queue? queue).getD [],
        m ∈ hidden ↔ ∀ max, ¬ (Call.mk s now (.look (queueUrl queue) max)).Receives m.id := by
  refine ⟨_, List.filter_sublist, rfl, fun m hm => ?_⟩
  cases hms : s.queue? queue with
  | none =>
      rw [hms] at hm
      cases hm
  | some ms =>
      rw [hms] at hm
      have hm : m ∈ ms := hm
      constructor
      · rintro hhidden max ⟨queue', x, hx, hid⟩
        obtain ⟨m', hm', hvisible, hshows⟩ := hx.stored
        obtain ⟨_, rfl⟩ := hd.eq_of_id ⟨ms, hms, hm⟩ hm' (hid.symm.trans hshows.id)
        have hinvisible := (List.mem_filter.mp hhidden).2
        rw [hvisible] at hinvisible
        cases hinvisible
      · intro hnone
        refine List.mem_filter.mpr ⟨hm, ?_⟩
        cases hvisible : m.isVisible now with
        | false => rfl
        | true => exact (hnone _ (receives_of_visible hms hm hvisible)).elim

end Service

/-- Whatever is asked of a service that had no queues: a received message is received
again only when the visibility timeout is over, or after somebody who had its latest
handle made it visible; a handle that is older than the latest receipt of its message
and a handle of another queue are refused, and the service stays as it is; the handles
that are accepted are those of the latest receipts of what is in the queue; and the
messages in flight are the ones that cannot be received at this moment. -/
theorem Run.hidden_and_settled {s₀ s : Service} {calls : List Call} (hempty : s₀.queues = [])
    (h : Run 0 s₀ calls s) :
    (∀ first c between c' later queue x, calls = first ++ c :: (between ++ c' :: later) →
      c.HandsOut queue x → c'.Receives x.id → c'.now < c.now + s₀.visibilityMillis →
      ∃ before change rest, between = before ++ change :: rest ∧
        change.ChangesVisibility x.receipt ∧ ∀ d ∈ before, ¬ d.Receives x.id) ∧
    (∀ first c later queue x url, calls = first ++ c :: later → c.HandsOut queue x →
      (∃ d ∈ later, d.Receives x.id) ∨ queueOfUrl? url ≠ some queue →
      s.Refuses url x.receipt) ∧
    (∀ url receipt,
      (s.Accepts url receipt ∧ ∃ queue x, queueOfUrl? url = some queue ∧
        x.receipt = receipt ∧ LatestReceipt calls s queue x) ∨
      (s.Refuses url receipt ∧ ∀ queue x, queueOfUrl? url = some queue →
        x.receipt = receipt → ¬ LatestReceipt calls s queue x)) ∧
    ∀ now queue, ∃ hidden : List Stored, hidden.Sublist ((s.queue? queue).getD []) ∧
      s.inFlight now queue = hidden.length ∧
      ∀ m ∈ (s.queue? queue).getD [],
        m ∈ hidden ↔ ∀ max, ¬ (Call.mk s now (.look (queueUrl queue) max)).Receives m.id := by
  have hd₀ : s₀.Distinct := .of_no_queues hempty
  have hd : s.Distinct := h.distinct hd₀
  refine ⟨?_, ?_, ?_, fun now queue => Service.inFlight_eq hd now queue⟩
  · rintro first c between c' later queue x rfl hx hc' hearly
    obtain ⟨hfirst, hrest⟩ := h.split
    have hdc := hfirst.distinct hd₀
    have hmillis := h.visibilityMillis c (by simp)
    rw [← hmillis] at hearly
    exact hrest.changed_before_receipt (hdc.after c.now c.op) (hx.latest hdc)
      (hx.hidden hdc) hc' hearly
  · rintro first c later queue x url rfl hx hor
    obtain ⟨hfirst, hrest⟩ := h.split
    have hdc := hfirst.distinct hd₀
    have hknows := hx.knows hdc
    refine Service.refuses_of_unused fun name m hurl hm hr => ?_
    rcases hor with hagain | hurl'
    · exact (hrest.spent (hdc.after c.now c.op) hknows hagain).unused name m hm hr
    · exact hurl' (((hrest.knows hknows).only name m hm hr).1 ▸ hurl)
  · intro url receipt
    by_cases hlies : ∃ queue m, queueOfUrl? url = some queue ∧ s.Stores queue m ∧
        m.receipt = some receipt
    · obtain ⟨queue, m, hurl, hm, hr⟩ := hlies
      refine .inl ⟨Service.accepts_of_stored hurl hm hr, queue, ?_⟩
      rcases h.handed_out hd₀ hm hr with ⟨m₀, ⟨ms, hms, _⟩, _⟩ |
        ⟨first, c, later, x, hsplit, hx, hid, hreceipt, hno⟩
      · rw [Service.queue?, hempty] at hms
        cases hms
      · exact ⟨x, hurl, hreceipt, first, c, later, hsplit, hx, hid ▸ hno, m, hm, hid.symm⟩
    · refine .inr ⟨Service.refuses_of_unused fun queue m hurl hm hr =>
        hlies ⟨queue, m, hurl, hm, hr⟩, ?_⟩
      rintro queue x hurl rfl ⟨first, c, later, rfl, hx, hno, m, hm, hid⟩
      obtain ⟨hfirst, hrest⟩ := h.split
      have hdc := hfirst.distinct hd₀
      have hlatest := hrest.latest (hdc.after c.now c.op) (hx.latest hdc) hno
      exact hlies ⟨queue, m, hurl, hm, (hlatest.only queue m hm hid).2⟩

/-- A queue with one message. -/
def withOrder : Service :=
  ((({} : Service).createQueue "orders").putMessage "orders" "null").2

/-- The message is received and, as soon as it is visible again, received once more.
By then only its second handle settles it, and it is invisible again. -/
theorem withOrder_received_twice :
    ∃ calls s, Run 0 {} calls s ∧ s.Refuses (queueUrl "orders") (identifier 2) ∧
      s.Accepts (queueUrl "orders") (identifier 3) ∧ s.inFlight 30000 "orders" = 1 := by
  let once : Service := withOrder.after 0 (.look (queueUrl "orders") 1)
  have hrun : Run 0 {} _ _ :=
    .call (Nat.le_refl 0) (.createQueue "orders")
      (.call (Nat.le_refl 0) (.putMessage "orders" "null")
        (.call (Nat.le_refl 0) (.look (queueUrl "orders") 1)
          (.call (Nat.zero_le 30000) (.look (queueUrl "orders") 1) (.done _ _))))
  have hfirst : (Call.mk withOrder 0 (.look (queueUrl "orders") 1)).HandsOut "orders"
      ⟨identifier 1, identifier 2, "null", 1⟩ :=
    ⟨_, _, _, rfl, queueOfUrl?_queueUrl _, rfl, List.mem_singleton_self _⟩
  have hagain : (Call.mk once 30000 (.look (queueUrl "orders") 1)).HandsOut "orders"
      ⟨identifier 1, identifier 3, "null", 2⟩ :=
    ⟨_, _, _, rfl, queueOfUrl?_queueUrl _, rfl, List.mem_singleton_self _⟩
  obtain ⟨_, hrefused, haccepted, _⟩ := hrun.hidden_and_settled rfl
  refine ⟨_, _, hrun, ?_, ?_, rfl⟩
  · exact hrefused [_, _] _ [_] "orders" _ _ rfl hfirst
      (.inl ⟨_, List.mem_singleton_self _, _, _, hagain, rfl⟩)
  · rcases haccepted (queueUrl "orders") (identifier 3) with haccepts | ⟨_, hnot⟩
    · exact haccepts.1
    · refine (hnot "orders" ⟨identifier 1, identifier 3, "null", 2⟩
        (queueOfUrl?_queueUrl _) rfl ?_).elim
      exact ⟨[_, _, _], _, [], rfl, hagain, nofun, _, ⟨_, rfl, List.mem_singleton_self _⟩, rfl⟩

end MessageBridge.Amazon
