import MessageBridge.Proofs.Amazon.Runs
import MessageBridge.Proofs.Json.Keys
import MessageBridge.Proofs.Json.Writing
import MessageBridge.Proofs.Reverse.AtLeastOnce

/-!
# Redelivered messages can be told

At least once may be twice: a message that was published and is still in its queue
comes back. Whoever gets it again must be able to tell.

Two things make this work. A message keeps its id and its body from the moment it is
put into a queue, whatever is done to its receipts, and ids are never drawn twice; so
among all that was ever handed out there is one body to an id. And what is published
is made of the body, the id and the exchange alone. With the idempotency key switched
on it is an object whose key is the exchange and the id, and since no id has a slash
in it, the key tells the id, and the bytes that are published tell the key.
-/

namespace MessageBridge

namespace Envelope

open Json (KeysOnce)

/-! ## What a stamped body tells -/

/-- The body is an object whose idempotency key is this one, and no field of which
stands twice. -/
def Stamped (body : ByteArray) (key : String) : Prop :=
  ∃ entries : Entries Json, body = (Json.object entries).write.toUTF8 ∧
    entries.DistinctKeys ∧ Entries.get? idempotencyField entries = some (.string key)

/-- The bytes tell the key. -/
theorem Stamped.unique {body : ByteArray} {key key' : String} (h : Stamped body key)
    (h' : Stamped body key') : key = key' := by
  obtain ⟨es, hbody, _, hkey⟩ := h
  obtain ⟨es', hbody', _, hkey'⟩ := h'
  have htext : (Json.object es).write = (Json.object es').write :=
    String.toByteArray_inj.mp (hbody.symm.trans hbody')
  have hsame := Json.get?_of_write htext hkey
  rw [hkey'] at hsame
  injection hsame with hsame
  injection hsame with hsame
  exact hsame.symm

theorem keysOnce_payload {doc doc' : Json} (hdoc : doc.KeysOnce)
    (h : payload doc = .ok doc') : doc'.KeysOnce := by
  cases hdoc with
  | object keys values =>
      rw [payload] at h
      split at h
      · cases h
        exact .object keys values
      · split at h
        · next hread =>
            cases h
            exact Json.keysOnce_of_read? hread
        · cases h
      · next hmessage =>
          cases h
          exact values _ (Entries.mem_of_get? hmessage)
  | null | bool | number | string => cases h; constructor
  | array each => cases h; exact .array each

theorem stamped_of_convert {body id exchange text : String}
    (h : convert body id exchange true = .ok text) :
    Stamped text.toUTF8 (idempotencyKey exchange id) := by
  rw [convert] at h
  split at h
  · cases h
  · next doc hread =>
      split at h
      · cases h
      · next doc' hpayload =>
          have hkeys := keysOnce_payload (Json.keysOnce_of_read? hread) hpayload
          cases hkeys with
          | object keys _ =>
              cases h
              exact ⟨_, rfl, keys.set _ _, by rw [Entries.get?_set, if_pos rfl]⟩
          | null | bool | number | string | array => cases h

/-- Where ids have no slash, a key is the key of one id, whatever the exchange. -/
theorem id_of_idempotencyKey {exchange exchange' id id' : String}
    (hid : '/' ∉ id.toList) (hid' : '/' ∉ id'.toList)
    (h : idempotencyKey exchange id = idempotencyKey exchange' id') : id = id' := by
  -- the exchange may have slashes in it, so the key is read from its end
  have hbehind : ∀ exchange {id : String}, '/' ∉ id.toList →
      (idempotencyKey exchange id).toList.reverse.takeWhile (· ≠ '/') = id.toList.reverse := by
    intro exchange id hid
    rw [idempotencyKey, String.toList_append, String.toList_append, List.reverse_append,
      List.reverse_append, List.takeWhile_append_of_pos]
    · simp
    · intro c hc
      rw [List.mem_reverse] at hc
      exact decide_eq_true fun hslash => hid (hslash ▸ hc)
  have hreverse := hbehind exchange hid
  rw [h, hbehind exchange' hid'] at hreverse
  exact String.toList_injective (List.reverse_injective hreverse.symm)

end Envelope

namespace Amazon

theorem not_slash_of_identifier (k : Nat) : '/' ∉ (identifier k).toList := by
  unfold identifier
  simp only [String.toList_append, String.toList_ofList, List.mem_append, not_or]
  refine ⟨by decide, ?_, ?_⟩
  · intro h
    exact absurd (List.eq_of_mem_replicate h) (by decide)
  · intro h
    exact absurd (Nat.isDigit_of_mem_toDigits (by decide) (by decide) h) (by decide)

namespace Service

/-- The id has been drawn, and whatever is stored under it has this body. -/
structure Keeps (s : Service) (id body : String) : Prop where
  drawn : ∃ k ≤ s.drawn, id = identifier k
  only : ∀ queue m, s.Stores queue m → m.id = id → m.body = body

variable {s : Service} {id body : String}

theorem Distinct.keeps {queue : String} {m : Stored} (h : s.Distinct) (hm : s.Stores queue m) :
    s.Keeps m.id m.body :=
  ⟨h.id_drawn hm, fun _ _ hm' hid => by rw [(h.eq_of_id hm' hm hid).2]⟩

/-- A message keeps its id and its body, and no other one gets the id. -/
theorem Keeps.after (hk : s.Keeps id body) (h : s.Distinct) (now : Instant) (op : Operation) :
    (s.after now op).Keeps id body := by
  obtain ⟨k, hle, hid⟩ := hk.drawn
  refine ⟨⟨k, Nat.le_trans hle (s.follows_after now op).drawn, hid⟩, ?_⟩
  intro queue m hm hmid
  cases Call.origin (c := ⟨s, now, op⟩) h hm with
  | received x hands hx hbody =>
      obtain ⟨m₀, hm₀, _, hshows⟩ := hands.stored
      rw [hbody, hshows.body]
      exact hk.only _ m₀ hm₀ (by rw [← hshows.id, ← hx, hmid])
  | deposited _ fresh =>
      -- what has just been put in has an id that was not drawn before
      obtain ⟨k', hlt, hfresh⟩ := fresh
      have := identifier_injective (hfresh.symm.trans (hmid.trans hid))
      exact absurd hlt (by simp only []; omega)
  | kept m₀ stored hm₀ hbody =>
      rw [hbody]
      exact hk.only _ m₀ stored (by rw [← hm₀, hmid])

theorem stored_of_look {now : Instant} {url : String} {max : Nat} {out : List Message}
    {x : Message} (hlook : (s.look now url max).1 = .ok out) (hx : x ∈ out) :
    ∃ queue m, s.Stores queue m ∧ x.Shows m := by
  rcases look_cases s now url max with ⟨_, herror⟩ | ⟨queue, _, hurl, _⟩
  · rw [herror] at hlook
    cases hlook
  · have hands : Call.HandsOut ⟨s, now, .look url max⟩ queue x :=
      ⟨url, max, out, rfl, hurl, hlook, hx⟩
    obtain ⟨m, hm, _, hshows⟩ := hands.stored
    exact ⟨queue, m, hm, hshows⟩

end Service

end Amazon

/-! ## What has been handed out -/

theorem HandedOut.before_or_now {h : List Moment} {x : Moment} {url : String}
    {m : Amazon.Message} (hm : HandedOut (h ++ [x]) url m) :
    HandedOut h url m ∨ ∃ queue m₀, x.before.amazon.Stores queue m₀ ∧ m.Shows m₀ := by
  obtain ⟨y, hy, max, out, hevent, hlook, hmem⟩ := hm
  rcases List.mem_append.mp hy with hy | hy
  · exact .inl ⟨y, hy, max, out, hevent, hlook, hmem⟩
  · rw [List.mem_singleton] at hy
    subst hy
    exact .inr (Amazon.Service.stored_of_look hlook hmem)

/-- Whatever happens, ids stay apart, and what is kept under an id stays kept. -/
theorem Moment.keeps {x : Moment} (hd : x.before.amazon.Distinct) :
    x.after.amazon.Distinct ∧
      ∀ id body, x.before.amazon.Keeps id body → x.after.amazon.Keeps id body := by
  rcases x.amazon_cases with hsame | ⟨op, _, hop⟩
  · rw [hsame]
    exact ⟨hd, fun _ _ hk => hk⟩
  · rw [hop]
    exact ⟨hd.after x.before.now op, fun _ _ hk => hk.after hd x.before.now op⟩

/-- The messages that were handed out are known by their ids: whatever is stored under
one of these ids has the body that was handed out with it, and so has whatever else
was handed out under it. -/
structure Remembered (h : List Moment) (s : Amazon.Service) : Prop where
  distinct : s.Distinct
  keeps : ∀ url m, HandedOut h url m → s.Keeps m.id m.body
  agree : ∀ url url' m m', HandedOut h url m → HandedOut h url' m' → m.id = m'.id →
    m.body = m'.body

theorem Remembered.step {h : List Moment} {b : Brokers} {event : Event}
    (hr : Remembered h b.amazon) : Remembered (h ++ [⟨b, event⟩]) (b.on event).amazon := by
  have hkeeps : ∀ url m, HandedOut (h ++ [⟨b, event⟩]) url m → b.amazon.Keeps m.id m.body := by
    intro url m hm
    rcases hm.before_or_now with hm | ⟨queue, m₀, hm₀, hshows⟩
    · exact hr.keeps url m hm
    · rw [hshows.id, hshows.body]
      exact hr.distinct.keeps hm₀
  -- what is handed out now is stored now, and so has the body that is kept under its id
  have hagree : ∀ url url' m m', HandedOut (h ++ [⟨b, event⟩]) url m →
      HandedOut (h ++ [⟨b, event⟩]) url' m' → m.id = m'.id → m.body = m'.body := by
    intro url url' m m' hm hm' hid
    rcases hm.before_or_now with hold | ⟨queue, m₀, hm₀, hshows⟩
    · rcases hm'.before_or_now with hold' | ⟨queue, m₀, hm₀, hshows⟩
      · exact hr.agree url url' m m' hold hold' hid
      · rw [hshows.body]
        exact ((hkeeps url m hm).only queue m₀ hm₀ (hshows.id.symm.trans hid.symm)).symm
    · rw [hshows.body]
      exact (hkeeps url' m' hm').only queue m₀ hm₀ (hshows.id.symm.trans hid)
  obtain ⟨hdistinct, hkept⟩ := Moment.keeps (x := ⟨b, event⟩) hr.distinct
  exact ⟨hdistinct, fun url m hm => hkept m.id m.body (hkeeps url m hm), hagree⟩

theorem remembered_empty {s : Amazon.Service} (hs : s.queues = []) : Remembered [] s := by
  have hnone : ∀ url m, ¬ HandedOut [] url m := by
    rintro url m ⟨x, hx, _⟩
    cases hx
  exact ⟨.of_no_queues hs, fun url m hm => (hnone url m hm).elim,
    fun url _ m _ hm => (hnone url m hm).elim⟩

theorem Course.remembered {rule : Rule} {h : List Moment} {b₀ b : Brokers}
    (hc : Course rule [] b₀ h b) (hempty : b₀.amazon.queues = []) : Remembered h b.amazon :=
  hc.invariant (P := fun h b => Remembered h b.amazon) (fun _ _ _ _ hnow => hnow.step)
    (remembered_empty hempty)

/-! ## Publications -/

/-- At this moment the dispatcher publishes the body for the message. -/
def Moment.Publishes (x : Moment) (d : Dispatcher) (m : Amazon.Message) (body : ByteArray) :
    Prop :=
  x.event = .forward d m ∧ ∃ text, d.convert m = .ok text ∧ body = text.toUTF8

/-- Nothing is published for a message that cannot be converted, and otherwise the body
goes to the destination of the dispatcher. -/
theorem Moment.publishes_or_not {x : Moment} {d : Dispatcher} {m : Amazon.Message}
    (hx : x.event = .forward d m) :
    (∃ failure, d.convert m = .error failure ∧ x.after.rabbit = x.before.rabbit) ∨
    ∃ body, x.Publishes d m body ∧ x.after.rabbit =
      (x.before.rabbit.send d.destination.exchange d.destination.routingKey body).2 := by
  unfold Moment.after
  rw [hx, Brokers.on]
  rcases d.forward_cases m x.before with
    ⟨failure, hconvert, h⟩ | ⟨text, hconvert, ⟨failure, _, h⟩ | ⟨_, h⟩⟩
  · exact .inl ⟨failure, hconvert, by rw [h]⟩
  · exact .inr ⟨_, ⟨hx, text, hconvert, rfl⟩, by rw [h]⟩
  · exact .inr ⟨_, ⟨hx, text, hconvert, rfl⟩, by rw [h]; rfl⟩

theorem Moment.Publishes.converted {x : Moment} {d : Dispatcher} {m : Amazon.Message}
    {body : ByteArray} (h : x.Publishes d m body) :
    ∃ text, Envelope.convert m.body m.id d.destination.exchange d.stamped = .ok text ∧
      body = text.toUTF8 := by
  obtain ⟨_, text, hconvert, hbody⟩ := h
  unfold Dispatcher.convert at hconvert
  cases h : Envelope.convert m.body m.id d.destination.exchange d.stamped with
  | error defect => rw [h] at hconvert; cases hconvert
  | ok text' => rw [h] at hconvert; cases hconvert; exact ⟨_, rfl, hbody⟩

/-- What is published for one body, under one id, to one exchange is the same. -/
theorem Moment.Publishes.same {x x' : Moment} {d d' : Dispatcher} {m m' : Amazon.Message}
    {body body' : ByteArray} (h : x.Publishes d m body) (h' : x'.Publishes d' m' body')
    (hid : m.id = m'.id) (hm : m.body = m'.body)
    (hexchange : d.destination.exchange = d'.destination.exchange)
    (hstamped : d.stamped = d'.stamped) : body = body' := by
  obtain ⟨text, hconvert, rfl⟩ := h.converted
  obtain ⟨text', hconvert', rfl⟩ := h'.converted
  rw [hid, hm, hexchange, hstamped, hconvert'] at hconvert
  injection hconvert with htext
  rw [htext]

theorem Moment.Publishes.stamped {x : Moment} {d : Dispatcher} {m : Amazon.Message}
    {body : ByteArray} (h : x.Publishes d m body) (hd : d.stamped = true) :
    Envelope.Stamped body (Envelope.idempotencyKey d.destination.exchange m.id) := by
  obtain ⟨text, hconvert, rfl⟩ := h.converted
  rw [hd] at hconvert
  exact Envelope.stamped_of_convert hconvert

/-- Only what was received is taken to rabbit. -/
theorem Course.handedOut {h : List Moment} {b₀ b : Brokers} (hc : Course Receiving [] b₀ h b)
    {x : Moment} (hx : x ∈ h) {d : Dispatcher} {m : Amazon.Message}
    (hevent : x.event = .forward d m) : HandedOut h d.receiver.url m := by
  obtain ⟨earlier, later, rfl⟩ := List.append_of_mem hx
  obtain ⟨_, _, hlater⟩ := hc.split
  obtain ⟨_, hallowed⟩ := hlater.head
  rw [hevent, List.nil_append] at hallowed
  exact HandedOut.mono (List.subset_append_left _ _) hallowed

namespace Session

/-- In every session, whatever is done to it and whoever polls, all that dispatchers
with the same exchange and the same idempotency setting publish for one message is the
same, byte for byte. With the idempotency key switched on each of it is an object whose
key is the exchange and the id of the message, and what is published for two messages
never has the same key.

Nobody else publishes, unless a command asks for it. -/
theorem redeliveries_recognisable (s₀ : Session)
    (hempty : s₀.world.brokers.amazon.queues = []) (hidle : s₀.world.tasks = []) :
    (∀ given h s, Lived s₀ given h s → ∀ command reply s', s.step command = some (reply, s') →
      ∃ h', Lived s₀ (given ++ [(s, command)]) (h ++ h') s' ∧
        ∀ x ∈ h', ∀ exchange routingKey body,
          x.event = .rabbit (.send exchange routingKey body) →
            Publishes command exchange routingKey body) ∧
    ∀ given h s, Lived s₀ given h s →
      (∀ x ∈ h, ∀ d m, x.event = .forward d m →
        (∃ y ∈ given, y.1.Employs y.2 d) ∧
        ((∃ failure, d.convert m = .error failure ∧ x.after.rabbit = x.before.rabbit) ∨
          ∃ body, x.Publishes d m body ∧ x.after.rabbit =
            (x.before.rabbit.send d.destination.exchange d.destination.routingKey body).2)) ∧
      (∀ x ∈ h, ∀ x' ∈ h, ∀ d d' m m' body body',
        x.Publishes d m body → x'.Publishes d' m' body' →
          (m.id = m'.id → d.destination.exchange = d'.destination.exchange →
            d.stamped = d'.stamped → body = body') ∧
          (m.id ≠ m'.id → d.stamped = true → d'.stamped = true →
            ∀ key key', Envelope.Stamped body key → Envelope.Stamped body' key' → key ≠ key')) ∧
      ∀ x ∈ h, ∀ d m body, x.Publishes d m body → d.stamped = true → ∀ key,
        Envelope.Stamped body key ↔
          key = Envelope.idempotencyKey d.destination.exchange m.id := by
  refine ⟨fun given h s hl command reply s' hstep => hl.continues_publishing hidle hstep, ?_⟩
  intro given h s hl
  have hcourse : Course Receiving [] s₀.world.brokers h s.world.brokers := by
    refine hl.course ?_
    intro s command h event hpermits
    cases event with
    | forward d out => exact hpermits.2
    | _ => trivial
  have hremembered := hcourse.remembered hempty
  have hout : ∀ {x d m body}, x ∈ h → x.Publishes d m body → HandedOut h d.receiver.url m :=
    fun hx hp => hcourse.handedOut hx hp.1
  have hslash : ∀ {x d m body}, x ∈ h → x.Publishes d m body → '/' ∉ m.id.toList := by
    intro x d m body hx hp
    obtain ⟨k, _, hid⟩ := (hremembered.keeps _ m (hout hx hp)).drawn
    rw [hid]
    exact Amazon.not_slash_of_identifier k
  refine ⟨fun x hx d m hevent => ⟨hl.employed hx hevent, Moment.publishes_or_not hevent⟩, ?_, ?_⟩
  · intro x hx x' hx' d d' m m' body body' hp hp'
    refine ⟨fun hid => ?_, fun hid hd hd' key key' hkey hkey' heq => hid ?_⟩
    · exact hp.same hp' hid (hremembered.agree _ _ m m' (hout hx hp) (hout hx' hp') hid)
    · -- the keys tell the ids
      have hsame := (hp.stamped hd).unique hkey
      rw [heq, ← (hp'.stamped hd').unique hkey'] at hsame
      exact Envelope.id_of_idempotencyKey (hslash hx hp) (hslash hx' hp') hsame
  · intro x hx d m body hp hd key
    exact ⟨fun hkey => hkey.unique (hp.stamped hd), fun hkey => hkey ▸ hp.stamped hd⟩

/-- A session with one dispatcher, which stamps what it publishes. -/
def withStamping : Session where
  dispatchers := [some ⟨⟨"in", Amazon.queueUrl "in", .zero, 10⟩, ⟨"", "out"⟩, true⟩]

/-- The session after a command, if there is an answer to the command. -/
def after (s : Session) (command : Command) : Session :=
  ((s.step command).map Prod.snd).getD s

theorem step_after {s : Session} {command : Command} (h : (s.step command).isSome = true) :
    ∃ reply, s.step command = some (reply, s.after command) := by
  obtain ⟨⟨reply, s'⟩, hstep⟩ := Option.isSome_iff_exists.mp h
  exact ⟨reply, by rw [after, hstep]; rfl⟩

/-- A message that rabbit refuses comes back and is received again, and then it is
published with the key of its id. -/
theorem refused_order_stamped :
    ∃ given h s, Lived withStamping given h s ∧
      s.world.brokers.metrics.count (.polled "in") = 2 ∧
      s.world.brokers.rabbit.published.map (·.body) =
        ["\x7b\"idempotencyKey\":\"/00000000-0000-4000-8000-000000000001\"\x7d".toUTF8] ∧
      ∀ x ∈ h, ∀ x' ∈ h, ∀ d d' m m' body body',
        x.Publishes d m body → x'.Publishes d' m' body' → m.id = m'.id →
          d.destination.exchange = d'.destination.exchange → d.stamped = d'.stamped →
            body = body' := by
  obtain ⟨hcontinue, hhistory⟩ := redeliveries_recognisable withStamping rfl rfl
  have hnext : ∀ {given h s} command, Lived withStamping given h s →
      (s.step command).isSome = true →
        ∃ given' h', Lived withStamping given' h' (s.after command) := by
    intro given h s command hl hanswered
    obtain ⟨reply, hstep⟩ := step_after hanswered
    obtain ⟨h', hl', _⟩ := hcontinue given h s hl command reply _ hstep
    exact ⟨_, _, hl'⟩
  obtain ⟨_, _, hl⟩ := hnext (.createQueue "in") .start (by decide +kernel)
  obtain ⟨_, _, hl⟩ := hnext (.sendMessage "in" "\x7b\x7d") hl (by decide +kernel)
  obtain ⟨_, _, hl⟩ := hnext (.failRabbit (.rabbit "down" none)) hl (by decide +kernel)
  obtain ⟨_, _, hl⟩ := hnext (.runOnce 0) hl (by decide +kernel)
  obtain ⟨given, h, hl⟩ := hnext (.runOnce 0) hl (by decide +kernel)
  refine ⟨given, h, _, hl, by decide +kernel, by decide +kernel, ?_⟩
  intro x hx x' hx' d d' m m' body body' hp hp'
  exact ((hhistory given h _ hl).2.1 x hx x' hx' d d' m m' body body' hp hp').1

end Session

end MessageBridge
