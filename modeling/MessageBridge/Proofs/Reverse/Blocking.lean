import MessageBridge.Proofs.Amazon.Arrival
import MessageBridge.Proofs.History

/-!
# A message that cannot be converted blocks its queue

A run takes its messages in the order of their arrival and stops at the first one
that fails. When the first message of the queue is visible and cannot be converted,
every run comes to it first, fails on it and makes it visible again at once, so the
next run finds what this one found. Nothing else that happens gets it out of the way,
as long as nobody else receives or deletes in the queue: what is sent comes behind it,
and the clock only makes more messages visible.

What is behind it does not matter. A run may have received further messages with it,
which are invisible afterwards or not; the one at the front is always among the
visible ones.
-/

namespace MessageBridge

namespace Amazon

namespace Service

variable {s : Service} {queue : String} {ms : List Stored}

/-- The ids and bodies of what is stored in a queue, if there is the queue. -/
def contents (s : Service) (name : String) : Option (List (String × String)) :=
  (s.queue? name).map (List.map Stored.content)

theorem contents_of_set {s' : Service} {old new : List Stored} (hold : s.queue? queue = some old)
    (hqueues : s'.queues = Entries.set queue new s.queues)
    (hsame : new.map Stored.content = old.map Stored.content) : s'.contents = s.contents := by
  funext name
  rw [contents, contents, queue?_of_set hqueues]
  split
  · next hname => rw [hname, hold, Option.map_some, Option.map_some, hsame]
  · rfl

theorem receiveFrom_first {m : Stored} (rest : List Stored) {now : Instant} (again max drawn : Nat)
    (hvisible : m.isVisible now = true) :
    ∃ x out rest' drawn', x.Shows m ∧ receiveFrom now again drawn (max + 1) (m :: rest) =
      (x :: out, m.handedOut x again :: rest', drawn') := by
  rw [receiveFrom, if_pos hvisible]
  exact ⟨⟨m.id, identifier (drawn + 1), m.body, m.receiveCount + 1⟩, _, _, _, ⟨rfl, rfl, rfl⟩, rfl⟩

/-- Whoever receives from a queue with a visible message at the front gets this one
first. -/
theorem look_first {m : Stored} {rest : List Stored} {now : Instant} {url : String} {max : Nat}
    (hurl : queueOfUrl? url = some queue) (hms : s.queue? queue = some (m :: rest))
    (hvisible : m.isVisible now = true) (hmax : 1 ≤ max) :
    ∃ x out s' rest', s.look now url max = (.ok (x :: out), s') ∧ x.Shows m ∧
      s'.queue? queue = some (m.handedOut x (now + s.visibilityMillis) :: rest') ∧
      s'.contents = s.contents := by
  obtain ⟨k, rfl⟩ : ∃ k, max = k + 1 := ⟨_, (Nat.sub_add_cancel hmax).symm⟩
  have hcontent := content_receiveFrom now (now + s.visibilityMillis) (k + 1) s.drawn (m :: rest)
  obtain ⟨x, out, rest', drawn', hshows, hreceive⟩ :=
    receiveFrom_first rest (now + s.visibilityMillis) k s.drawn hvisible
  rw [hreceive] at hcontent
  rw [look, hurl]
  simp only [takeVisible, hms, hreceive]
  refine ⟨x, out, _, rest', rfl, hshows, ?_, contents_of_set hms rfl hcontent⟩
  rw [queue?_of_set rfl, if_pos rfl]

/-- Whoever makes the first message of a queue visible finds it under its handle. -/
theorem changeVisibility_first {m : Stored} {rest : List Stored} (now : Instant)
    {url receipt : String} (hurl : queueOfUrl? url = some queue)
    (hms : s.queue? queue = some (m :: rest)) (hreceipt : m.receipt = some receipt) :
    ∃ s', s.changeVisibility now url receipt 0 = (.ok (), s') ∧
      s'.queue? queue = some ({ m with invisibleUntil := none } :: rest) ∧
      s'.contents = s.contents := by
  have hany : (m :: rest).any (·.receipt = some receipt) = true := by simp [hreceipt]
  rw [changeVisibility, hurl]
  simp only [hms, hany, if_true, modifyReceived, hreceipt]
  refine ⟨_, rfl, ?_, contents_of_set hms rfl rfl⟩
  rw [announce, queue?_of_set rfl, if_pos rfl]

end Service

end Amazon

open Amazon (Service Stored)

/-- The event neither receives nor deletes nor hides anything in the queue. -/
def Event.Spares (queue : String) (event : Event) : Prop :=
  ∀ op, event.Asks op → op.Spares queue

/-- The first message of a queue is visible, and it has this id and this body. -/
def Brokers.Heads (b : Brokers) (queue : String) (content : String × String) : Prop :=
  ∃ m rest, b.amazon.queue? queue = some (m :: rest) ∧ m.content = content ∧
    m.isVisible b.now = true

theorem Amazon.Stored.isVisible_mono {m : Stored} {t t' : Instant}
    (h : m.isVisible t = true) (hle : t ≤ t') : m.isVisible t' = true := by
  unfold isVisible at h ⊢
  split
  · rfl
  · next moment hm =>
      simp only [hm, decide_eq_true_eq] at h ⊢
      exact Nat.le_trans h hle

namespace Brokers

variable {b : Brokers} {queue : String} {content : String × String}

/-- Whatever spares the queue leaves its first message where it is, and visible. -/
theorem Heads.on (h : b.Heads queue content) {event : Event} (hspares : event.Spares queue) :
    (b.on event).Heads queue content := by
  obtain ⟨m, rest, hms, hcontent, hvisible⟩ := h
  have hnow := Stored.isVisible_mono hvisible (b.now_le_on event)
  rcases Moment.amazon_cases ⟨b, event⟩ with hsame | ⟨op, hasks, hop⟩
  · have hsame : (b.on event).amazon = b.amazon := hsame
    exact ⟨m, rest, by rw [hsame, hms], hcontent, hnow⟩
  · have hop : (b.on event).amazon = b.amazon.after b.now op := hop
    obtain ⟨added, hadded⟩ := Service.queue?_after_of_spares b.now (hspares op hasks) hms
    exact ⟨m, rest ++ added, by rw [hop, hadded]; rfl, hcontent, hnow⟩

end Brokers

namespace Dispatcher

variable {d : Dispatcher} {queue : String}

def Refuses (d : Dispatcher) (content : String × String) (failure : Failure) : Prop :=
  ∀ m : Amazon.Message, (m.id, m.body) = content → d.convert m = .error failure

/-- A run that finds a message at the front which it cannot convert ends at once. It
publishes nothing, deletes nothing, and leaves this message where it was, visible. -/
theorem turn_of_refused {b : Brokers} {content : String × String} {failure : Failure}
    (hurl : Amazon.queueOfUrl? d.receiver.url = some queue) (hmax : 1 ≤ d.receiver.maxMessages)
    (hrefuses : d.Refuses content failure) (hheads : b.Heads queue content)
    (deadline : Instant) :
    ∃ after, d.turn deadline b = (.done (.error failure), after) ∧ after.rabbit = b.rabbit ∧
      after.amazon.contents = b.amazon.contents ∧ after.Heads queue content := by
  obtain ⟨m, rest, hms, hcontent, hvisible⟩ := hheads
  obtain ⟨x, out, s₁, rest', hlook, hshows, hms₁, hsame₁⟩ :=
    Service.look_first hurl hms hvisible hmax
  have hconvert : d.convert x = .error failure := by
    refine hrefuses x ?_
    rw [hshows.id, hshows.body]
    exact hcontent
  -- the handle of the message is the one that it was just handed out with
  have hhandle : (m.handedOut x (b.now + b.amazon.visibilityMillis)).receipt =
      some x.receipt := rfl
  obtain ⟨s₂, hrelease, hms₂, hsame₂⟩ :=
    Service.changeVisibility_first b.now hurl hms₁ hhandle
  have hforward : ∀ b' : Brokers, d.forward x b' = (.error failure, b') := by
    intro b'
    rw [forward, hconvert]
  have hreceive : d.receiver.turn deadline b =
      (.done (.ok (x :: out)), { b with amazon := s₁ }) := by
    rw [Receiver.turn, Brokers.onAmazon, hlook]
    rfl
  rw [turn, hreceive]
  simp only [dispatch, forwardAll, hforward, Receiver.release, Brokers.onAmazon, Brokers.record,
    hrelease]
  exact ⟨_, rfl, rfl, hsame₂.trans hsame₁, _, _, hms₂, hcontent, rfl⟩

/-- What happens to the brokers while a dispatcher is run again and again: its turns,
and what others do between them without touching its queue. The list holds the brokers
before each turn, with the deadline until which the turn may wait for messages. -/
inductive Interleaved (d : Dispatcher) (queue : String) (b₀ : Brokers) :
    List (Brokers × Instant) → Brokers → Prop where
  | start : Interleaved d queue b₀ [] b₀
  | other {turns : List (Brokers × Instant)} {b : Brokers} (before : Interleaved d queue b₀ turns b)
    (event : Event) (spares : event.Spares queue) : Interleaved d queue b₀ turns (b.on event)
  | turn {turns : List (Brokers × Instant)} {b : Brokers} (before : Interleaved d queue b₀ turns b)
    (deadline : Instant) :
    Interleaved d queue b₀ (turns ++ [(b, deadline)]) (d.turn deadline b).2

/-- A message that is refused stays at the front, at every moment. -/
theorem Interleaved.heads {b₀ b : Brokers} {turns : List (Brokers × Instant)}
    {content : String × String} {failure : Failure}
    (hurl : Amazon.queueOfUrl? d.receiver.url = some queue) (hmax : 1 ≤ d.receiver.maxMessages)
    (hrefuses : d.Refuses content failure) (hheads : b₀.Heads queue content)
    (h : Interleaved d queue b₀ turns b) :
    b.Heads queue content ∧ ∀ x ∈ turns, x.1.Heads queue content := by
  induction h with
  | start => exact ⟨hheads, nofun⟩
  | other _ event hspares ih => exact ⟨ih.1.on hspares, ih.2⟩
  | turn _ deadline ih =>
      obtain ⟨after, hturn, _, _, hafter⟩ := turn_of_refused hurl hmax hrefuses ih.1 deadline
      rw [hturn]
      refine ⟨hafter, fun x hx => ?_⟩
      rcases List.mem_append.mp hx with hx | hx
      · exact ih.2 x hx
      · rw [List.mem_singleton] at hx
        rw [hx]
        exact ih.1

theorem refuses_of_convert {m : Stored} {defect : Envelope.Defect}
    (h : Envelope.convert m.body m.id d.destination.exchange d.stamped = .error defect) :
    d.Refuses m.content defect.failure := by
  intro x hx
  obtain ⟨hid, hbody⟩ := Prod.mk.inj hx
  rw [convert, hid, hbody, h]
  rfl

/-- When the first message of a queue is visible and cannot be converted, every run ends
in the failure to convert it, whatever else happens in between. No run waits, publishes
or deletes anything, and the message stays where it is, and visible. -/
theorem poison_blocks {b₀ b : Brokers} {turns : List (Brokers × Instant)} {m : Stored}
    {rest : List Stored} {defect : Envelope.Defect}
    (hurl : Amazon.queueOfUrl? d.receiver.url = some queue) (hmax : 1 ≤ d.receiver.maxMessages)
    (hfirst : b₀.amazon.queue? queue = some (m :: rest)) (hvisible : m.isVisible b₀.now = true)
    (hpoison : Envelope.convert m.body m.id d.destination.exchange d.stamped = .error defect)
    (h : Interleaved d queue b₀ turns b) :
    (∃ message cause, defect.failure = .transform message cause) ∧
    b.Heads queue (m.id, m.body) ∧
    ∀ x ∈ turns, ∃ after, d.turn x.2 x.1 = (.done (.error defect.failure), after) ∧
      after.rabbit = x.1.rabbit ∧ after.amazon.contents = x.1.amazon.contents ∧
      after.Heads queue (m.id, m.body) := by
  have hrefuses := refuses_of_convert hpoison
  obtain ⟨hb, hturns⟩ := h.heads hurl hmax hrefuses ⟨m, rest, hfirst, rfl, hvisible⟩
  refine ⟨?_, hb, fun x hx => turn_of_refused hurl hmax hrefuses (hturns x hx) x.2⟩
  cases defect <;> exact ⟨_, _, rfl⟩

def stamping : Dispatcher :=
  ⟨⟨"in", Amazon.queueUrl "in", .zero, 10⟩, ⟨"", "out"⟩, true⟩

/-- The queue of the dispatcher has got a message that cannot be stamped. -/
def withNull : Brokers where
  amazon := ((Service.createQueue {} "in").putMessage "in" "null").2

/-- A minute and a good message later the dispatcher still fails on the first one. -/
theorem null_blocks :
    ∃ turns b, Interleaved stamping "in" withNull turns b ∧ turns.length = 2 ∧
      b.amazon.bodies "in" = ["null", "\x7b\x7d"] ∧
      b.Heads "in" (Amazon.identifier 1, "null") ∧
      ∀ x ∈ turns, ∃ after, stamping.turn x.2 x.1 =
        (.done (.error (Envelope.Defect.notObject "null").failure), after) := by
  have hrun : Interleaved stamping "in" withNull _ _ :=
    .turn (.other (.other (.turn .start 0)
      (.amazon (.sendToQueue "in" "\x7b\x7d")) (fun _ hop => hop ▸ trivial))
      (.clock 60000) nofun) 60000
  have hpoison : Envelope.convert "null" (Amazon.identifier 1) "" true =
      .error (.notObject "null") := by decide +kernel
  have hfirst : withNull.amazon.queue? "in" =
      some [⟨Amazon.identifier 1, "null", none, none, 0⟩] := by decide +kernel
  obtain ⟨_, hheads, hturns⟩ :=
    poison_blocks (by decide +kernel) (by decide) hfirst rfl hpoison hrun
  refine ⟨_, _, hrun, rfl, by decide +kernel, hheads, fun x hx => ?_⟩
  obtain ⟨after, hafter, _⟩ := hturns x hx
  exact ⟨after, hafter⟩

end Dispatcher

end MessageBridge
