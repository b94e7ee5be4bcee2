import MessageBridge.Proofs.Metrics
import MessageBridge.Proofs.Process.Turns
import Mathlib.Logic.Function.Iterate

/-!
# The ledger of a listener

The counters of a listener are raised in three places: when a delivery is taken, in the
attempts at it, and when it is settled. To say what they add up to, everything that a
consumer does is entered in a ledger besides: a line for each call of the listener, and one
for each delivery that was settled, with what it came to. `Consumer.calls` counts the
attempts that `Consumer.deliver` makes, and the lines of a turn follow the turn.

`Balances` is what the counters, the lines and the number of deliveries in hand have to do
with each other over some stretch of work. It holds for one turn at a delivery, and it holds
for two stretches together when it holds for each; so it holds for all that a consumer does.
-/

namespace MessageBridge

/-! ## Failures inside rejections -/

namespace Failure

/-- What is at the bottom of a rejection, however deep it is. -/
def innermost : Failure → Failure
  | .rejected cause => cause.innermost
  | failure => failure

theorem innermost_spec (failure : Failure) :
    failure.innermost.isRejection = false ∧
      ∃ depth, failure = Nat.iterate .rejected depth failure.innermost := by
  induction failure with
  | rejected cause ih =>
      obtain ⟨hplain, depth, hdepth⟩ := ih
      refine ⟨hplain, depth + 1, ?_⟩
      rw [Function.iterate_succ_apply', innermost, ← hdepth]
  | malformed | configuration | spec | transform | amazon | messaging | rabbit | shutdown
  | internal => exact ⟨rfl, 0, rfl⟩

theorem label_innermost (failure : Failure) : failure.innermost.label = failure.label := by
  induction failure with
  | rejected cause ih => exact ih
  | malformed | configuration | spec | transform | amazon | messaging | rabbit | shutdown
  | internal => rfl

end Failure

/-! ## Lines -/

/-- What is entered for a listener. -/
inductive Line where
  | called (listener : String)
  /-- A delivery was settled after its last attempt. -/
  | settled (listener : String) (result : Except Failure Unit) (outcome : Outcome)

namespace Line

def isCall (listener : String) : Line → Bool
  | called l => l = listener
  | settled _ _ _ => false

def isSettled (listener : String) : Line → Bool
  | called _ => false
  | settled l _ _ => l = listener

def isUnsettled (listener : String) : Line → Bool
  | called _ => false
  | settled l _ outcome => l = listener ∧ outcome = .unsettled

/-- A delivery was given up because of a failure with this label at the bottom. -/
def isDeadLetter (listener label : String) : Line → Bool
  | settled l (.error failure) _ => l = listener ∧ failure.innermost.label = label
  | _ => false

end Line

/-! ## Counters -/

namespace Metric

def isForwarded (listener : String) : Metric → Bool
  | forwarded l _ => l = listener
  | _ => false

def isDeadLettered (listener : String) : Metric → Bool
  | deadLettered l _ => l = listener
  | _ => false

def isSettleFailed (listener : String) : Metric → Bool
  | settleFailed l _ => l = listener
  | _ => false

end Metric

/-- What the counters of a listener show. -/
structure Tally where
  received : Nat
  forwarded : Nat
  retried : Nat
  deadLettered : Nat
  settleFailed : Nat
  labelled : String → Nat

def Metrics.tally (listener : String) (ms : Metrics) : Tally where
  received := ms.count (.received listener)
  forwarded := ms.total (Metric.isForwarded listener)
  retried := ms.count (.retried listener)
  deadLettered := ms.total (Metric.isDeadLettered listener)
  settleFailed := ms.total (Metric.isSettleFailed listener)
  labelled label := ms.count (.deadLettered listener label)

def Tally.raise (listener : String) (t : Tally) : Metric → Tally
  | .received l => { t with received := t.received + if l = listener then 1 else 0 }
  | .forwarded l _ => { t with forwarded := t.forwarded + if l = listener then 1 else 0 }
  | .retried l => { t with retried := t.retried + if l = listener then 1 else 0 }
  | .deadLettered l label => { t with
      deadLettered := t.deadLettered + if l = listener then 1 else 0
      labelled := fun label' =>
        t.labelled label' + if l = listener ∧ label = label' then 1 else 0 }
  | .settleFailed l _ => { t with settleFailed := t.settleFailed + if l = listener then 1 else 0 }
  | _ => t

theorem tally_record (listener : String) (b : Brokers) (m : Metric) :
    (b.record m).metrics.tally listener = (b.metrics.tally listener).raise listener m := by
  cases m <;>
    simp [Brokers.record, Metrics.tally, Tally.raise, Metric.isForwarded, Metric.isDeadLettered,
      Metric.isSettleFailed]

namespace Metrics

variable {listener : String} {ms ms' : Metrics}

theorem tally_of_eq (h : ms'.of listener = ms.of listener) :
    ms'.tally listener = ms.tally listener := by
  have hown : ∀ ms : Metrics, (ms.of listener).tally listener = ms.tally listener := by
    intro ms
    unfold tally
    congr 1
    · exact count_of rfl ms
    · exact total_of (fun m => by cases m <;> simp [Metric.isForwarded, Metric.listener?]) ms
    · exact count_of rfl ms
    · exact total_of (fun m => by cases m <;> simp [Metric.isDeadLettered, Metric.listener?]) ms
    · exact total_of (fun m => by cases m <;> simp [Metric.isSettleFailed, Metric.listener?]) ms
    · funext label
      exact count_of rfl ms
  rw [← hown ms', h, hown ms]

end Metrics

/-- What is counted and what is entered over some work agree: `n` deliveries were in hand
before it and `n'` after it. -/
structure Balances (listener : String) (t : Tally) (lines : List Line) (n : Nat) (t' : Tally)
    (n' : Nat) : Prop where
  received : t'.received + n = t.received + lines.countP (Line.isSettled listener) + n'
  settled : t'.forwarded + t'.deadLettered =
    t.forwarded + t.deadLettered + lines.countP (Line.isSettled listener)
  retried : t'.retried + lines.countP (Line.isSettled listener) =
    t.retried + lines.countP (Line.isCall listener)
  settleFailed : t'.settleFailed = t.settleFailed + lines.countP (Line.isUnsettled listener)
  labelled : ∀ label, t'.labelled label =
    t.labelled label + lines.countP (Line.isDeadLetter listener label)

namespace Balances

variable {listener : String} {t t' t'' : Tally} {lines lines' : List Line} {n n' n'' k k' : Nat}

theorem refl (listener : String) (t : Tally) (n : Nat) : Balances listener t [] n t n :=
  ⟨by simp, by simp, by simp, by simp, by simp⟩

theorem trans (h : Balances listener t lines n t' n')
    (h' : Balances listener t' lines' n' t'' n'') :
    Balances listener t (lines ++ lines') n t'' n'' := by
  refine ⟨?_, ?_, ?_, ?_, fun label => ?_⟩ <;> rw [List.countP_append]
  · have := h.received
    have := h'.received
    omega
  · have := h.settled
    have := h'.settled
    omega
  · have := h.retried
    have := h'.retried
    rw [List.countP_append]
    omega
  · have := h.settleFailed
    have := h'.settleFailed
    omega
  · have := h.labelled label
    have := h'.labelled label
    omega

/-- What was in hand before and after matters only by its difference. -/
theorem shift (h : Balances listener t lines n t' n') (hsame : k' + n = k + n') :
    Balances listener t lines k t' k' := by
  refine ⟨?_, h.settled, h.retried, h.settleFailed, h.labelled⟩
  have := h.received
  omega

/-- What counts nothing for the listener need not be entered. -/
theorem of_eq {ms ms' : Metrics} (h : ms'.of listener = ms.of listener) (n : Nat) :
    Balances listener (ms.tally listener) [] n (ms'.tally listener) n := by
  rw [Metrics.tally_of_eq h]
  exact .refl listener _ n

/-- Other deliveries may be in hand besides. -/
theorem beside (h : Balances listener t lines n t' n') (k : Nat) :
    Balances listener t lines (n + k) t' (n' + k) :=
  h.shift (by omega)

end Balances

/-! ## Handling a delivery -/

variable {listener : String}

@[simp] theorem metrics_send (t : Target) (body : String) (b : Brokers) :
    (t.send body b).2.metrics = b.metrics := by
  rw [Target.send_after]
  rfl

namespace Consumer

/-- How often the listener is called in a turn at a delivery, from the attempt with the
given number on. -/
def calls (c : Consumer) (d : Rabbit.Delivery) (attempt : Nat) (b : Brokers) : Nat :=
  match c.endpoint.attempt d b with
  | (.ok (), _) => 1
  | (.error failure, b) =>
    if failure.isRejection then 1
    else if h : c.retryEnabled ∧ c.policy.shouldRetry attempt then
      let b := b.record (.retried c.id)
      if (c.policy.delay attempt).millisUp = 0 then c.calls d (attempt + 1) b + 1 else 1
    else 1
termination_by c.policy.maxAttempts - attempt
decreasing_by
  have : attempt < c.policy.maxAttempts := by simpa [RetryPolicy.shouldRetry] using h.2
  omega

/-- So many, if the consumer is one of the listener. -/
def share (c : Consumer) (listener : String) (n : Nat) : Nat :=
  if c.id = listener then n else 0

theorem tally_of_error (listener : String) {c : Consumer} {d : Rabbit.Delivery} {b b' : Brokers}
    {failure : Failure} (hattempt : c.endpoint.attempt d b = (.error failure, b')) :
    b'.metrics.tally listener = b.metrics.tally listener := by
  rcases c.endpoint.attempt_cases d with ⟨_, _, h⟩ | ⟨text, _, h⟩
  · rw [h] at hattempt
    cases hattempt
    rfl
  · rcases h b with ⟨_, h⟩ | ⟨_, _, h⟩ <;> rw [h] at hattempt <;> cases hattempt
    rw [metrics_send]

theorem tally_of_ok {c : Consumer} {d : Rabbit.Delivery} {b b' : Brokers}
    (hattempt : c.endpoint.attempt d b = (.ok (), b')) :
    b'.metrics.tally listener = { b.metrics.tally listener with
      forwarded := (b.metrics.tally listener).forwarded + c.share listener 1 } := by
  rcases c.endpoint.attempt_cases d with ⟨_, _, h⟩ | ⟨text, _, h⟩
  · rw [h] at hattempt
    cases hattempt
  · rcases h b with ⟨_, h⟩ | ⟨_, _, h⟩ <;> rw [h] at hattempt <;> cases hattempt
    rw [tally_record, metrics_send]
    rfl

theorem share_add (c : Consumer) (m n : Nat) :
    c.share listener m + c.share listener n = c.share listener (m + n) := by
  unfold share
  split <;> rfl

/-- In a turn all attempts but the last one have failed and are counted as retried. The
last one is so too if the turn goes to sleep. -/
theorem tally_deliver (listener : String) (c : Consumer) (d : Rabbit.Delivery) (attempt : Nat)
    (b : Brokers) :
    ∃ failed b', (∃ result, c.deliver d attempt b = (.done result, b') ∧
        c.calls d attempt b = failed + 1 ∧
        b'.metrics.tally listener = { b.metrics.tally listener with
          retried := (b.metrics.tally listener).retried + c.share listener failed
          forwarded := (b.metrics.tally listener).forwarded +
            c.share listener (if result = .ok () then 1 else 0) }) ∨
      ∃ sleep next, c.deliver d attempt b = (.asleep sleep next, b') ∧
        c.calls d attempt b = failed ∧
        b'.metrics.tally listener = { b.metrics.tally listener with
          retried := (b.metrics.tally listener).retried + c.share listener failed } := by
  -- By the attempts that `deliver` makes; `calls` follows the same recursion.
  fun_induction Consumer.deliver c d attempt b with
  | case1 attempt b b' hattempt =>
      refine ⟨0, b', .inl ⟨_, rfl, by rw [calls, hattempt], ?_⟩⟩
      simp [tally_of_ok hattempt, share]
  | case2 attempt b failure b' hattempt hrejection =>
      refine ⟨0, b', .inl ⟨_, rfl, ?_, ?_⟩⟩
      · rw [calls, hattempt]
        simp only [hrejection, if_true]
      · simp [tally_of_error listener hattempt, share]
  | case3 attempt b failure b₁ hattempt hno hretry b₂ millis hmillis ih =>
      have hzero : (c.policy.delay attempt).millisUp = 0 := hmillis
      have hcalls : c.calls d attempt b = c.calls d (attempt + 1) b₂ + 1 := by
        rw [calls, hattempt]
        simp only []
        rw [if_neg hno, dif_pos hretry, if_pos hzero]
      have htally : b₂.metrics.tally listener = { b.metrics.tally listener with
          retried := (b.metrics.tally listener).retried + c.share listener 1 } := by
        rw [← tally_of_error listener hattempt]
        exact tally_record listener b₁ (.retried c.id)
      obtain ⟨failed, b', hrest⟩ := ih
      rcases hrest with ⟨result, hdone, hrest, hafter⟩ | ⟨sleep, next, hasleep, hrest, hafter⟩
      · refine ⟨failed + 1, b', .inl ⟨result, hdone, by omega, ?_⟩⟩
        rw [hafter, htally, Nat.add_comm failed 1, ← share_add, Nat.add_assoc]
      · refine ⟨failed + 1, b', .inr ⟨sleep, next, hasleep, by omega, ?_⟩⟩
        rw [hafter, htally, Nat.add_comm failed 1, ← share_add, Nat.add_assoc]
  | case4 attempt b failure b₁ hattempt hno hretry b₂ millis hmillis =>
      have hzero : ¬ (c.policy.delay attempt).millisUp = 0 := hmillis
      refine ⟨1, b₂, .inr ⟨_, _, rfl, ?_, ?_⟩⟩
      · rw [calls, hattempt]
        simp only []
        rw [if_neg hno, dif_pos hretry, if_neg hzero]
      · rw [← tally_of_error listener hattempt]
        exact tally_record listener b₁ (.retried c.id)
  | case5 attempt b failure b' hattempt hno hretry =>
      refine ⟨0, b', .inl ⟨_, rfl, ?_, ?_⟩⟩
      · rw [calls, hattempt]
        simp only []
        rw [if_neg hno, dif_neg hretry]
      · simp [tally_of_error listener hattempt, share]

/-- A delivery that is given up counts under the label of its failure, and one that the
broker refuses to settle counts as that. -/
theorem tally_settle (listener : String) {c : Consumer} {d : Rabbit.Delivery}
    {result : Except Failure Unit} {b b' : Brokers} {outcome : Outcome}
    (h : c.settle d result b = (outcome, b')) :
    b'.metrics.tally listener = { b.metrics.tally listener with
      deadLettered := (b.metrics.tally listener).deadLettered +
        c.share listener (if result = .ok () then 0 else 1)
      settleFailed := (b.metrics.tally listener).settleFailed +
        c.share listener (if outcome = .unsettled then 1 else 0)
      labelled := fun label => (b.metrics.tally listener).labelled label +
        [Line.settled c.id result outcome].countP (Line.isDeadLetter listener label) } := by
  have hfailed : ∀ (b : Brokers) (label : String),
      (b.record (.settleFailed c.id label)).metrics.tally listener =
        { b.metrics.tally listener with
          settleFailed := (b.metrics.tally listener).settleFailed + c.share listener 1 } :=
    fun b label => tally_record listener b (.settleFailed c.id label)
  have hdead : ∀ (b : Brokers) (failure : Failure),
      (b.record (.deadLettered c.id failure.label)).metrics.tally listener =
        { b.metrics.tally listener with
          deadLettered := (b.metrics.tally listener).deadLettered + c.share listener 1
          labelled := fun label => (b.metrics.tally listener).labelled label +
            [Line.settled c.id (.error failure) outcome].countP
              (Line.isDeadLetter listener label) } := by
    intro b failure
    rw [tally_record, Tally.raise]
    simp only [List.countP_singleton, Line.isDeadLetter, Failure.label_innermost, decide_eq_true_eq]
    rfl
  unfold settle at h
  cases result with
  | ok =>
      simp only [Brokers.onRabbit] at h
      rcases hack : b.rabbit.ack d.tag with ⟨settled, r⟩
      rw [hack] at h
      cases settled with
      | ok =>
          cases h
          simp [share, Line.isDeadLetter]
      | error refusal =>
          cases h
          simp [hfailed, share, Line.isDeadLetter]
  | error failure =>
      -- It is counted as given up before the broker is asked.
      have hgiven := hdead b failure
      simp only [Brokers.onRabbit] at h
      generalize b.record (.deadLettered c.id failure.label) = b₁ at hgiven h
      rcases hreject : b₁.rabbit.reject d.tag false with ⟨settled, r⟩
      rw [hreject] at h
      cases settled with
      | ok =>
          cases h
          simp [hgiven, share]
      | error refusal =>
          cases h
          simp [hfailed, hgiven, share]

end Consumer

namespace Handling

def lines (c : Consumer) (h : Handling) (b : Brokers) : List Line :=
  List.replicate (c.calls h.delivery h.attempt b) (.called c.id) ++
    match c.deliver h.delivery h.attempt b with
    | (.asleep _ _, _) => []
    | (.done result, b) =>
      [.settled c.id result (c.settle h.delivery result (b.record (.sendLatency c.id))).1]

theorem balances_start (listener : String) (c : Consumer) (d : Rabbit.Delivery) (b : Brokers) :
    Balances listener (b.metrics.tally listener) [] 0
      ((start c d b).2.metrics.tally listener) (c.share listener 1) := by
  have htally : (start c d b).2.metrics.tally listener = { b.metrics.tally listener with
      received := (b.metrics.tally listener).received + c.share listener 1 } :=
    tally_record listener b (.received c.id)
  rw [htally]
  exact ⟨rfl, rfl, rfl, rfl, fun _ => rfl⟩

theorem balances_calls (c : Consumer) (t : Tally) (k n : Nat) :
    Balances listener t (List.replicate k (.called c.id)) n
      { t with retried := t.retried + c.share listener k } n := by
  refine ⟨?_, ?_, ?_, ?_, fun label => ?_⟩ <;>
    simp [List.countP_replicate, Line.isCall, Line.isSettled, Line.isUnsettled, Line.isDeadLetter,
      Consumer.share]

theorem balances_settled (c : Consumer) (t : Tally) (result : Except Failure Unit)
    (outcome : Outcome) :
    Balances listener t [.called c.id, .settled c.id result outcome] (c.share listener 1)
      { t with
        forwarded := t.forwarded + c.share listener (if result = .ok () then 1 else 0)
        deadLettered := t.deadLettered + c.share listener (if result = .ok () then 0 else 1)
        settleFailed := t.settleFailed +
          c.share listener (if outcome = .unsettled then 1 else 0)
        labelled := fun label => t.labelled label +
          [Line.settled c.id result outcome].countP (Line.isDeadLetter listener label) } 0 := by
  refine ⟨?_, ?_, ?_, ?_, fun label => ?_⟩
  · by_cases hid : c.id = listener <;> simp [hid, Consumer.share, Line.isSettled]
  · by_cases hid : c.id = listener <;> by_cases hok : result = .ok () <;>
      simp [hid, hok, Consumer.share, Line.isSettled] <;> omega
  · by_cases hid : c.id = listener <;>
      simp [hid, Line.isSettled, Line.isCall]
  · by_cases hid : c.id = listener <;>
      simp [hid, Consumer.share, Line.isUnsettled, List.countP_cons]
  · simp [List.countP_cons, Line.isDeadLetter]

/-- A delivery is in hand until it is settled. -/
theorem balances_turn (listener : String) (c : Consumer) (h : Handling) (b : Brokers) :
    Balances listener (b.metrics.tally listener) (h.lines c b) (c.share listener 1)
      ((h.turn c b).2.metrics.tally listener)
      (match (h.turn c b).1 with
        | .done _ => 0
        | .asleep _ _ => c.share listener 1) := by
  obtain ⟨failed, b', ⟨result, hdone, hcalls, htally⟩ | ⟨sleep, next, hasleep, hcalls, htally⟩⟩ :=
    c.tally_deliver listener h.delivery h.attempt b
  · have hlatency : (b'.record (.sendLatency c.id)).metrics.tally listener =
        b'.metrics.tally listener := tally_record listener b' (.sendLatency c.id)
    rcases hsettle : c.settle h.delivery result (b'.record (.sendLatency c.id)) with ⟨outcome, b''⟩
    have hafter := Consumer.tally_settle listener hsettle
    have hlines : h.lines c b = List.replicate failed (.called c.id) ++
        [.called c.id, .settled c.id result outcome] := by
      unfold lines
      simp only [hdone, hcalls, hsettle]
      rw [List.replicate_succ', List.append_assoc]
      rfl
    have hturn : h.turn c b = (.done outcome, b'') := by
      unfold turn
      simp only [hdone, hsettle]
    rw [hturn, hlines, hafter, hlatency, htally]
    exact (balances_calls c _ failed _).trans (balances_settled c _ result outcome)
  · have hlines : h.lines c b = List.replicate failed (.called c.id) := by
      unfold lines
      simp only [hasleep, hcalls, List.append_nil]
    have hturn : h.turn c b = (.asleep sleep { h with attempt := next }, b') := by
      unfold turn
      simp only [hasleep]
    rw [hturn, hlines, htally]
    exact balances_calls c _ failed _

end Handling

/-! ## A running consumer -/

namespace Consuming

/-- The deliveries that a running consumer has taken and not settled. -/
def inHand : Consuming → Nat
  | running _ underway => underway.length
  | starting | finished _ => 0

/-- What is entered while a consumer works on its deliveries. -/
def workLines (c : Consumer) : List Underway → Brokers → List Line
  | [], _ => []
  | u :: rest, b =>
    if u.sleep.isOver b then
      u.handling.lines c b ++
        match u.handling.turn c b with
        | (.done _, _) => []
        | (.asleep _ _, b) => workLines c rest b
    else workLines c rest b

def lines (c : Consumer) (stop : StopSignal) (number : Nat) : Consuming → Brokers → List Line
  | running streamOpen underway, b =>
    let (_, underway, b) := take c stop number streamOpen underway b
    workLines c underway b
  | starting, _ | finished _, _ => []

theorem balances_take (listener : String) (c : Consumer) (stop : StopSignal) (number : Nat)
    (streamOpen : Bool) (underway : List Underway) (b : Brokers) :
    Balances listener (b.metrics.tally listener) [] (c.share listener underway.length)
      ((take c stop number streamOpen underway b).2.2.metrics.tally listener)
      (c.share listener (take c stop number streamOpen underway b).2.1.length) := by
  unfold take
  split
  · split
    · exact .refl listener _ _
    · simp only [Brokers.onRabbit]
      rcases b.rabbit.next c.endpoint.queue with ⟨delivery, r⟩
      cases delivery with
      | none => exact .refl listener _ _
      | some d =>
          have hstart := Handling.balances_start listener c d { b with rabbit := r }
          refine hstart.shift ?_
          simp only [List.length_append, List.length_singleton, ← Consumer.share_add, Nat.add_zero]
  · exact .refl listener _ _

/-- What goes to sleep again stays in hand, and so does what was not worked on. -/
theorem balances_work (listener : String) (c : Consumer) (number : Nat)
    (underway : List Underway) :
    ∀ (again : List Underway) (b : Brokers),
      Balances listener (b.metrics.tally listener) (workLines c underway b)
        (c.share listener (again.length + underway.length))
        ((work c number again underway b).2.metrics.tally listener)
        (c.share listener (work c number again underway b).1.length) := by
  induction underway with
  | nil => exact fun again b => .refl listener _ _
  | cons u rest ih =>
      intro again b
      rw [work, workLines, List.length_cons, ← Nat.add_assoc, ← Consumer.share_add]
      split
      · have hturn := u.handling.balances_turn listener c b
        rcases hturned : Handling.turn c u.handling b with ⟨turned, b₁⟩
        rw [hturned] at hturn
        cases turned with
        | done outcome =>
            simp only [List.append_nil, List.length_append]
            rw [Nat.add_comm rest.length]
            exact hturn.shift rfl
        | asleep sleep handling =>
            have hrest := ih (again ++ [⟨handling, sleep, number⟩]) b₁
            rw [List.length_append, List.length_singleton, Nat.add_right_comm,
              ← Consumer.share_add] at hrest
            exact (hturn.shift rfl).trans hrest
      · refine (ih again b).shift ?_
        rw [List.length_cons, ← Consumer.share_add]
        omega

theorem balances_turn (listener : String) (c : Consumer) (stop : StopSignal) (number : Nat)
    (state : Consuming) (b : Brokers) :
    Balances listener (b.metrics.tally listener) (state.lines c stop number b)
      (c.share listener state.inHand)
      ((state.turn c stop number b).2.metrics.tally listener)
      (c.share listener (state.turn c stop number b).1.inHand) := by
  cases state with
  | starting =>
      simp only [turn, Brokers.onRabbit]
      rcases b.rabbit.consume c.endpoint.queue with ⟨result, r⟩
      cases result <;> exact .refl listener _ _
  | running streamOpen underway =>
      have htake := balances_take listener c stop number streamOpen underway b
      rcases htook : take c stop number streamOpen underway b with ⟨streamOpen', underway', b₁⟩
      rw [htook] at htake
      have hwork := balances_work listener c number underway' [] b₁
      rcases hworked : work c number [] underway' b₁ with ⟨left, b₂⟩
      rw [hworked, List.length_nil, Nat.zero_add] at hwork
      have hboth := htake.trans hwork
      simp only [lines, turn, htook, hworked]
      split
      · next hover =>
          -- A consumer that is over has nothing left in hand.
          have hnone : left = [] := by simp_all
          rw [hnone] at hboth
          exact hboth
      · exact hboth
  | finished result => exact .refl listener _ _

end Consuming

end MessageBridge
