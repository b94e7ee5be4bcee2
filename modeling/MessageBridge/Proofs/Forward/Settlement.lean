import MessageBridge.Proofs.Forward.Endpoints
import MessageBridge.Proofs.Process.Waiting

/-!
# A delivery is settled once, and in the right way

The handling of a delivery may take several turns, and several attempts in each
of them. `Tries` lists the attempts of one turn and `Handled` those of all of
them, each by the brokers before it. Between two turns the brokers may change in
any way that is described by a relation, so every order of steps and every
sequence of failures is covered: what a send comes to is decided by the brokers
that it finds.

All attempts but the last one fail, whatever happens. So the last one decides:
when it succeeds the delivery is acknowledged, and nothing was accepted before;
when it fails nothing was ever accepted, and the delivery is rejected with the
body that it came with. An attempt does not touch rabbit, hence the broker that
is asked to settle is the one that the last attempt has found.
-/

namespace MessageBridge

/-- What the bridge makes of the delivery is accepted by its destination. -/
def Bridge.Accepts (bridge : Bridge) (d : Rabbit.Delivery) (b : Brokers) : Prop :=
  ∃ chain target text, Chain.ofBridge bridge = .ok chain ∧
    Target.ofDestination bridge.destination = .ok target ∧
    chain.transform d.bodyText = .ok text ∧ (target.send text b).1 = .ok ()

theorem Endpoint.attempt_ok_iff (e : Endpoint) (d : Rabbit.Delivery) (b : Brokers) :
    (e.attempt d b).1 = .ok () ↔
      ∃ text, e.chain.transform d.bodyText = .ok text ∧ (e.target.send text b).1 = .ok () := by
  rcases e.attempt_cases d with ⟨failure, htext, h⟩ | ⟨text, htext, h⟩
  · rw [h]
    refine ⟨(fun hok => nomatch hok), ?_⟩
    rintro ⟨text, htext', _⟩
    rw [htext] at htext'
    cases htext'
  · rcases h b with ⟨hsend, h⟩ | ⟨failure, hsend, h⟩
    · rw [h]
      exact ⟨fun _ => ⟨text, htext, hsend⟩, fun _ => rfl⟩
    · rw [h]
      refine ⟨(fun hok => nomatch hok), ?_⟩
      rintro ⟨text', htext', hsend'⟩
      rw [htext] at htext'
      injection htext' with htext'
      rw [← htext', hsend] at hsend'
      cases hsend'

/-- A successful attempt is one that the destination of the bridge accepts. -/
theorem Endpoint.Serves.accepts_iff {e : Endpoint} {bridge : Bridge} {source : RabbitSource}
    {r : Rabbit.Broker} (hs : e.Serves bridge source r) (d : Rabbit.Delivery) (b : Brokers) :
    bridge.Accepts d b ↔ (e.attempt d b).1 = .ok () := by
  rw [Endpoint.attempt_ok_iff]
  refine ⟨?_, ?_⟩
  · rintro ⟨chain, target, text, hchain, htarget, htext, hsend⟩
    rw [hs.chain] at hchain
    rw [hs.target] at htarget
    injection hchain with hchain
    injection htarget with htarget
    subst hchain htarget
    exact ⟨text, htext, hsend⟩
  · rintro ⟨text, htext, hsend⟩
    exact ⟨e.chain, e.target, text, hs.chain, hs.target, htext, hsend⟩

namespace Consumer

/-- After a failed attempt the next one follows in the same turn. -/
def AtOnce (c : Consumer) (d : Rabbit.Delivery) (attempt : Nat) (b b' : Brokers) : Prop :=
  ∃ failure b₁, c.endpoint.attempt d b = (.error failure, b₁) ∧ failure.isRejection = false ∧
    (c.retryEnabled ∧ c.policy.shouldRetry attempt) ∧ (c.policy.delay attempt).millisUp = 0 ∧
    b' = b₁.record (.retried c.id)

/-- The attempts that one turn makes, from the one with a number on: the brokers
before each of them, the last one apart. -/
inductive Tries (c : Consumer) (d : Rabbit.Delivery) : Nat → Brokers → List Brokers → Brokers → Prop
    where
  | last {attempt : Nat} {b : Brokers} (alone : ∀ b', ¬ c.AtOnce d attempt b b') :
    Tries c d attempt b [] b
  | again {attempt : Nat} {b b' last : Brokers} {earlier : List Brokers}
      (once : c.AtOnce d attempt b b') (rest : Tries c d (attempt + 1) b' earlier last) :
    Tries c d attempt b (b :: earlier) last

/-- The handling of a delivery, from an attempt on: the brokers before each
attempt, the last one apart, what the handling comes to and the brokers after
it. While the consumer sleeps, the brokers change as the relation says. -/
inductive Handled (c : Consumer) (d : Rabbit.Delivery) (meanwhile : Brokers → Brokers → Prop) :
    Nat → Brokers → List Brokers → Brokers → Outcome → Brokers → Prop where
  | settled {attempt : Nat} {b b' last : Brokers} {earlier : List Brokers} {outcome : Outcome}
      (tries : c.Tries d attempt b earlier last)
      (turn : Handling.turn c ⟨d, attempt⟩ b = (.done outcome, b')) :
    Handled c d meanwhile attempt b earlier last outcome b'
  | slept {attempt attempt' : Nat} {b b₁ b₂ b' last₁ last : Brokers}
      {earlier₁ earlier : List Brokers} {sleep : Sleep} {outcome : Outcome}
      (tries : c.Tries d attempt b earlier₁ last₁)
      (turn : Handling.turn c ⟨d, attempt⟩ b = (.asleep sleep ⟨d, attempt'⟩, b₁))
      (between : meanwhile b₁ b₂)
      (rest : Handled c d meanwhile attempt' b₂ earlier last outcome b') :
    Handled c d meanwhile attempt b (earlier₁ ++ last₁ :: earlier) last outcome b'

variable {c : Consumer} {d : Rabbit.Delivery} {meanwhile : Brokers → Brokers → Prop}
  {attempt : Nat} {b b' last : Brokers} {earlier : List Brokers} {outcome : Outcome}

/-! ## The attempts of one turn -/

theorem exists_tries (c : Consumer) (d : Rabbit.Delivery) (attempt : Nat) (b : Brokers) :
    ∃ earlier last, c.Tries d attempt b earlier last := by
  fun_induction Consumer.deliver c d attempt b with
  | case3 attempt b failure b₁ hattempt hno hretry b₂ millis hmillis ih =>
      obtain ⟨earlier, last, hrest⟩ := ih
      have hno' : failure.isRejection = false := by simpa using hno
      exact ⟨b :: earlier, last,
        .again ⟨failure, b₁, hattempt, hno', hretry, hmillis, rfl⟩ hrest⟩
  | case1 attempt b b₁ hattempt =>
      refine ⟨[], b, .last ?_⟩
      rintro b' ⟨failure', _, hattempt', _⟩
      rw [hattempt] at hattempt'
      cases hattempt'
  | case2 attempt b failure b₁ hattempt hyes =>
      refine ⟨[], b, .last ?_⟩
      rintro b' ⟨failure', _, hattempt', hno, _⟩
      rw [hattempt] at hattempt'
      cases hattempt'
      rw [hyes] at hno
      cases hno
  | case4 attempt b failure b₁ hattempt _ _ b₂ millis hmillis =>
      refine ⟨[], b, .last ?_⟩
      rintro b' ⟨_, _, _, _, _, hmillis', _⟩
      exact hmillis hmillis'
  | case5 attempt b failure b₁ hattempt _ hretry =>
      refine ⟨[], b, .last ?_⟩
      rintro b' ⟨_, _, _, _, hretry', _⟩
      exact hretry hretry'

/-- A turn comes to what its last attempt comes to, unless it goes to sleep. All
its other attempts have failed. -/
theorem Tries.deliver (ht : c.Tries d attempt b earlier last) :
    (∀ x ∈ earlier, (c.endpoint.attempt d x).1 ≠ .ok ()) ∧ last.rabbit = b.rabbit ∧
      (c.deliver d attempt b = (.done (c.endpoint.attempt d last).1, (c.endpoint.attempt d last).2) ∨
        ∃ sleep next, (c.endpoint.attempt d last).1 ≠ .ok () ∧ attempt < next ∧
          next ≤ c.policy.maxAttempts ∧ c.deliver d attempt b =
            (.asleep sleep next, (c.endpoint.attempt d last).2.record (.retried c.id))) := by
  induction ht with
  | @last attempt b alone =>
      refine ⟨fun x hx => (List.not_mem_nil hx).elim, rfl, ?_⟩
      rw [Consumer.deliver]
      rcases hattempt : c.endpoint.attempt d b with ⟨result, b₁⟩
      cases result with
      | ok => exact Or.inl rfl
      | error failure =>
          simp only []
          split
          · exact Or.inl rfl
          · next hno =>
              split
              · next hretry =>
                  have hmillis : ¬ (c.policy.delay attempt).millisUp = 0 := by
                    intro hmillis
                    exact alone _ ⟨failure, b₁, hattempt, by simpa using hno, hretry, hmillis, rfl⟩
                  rw [if_neg hmillis]
                  have hlt : attempt < c.policy.maxAttempts := by
                    simpa [RetryPolicy.shouldRetry] using hretry.2
                  exact Or.inr ⟨_, attempt + 1, fun h => (nomatch h), Nat.lt_succ_self _, hlt, rfl⟩
              · exact Or.inl rfl
  | @again attempt b b' last earlier once rest ih =>
      obtain ⟨failure, b₁, hattempt, hno, hretry, hmillis, rfl⟩ := once
      obtain ⟨hfailed, hrabbit, hdeliver⟩ := ih
      have hsame : c.deliver d attempt b =
          c.deliver d (attempt + 1) (b₁.record (.retried c.id)) := by
        rw [Consumer.deliver, hattempt]
        simp only []
        rw [if_neg (by simpa using hno), dif_pos hretry, if_pos hmillis]
      refine ⟨?_, ?_, ?_⟩
      · intro x hx
        rcases List.mem_cons.mp hx with rfl | hx
        · rw [hattempt]
          exact fun h => nomatch h
        · exact hfailed x hx
      · have := c.endpoint.rabbit_attempt d b
        rw [hattempt] at this
        exact hrabbit.trans this
      · rw [hsame]
        rcases hdeliver with h | ⟨sleep, next, hfail, hlt, hle, h⟩
        · exact Or.inl h
        · exact Or.inr ⟨sleep, next, hfail, Nat.lt_of_succ_lt hlt, hle, h⟩

/-! ## All attempts -/

theorem turn_of_done {result : Except Failure Unit} {b₁ : Brokers}
    (h : c.deliver d attempt b = (.done result, b₁)) :
    Handling.turn c ⟨d, attempt⟩ b =
      (.done (c.settle d result (b₁.record (.sendLatency c.id))).1,
        (c.settle d result (b₁.record (.sendLatency c.id))).2) := by
  unfold Handling.turn
  rw [h]

theorem turn_of_asleep {sleep : Sleep} {next : Nat} {b₁ : Brokers}
    (h : c.deliver d attempt b = (.asleep sleep next, b₁)) :
    Handling.turn c ⟨d, attempt⟩ b = (.asleep sleep ⟨d, next⟩, b₁) := by
  unfold Handling.turn
  rw [h]

/-- Before the last attempt all have failed. The last one finds a broker that has
come about from the first one, and the delivery is settled there, by what this
attempt comes to. -/
theorem Handled.settles (hm : ∀ x y, meanwhile x y → x.rabbit.Reaches y.rabbit)
    (hh : c.Handled d meanwhile attempt b earlier last outcome b') :
    (∀ x ∈ earlier, (c.endpoint.attempt d x).1 ≠ .ok ()) ∧ b.rabbit.Reaches last.rabbit ∧
      ∃ b₁ : Brokers, b₁.rabbit = last.rabbit ∧
        c.settle d (c.endpoint.attempt d last).1 b₁ = (outcome, b') := by
  induction hh with
  | @settled attempt b b' last earlier outcome tries turn =>
      obtain ⟨hfailed, hrabbit, hdeliver⟩ := tries.deliver
      refine ⟨hfailed, ?_, ?_⟩
      · rw [hrabbit]
        exact .refl
      · rcases hdeliver with h | ⟨sleep, next, _, _, _, h⟩
        · rw [turn_of_done h] at turn
          injection turn with houtcome hb
          injection houtcome with houtcome
          refine ⟨(c.endpoint.attempt d last).2.record (.sendLatency c.id), ?_, ?_⟩
          · exact c.endpoint.rabbit_attempt d last
          · exact Prod.ext houtcome hb
        · rw [turn_of_asleep h] at turn
          cases turn
  | @slept attempt next b b₁ b₂ b' last₁ last earlier₁ earlier sleep outcome tries turn between
      rest ih =>
      obtain ⟨hfailed₁, hrabbit₁, hdeliver⟩ := tries.deliver
      obtain ⟨hfailed, hreaches, hsettle⟩ := ih
      rcases hdeliver with h | ⟨_, _, hfail, _, _, h⟩
      · rw [turn_of_done h] at turn
        cases turn
      · rw [turn_of_asleep h] at turn
        injection turn with _ hb
        refine ⟨?_, ?_, hsettle⟩
        · intro x hx
          rcases List.mem_append.mp hx with hx | hx
          · exact hfailed₁ x hx
          · rcases List.mem_cons.mp hx with rfl | hx
            · exact hfail
            · exact hfailed x hx
        · have hb₁ : b₁.rabbit = b.rabbit := by
            rw [← hb, ← hrabbit₁]
            exact c.endpoint.rabbit_attempt d last₁
          have := (hm b₁ b₂ between).trans hreaches
          rwa [hb₁] at this

/-- A bridge from a rabbit queue to an Amazon queue. -/
def ordersBridge : Bridge where
  source := .rabbit ⟨"orders", "orders-q", "#"⟩
  destination := .sqs "out"

def ordersMade : Except Failure Endpoint × Brokers :=
  Endpoint.ofBridge 0 true ordersBridge { amazon := { queues := [("out", [])] } }

def ordersConsumer : Consumer where
  endpoint := ordersMade.1.toOption.getD default
  policy := .immediate 3
  retryEnabled := true
  concurrency := 1

/-- An order that has been taken from the queue of the bridge. -/
def orderTaken : Brokers where
  rabbit := (ordersMade.2.rabbit.after (.send "orders" "created" "null".toUTF8)).after
    (.next "orders-q")
  amazon := ordersMade.2.amazon

def order : Rabbit.Delivery := ⟨1, "orders", "created", "orders-q", "null".toUTF8, false⟩

end Consumer

end MessageBridge
