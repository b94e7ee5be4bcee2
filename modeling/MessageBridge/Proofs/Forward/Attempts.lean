import MessageBridge.Forward.Consuming
import Mathlib.Algebra.BigOperators.Intervals
import Mathlib.Algebra.Order.BigOperators.Group.Finset
import Mathlib.Order.Bounds.Basic

/-!
# How often a delivery is tried

Whether a failed delivery is tried again is decided in two places. The listener of an
endpoint turns a failure that is final into a rejection, and the consumer gives up when it
sees one, or when the policy allows no further attempt. `Consumer.Ends` is the decision of
the two together, said about what the inner listener has come to.

The inner listener is left open here: a `Listener` may come to anything in each of its
calls and do anything to the brokers. The attempts of a consumer with its own endpoint are
those with the listener that forwards.

A turn makes several calls when the delays between them are zero, and otherwise the
consumer sleeps between two calls, while the brokers change as a relation says. `Tried`
forgets the turns and goes from call to call; everything that is said about the calls
follows from it by induction.
-/

namespace MessageBridge

/-- What a listener does with a delivery: the result of each of its calls, by their
numbers, and the brokers after it. -/
abbrev Listener := Nat → Brokers → Except Failure Unit × Brokers

/-- The listener around another one that decides about its failures. -/
def Listener.deciding (inner : Listener) (retryEnabled : Bool) : Listener := fun k b =>
  match inner k b with
  | (.ok (), b) => (.ok (), b)
  | (.error failure, b) => (.error (failure.decided retryEnabled), b)

/-- The failures that may pass by themselves. -/
inductive Failure.MayPass : Failure → Prop where
  | amazon (message : String) (source : Option String) : MayPass (.amazon message source)
  | messaging (message : String) (source : Option String) : MayPass (.messaging message source)

theorem Failure.mayPass_iff (failure : Failure) : failure.MayPass ↔ failure.isRetryable = true := by
  cases failure with
  | amazon message source => exact ⟨fun _ => rfl, fun _ => .amazon message source⟩
  | messaging message source => exact ⟨fun _ => rfl, fun _ => .messaging message source⟩
  | malformed | configuration | spec | transform | rabbit | rejected | shutdown | internal =>
      exact ⟨(fun h => nomatch h), fun h => nomatch h⟩

/-- A failure that may pass stays what it is while there are other attempts. -/
theorem Failure.decided_of_mayPass {failure : Failure} {retryEnabled : Bool}
    (h : retryEnabled = true ∧ failure.MayPass) :
    failure.decided retryEnabled = failure ∧ failure.isRejection = false := by
  obtain ⟨rfl, hpass⟩ := h
  cases hpass <;> exact ⟨rfl, rfl⟩

theorem Failure.decided_of_final {failure : Failure} {retryEnabled : Bool}
    (h : ¬ (retryEnabled = true ∧ failure.MayPass)) :
    failure.decided retryEnabled = failure.reject := by
  rw [failure.mayPass_iff, ← Bool.and_eq_true] at h
  simp only [decided, decision, if_neg h]

theorem RetryPolicy.delay_le (p : RetryPolicy) (attempt : Nat) :
    (p.delay attempt).nanos ≤ p.maxDelay.nanos :=
  Nat.min_le_right _ _

namespace Consumer

/-- Make attempts at a delivery with some listener, from the one with the given number on. -/
def deliverWith (c : Consumer) (listener : Listener) (attempt : Nat) (b : Brokers) :
    Turn Nat (Except Failure Unit) × Brokers :=
  match listener attempt b with
  | (.ok (), b) => (.done (.ok ()), b)
  | (.error failure, b) =>
    if failure.isRejection then (.done (.error failure), b)
    else if h : c.retryEnabled ∧ c.policy.shouldRetry attempt then
      let b := b.record (.retried c.id)
      let millis := (c.policy.delay attempt).millisUp
      if millis = 0 then c.deliverWith listener (attempt + 1) b
      else (.asleep (.lasting b millis) (attempt + 1), b)
    else (.done (.error failure), b)
termination_by c.policy.maxAttempts - attempt
decreasing_by
  have : attempt < c.policy.maxAttempts := by simpa [RetryPolicy.shouldRetry] using h.2
  omega

/-- After a call with this number and this result there is no other one. -/
def Ends (c : Consumer) (k : Nat) (result : Except Failure Unit) : Prop :=
  result = .ok () ∨ (∃ failure, result = .error failure ∧ ¬ failure.MayPass) ∨
    c.retryEnabled = false ∨ max 1 c.policy.maxAttempts ≤ k

/-- What comes out when the last call had a result. -/
inductive Returns (c : Consumer) : Except Failure Unit → Except Failure Unit → Prop where
  | sent : Returns c (.ok ()) (.ok ())
  | unchanged {failure : Failure} (enabled : c.retryEnabled = true) (passes : failure.MayPass) :
    Returns c (.error failure) (.error failure)
  | rejects {failure : Failure} (final : ¬ (c.retryEnabled = true ∧ failure.MayPass))
      (plain : failure.isRejection = false) :
    Returns c (.error failure) (.error (.rejected failure))
  | rejected (cause : Failure) :
    Returns c (.error (.rejected cause)) (.error (.rejected cause))

/-- From a call to the next one: the consumer counts a retry and sleeps for the delay, if
there is any. -/
inductive Follows (c : Consumer) (inner : Listener)
    (meanwhile : Sleep → Brokers → Brokers → Prop) (k : Nat) (b : Brokers) : Brokers → Prop where
  | atOnce (zero : (c.policy.delay k).nanos = 0) :
    Follows c inner meanwhile k b ((inner k b).2.record (.retried c.id))
  | later {b' : Brokers} (positive : (c.policy.delay k).nanos ≠ 0)
      (between : meanwhile ⟨(inner k b).2.now + (c.policy.delay k).millisUp, none⟩
        ((inner k b).2.record (.retried c.id)) b') :
    Follows c inner meanwhile k b b'

/-- A delivery is taken through its attempts, turn by turn, from the one with a number on:
what it comes to, and the brokers after it. While it sleeps the brokers change as the
relation says. -/
inductive Delivered (c : Consumer) (listener : Listener)
    (meanwhile : Sleep → Brokers → Brokers → Prop) :
    Nat → Brokers → Except Failure Unit → Brokers → Prop where
  | done {k : Nat} {b b' : Brokers} {result : Except Failure Unit}
      (turn : c.deliverWith listener k b = (.done result, b')) :
    Delivered c listener meanwhile k b result b'
  | slept {k next : Nat} {b b₁ b₂ b' : Brokers} {sleep : Sleep} {result : Except Failure Unit}
      (turn : c.deliverWith listener k b = (.asleep sleep next, b₁))
      (between : meanwhile sleep b₁ b₂)
      (rest : Delivered c listener meanwhile next b₂ result b') :
    Delivered c listener meanwhile k b result b'

/-- The calls from one with a number on: the number of the last one and the brokers before
it. -/
inductive Tried (c : Consumer) (inner : Listener)
    (meanwhile : Sleep → Brokers → Brokers → Prop) : Nat → Brokers → Nat → Brokers → Prop where
  | last {k : Nat} {b : Brokers} (ends : c.Ends k (inner k b).1) :
    Tried c inner meanwhile k b k b
  | again {k n : Nat} {b b' last : Brokers} (goesOn : ¬ c.Ends k (inner k b).1)
      (follows : c.Follows inner meanwhile k b b')
      (rest : Tried c inner meanwhile (k + 1) b' n last) :
    Tried c inner meanwhile k b n last

variable {c : Consumer} {inner : Listener} {meanwhile : Sleep → Brokers → Brokers → Prop}
  {k n : Nat} {b b' last : Brokers} {result : Except Failure Unit}

/-- An endpoint decides about the failures of forwarding, and its consumer makes the
attempts with it. -/
theorem deliver_eq (hsame : c.endpoint.retryEnabled = c.retryEnabled) {d : Rabbit.Delivery}
    (hinner : ∀ k x, inner k x = c.endpoint.forward d x) (k : Nat) (b : Brokers) :
    c.deliver d k b = c.deliverWith (inner.deciding c.retryEnabled) k b := by
  have hattempt : ∀ k x, inner.deciding c.retryEnabled k x = c.endpoint.attempt d x := by
    intro k x
    rcases hforward : c.endpoint.forward d x with ⟨_ | _, _⟩ <;>
      simp only [Listener.deciding, Endpoint.attempt, hinner, hsame, hforward]
  fun_induction Consumer.deliver c d k b with
  | case1 k b b₁ h => rw [deliverWith, hattempt, h]
  | case2 k b failure b₁ h hrejection =>
      rw [deliverWith, hattempt, h]
      simp only [hrejection, if_true]
  | case3 k b failure b₁ h hno hretry b₂ millis hmillis ih =>
      rw [deliverWith, hattempt, h]
      simp only []
      rw [if_neg hno, dif_pos hretry, if_pos hmillis, ih]
  | case4 k b failure b₁ h hno hretry b₂ millis hmillis =>
      rw [deliverWith, hattempt, h]
      simp only []
      rw [if_neg hno, dif_pos hretry, if_neg hmillis]
  | case5 k b failure b₁ h hno hretry =>
      rw [deliverWith, hattempt, h]
      simp only []
      rw [if_neg hno, dif_neg hretry]

/-! ## One call -/

theorem millisUp_eq_zero_iff (d : Duration) : d.millisUp = 0 ↔ d.nanos = 0 := by
  rw [Duration.millisUp]
  omega

theorem not_ends_iff (hk : 1 ≤ k) : ¬ c.Ends k result ↔
    c.retryEnabled = true ∧ k < c.policy.maxAttempts ∧
      ∃ failure, result = .error failure ∧ failure.MayPass := by
  constructor
  · intro h
    simp only [Ends, not_or] at h
    obtain ⟨hfails, hpasses, henabled, hleft⟩ := h
    refine ⟨Bool.eq_true_of_not_eq_false henabled, by omega, ?_⟩
    cases result with
    | ok => exact absurd rfl hfails
    | error failure =>
        by_cases hpass : failure.MayPass
        · exact ⟨failure, rfl, hpass⟩
        · exact absurd ⟨failure, rfl, hpass⟩ hpasses
  · intro h hends
    obtain ⟨henabled, hleft, failure, rfl, hpass⟩ := h
    rcases hends with hsent | ⟨failure', heq, hfinal⟩ | hdisabled | hspent
    · cases hsent
    · cases heq
      exact hfinal hpass
    · rw [henabled] at hdisabled
      cases hdisabled
    · omega

theorem returns_reject {failure : Failure}
    (final : ¬ (c.retryEnabled = true ∧ failure.MayPass)) :
    c.Returns (.error failure) (.error failure.reject) := by
  cases failure with
  | rejected cause => exact .rejected cause
  | malformed | configuration | spec | transform | amazon | messaging | rabbit | shutdown
  | internal => exact .rejects final rfl

/-- A call after which there is no other one ends the attempts. -/
theorem deliverWith_of_ends (hk : 1 ≤ k) (h : c.Ends k (inner k b).1) :
    ∃ result, c.Returns (inner k b).1 result ∧
      c.deliverWith (inner.deciding c.retryEnabled) k b = (.done result, (inner k b).2) := by
  rw [deliverWith, Listener.deciding]
  rcases hcall : inner k b with ⟨result, b₁⟩
  rw [hcall] at h
  cases result with
  | ok => exact ⟨.ok (), .sent, rfl⟩
  | error failure =>
      simp only []
      by_cases hpass : c.retryEnabled = true ∧ failure.MayPass
      · obtain ⟨hdecided, hplain⟩ := Failure.decided_of_mayPass hpass
        have hno : ¬ (c.retryEnabled = true ∧ c.policy.shouldRetry k = true) := by
          intro hretry
          refine (not_ends_iff hk).mpr ⟨hpass.1, ?_, failure, rfl, hpass.2⟩ h
          simpa [RetryPolicy.shouldRetry] using hretry.2
        refine ⟨.error failure, .unchanged hpass.1 hpass.2, ?_⟩
        rw [hdecided, if_neg (by simp [hplain]), dif_neg hno]
      · refine ⟨.error failure.reject, returns_reject hpass, ?_⟩
        have hreject : failure.reject.isRejection = true := by cases failure <;> rfl
        rw [Failure.decided_of_final hpass, if_pos hreject]

/-- After any other call the consumer goes on with the next one, at once or later. -/
theorem deliverWith_of_not_ends (hk : 1 ≤ k) (h : ¬ c.Ends k (inner k b).1) :
    c.deliverWith (inner.deciding c.retryEnabled) k b =
      if (c.policy.delay k).nanos = 0 then
        c.deliverWith (inner.deciding c.retryEnabled) (k + 1)
          ((inner k b).2.record (.retried c.id))
      else
        (.asleep ⟨(inner k b).2.now + (c.policy.delay k).millisUp, none⟩ (k + 1),
          (inner k b).2.record (.retried c.id)) := by
  obtain ⟨henabled, hleft, failure, hfailure, hpass⟩ := (not_ends_iff hk).mp h
  obtain ⟨hdecided, hplain⟩ := Failure.decided_of_mayPass ⟨henabled, hpass⟩
  have hretry : c.retryEnabled = true ∧ c.policy.shouldRetry k = true :=
    ⟨henabled, by simpa [RetryPolicy.shouldRetry] using hleft⟩
  rw [deliverWith, Listener.deciding]
  rcases hcall : inner k b with ⟨result, b₁⟩
  rw [hcall] at hfailure
  obtain rfl : result = .error failure := hfailure
  simp only [hdecided, hplain, dif_pos hretry, millisUp_eq_zero_iff, Bool.false_eq_true, if_false,
    Sleep.lasting, Brokers.record]

/-! ## From call to call -/

/-- The calls of a turn that comes to an end are all the calls there are. -/
theorem tried_of_done (hk : 1 ≤ k)
    (h : c.deliverWith (inner.deciding c.retryEnabled) k b = (.done result, b')) :
    ∃ n last, c.Tried inner meanwhile k b n last ∧ b' = (inner n last).2 ∧
      c.Returns (inner n last).1 result := by
  -- By the attempts left; a turn goes on at once while there is no delay.
  induction hleft : c.policy.maxAttempts - k using Nat.strong_induction_on generalizing k b with
  | _ left ih =>
      by_cases hends : c.Ends k (inner k b).1
      · obtain ⟨returned, hreturns, hdone⟩ := deliverWith_of_ends hk hends
        rw [hdone] at h
        cases h
        exact ⟨k, b, .last hends, rfl, hreturns⟩
      · have hlt := ((not_ends_iff hk).mp hends).2.1
        rw [deliverWith_of_not_ends hk hends] at h
        split at h
        · next hnone =>
            obtain ⟨n, last, htried, hrest⟩ :=
              ih (c.policy.maxAttempts - (k + 1)) (by omega) (by omega) h rfl
            exact ⟨n, last, .again hends (.atOnce hnone) htried, hrest⟩
        · cases h

/-- The calls of a turn that goes to sleep come before those of the next one. -/
theorem tried_of_asleep {sleep : Sleep} {next : Nat} {b₁ b₂ : Brokers} (hk : 1 ≤ k)
    (h : c.deliverWith (inner.deciding c.retryEnabled) k b = (.asleep sleep next, b₁))
    (hbetween : meanwhile sleep b₁ b₂) :
    k < next ∧ next ≤ c.policy.maxAttempts ∧
      ∀ n last, c.Tried inner meanwhile next b₂ n last → c.Tried inner meanwhile k b n last := by
  induction hleft : c.policy.maxAttempts - k using Nat.strong_induction_on generalizing k b with
  | _ left ih =>
      by_cases hends : c.Ends k (inner k b).1
      · obtain ⟨_, _, hdone⟩ := deliverWith_of_ends hk hends
        rw [hdone] at h
        cases h
      · have hlt := ((not_ends_iff hk).mp hends).2.1
        rw [deliverWith_of_not_ends hk hends] at h
        split at h
        · next hnone =>
            obtain ⟨hnext, hle, hrest⟩ :=
              ih (c.policy.maxAttempts - (k + 1)) (by omega) (by omega) h rfl
            exact ⟨by omega, hle, fun n last htried =>
              .again hends (.atOnce hnone) (hrest n last htried)⟩
        · next hsome =>
            cases h
            exact ⟨by omega, by omega, fun n last htried =>
              .again hends (.later hsome hbetween) htried⟩

theorem Delivered.tried
    (h : c.Delivered (inner.deciding c.retryEnabled) meanwhile k b result b') (hk : 1 ≤ k) :
    ∃ n last, c.Tried inner meanwhile k b n last ∧ b' = (inner n last).2 ∧
      c.Returns (inner n last).1 result := by
  induction h with
  | done turn => exact tried_of_done hk turn
  | slept turn between _ ih =>
      obtain ⟨hnext, _, hbefore⟩ := tried_of_asleep hk turn between
      obtain ⟨n, last, htried, hrest⟩ := ih (by omega)
      exact ⟨n, last, hbefore n last htried, hrest⟩

/-- The attempts come to an end, whatever happens while the consumer sleeps. -/
theorem exists_delivered (htotal : ∀ sleep x, ∃ y, meanwhile sleep x y) (hk : 1 ≤ k) :
    ∃ result b', c.Delivered (inner.deciding c.retryEnabled) meanwhile k b result b' := by
  induction hleft : c.policy.maxAttempts - k using Nat.strong_induction_on generalizing k b with
  | _ left ih =>
      rcases hturn : c.deliverWith (inner.deciding c.retryEnabled) k b with ⟨turned, b₁⟩
      cases turned with
      | done result => exact ⟨result, b₁, .done hturn⟩
      | asleep sleep next =>
          obtain ⟨b₂, hbetween⟩ := htotal sleep b₁
          obtain ⟨hnext, hle, _⟩ := tried_of_asleep hk hturn hbetween
          obtain ⟨result, b', hrest⟩ :=
            ih (c.policy.maxAttempts - next) (by omega) (k := next) (b := b₂) (by omega) rfl
          exact ⟨result, b', .slept hturn hbetween hrest⟩

theorem Tried.le (h : c.Tried inner meanwhile k b n last) : k ≤ n := by
  induction h with
  | last => exact Nat.le_refl _
  | again _ _ _ ih => omega

theorem Tried.ends (h : c.Tried inner meanwhile k b n last) : c.Ends n (inner n last).1 := by
  induction h with
  | last ends => exact ends
  | again _ _ _ ih => exact ih

/-- The brokers before each call, by its number. -/
theorem Tried.sequence (h : c.Tried inner meanwhile k b n last) :
    ∃ before : Nat → Brokers, before k = b ∧ before n = last ∧
      ∀ j, k ≤ j → j < n → ¬ c.Ends j (inner j (before j)).1 ∧
        c.Follows inner meanwhile j (before j) (before (j + 1)) := by
  induction h with
  | @last k b _ => exact ⟨fun _ => b, rfl, rfl, fun j hj hlt => by omega⟩
  | @again k n b b' last goesOn follows rest ih =>
      obtain ⟨before, hfirst, hlast, hsteps⟩ := ih
      have hle := rest.le
      refine ⟨Function.update before k b, Function.update_self .., ?_, fun j hj hlt => ?_⟩
      · rw [Function.update_of_ne (by omega), hlast]
      · rw [Function.update_of_ne (show j + 1 ≠ k by omega)]
        by_cases hk : j = k
        · subst hk
          rw [Function.update_self, hfirst]
          exact ⟨goesOn, follows⟩
        · rw [Function.update_of_ne hk]
          exact hsteps j (by omega) hlt

/-- Where the consumer is woken on time, the clock shows the delays. -/
theorem Tried.now_eq (h : c.Tried inner meanwhile k b n last)
    (hwakes : ∀ sleep x y, meanwhile sleep x y → y.now = sleep.wake)
    (hstands : ∀ k x, (inner k x).2.now = x.now) :
    last.now = b.now + ∑ j ∈ Finset.Ico k n, (c.policy.delay j).millisUp := by
  induction h with
  | last => simp
  | @again k n b b' last _ follows rest ih =>
      have hstep : b'.now = b.now + (c.policy.delay k).millisUp := by
        cases follows with
        | atOnce hnone =>
            rw [(millisUp_eq_zero_iff _).mpr hnone]
            exact hstands k b
        | later _ between => rw [hwakes _ _ _ between, hstands]
      rw [ih, hstep, Finset.sum_eq_sum_Ico_succ_bot rest.le, Nat.add_assoc]

/-- For whatever the calls of a listener come to, the consumer makes as many of them as are
allowed, and comes back with what the last one has come to. The number of a call fits where
the number of allowed attempts does. -/
theorem tried_as_allowed (c : Consumer) (inner : Listener)
    (meanwhile : Sleep → Brokers → Brokers → Prop) (b : Brokers) :
    (∀ d, c.endpoint.retryEnabled = c.retryEnabled →
      (∀ k x, inner k x = c.endpoint.forward d x) →
      ∀ k x, c.deliver d k x = c.deliverWith (inner.deciding c.retryEnabled) k x) ∧
    (∀ s, c.policy = .ofSettings s →
      max 1 c.policy.maxAttempts = max 1 s.maxAttempts ∧ c.policy.maxDelay = s.maxInterval) ∧
    ((∀ sleep x, ∃ y, meanwhile sleep x y) →
      ∃ result b', c.Delivered (inner.deciding c.retryEnabled) meanwhile 1 b result b') ∧
    ∀ result b', c.Delivered (inner.deciding c.retryEnabled) meanwhile 1 b result b' →
      ∃ (n : Nat) (before : Nat → Brokers), before 1 = b ∧
        IsLeast {k | 1 ≤ k ∧ c.Ends k (inner k (before k)).1} n ∧
        (∀ k, 1 ≤ k → k < n → c.Follows inner meanwhile k (before k) (before (k + 1))) ∧
        b' = (inner n (before n)).2 ∧ c.Returns (inner n (before n)).1 result ∧
        n ≤ max 1 c.policy.maxAttempts ∧
        (c.policy.maxAttempts ≤ Word.largestHalf → n ≤ Word.largestHalf) ∧
        ∑ k ∈ Finset.Ico 1 n, (c.policy.delay k).nanos ≤ (n - 1) * c.policy.maxDelay.nanos ∧
        ((∀ sleep x y, meanwhile sleep x y → y.now = sleep.wake) →
          (∀ k x, (inner k x).2.now = x.now) →
          b'.now = b.now + ∑ k ∈ Finset.Ico 1 n, (c.policy.delay k).millisUp) := by
  refine ⟨fun d hsame hinner => deliver_eq hsame hinner, fun s hs => ?_,
    fun htotal => exists_delivered htotal (Nat.le_refl 1), fun result b' h => ?_⟩
  · rw [hs, RetryPolicy.ofSettings]
    exact ⟨show max 1 (max s.maxAttempts 1) = max 1 s.maxAttempts by omega, rfl⟩
  obtain ⟨n, last, htried, hafter, hreturns⟩ := h.tried (Nat.le_refl 1)
  obtain ⟨before, hfirst, hlast, hsteps⟩ := htried.sequence
  have hends := htried.ends
  rw [← hlast] at hends hafter hreturns
  have hleast : IsLeast {k | 1 ≤ k ∧ c.Ends k (inner k (before k)).1} n := by
    refine ⟨⟨htried.le, hends⟩, fun k hk => ?_⟩
    by_contra hlt
    exact (hsteps k hk.1 (by omega)).1 hk.2
  have hspent : c.Ends (max 1 c.policy.maxAttempts)
      (inner (max 1 c.policy.maxAttempts) (before (max 1 c.policy.maxAttempts))).1 :=
    .inr (.inr (.inr (Nat.le_refl _)))
  have hbudget : n ≤ max 1 c.policy.maxAttempts :=
    hleast.2 ⟨Nat.le_max_left _ _, hspent⟩
  have hcounts : c.policy.maxAttempts ≤ Word.largestHalf → n ≤ Word.largestHalf := by
    intro hfits
    have hone : 1 ≤ Word.largestHalf := by decide
    omega
  have hwaits : ∑ k ∈ Finset.Ico 1 n, (c.policy.delay k).nanos ≤
      (Finset.Ico 1 n).card • c.policy.maxDelay.nanos :=
    Finset.sum_le_card_nsmul _ _ _ fun k _ => c.policy.delay_le k
  rw [Nat.card_Ico, Nat.nsmul_eq_mul] at hwaits
  refine ⟨n, before, hfirst, hleast, fun k hk hlt => (hsteps k hk hlt).2, hafter, hreturns,
    hbudget, hcounts, hwaits, fun hwakes hstands => ?_⟩
  rw [hafter, hstands, hlast]
  exact htried.now_eq hwakes hstands

/-- A listener that is refused twice and then finds out that it was sent no JSON. -/
def refusedTwice : Listener := fun k b =>
  (match k with
    | 1 => .error (.amazon "throttled" none)
    | 2 => .error (.messaging "send failed" none)
    | _ => .error (.transform "payload is not valid JSON" none), b)

/-- A consumer that is woken on time, and allowed more attempts than it takes. -/
def patient : Consumer where
  endpoint := { (default : Endpoint) with retryEnabled := true }
  policy := { RetryPolicy.standard with maxAttempts := 5 }
  retryEnabled := true
  concurrency := 1

/-- The third call is the last one; two seconds have passed by then. With its own endpoint
the consumer makes its attempts the same way. -/
theorem patient_gives_up :
    (∀ d k x, patient.deliver d k x =
      patient.deliverWith (Listener.deciding (fun _ => patient.endpoint.forward d) true) k x) ∧
    ∃ result b', Delivered patient (refusedTwice.deciding true)
        (fun sleep x y => y = { x with now := sleep.wake }) 1 {} result b' ∧
      result = .error (.rejected (.transform "payload is not valid JSON" none)) ∧
      b'.now = 2000 := by
  obtain ⟨_, _, hends, hcalls⟩ := tried_as_allowed patient refusedTwice
    (fun sleep x y => y = { x with now := sleep.wake }) {}
  obtain ⟨result, b', hdelivered⟩ := hends fun sleep x => ⟨_, rfl⟩
  obtain ⟨n, before, _, hleast, _, _, hreturns, _, _, _, hclock⟩ := hcalls result b' hdelivered
  have hthird : n ≤ 3 := by
    refine hleast.2 ⟨by omega, .inr (.inl ⟨_, rfl, fun h => nomatch h⟩)⟩
  have hgoesOn : ∀ k, 1 ≤ k → k < 3 → ¬ patient.Ends k (refusedTwice k (before k)).1 := by
    intro k hk hlt
    obtain rfl | rfl : k = 1 ∨ k = 2 := by omega
    · exact (not_ends_iff (by omega)).mpr ⟨rfl, by decide, _, rfl, .amazon _ _⟩
    · exact (not_ends_iff (by omega)).mpr ⟨rfl, by decide, _, rfl, .messaging _ _⟩
  obtain rfl : n = 3 := by
    have hlast := hleast.1
    by_contra hne
    exact hgoesOn n hlast.1 (by omega) hlast.2
  have hown : ∀ d k x, patient.deliver d k x =
      patient.deliverWith (Listener.deciding (fun _ => patient.endpoint.forward d) true) k x :=
    fun d => (tried_as_allowed patient (fun _ => patient.endpoint.forward d)
      (fun _ _ _ => True) {}).1 d rfl fun _ _ => rfl
  refine ⟨hown, result, b', hdelivered, ?_, ?_⟩
  · cases hreturns with
    | unchanged _ passes => cases passes
    | rejects => rfl
  · have hsum : ∑ k ∈ Finset.Ico 1 3, (patient.policy.delay k).millisUp = 2000 := by
      decide +kernel
    rw [hclock (fun _ _ _ h => h ▸ rfl) (fun _ _ => rfl), hsum]

end Consumer

end MessageBridge
