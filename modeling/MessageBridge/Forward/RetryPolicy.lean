import MessageBridge.Decimal.Binary64
import MessageBridge.Duration

/-!
# When a failed delivery is tried again

A policy allows a number of attempts and says how long to wait before each of
them: the delay is multiplied by a factor from attempt to attempt and never
exceeds a maximum. The product is a floating-point number, and what is left of
it is whole milliseconds.
-/

namespace MessageBridge

structure RetryPolicy where
  /-- How many attempts are allowed, the first one included. -/
  maxAttempts : Nat
  initialDelay : Duration
  maxDelay : Duration
  multiplier : Binary64
  deriving DecidableEq, Repr, Inhabited

namespace RetryPolicy

/-- Three attempts, a second apart. -/
def standard : RetryPolicy :=
  ⟨3, .ofSeconds 1, .ofSeconds 10, .ofNat 1⟩

/-- So many attempts, with no time between them. -/
def immediate (maxAttempts : Nat) : RetryPolicy :=
  ⟨maxAttempts, .zero, .zero, .ofNat 1⟩

/-- Whether another attempt may follow the one with this number. -/
def shouldRetry (p : RetryPolicy) (attempt : Nat) : Bool :=
  attempt < p.maxAttempts

/-- The delay between the attempt with this number and the next one. -/
def delay (p : RetryPolicy) (attempt : Nat) : Duration :=
  let factor := p.multiplier.pow (min (attempt - 1) Word.largestSignedHalf)
  let millis := ((Binary64.ofNat p.initialDelay.millis).times factor).truncateToNat Word.largest
  ⟨min (Duration.ofMillis millis).nanos p.maxDelay.nanos⟩

end RetryPolicy

end MessageBridge
