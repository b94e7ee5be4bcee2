import MessageBridge.Decimal.Binary64
import MessageBridge.Duration
import MessageBridge.Text.Blank
import MessageBridge.Text.Pieces

/-!
# Settings

What can be set up from outside: where the bridge files are, how deliveries are
retried, how queues are polled, and how the log is written. Everything has a
default.
-/

namespace MessageBridge

/-- Where the bridges are defined. -/
structure FileSettings where
  /-- The paths of the bridge files, with commas between them. -/
  configLocation : String := ""
  deriving DecidableEq, Repr, Inhabited

/-- The paths of the bridge files. -/
def FileSettings.paths (s : FileSettings) : List String :=
  ((Text.pieces ',' s.configLocation).map Text.trim).filter (!·.isEmpty)

/-- Another attempt at deliveries that failed. -/
structure RetrySettings where
  enabled : Bool := true
  /-- How many attempts are made, the first one included. -/
  maxAttempts : Nat := 3
  initialInterval : Duration := .ofSeconds 1
  multiplier : Binary64 := .ofNat 1
  maxInterval : Duration := .ofSeconds 10
  deriving DecidableEq, Repr, Inhabited

structure ListenerSettings where
  /-- How many deliveries a listener handles at once. -/
  concurrency : Nat := 1
  deriving DecidableEq, Repr, Inhabited

/-- The forward direction. -/
structure RabbitSettings where
  retry : RetrySettings := {}
  listener : ListenerSettings := {}
  deriving DecidableEq, Repr, Inhabited

/-- The reverse direction. -/
structure PollerSettings where
  /-- How long a receive waits for a message. -/
  waitTime : Duration := .ofSeconds 20
  /-- How many messages a receive takes. -/
  maxMessages : Nat := 10
  /-- The pause between two runs. -/
  fixedDelay : Duration := .ofMillis 20
  /-- When it is there, payloads are stamped. What it says does not matter. -/
  idempotencyKey : Option String := none
  deriving DecidableEq, Repr, Inhabited

structure LogSettings where
  level : String := "info"
  format : String := "json"
  deriving DecidableEq, Repr, Inhabited

structure Settings where
  bridge : FileSettings := {}
  rabbit : RabbitSettings := {}
  poller : PollerSettings := {}
  observability : LogSettings := {}
  deriving DecidableEq, Repr, Inhabited

end MessageBridge
