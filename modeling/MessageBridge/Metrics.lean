/-!
# Counters

What the two directions of a bridge count. A `Metric` is one countable event of
one listener or one polled queue; its text is the name under which the count is
shown, with labels in the order of their names.

Latencies and durations are recorded as samples. How long something took is the
business of whoever collects them; here only the samples are counted.
-/

namespace MessageBridge

inductive Metric where
  /-- A delivery was taken from rabbit. -/
  | received (listener : String)
  /-- A message was handed to Amazon. -/
  | forwarded (listener destination : String)
  /-- Another attempt follows a failed one. -/
  | retried (listener : String)
  /-- A delivery was given up, because of a failure with this label. -/
  | deadLettered (listener error : String)
  /-- The broker refused to settle a delivery. -/
  | settleFailed (listener error : String)
  /-- All attempts at a delivery are over. -/
  | sendLatency (listener : String)
  /-- A message was received from a polled queue. -/
  | polled (queue : String)
  /-- A polled message was sent to rabbit and deleted. -/
  | pollForwarded (queue : String)
  /-- A polled message went back to its queue. -/
  | pollFailed (queue error : String)
  /-- A run over a polled queue is over. -/
  | runDuration (queue : String)
  deriving DecidableEq, Repr, Inhabited

namespace Metric

def name : Metric → String
  | received _ => "bridge_forwarder_received_total"
  | forwarded _ _ => "bridge_forwarder_forwarded_total"
  | retried _ => "bridge_forwarder_retried_total"
  | deadLettered _ _ => "bridge_forwarder_dead_lettered_total"
  | settleFailed _ _ => "bridge_forwarder_settle_failed_total"
  | sendLatency _ => "bridge_forwarder_send_latency_seconds"
  | polled _ => "bridge_poller_received_total"
  | pollForwarded _ => "bridge_poller_forwarded_total"
  | pollFailed _ _ => "bridge_poller_failed_total"
  | runDuration _ => "bridge_poller_run_duration_seconds"

/-- The labels of a metric, in the order of their names. -/
def labels : Metric → List (String × String)
  | received listener | retried listener | sendLatency listener => [("listener", listener)]
  | forwarded listener destination => [("destination", destination), ("listener", listener)]
  | deadLettered listener error | settleFailed listener error =>
    [("error_type", error), ("listener", listener)]
  | polled queue | pollForwarded queue | runDuration queue => [("queue", queue)]
  | pollFailed queue error => [("error_type", error), ("queue", queue)]

def text (m : Metric) : String :=
  m.name ++ "\x7b" ++ ",".intercalate (m.labels.map fun (k, v) => k ++ "=" ++ v) ++ "\x7d"

end Metric

/-- How often each metric was recorded, in the order in which they first were. -/
abbrev Metrics := List (Metric × Nat)

namespace Metrics

/-- The count of a metric. -/
def count (m : Metric) : Metrics → Nat
  | [] => 0
  | (k, n) :: rest => if k = m then n else count m rest

/-- Raise the count of a metric. -/
def raise (m : Metric) (amount : Nat) : Metrics → Metrics
  | [] => [(m, amount)]
  | (k, n) :: rest => if k = m then (k, n + amount) :: rest else (k, n) :: raise m amount rest

end Metrics

end MessageBridge
