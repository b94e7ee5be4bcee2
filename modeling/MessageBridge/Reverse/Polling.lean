import MessageBridge.Forward.Consuming
import MessageBridge.Reverse.Dispatcher

/-!
# A queue that is polled

A poller runs its dispatcher again and again, with a fixed delay between the end
of a run and the beginning of the next one. What a run comes to does not matter.
When the poller is told to stop, a run that has begun goes on to its end, and no
other one begins.
-/

namespace MessageBridge

structure Poller where
  dispatcher : Dispatcher
  fixedDelay : Duration
  deriving Inhabited

/-- How far a poller is. -/
inductive Polling where
  /-- A run is about to begin. -/
  | armed
  /-- A run waits for messages. -/
  | running (deadline : Instant) (sleep : Sleep) (since : Nat)
  /-- A run is over. -/
  | pausing (sleep : Sleep) (since : Nat)
  | finished
  deriving Inhabited

namespace Polling

/-- Go on with a run. -/
def goOn (p : Poller) (stop : StopSignal) (turn : Nat) (deadline : Instant) (b : Brokers) :
    Polling × Brokers :=
  match p.dispatcher.turn deadline b with
  | (.asleep sleep deadline, b) => (running deadline sleep turn, b)
  | (.done _, b) =>
    if stop.isGiven then (finished, b)
    else (pausing (.lasting b p.fixedDelay.millisUp) turn, b)

/-- Begin a run. -/
def begin (p : Poller) (stop : StopSignal) (turn : Nat) (b : Brokers) : Polling × Brokers :=
  goOn p stop turn (p.dispatcher.receiver.deadline b) b

/-- Go on with a poller. A poller that nobody can stop any more begins one run
if it has not begun any. -/
def turn (p : Poller) (stop : StopSignal) (turn : Nat) : Polling → Brokers → Polling × Brokers
  | armed, b => if stop = .requested then (finished, b) else begin p stop turn b
  | running deadline _ _, b => goOn p stop turn deadline b
  | pausing _ _, b => if stop.isGiven then (finished, b) else begin p stop turn b
  | finished, b => (finished, b)

/-- Whether a poller can go on, and how soon. -/
def urgency? (stop : StopSignal) (b : Brokers) : Polling → Option Urgency
  | armed => some (.awake 0)
  | running _ sleep since =>
    if sleep.wake ≤ b.now then some (.awake since)
    else if sleep.isOver b then some (.arrival since)
    else none
  | pausing sleep since =>
    if sleep.isOver b then some (.awake since)
    else if stop.isGiven then some .stopping
    else none
  | finished => none

/-- The moments at which a poller can go on for sure. -/
def alarms : Polling → List Instant
  | running _ sleep _ | pausing sleep _ => [sleep.wake]
  | armed | finished => []

end Polling

end MessageBridge
