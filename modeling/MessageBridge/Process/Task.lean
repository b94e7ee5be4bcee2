import MessageBridge.Reverse.Polling

/-!
# Background tasks

A task is a consumer or a poller that runs on its own, with the signal that tells
it to stop.
-/

namespace MessageBridge

/-- What a task works on, and how far it is. -/
inductive Work where
  | consuming (consumer : Consumer) (state : Consuming)
  | polling (poller : Poller) (state : Polling)
  deriving Inhabited

structure Task where
  work : Work
  stop : StopSignal := .none
  deriving Inhabited

namespace Task

/-- A task that has not run yet. -/
def consumer (c : Consumer) : Task :=
  ⟨.consuming c .starting, .none⟩

def poller (p : Poller) : Task :=
  ⟨.polling p .armed, .none⟩

/-- Let a task go on, in the turn with the given number. -/
def turn (t : Task) (number : Nat) (b : Brokers) : Task × Brokers :=
  match t.work with
  | .consuming c state =>
    let (state, b) := state.turn c t.stop number b
    ({ t with work := .consuming c state }, b)
  | .polling p state =>
    let (state, b) := state.turn p t.stop number b
    ({ t with work := .polling p state }, b)

/-- Whether a task can go on, and how soon. -/
def urgency? (t : Task) (b : Brokers) : Option Urgency :=
  match t.work with
  | .consuming c state => state.urgency? c t.stop b
  | .polling _ state => state.urgency? t.stop b

/-- The moments at which a task can go on for sure. -/
def alarms (t : Task) : List Instant :=
  match t.work with
  | .consuming _ state => state.alarms
  | .polling _ state => state.alarms

/-- What a task has come to, when it is over. -/
def result? (t : Task) : Option (Except Failure Unit) :=
  match t.work with
  | .consuming _ state => state.result?
  | .polling _ .finished => some (.ok ())
  | .polling _ _ => none

/-- Whether a task is still alive. -/
def isAlive (t : Task) : Bool :=
  t.result?.isNone

/-- Tell a task about stopping. Once it has been asked to stop, this remains so. -/
def signal (t : Task) (stop : StopSignal) : Task :=
  if t.stop = .requested then t else { t with stop }

end Task

end MessageBridge
