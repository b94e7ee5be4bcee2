import MessageBridge.Process.Task

/-!
# Tasks and time

A world holds the brokers and the background tasks. Whoever uses it is in the
foreground: what is done there is done before any task goes on, and only while
the foreground waits do the tasks have their turns. They are queued in the order
in which they became able to go on; the first one has a turn, and goes on until
it cannot. When no task can go on, the foreground does if its waiting is over,
and otherwise the clock jumps to the next alarm. The foreground comes before the
tasks that are woken by the same jump.

Waiting may have no end, as a task may keep itself busy forever. The turns and
jumps of one wait are therefore counted against `patience`; a wait that is not
over by then has no result.
-/

namespace MessageBridge

structure World where
  brokers : Brokers := {}
  /-- All tasks ever started, by their number. -/
  tasks : List Task := []
  /-- The tasks that can go on, the next one first. -/
  ready : List Nat := []
  /-- How many turns there have been. -/
  turns : Nat := 0
  /-- How many turns and jumps a wait may take. -/
  patience : Nat := 100000000
  deriving Inhabited

namespace World

/-- The tasks that can go on and are not queued, with their urgency. -/
def able (w : World) : List (Urgency × Nat) :=
  w.tasks.zipIdx.filterMap fun (task, id) =>
    if w.ready.contains id then none
    else (task.urgency? w.brokers).map fun urgency => (urgency, id)

/-- Queue the tasks that have become able to go on. -/
def notice (w : World) : World :=
  { w with ready := w.ready ++ (w.able.mergeSort fun a b => a.1.le b.1).map Prod.snd }

/-- Do something to the brokers. -/
def act {α : Type} (w : World) (f : Brokers → α × Brokers) : α × World :=
  let (a, brokers) := f w.brokers
  (a, notice { w with brokers })

/-- Start a task; the result is its number. -/
def spawn (w : World) (task : Task) : Nat × World :=
  (w.tasks.length, notice { w with tasks := w.tasks ++ [task] })

/-- Start several tasks. -/
def spawnAll (w : World) : List Task → List Nat × World
  | [] => ([], w)
  | task :: rest =>
    let (id, w) := w.spawn task
    let (ids, w) := w.spawnAll rest
    (id :: ids, w)

/-- Tell tasks about stopping. -/
def signal (w : World) (ids : List Nat) (stop : StopSignal) : World :=
  notice { w with tasks := w.tasks.zipIdx.map fun (task, id) =>
    if ids.contains id then task.signal stop else task }

/-- Let a task have a turn. If it can go on after that, it is the next one. -/
def turn (w : World) (id : Nat) : World :=
  match w.tasks[id]? with
  | none => w
  | some task =>
    let (task, brokers) := task.turn w.turns w.brokers
    let ready := if (task.urgency? brokers).isSome then id :: w.ready else w.ready
    notice { w with brokers, ready, tasks := w.tasks.set id task, turns := w.turns + 1 }

/-- The earliest of some moments. -/
def earliest : List Instant → Option Instant
  | [] => none
  | t :: rest => some (rest.foldl min t)

/-- The moment to which the clock jumps when nothing can go on, given the moment
for which the foreground waits, if there is one. -/
def nextAlarm (w : World) (deadline : Option Instant) : Option Instant :=
  earliest (deadline.toList ++ w.tasks.flatMap Task.alarms)

/-- Move the clock on, never back. -/
def jump (w : World) (t : Instant) : World :=
  notice { w with brokers := { w.brokers with now := max w.brokers.now t } }

/-- Let the tasks run until the foreground can go on, with a budget of turns and
jumps. -/
def waitFrom (isOver : World → Bool) (deadline : Option Instant) : Nat → World → Option World
  | 0, _ => none
  | budget + 1, w =>
    match w.ready with
    | id :: ready => waitFrom isOver deadline budget (turn { w with ready } id)
    | [] =>
      if isOver w then some w
      else
        match w.nextAlarm deadline with
        | none => none
        | some t =>
          let w := w.jump t
          if isOver w then some w else waitFrom isOver deadline budget w

/-- Wait in the foreground. Without anything to wait for, no task has a turn. -/
def wait (w : World) (isOver : World → Bool) (deadline : Option Instant) : Option World :=
  if isOver w then some w else waitFrom isOver deadline w.patience w

/-- Wait for a moment. -/
def sleepUntil (w : World) (t : Instant) : Option World :=
  w.wait (fun w => t ≤ w.brokers.now) (some t)

/-- The tasks are over. -/
def areOver (ids : List Nat) (w : World) : Bool :=
  ids.all fun id => w.tasks[id]?.all (!·.isAlive)

/-- Wait for tasks to come to their ends. -/
def join (w : World) (ids : List Nat) : Option World :=
  w.wait (areOver ids) none

/-- Work on an activity in the foreground, with a budget of turns. -/
def driveFrom {σ α : Type} (turn : σ → Brokers → Turn σ α × Brokers) :
    Nat → σ → World → Option (α × World)
  | 0, _, _ => none
  | budget + 1, state, w =>
    match w.act (turn state) with
    | (.done result, w) => some (result, w)
    | (.asleep sleep state, w) =>
      (w.wait (fun w => sleep.isOver w.brokers) (some sleep.wake)).bind
        (driveFrom turn budget state)

/-- Work on an activity in the foreground until it comes to a result. -/
def drive {σ α : Type} (w : World) (turn : σ → Brokers → Turn σ α × Brokers) (state : σ) :
    Option (α × World) :=
  driveFrom turn w.patience state w

end World

end MessageBridge
