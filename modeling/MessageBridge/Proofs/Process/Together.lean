import MessageBridge.Proofs.Process.Attendants
import MessageBridge.Proofs.Process.Lifecycle

/-!
# Both directions run, or neither does

An app is called again and again: it is started, stopped, or started for a time, and
between the calls anything may happen to the brokers and to the tasks. Both directions
have the same flag after every call. It says whether the last start has succeeded and
has not been undone.

Every task that an app has ever hired is one of its tasks now, or it is over. As a
direction that is down has no tasks, nothing of an app that is down is alive; a start
that failed halfway has left no task behind either. Tasks do not come back to life, so
this stays true whatever else happens.
-/

namespace MessageBridge

namespace World

variable {w w' w'' : World} {i : Nat}

def HasEnded (w : World) (i : Nat) : Prop :=
  ∃ t, w.tasks[i]? = some t ∧ t.isAlive = false

/-- No task is lost, and none that is over comes back to life. -/
structure Later (w w' : World) : Prop where
  count : w.tasks.length ≤ w'.tasks.length
  ended : ∀ i, w.HasEnded i → w'.HasEnded i

theorem Later.refl (w : World) : w.Later w :=
  ⟨Nat.le_refl _, fun _ => id⟩

theorem Later.trans (h : w.Later w') (h' : w'.Later w'') : w.Later w'' :=
  ⟨Nat.le_trans h.count h'.count, fun i hi => h'.ended i (h.ended i hi)⟩

theorem later_of_append (ts : List Task) (h : w'.tasks = w.tasks ++ ts) : w.Later w' where
  count := by simp [h]
  ended := by
    rintro i ⟨t, ht, hover⟩
    have hlt := (List.getElem?_eq_some_iff.mp ht).1
    exact ⟨t, by rw [h, List.getElem?_append_left hlt, ht], hover⟩

theorem later_of_tasks (h : w'.tasks = w.tasks) : w.Later w' :=
  later_of_append [] (by rw [h, List.append_nil])

theorem Proceeds.length_eq (h : Proceeds w w') : w'.tasks.length = w.tasks.length := by
  have hstops : w'.tasks.map (fun t => t.stop) = w.tasks.map fun t => t.stop :=
    List.ext_getElem? fun i => by rw [List.getElem?_map, List.getElem?_map, h.stops i]
  simpa using congrArg List.length hstops

theorem Proceeds.later (h : Proceeds w w') : w.Later w' where
  count := Nat.le_of_eq h.length_eq.symm
  ended := fun i ⟨t, ht, hover⟩ => ⟨t, h.ended i t ht hover, hover⟩

theorem length_signal (w : World) (ids : List Nat) (stop : StopSignal) :
    (w.signal ids stop).tasks.length = w.tasks.length := by
  show (w.tasks.zipIdx.map _).length = _
  simp

theorem later_signal (w : World) (ids : List Nat) (stop : StopSignal) :
    w.Later (w.signal ids stop) where
  count := Nat.le_of_eq (w.length_signal ids stop).symm
  ended := by
    rintro i ⟨t, ht, hover⟩
    rw [HasEnded, getElem?_signal, ht]
    refine ⟨_, rfl, ?_⟩
    split
    · exact Task.signal_of_over hover stop
    · exact hover

/-- Something that may happen while an app is not being called: the brokers change,
others hire tasks or signal any of them, a task has a turn, or time passes. -/
inductive Meanwhile (w : World) : World → Prop where
  | acts (f : Brokers → Brokers) : Meanwhile w (w.act fun b => ((), f b)).2
  | hires (ts : List Task) : Meanwhile w (w.spawnAll ts).2
  | signals (ids : List Nat) (stop : StopSignal) : Meanwhile w (w.signal ids stop)
  | turns (i : Nat) : Meanwhile w (w.turn i)
  | waits {w' : World} {isOver : World → Bool} {deadline : Option Instant}
      (h : w.wait isOver deadline = some w') : Meanwhile w w'

theorem Meanwhile.later (h : w.Meanwhile w') : w.Later w' := by
  cases h with
  | acts f => exact later_of_tasks rfl
  | hires ts => exact later_of_append ts (tasks_spawnAll ts w)
  | signals ids stop => exact w.later_signal ids stop
  | turns i => exact (w.proceeds_turn i).later
  | waits h => exact (proceeds_wait h).later

/-- The numbers of the tasks that one world has and another one has not. -/
def newTasks (w w' : World) : List Nat :=
  List.range' w.tasks.length (w'.tasks.length - w.tasks.length)

theorem newTasks_of_length (h : w'.tasks.length = w.tasks.length) : newTasks w w' = [] := by
  rw [newTasks, h, Nat.sub_self]
  rfl

theorem mem_newTasks : i ∈ newTasks w w' ↔ w.tasks.length ≤ i ∧ i < w'.tasks.length := by
  rw [newTasks, List.mem_range'_1]
  omega

end World

namespace App

variable {a a' : App} {w w' : World} {up : Bool} {hired : List Nat}

/-- An app was called, and anything else has happened in between. The flag says whether
the last start has succeeded, with nothing after it that stops the app; the numbers are
those of the tasks that have come into being during the calls. A run that ends on another
signal than a clock is a start, what happens meanwhile, and a stop if the start succeeded. -/
inductive Operated (a₀ : App) (w₀ : World) : Bool → List Nat → App → World → Prop where
  | begun : Operated a₀ w₀ false [] a₀ w₀
  | meanwhile {up : Bool} {hired : List Nat} {a : App} {w w' : World}
      (operated : Operated a₀ w₀ up hired a w) (happens : w.Meanwhile w') :
    Operated a₀ w₀ up hired a w'
  | started {up : Bool} {hired : List Nat} {a a' : App} {w w' : World}
      {result : Except Failure Unit} (operated : Operated a₀ w₀ up hired a w)
      (returned : a.start w = some (result, a', w')) :
    Operated a₀ w₀ result.isOk (hired ++ w.newTasks w') a' w'
  | stopped {up : Bool} {hired : List Nat} {a a' : App} {w w' : World}
      (operated : Operated a₀ w₀ up hired a w) (returned : a.stop w = some (a', w')) :
    Operated a₀ w₀ false (hired ++ w.newTasks w') a' w'
  | ran {up : Bool} {hired : List Nat} {a a' : App} {w w' : World} {millis : Nat}
      {result : Except Failure Unit} (operated : Operated a₀ w₀ up hired a w)
      (returned : a.runFor millis w = some (result, a', w')) :
    Operated a₀ w₀ false (hired ++ w.newTasks w') a' w'

/-- The two directions are in step, and all tasks that were ever hired are accounted
for. -/
structure InStep (up : Bool) (hired : List Nat) (a : App) (w : World) : Prop where
  forwarding : a.forwarding.running = up
  polling : a.polling.running = up
  idle : up = false → a.forwarding.tasks = [] ∧ a.polling.tasks = []
  known : ∀ i ∈ a.forwarding.tasks ++ a.polling.tasks, i < w.tasks.length
  former : ∀ i ∈ hired, i ∈ a.forwarding.tasks ++ a.polling.tasks ∨ w.HasEnded i

theorem InStep.later (h : InStep up hired a w) (hl : w.Later w') : InStep up hired a w' :=
  { h with
    known := fun i hi => Nat.lt_of_lt_of_le (h.known i hi) hl.count
    former := fun i hi => (h.former i hi).imp_right (hl.ended i) }

/-- Nothing of an app that is down is alive. -/
theorem InStep.over (h : InStep false hired a w) : ∀ i ∈ hired, w.HasEnded i := by
  intro i hi
  obtain ⟨hforwarding, hpolling⟩ := h.idle rfl
  have hformer := h.former i hi
  rw [hforwarding, hpolling] at hformer
  exact hformer.resolve_left List.not_mem_nil

/-! ## Stopping -/

theorem stopDirection_ends {d : Direction} (h : stopDirection d w = some w')
    (hidle : d.running = false → d.tasks = []) (hknown : ∀ i ∈ d.tasks, i < w.tasks.length) :
    w.Later w' ∧ w'.tasks.length = w.tasks.length ∧ ∀ i ∈ d.tasks, w'.HasEnded i := by
  unfold stopDirection at h
  split at h
  · have hproceeds := World.proceeds_wait h
    have hlength := hproceeds.length_eq.trans (w.length_signal d.tasks .requested)
    refine ⟨(w.later_signal d.tasks .requested).trans hproceeds.later, hlength, fun i hi => ?_⟩
    have hover := List.all_eq_true.mp (World.isOver_of_wait h : World.areOver d.tasks w' = true) i hi
    have hlt : i < w'.tasks.length := hlength ▸ hknown i hi
    rw [List.getElem?_eq_getElem hlt] at hover
    exact ⟨w'.tasks[i], List.getElem?_eq_getElem hlt, by simpa using hover⟩
  · next hdown =>
      cases h
      refine ⟨.refl w, rfl, ?_⟩
      rw [hidle (Bool.eq_false_iff.mpr hdown)]
      nofun

theorem InStep.stop (h : InStep up hired a w) (hstop : a.stop w = some (a', w')) :
    InStep false hired a' w' ∧ w'.tasks.length = w.tasks.length := by
  obtain ⟨⟨a₁, w₁⟩, hpolling, hforwarding⟩ := Option.bind_eq_some_iff.mp hstop
  obtain ⟨w₁', hpolling, heq⟩ := Option.map_eq_some_iff.mp hpolling
  cases heq
  obtain ⟨w₂, hforwarding, heq⟩ := Option.map_eq_some_iff.mp hforwarding
  cases heq
  obtain ⟨hlater, hlength, hpollers⟩ := stopDirection_ends hpolling
    (fun hdown => (h.idle (h.polling.symm.trans hdown)).2)
    (fun i hi => h.known i (List.mem_append_right _ hi))
  obtain ⟨hlater', hlength', hconsumers⟩ := stopDirection_ends hforwarding
    (fun hdown => (h.idle (h.forwarding.symm.trans hdown)).1)
    (fun i hi => hlength ▸ h.known i (List.mem_append_left _ hi))
  refine ⟨⟨rfl, rfl, fun _ => ⟨rfl, rfl⟩, nofun, fun i hi => .inr ?_⟩, hlength'.trans hlength⟩
  -- the pollers were over before the consumers were told to stop, and stay so
  rcases h.former i hi with hi | hover
  · rcases List.mem_append.mp hi with hi | hi
    · exact hconsumers i hi
    · exact hlater'.ended i (hpollers i hi)
  · exact hlater'.ended i (hlater.ended i hover)

/-! ## Starting -/

/-- A direction has come up: it was up already, or it was down and its tasks are the new
ones. -/
inductive Comes (d : Direction) (w : World) : Direction → World → Prop where
  | already (up : d.running = true) : Comes d w d w
  | anew {w' : World} (down : d.running = false) (ts : List Task)
      (tasks : w'.tasks = w.tasks ++ ts) : Comes d w ⟨true, w.newTasks w'⟩ w'

theorem startForwarding_of_running (h : a.forwarding.running = true) :
    a.startForwarding w = (.ok a, w) :=
  if_pos h

theorem startPolling_of_running (h : a.polling.running = true) :
    a.startPolling w = (.ok a, w) :=
  if_pos h

theorem comes_spawnAll {d : Direction} {w₁ : World} (hdown : d.running = false)
    (h : w₁.tasks = w.tasks) (ts : List Task) :
    Comes d w ⟨true, (w₁.spawnAll ts).1⟩ (w₁.spawnAll ts).2 := by
  have htasks : (w₁.spawnAll ts).2.tasks = w.tasks ++ ts := by rw [World.tasks_spawnAll, h]
  have hids : (w₁.spawnAll ts).1 = w.newTasks (w₁.spawnAll ts).2 := by
    rw [World.ids_spawnAll, World.newTasks, htasks, h, List.length_append, Nat.add_sub_cancel_left]
  rw [hids]
  exact .anew hdown ts htasks

theorem comes_startForwarding (h : a.startForwarding w = (.ok a', w')) :
    Comes a.forwarding w a'.forwarding w' ∧ a'.polling = a.polling := by
  rcases startForwarding_ok h with ⟨hup, rfl, rfl⟩ | ⟨hdown, es, w₁, hmade, rfl, rfl⟩
  · exact ⟨.already hup, rfl⟩
  · exact ⟨comes_spawnAll hdown (World.act_eq hmade).2 _, rfl⟩

theorem comes_startPolling (h : a.startPolling w = (.ok a', w')) :
    Comes a.polling w a'.polling w' ∧ a'.forwarding = a.forwarding := by
  rcases startPolling_ok h with ⟨hup, rfl, rfl⟩ | ⟨hdown, ds, w₁, hmade, rfl, rfl⟩
  · exact ⟨.already hup, rfl⟩
  · exact ⟨comes_spawnAll hdown (World.act_eq hmade).2 _, rfl⟩

theorem start_of_running (hforwarding : a.forwarding.running = true)
    (hpolling : a.polling.running = true) : a.start w = some (.ok (), a, w) := by
  unfold start
  rw [startForwarding_of_running hforwarding]
  simp only [startPolling_of_running hpolling]

theorem InStep.unchanged (h : InStep up hired a w) (htasks : w'.tasks = w.tasks) :
    InStep up (hired ++ w.newTasks w') a w' := by
  rw [World.newTasks_of_length (congrArg List.length htasks), List.append_nil]
  exact h.later (World.later_of_tasks htasks)

/-- The reverse direction did not start, and the forward direction has stopped again. -/
theorem InStep.fallBack (h : InStep false hired a w) {d : Direction} {w₁ w₂ : World}
    (hcomes : Comes a.forwarding w d w₁) (htasks : w₂.tasks = w₁.tasks)
    (hstop : stopDirection d w₂ = some w') {a₁ : App} (hpolling : a₁.polling = a.polling) :
    InStep false (hired ++ w.newTasks w') { a₁ with forwarding := {} } w' := by
  cases hcomes with
  | already hup => cases h.forwarding.symm.trans hup
  | anew _ ts hnew =>
      have hidle : a₁.polling.tasks = [] :=
        (congrArg Direction.tasks hpolling).trans (h.idle rfl).2
      have hlater : w.Later w₂ := World.later_of_append ts (htasks.trans hnew)
      obtain ⟨hlater', hlength, hends⟩ := stopDirection_ends hstop nofun fun i hi => by
        rw [htasks]
        exact (World.mem_newTasks.mp hi).2
      refine {
        forwarding := rfl
        polling := (congrArg Direction.running hpolling).trans h.polling
        idle := fun _ => ⟨rfl, hidle⟩
        known := fun i hi => ?known
        former := fun i hi => .inr ?former }
      case known =>
        rw [hidle] at hi
        cases hi
      case former =>
        -- nobody has hired anything after the consumers, so the stop has waited for all
        rcases List.mem_append.mp hi with hi | hi
        · exact hlater'.ended i (hlater.ended i (h.over i hi))
        · refine hends i (World.mem_newTasks.mpr ?_)
          rw [← htasks, ← hlength]
          exact World.mem_newTasks.mp hi

theorem InStep.comeUp (h : InStep false hired a w) {w₁ : World}
    (hforwarding : Comes a.forwarding w a'.forwarding w₁)
    (hpolling : Comes a.polling w₁ a'.polling w') :
    InStep true (hired ++ w.newTasks w') a' w' := by
  obtain ⟨bridges, rabbit, poller, forwarding, polling, endpointIds⟩ := a'
  cases hforwarding with
  | already hup => cases h.forwarding.symm.trans hup
  | anew _ ts hnew =>
      cases hpolling with
      | already hup => cases h.polling.symm.trans hup
      | anew _ ts' hnew' =>
          have hlater := World.later_of_append ts hnew
          have hlater' := World.later_of_append ts' hnew'
          have hnumbers : ∀ i, i ∈ w.newTasks w₁ ++ w₁.newTasks w' ↔ i ∈ w.newTasks w' := by
            intro i
            have hcount := hlater.count
            have hcount' := hlater'.count
            simp only [List.mem_append, World.mem_newTasks]
            omega
          refine ⟨rfl, rfl, nofun, fun i hi => ?known, fun i hi => ?former⟩
          case known => exact (World.mem_newTasks.mp ((hnumbers i).mp hi)).2
          case former =>
            rcases List.mem_append.mp hi with hi | hi
            · exact .inr (hlater'.ended i (hlater.ended i (h.over i hi)))
            · exact .inl ((hnumbers i).mpr hi)

theorem InStep.start {result : Except Failure Unit} (h : InStep up hired a w)
    (hstart : a.start w = some (result, a', w')) :
    InStep result.isOk (hired ++ w.newTasks w') a' w' := by
  cases up with
  | true =>
      cases (start_of_running h.forwarding h.polling).symm.trans hstart
      exact h.unchanged rfl
  | false =>
      unfold App.start at hstart
      rcases hforwarding : a.startForwarding w with ⟨forwarded, w₁⟩
      rw [hforwarding] at hstart
      cases forwarded with
      | error failure =>
          cases hstart
          exact h.unchanged (World.act_eq (startForwarding_error hforwarding)).2
      | ok a₁ =>
          obtain ⟨hcomes, hpolled⟩ := comes_startForwarding hforwarding
          simp only [] at hstart
          rcases hpolling : a₁.startPolling w₁ with ⟨polled, w₂⟩
          rw [hpolling] at hstart
          cases polled with
          | ok a₂ =>
              cases hstart
              obtain ⟨hcomes', hforwarded⟩ := comes_startPolling hpolling
              rw [hpolled] at hcomes'
              rw [← hforwarded] at hcomes
              exact h.comeUp hcomes hcomes'
          | error failure =>
              obtain ⟨⟨a₂, w₃⟩, hstop, heq⟩ := Option.map_eq_some_iff.mp hstart
              cases heq
              obtain ⟨w₃, hstop, heq⟩ := Option.map_eq_some_iff.mp hstop
              cases heq
              exact h.fallBack hcomes (World.act_eq (startPolling_error hpolling)).2 hstop hpolled

/-! ## The calls -/

theorem InStep.runFor {millis : Nat} {result : Except Failure Unit} (h : InStep up hired a w)
    (hrun : a.runFor millis w = some (result, a', w')) :
    InStep false (hired ++ w.newTasks w') a' w' := by
  unfold App.runFor at hrun
  obtain ⟨⟨started, a₁, w₁⟩, hstart, hrest⟩ := Option.bind_eq_some_iff.mp hrun
  have hstarted := h.start hstart
  cases started with
  | error failure =>
      cases hrest
      exact hstarted
  | ok =>
      obtain ⟨w₂, hslept, hrest⟩ := Option.bind_eq_some_iff.mp hrest
      obtain ⟨⟨a₂, w₃⟩, hstop, heq⟩ := Option.bind_eq_some_iff.mp hrest
      cases heq
      have hproceeds := World.proceeds_wait hslept
      obtain ⟨hstopped, hlength⟩ := (hstarted.later hproceeds.later).stop hstop
      have hnew : w.newTasks w' = w.newTasks w₁ := by
        rw [World.newTasks, World.newTasks, hlength, hproceeds.length_eq]
      rw [hnew]
      exact hstopped

/-- Every call keeps the directions in step, and so does what happens between the
calls. -/
theorem Operated.inStep {a₀ : App} {w₀ : World} (h₀ : InStep false [] a₀ w₀)
    (h : Operated a₀ w₀ up hired a w) : InStep up hired a w := by
  induction h with
  | begun => exact h₀
  | meanwhile _ happens ih => exact ih.later happens.later
  | started _ returned ih => exact ih.start returned
  | stopped _ returned ih =>
      obtain ⟨hstopped, hlength⟩ := ih.stop returned
      rw [World.newTasks_of_length hlength, List.append_nil]
      exact hstopped
  | ran _ returned ih => exact ih.runFor returned

theorem inStep_ofSettings (s : Settings) (bridges : List Bridge) (w : World) :
    InStep false [] (ofSettings s bridges) w :=
  ⟨rfl, rfl, fun _ => ⟨rfl, rfl⟩, nofun, nofun⟩

/-- After every call both directions run, or neither does, and they do if the last start
has succeeded and nothing has stopped the app since. While the app is down all tasks that
have come into being during the calls are over. -/
theorem directions_together (s : Settings) (bridges : List Bridge) (w₀ : World)
    (operated : Operated (ofSettings s bridges) w₀ up hired a w) :
    a.forwarding.running = up ∧ a.polling.running = up ∧ a.isRunning = up ∧
      (up = false → ∀ i ∈ hired, w.HasEnded i) := by
  have h := operated.inStep (inStep_ofSettings s bridges w₀)
  refine ⟨h.forwarding, h.polling, ?_, ?_⟩
  · rw [isRunning, h.forwarding, h.polling, Bool.and_self]
  · rintro rfl
    exact h.over

def repliesBridge : Bridge where
  source := .sqs "replies"
  destination := .rabbit ⟨"replies", "reply"⟩

def deskApp : App :=
  ofSettings {} [Consumer.ordersBridge, repliesBridge]

def addReplies (b : Brokers) : Brokers :=
  { b with amazon := b.amazon.createQueue "replies" }

/-- The app is started, and as there is no queue for replies yet, it is started again
when there is one. -/
def startTwice (w : World) : Option (List Bool × List Nat) := do
  let (first, a, w₁) ← deskApp.start w
  let w₂ := (w₁.act fun b => ((), addReplies b)).2
  let (second, _, w₃) ← a.start w₂
  return ([first.isOk, second.isOk], [w₁.tasks.length, w₃.tasks.length])

/-- The first start fails, and the consumer that it has hired is over. After the second
one both directions run. -/
theorem desk_together :
    ∃ a w a' w', Operated deskApp outWorld false [0] a w ∧ w.HasEnded 0 ∧
      a.forwarding.running = false ∧ a.polling.running = false ∧
      Operated deskApp outWorld true [0, 1, 2] a' w' ∧
      a'.forwarding.running = true ∧ a'.polling.running = true := by
  have htwice : startTwice outWorld = some ([false, true], [1, 3]) := by decide +kernel
  obtain ⟨⟨first, a, w⟩, hfirst, hrest⟩ := Option.bind_eq_some_iff.mp htwice
  obtain ⟨⟨second, a', w'⟩, hsecond, heq⟩ := Option.bind_eq_some_iff.mp hrest
  injection heq with heq
  injection heq with hresults hlengths
  injection hresults with hfailed hresults
  injection hresults with hstarted
  injection hlengths with hlength hlengths
  injection hlengths with hlength'
  have hdown : Operated deskApp outWorld false [0] a w := by
    have hcalled := Operated.begun.started hfirst
    rwa [hfailed, World.newTasks, hlength] at hcalled
  have hup : Operated deskApp outWorld true [0, 1, 2] a' w' := by
    have hcalled := (hdown.meanwhile (.acts addReplies)).started hsecond
    rwa [hstarted, World.newTasks, hlength', show (w.act _).2.tasks = w.tasks from rfl, hlength]
      at hcalled
  obtain ⟨hforwarding, hpolling, _, hover⟩ := directions_together _ _ _ hdown
  obtain ⟨hforwarding', hpolling', _⟩ := directions_together _ _ _ hup
  exact ⟨a, w, a', w', hdown, hover rfl 0 (List.mem_singleton_self 0), hforwarding, hpolling,
    hup, hforwarding', hpolling'⟩

end App

end MessageBridge
