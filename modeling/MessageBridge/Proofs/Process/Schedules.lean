import MessageBridge.Proofs.Process.Deeds
import MessageBridge.Proofs.Process.Queueing
import MessageBridge.Proofs.Reverse.Schedule

/-!
# The pollers of a world keep their schedules

A poller in a world is a poller among others. To the poller with a number a deed is a turn
or a signal if it is one for this number, and something that others do otherwise; so a list
of deeds is a list of happenings. `Mirrors` says that the world and the schedule agree on
where the poller is, and one deed and its happening keep them in agreement.

A task is queued when it can go on, and has its turn later. For a poller that pauses this
makes no difference: its pause stays over, since the clock is not put back, and a signal
stays given. This is why a poller that is queued never rests.
-/

namespace MessageBridge

open Schedule (Happening Entry Spaced Signalled)

/-- The clock is not put back, and a signal tells something. -/
def Deed.Fair : Deed → Prop
  | .act f => ∀ b, b.now ≤ (f b).now
  | .signal _ stop => stop.isGiven = true
  | _ => True

namespace Scene

/-- What a deed is to the poller with a number. -/
def happening (id : Nat) (s : Scene) : Deed → Happening
  | .turn i =>
    if i = id ∧ i ∈ s.world.ready then .turn s.world.turns false
    else .other fun _ => (s.after (.turn i)).world.brokers
  | .signal ids stop => if ids.contains id then .signal stop else .other fun b => b
  | deed => .other fun _ => (s.after deed).world.brokers

def happenings (id : Nat) (s : Scene) : List Deed → List Happening
  | [] => []
  | deed :: rest => s.happening id deed :: (s.after deed).happenings id rest

end Scene

namespace Schedule

/-- The clock goes on, so a pause that is over stays over. -/
theorem rests_later {p : Poller} {s : Schedule} {b : Brokers} (h : s.Sound p)
    (hnow : s.brokers.now ≤ b.now) (hrests : s.rests = false) :
    Schedule.rests { s with brokers := b } = false := by
  cases h with
  | armed state | running state | finished state => simp [rests, state]
  | @pausing _ ended since result sleep state entries sleeps =>
      simp only [rests, state, sleeps, Sleep.isOver] at hrests ⊢
      simp at hrests ⊢
      intro hearly
      exact hrests (Nat.lt_of_le_of_lt hnow hearly)

/-- A poller that can go on does not rest. -/
theorem rests_of_urgency? {s : Schedule} (h : (s.state.urgency? s.stop s.brokers).isSome = true) :
    s.rests = false := by
  unfold rests
  split
  · next sleep since hstate =>
      rw [hstate] at h
      unfold Polling.urgency? at h
      cases hover : sleep.isOver s.brokers with
      | true => simp
      | false =>
          cases hstop : s.stop.isGiven with
          | true => simp
          | false => simp [hover, hstop] at h
  · rfl

end Schedule

namespace World

theorem nodup_able (w : World) : (w.able.map Prod.snd).Nodup := by
  have hnumbers : w.tasks.zipIdx.Pairwise fun a b => a.2 ≠ b.2 := by
    apply List.pairwise_map.mp
    show (w.tasks.zipIdx.map Prod.snd).Nodup
    rw [List.zipIdx_map_snd]
    exact List.nodup_range'
  have hnumber : ∀ (a : Task × Nat) (u : Urgency × Nat),
      (if w.ready.contains a.2 then none
        else (a.1.urgency? w.brokers).map fun urgency => (urgency, a.2)) = some u →
      u.2 = a.2 := by
    intro a u hu
    simp only [Option.ite_none_left_eq_some, Option.map_eq_some_iff] at hu
    obtain ⟨_, urgency, _, rfl⟩ := hu
    rfl
  refine List.pairwise_map.mpr (hnumbers.filterMap _ fun a b hne u hu v hv huv => hne ?_)
  rw [← hnumber a u hu, ← hnumber b v hv]
  exact huv

theorem nodup_notice {w : World} (h : w.ready.Nodup) : w.notice.ready.Nodup := by
  have hperm : ((w.able.mergeSort fun a b => a.1.le b.1).map Prod.snd).Perm (w.able.map Prod.snd) :=
    (List.mergeSort_perm _ _).map _
  refine List.nodup_append.mpr ⟨h, hperm.nodup_iff.mpr w.nodup_able, ?_⟩
  intro i hi j hj hij
  obtain ⟨⟨u, k⟩, hu, rfl⟩ := List.mem_map.mp (hperm.mem_iff.mp hj)
  obtain rfl : i = k := hij
  exact (mem_able.mp hu).1 hi

/-- A task that has had a turn comes first, or it is not queued. -/
theorem nodup_requeue {ready : List Nat} (h : ready.Nodup) (i : Nat) (again : Bool) :
    (if again then i :: ready.erase i else ready.erase i).Nodup := by
  cases again with
  | true => exact List.nodup_cons.mpr ⟨h.not_mem_erase, h.erase i⟩
  | false => exact h.erase i

theorem mem_ready_notice {w : World} {i : Nat} (h : i ∈ w.notice.ready) :
    i ∈ w.ready ∨ ∃ t, w.tasks[i]? = some t ∧ (t.urgency? w.brokers).isSome = true := by
  rcases List.mem_append.mp h with h | h
  · exact .inl h
  · obtain ⟨⟨u, j⟩, hu, rfl⟩ := List.mem_map.mp h
    obtain ⟨_, t, ht, hurgency⟩ := mem_able.mp (List.mem_mergeSort.mp hu)
    exact .inr ⟨t, ht, by rw [hurgency]; rfl⟩

end World

/-- The poller with the number is where the schedule says, among the same brokers. -/
structure Mirrors (p : Poller) (id : Nat) (w : World) (s : Schedule) : Prop where
  task : w.tasks[id]? = some ⟨.polling p s.state, s.stop⟩
  brokers : w.brokers = s.brokers
  sound : s.Sound p
  spaced : Spaced p.fixedDelay s.entries
  once : w.ready.Nodup
  due : id ∈ w.ready → s.rests = false

namespace Mirrors

variable {p : Poller} {id : Nat} {w : World} {s : Schedule}

theorem notice (h : Mirrors p id w s) : Mirrors p id w.notice s := by
  refine ⟨h.task, h.brokers, h.sound, h.spaced, World.nodup_notice h.once, fun hready => ?_⟩
  rcases World.mem_ready_notice hready with hready | ⟨t, ht, hurgency⟩
  · exact h.due hready
  · rw [h.task] at ht
    cases ht
    rw [h.brokers] at hurgency
    exact Schedule.rests_of_urgency? hurgency

/-- Others do something, and the poller is where it was. -/
theorem others (h : Mirrors p id w s) (w' : World) (hnow : w.brokers.now ≤ w'.brokers.now)
    (htask : w'.tasks[id]? = w.tasks[id]?) (honce : w'.ready.Nodup)
    (hready : id ∈ w'.ready → id ∈ w.ready) :
    Mirrors p id w' (s.after p (.other fun _ => w'.brokers)) := by
  have hnow' : s.brokers.now ≤ w'.brokers.now := h.brokers ▸ hnow
  have hafter : s.after p (.other fun _ => w'.brokers) = { s with brokers := w'.brokers } := by
    simp only [Schedule.after, Nat.max_eq_right hnow']
  obtain ⟨hsound, hspaced⟩ := h.sound.after h.spaced (.other fun _ => w'.brokers)
  rw [hafter] at hsound hspaced ⊢
  exact ⟨htask.trans h.task, rfl, hsound, hspaced, honce,
    fun hmem => Schedule.rests_later h.sound hnow' (h.due (hready hmem))⟩

theorem acts {b : Brokers} (h : Mirrors p id w s) (hnow : w.brokers.now ≤ b.now) :
    Mirrors p id (World.notice { w with brokers := b }) (s.after p (.other fun _ => b)) :=
  (h.others { w with brokers := b } hnow rfl h.once fun hready => hready).notice

theorem turn_other {i : Nat} (h : Mirrors p id w s) (hi : i ≠ id) :
    let w' := World.turn { w with ready := w.ready.erase i } i
    Mirrors p id w' (s.after p (.other fun _ => w'.brokers)) := by
  have herased : Mirrors p id { w with ready := w.ready.erase i } s :=
    ⟨h.task, h.brokers, h.sound, h.spaced, h.once.erase i,
      fun hready => h.due (List.mem_of_mem_erase hready)⟩
  cases ht : w.tasks[i]? with
  | none =>
      rw [World.turn_of_none (w := { w with ready := w.ready.erase i }) ht]
      exact herased.others _ (Nat.le_refl _) rfl herased.once fun hready => hready
  | some t =>
      rw [World.turn_eq (w := { w with ready := w.ready.erase i }) ht]
      refine (herased.others _ (t.now_le_turn w.turns w.brokers) (List.getElem?_set_ne hi)
        (World.nodup_requeue h.once i _) ?_).notice
      simp only []
      intro hready
      split at hready
      · exact (List.mem_cons.mp hready).resolve_left (Ne.symm hi)
      · exact hready

theorem turn_self (h : Mirrors p id w s) (hmem : id ∈ w.ready) :
    Mirrors p id (World.turn { w with ready := w.ready.erase id } id)
      (s.after p (.turn w.turns false)) := by
  obtain ⟨hsound, hspaced⟩ := h.sound.after h.spaced (.turn w.turns false)
  -- In a world the signal is looked at first.
  have hview : s.view p false = (s.state, s.stop) := by
    unfold Schedule.view
    cases s.state <;> rfl
  have hafter : s.after p (.turn w.turns false) = s.go p w.turns s.state s.stop := by
    rw [Schedule.after, h.due hmem, hview]
    rfl
  rw [hafter] at hsound hspaced ⊢
  rw [World.turn_eq (w := { w with ready := w.ready.erase id }) h.task]
  have hlt : id < w.tasks.length := (List.getElem?_eq_some_iff.mp h.task).1
  refine Mirrors.notice ⟨?_, ?_, hsound, hspaced, World.nodup_requeue h.once id _, ?_⟩
  · show (w.tasks.set id _)[id]? = _
    rw [List.getElem?_set_self hlt]
    simp only [Task.turn, Schedule.go, h.brokers]
  · simp only [Task.turn, Schedule.go, h.brokers]
  · simp only []
    intro hready
    split at hready
    · next hurgency =>
        simp only [Task.turn, Task.urgency?, h.brokers] at hurgency
        exact Schedule.rests_of_urgency? hurgency
    · exact absurd hready h.once.not_mem_erase

theorem signal (h : Mirrors p id w s) (ids : List Nat) {stop : StopSignal}
    (hstop : stop.isGiven = true) :
    Mirrors p id (w.signal ids stop)
      (s.after p (if ids.contains id then .signal stop else .other fun b => b)) := by
  have htask := World.getElem?_signal w ids stop id
  rw [h.task, Option.map_some] at htask
  by_cases hmem : ids.contains id = true
  · obtain ⟨hsound, hspaced⟩ := h.sound.after h.spaced (.signal stop)
    rw [if_pos hmem] at htask ⊢
    refine Mirrors.notice ⟨htask.trans ?_, h.brokers, hsound, hspaced, h.once, fun _ => ?_⟩
    · simp only [Task.signal, Schedule.after]
      split <;> rfl
    · -- A poller that has been told to stop has something to do.
      have hgiven : (s.after p (.signal stop)).stop.isGiven = true := by
        simp only [Schedule.after]
        split
        · next hrequested => rw [hrequested]; rfl
        · exact hstop
      unfold Schedule.rests
      split <;> simp [hgiven]
  · rw [if_neg hmem] at htask ⊢
    have hafter : s.after p (.other fun b => b) = s.after p (.other fun _ => w.brokers) := by
      rw [h.brokers]
      rfl
    rw [hafter]
    exact (h.others { w with tasks := (w.signal ids stop).tasks } (Nat.le_refl _)
      (htask.trans h.task.symm) h.once fun hready => hready).notice

theorem after {scene : Scene} (h : Mirrors p id scene.world s) (deed : Deed) (hfair : deed.Fair) :
    Mirrors p id (scene.after deed).world (s.after p (scene.happening id deed)) := by
  have hsame : Mirrors p id scene.world (s.after p (.other fun _ => scene.world.brokers)) :=
    h.others _ (Nat.le_refl _) rfl h.once fun hready => hready
  cases deed with
  | act f => exact h.acts (hfair _)
  | jump t => exact h.acts (Nat.le_max_left _ _)
  | signal ids stop => exact h.signal ids hfair
  | spawn task =>
      have hlt : id < scene.world.tasks.length := (List.getElem?_eq_some_iff.mp h.task).1
      exact (h.others { scene.world with tasks := scene.world.tasks ++ [task] }
        (Nat.le_refl _) (List.getElem?_append_left hlt) h.once fun hready => hready).notice
  | turn i =>
      by_cases hready : i ∈ scene.world.ready
      · simp only [Scene.happening, Scene.after, hready, and_true, if_true]
        by_cases hi : i = id
        · subst hi
          rw [if_pos rfl]
          exact h.turn_self hready
        · rw [if_neg hi]
          exact h.turn_other hi
      · simp only [Scene.happening, Scene.after, hready, and_false, if_false]
        exact hsame
  | begin c d =>
      obtain ⟨w, hand⟩ := scene
      cases hand with
      | some x => exact hsame
      | none => exact h.acts (Nat.le_refl _)
  | goOn =>
      obtain ⟨w, hand⟩ := scene
      cases hand with
      | none => exact hsame
      | some x =>
          obtain ⟨c, handling⟩ := x
          have hworld := Scene.world_goOn w c handling
          simp only [Scene.happening, hworld]
          exact h.acts (handling.now_le_turn c w.brokers)

theorem run {deeds : List Deed} : ∀ {scene : Scene} {s : Schedule}, Mirrors p id scene.world s →
    (∀ deed ∈ deeds, deed.Fair) →
    Mirrors p id (scene.run deeds).world (s.run p (scene.happenings id deeds)) := by
  induction deeds with
  | nil => exact fun h _ => h
  | cons deed rest ih =>
      intro scene s h hfair
      exact ih (h.after deed (hfair deed List.mem_cons_self))
        fun x hx => hfair x (List.mem_cons_of_mem _ hx)

/-- A poller that is new has not begun anything. -/
theorem spawn (hready : w.ready.Nodup) :
    Mirrors p w.tasks.length (w.spawn (.poller p)).2 { brokers := w.brokers } := by
  refine notice ⟨?_, rfl, .armed rfl rfl, ⟨nofun, .nil⟩, hready, fun _ => rfl⟩
  exact List.getElem?_concat_length

end Mirrors

theorem Scene.nodup_after {s : Scene} (h : s.world.ready.Nodup) (deed : Deed) :
    (s.after deed).world.ready.Nodup := by
  cases deed with
  | act | spawn | signal | jump => exact World.nodup_notice h
  | turn i =>
      simp only [after]
      split
      · next hmem =>
          cases ht : s.world.tasks[i]? with
          | none =>
              rw [World.turn_of_none (w := { s.world with ready := s.world.ready.erase i }) ht]
              exact h.erase i
          | some t =>
              rw [World.turn_eq (w := { s.world with ready := s.world.ready.erase i }) ht]
              exact World.nodup_notice (World.nodup_requeue h i _)
      · exact h
  | begin c d =>
      obtain ⟨w, hand⟩ := s
      cases hand with
      | some x => exact h
      | none => exact World.nodup_notice h
  | goOn =>
      obtain ⟨w, hand⟩ := s
      cases hand with
      | none => exact h
      | some x =>
          rw [world_goOn]
          exact World.nodup_notice h

theorem Scene.nodup_run {deeds : List Deed} : ∀ {s : Scene}, s.world.ready.Nodup →
    (s.run deeds).world.ready.Nodup := by
  induction deeds with
  | nil => exact fun h => h
  | cons deed rest ih => exact fun h => ih (nodup_after h deed)

/-- What a command may be made of is fair, unless the command takes a signal back. -/
theorem Session.Undertakes.fair {s : Session} {command : Command} {deed : Deed}
    (h : s.Undertakes command deed) (hsignal : ∀ task, command ≠ .stopTask task .none) :
    deed.Fair := by
  cases h with
  | works f quiet => exact fun b => Nat.le_of_eq (quiet b).now.symm
  | attempts consumer ref c asked held =>
      exact fun b => b.now_le_on (.attempt c.endpoint (s.delivery ref))
  | signals ids stop given =>
      rcases given with given | ⟨task, rfl⟩
      · exact given
      · cases stop with
        | none => exact absurd rfl (hsignal task)
        | requested | abandoned => rfl
  | spawns | turns | jumps | begins | goesOn => trivial

namespace Poller

/-- A poller keeps its schedule whatever happens, and so does every poller that is started
in a world, with everything that a session can do to this world. -/
theorem keeps_schedule (p : Poller) :
    (∀ b happenings, Schedule.Promises p b happenings) ∧
    (∀ (scene₀ : Scene) before later, scene₀.world.ready = [] →
      (∀ deed ∈ later, deed.Fair) →
      let w := (scene₀.run before).world
      let scene := (scene₀.run before).after (.spawn (.poller p))
      let s := Schedule.run p { brokers := w.brokers } (scene.happenings w.tasks.length later)
      (scene.run later).world.tasks[w.tasks.length]? = some ⟨.polling p s.state, s.stop⟩ ∧
        (scene.run later).world.brokers = s.brokers) ∧
    ∀ (session session' : Session) command reply, (∀ task, command ≠ .stopTask task .none) →
      session.step command = some (reply, session') →
      Scene.Goes Deed.Fair ⟨session.world, none⟩ ⟨session'.world, none⟩ := by
  refine ⟨Schedule.promises p, ?_, ?_⟩
  · intro scene₀ before later hready hfair w scene s
    have hstart : scene₀.world.ready.Nodup := hready ▸ List.nodup_nil
    have hmirrors : Mirrors p w.tasks.length scene.world { brokers := w.brokers } :=
      .spawn (Scene.nodup_run hstart)
    have hafter := hmirrors.run hfair
    exact ⟨hafter.task, hafter.brokers⟩
  · intro session session' command reply hsignal hstep
    exact (Session.goes_step hstep).mono fun deed hdeed => hdeed.fair hsignal

/-- Polls a queue, 20 milliseconds at a time and 5 milliseconds apart. -/
def stockWatch : Poller :=
  ⟨⟨⟨"stock", Amazon.queueUrl "stock", .ofMillis 20, 10⟩, ⟨"", "stock-changes"⟩, false⟩,
    .ofMillis 5⟩

/-- There is a queue, and nothing in it. -/
def emptyStock : Brokers where
  amazon := ({} : Amazon.Service).createQueue "stock"

/-- A session with such a poller in the background. -/
def watchedStock : Session where
  world := (World.spawn { brokers := emptyStock } (.poller stockWatch)).2

def waits (millis : Nat) : Happening :=
  .other fun b => { b with now := b.now + millis }

/-- Without a queue a run fails, and another one follows when the delay is over, unless the
request to stop comes just then. A run that waits for messages ends as it would have without
the request. A world does the same, and so does a session that sleeps for a while. -/
theorem stockWatch_keeps_schedule :
    let failed := Schedule.run stockWatch { brokers := {} } [.turn 0 false, waits 5]
    let waiting := Schedule.run stockWatch { brokers := emptyStock } [.turn 0 false, waits 20]
    (∃ failure, failed.entries = [.began 0, .ended 0 (.error failure)]) ∧
      (∃ more, (failed.after stockWatch (.turn 1 true)).entries =
        failed.entries ++ .began 5 :: more) ∧
      (Schedule.run stockWatch { brokers := {} }
        [.turn 0 false, waits 5, .signal .requested, .turn 1 true]).entries.filter
          Entry.isBeginning = [.began 0] ∧
      (∃ t result, (waiting.after stockWatch (.turn 1 false)).entries =
        [.began 0, .ended t result]) ∧
      ((waiting.run stockWatch [.signal .requested]).after stockWatch (.turn 1 false)).entries =
        (waiting.after stockWatch (.turn 1 false)).entries ∧
      (∃ happenings,
        let s := Schedule.run stockWatch { brokers := {} } happenings
        (Scene.run ⟨(World.spawn {} (.poller stockWatch)).2, none⟩
          [.turn 0, .signal [0] .requested]).world.tasks[0]? =
            some ⟨.polling stockWatch s.state, s.stop⟩) ∧
      ∃ reply s', watchedStock.step (.sleep 30) = some (reply, s') ∧
        Scene.Goes Deed.Fair ⟨watchedStock.world, none⟩ ⟨s'.world, none⟩ := by
  obtain ⟨hpromises, hworlds, hsessions⟩ := stockWatch.keeps_schedule
  have hfailed : ∃ failure,
      (Schedule.run stockWatch { brokers := {} } [.turn 0 false, waits 5]).entries =
        [.began 0, .ended 0 (.error failure)] := ⟨_, rfl⟩
  have hwaiting : (Schedule.run stockWatch { brokers := emptyStock }
      [.turn 0 false, waits 20]).entries = [.began 0] := rfl
  have hno : ∀ millis, ¬ Signalled [.turn 0 false, waits millis] := by
    simp [Signalled, waits]
  refine ⟨hfailed, ?_, ?_, ?_, ?_, ?_, ?_⟩
  · obtain ⟨failure, hfailure⟩ := hfailed
    exact (hpromises {} [.turn 0 false, waits 5]).begins (hno 5) [.began 0] 0 (.error failure)
      hfailure (by decide) 1 true
  · obtain ⟨failure, hfailure⟩ := hfailed
    have hstops := (hpromises {} [.turn 0 false, waits 5, .signal .requested, .turn 1 true]).stops
      [.turn 0 false, waits 5] [.turn 1 true] rfl
    rw [hstops, hfailure]
    rfl
  · have hends := ((hpromises emptyStock [.turn 0 false, waits 20]).ends [] 0 hwaiting).2
      (by decide) 1 false
    rwa [hwaiting] at hends
  · exact ((hpromises emptyStock [.turn 0 false, waits 20]).same [] 0 hwaiting
      [.signal .requested] rfl 1 false).2
  · obtain ⟨htask, _⟩ := hworlds ⟨{}, none⟩ [] [.turn 0, .signal [0] .requested] rfl
      (by simp [Deed.Fair, StopSignal.isGiven])
    exact ⟨_, htask⟩
  · have hsleeps : (watchedStock.step (.sleep 30)).isSome = true := by decide +kernel
    obtain ⟨⟨reply, s'⟩, hstep⟩ := Option.isSome_iff_exists.mp hsleeps
    have hother : ∀ task, Command.sleep 30 ≠ .stopTask task .none := by
      intro task h
      cases h
    exact ⟨reply, s', hstep, hsessions watchedStock s' (.sleep 30) reply hother hstep⟩

end Poller

end MessageBridge
