import MessageBridge.Proofs.Forward.Attendance
import MessageBridge.Proofs.Process.Queueing

/-!
# The consumers of a queue among the tasks

For every queue some of the tasks are its readers. `Attends` says of a world that
the stream of a queue is in its place among them, and it is the invariant of every
turn: a task that does not read from the queue leaves the stream alone, and a
reader that has a turn advances together with it.

`Proceeds` is what time does to the tasks. Each of them keeps its consumer and what
it was told, and one that is over stays as it is.
-/

namespace MessageBridge

namespace Task

/-- The consumer that a task runs. -/
def consumer? (t : Task) : Option Consumer :=
  match t.work with
  | .consuming c _ => some c
  | .polling _ _ => none

/-- The task as a reader of a queue. -/
def reader? (queue : String) (t : Task) : Option Reader :=
  match t.work with
  | .consuming c state => if c.endpoint.queue = queue then some ⟨state, t.stop⟩ else none
  | .polling _ _ => none

theorem reader?_consumer (queue : String) (c : Consumer) :
    (consumer c).reader? queue = if c.endpoint.queue = queue then some ⟨.starting, .none⟩ else none :=
  rfl

theorem reader?_signal (queue : String) (t : Task) :
    (t.signal .requested).reader? queue = (t.reader? queue).map fun x => ⟨x.state, .requested⟩ := by
  have htold : t.signal .requested = { t with stop := .requested } := by
    unfold signal
    split
    · next hstop => rw [← hstop]
    · rfl
  rw [htold]
  obtain ⟨work, stop⟩ := t
  cases work with
  | polling p state => rfl
  | consuming c state =>
      simp only [reader?]
      split <;> rfl

theorem stop_of_reader? {queue : String} {t : Task} {x : Reader} (h : t.reader? queue = some x) :
    t.stop = x.stop := by
  unfold reader? at h
  split at h
  · split at h
    · cases h
      rfl
    · cases h
  · cases h

theorem reader?_of_consumer? {queue : String} {t : Task} {c : Consumer}
    (hc : t.consumer? = some c) (hqueue : c.endpoint.queue = queue) :
    ∃ state, t.reader? queue = some ⟨state, t.stop⟩ := by
  obtain ⟨work, stop⟩ := t
  cases work with
  | polling p state => cases hc
  | consuming c state =>
      cases hc
      exact ⟨state, if_pos hqueue⟩

theorem consumer?_of_reader? {queue : String} {t : Task} {x : Reader}
    (h : t.reader? queue = some x) : ∃ c, t.consumer? = some c ∧ c.endpoint.queue = queue := by
  obtain ⟨work, stop⟩ := t
  cases work with
  | polling p state => cases h
  | consuming c state =>
      simp only [reader?] at h
      split at h
      · next hqueue => exact ⟨c, rfl, hqueue⟩
      · cases h

/-- A reader that is over has finished. -/
theorem finished_of_over {queue : String} {t : Task} {x : Reader}
    (h : t.reader? queue = some x) (hover : t.isAlive = false) :
    ∃ result, x.state = .finished result := by
  obtain ⟨work, stop⟩ := t
  cases work with
  | polling p state => cases h
  | consuming c state =>
      simp only [reader?] at h
      split at h
      · cases h
        cases state with
        | starting => cases hover
        | running => cases hover
        | finished result => exact ⟨result, rfl⟩
      · cases h

theorem over_of_finished {queue : String} {t : Task} {x : Reader} {result : Except Failure Unit}
    (h : t.reader? queue = some x) (hfinished : x.state = .finished result) :
    t.isAlive = false := by
  obtain ⟨work, stop⟩ := t
  cases work with
  | polling p state => cases h
  | consuming c state =>
      simp only [reader?] at h
      split at h
      · cases h
        cases hfinished
        rfl
      · cases h

/-- The turn of a task, seen from a queue. -/
structure Turned (queue : String) (t : Task) (b : Brokers) (t' : Task) (b' : Brokers) : Prop where
  keeps : b.rabbit.Keeps b'.rabbit
  consumer : t'.consumer? = t.consumer?
  stop : t'.stop = t.stop
  apart : t.reader? queue = none →
    t'.reader? queue = none ∧ b'.rabbit.streamOf queue = b.rabbit.streamOf queue
  reads : ∀ x, t.reader? queue = some x → (b.rabbit.queue? queue).isSome →
    ∃ state, t'.reader? queue = some ⟨state, x.stop⟩ ∧
      Consuming.Advances queue x.stop x.state (b.rabbit.streamOf queue) state
        (b'.rabbit.streamOf queue)

theorem turned_turn (queue : String) (t : Task) (number : Nat) (b : Brokers) :
    Turned queue t b (t.turn number b).1 (t.turn number b).2 := by
  obtain ⟨work, stop⟩ := t
  cases work with
  | polling p state =>
      have hcalm := Polling.calm_turn p stop number state b
      exact ⟨hcalm.keeps, rfl, rfl, fun _ => ⟨rfl, hcalm.streams queue⟩, fun x hx => nomatch hx⟩
  | consuming c state =>
      have hmoves := Consuming.moves_turn c stop number state b
      show Turned queue ⟨.consuming c state, stop⟩ b
        ⟨.consuming c (state.turn c stop number b).1, stop⟩ (state.turn c stop number b).2
      rcases hturned : state.turn c stop number b with ⟨state', b'⟩
      rw [hturned] at hmoves
      by_cases hqueue : c.endpoint.queue = queue
      · subst hqueue
        have hreader : ∀ state, reader? c.endpoint.queue ⟨.consuming c state, stop⟩ =
            some ⟨state, stop⟩ := fun state => if_pos rfl
        refine ⟨hmoves.keeps, rfl, rfl, fun hnone => ?_, fun x hx hdeclared => ?_⟩
        · rw [hreader] at hnone
          cases hnone
        · rw [hreader] at hx
          cases hx
          exact ⟨state', hreader state', hmoves.advances hdeclared⟩
      · have hreader : ∀ state, reader? queue ⟨.consuming c state, stop⟩ = none :=
          fun state => if_neg hqueue
        refine ⟨hmoves.keeps, rfl, rfl, fun _ => ⟨hreader state', hmoves.others queue hqueue⟩,
          fun x hx => ?_⟩
        rw [hreader] at hx
        cases hx

end Task

namespace World

variable {w w' : World} {queue : String}

/-- The consumer that the task of a number runs. -/
def consumer? (w : World) (i : Nat) : Option Consumer :=
  (w.tasks[i]?).bind Task.consumer?

/-- The task of a number as a reader of a queue. -/
def reader? (w : World) (queue : String) (i : Nat) : Option Reader :=
  (w.tasks[i]?).bind (Task.reader? queue)

/-- The stream of the queue is in its place among the readers. Nobody has left them
alone, and when there are any the queue is declared. -/
structure Attends (w : World) (queue : String) : Prop where
  attended : Attended queue (w.reader? queue) (w.brokers.rabbit.streamOf queue)
  declared : ∀ i x, w.reader? queue i = some x → (w.brokers.rabbit.queue? queue).isSome
  loyal : ∀ i x, w.reader? queue i = some x → x.stop ≠ .abandoned

theorem isSome_queue?_of_keeps {r r' : Rabbit.Broker} (hk : r.Keeps r')
    (h : (r.queue? queue).isSome) : (r'.queue? queue).isSome := by
  obtain ⟨q, hq⟩ := Option.isSome_iff_exists.mp h
  obtain ⟨q', hq', _⟩ := hk.queue queue q hq
  rw [hq']
  rfl

theorem attends_of_none (hfree : w.brokers.rabbit.streamOf queue = .idle)
    (hnone : ∀ i, w.reader? queue i = none) : w.Attends queue where
  attended := by
    rw [hfree]
    exact .free fun i x hx => nomatch (hnone i).symm.trans hx
  declared := fun i x hx => nomatch (hnone i).symm.trans hx
  loyal := fun i x hx => nomatch (hnone i).symm.trans hx

theorem Attends.of_calm (h : w.Attends queue) (htasks : w'.tasks = w.tasks)
    (hkeeps : w.brokers.rabbit.Keeps w'.brokers.rabbit)
    (hstream : w'.brokers.rabbit.streamOf queue = w.brokers.rabbit.streamOf queue) :
    w'.Attends queue := by
  have hreaders : w'.reader? queue = w.reader? queue := by
    funext i
    rw [reader?, reader?, htasks]
  refine ⟨?_, fun i x hx => ?_, fun i x hx => ?_⟩
  · rw [hreaders, hstream]
    exact h.attended
  · rw [hreaders] at hx
    exact isSome_queue?_of_keeps hkeeps (h.declared i x hx)
  · rw [hreaders] at hx
    exact h.loyal i x hx

theorem reader?_set {i : Nat} {t : Task} (ht : w.tasks[i]? = some t) (t' : Task)
    (htasks : w'.tasks = w.tasks.set i t') :
    w'.reader? queue = Function.update (w.reader? queue) i (t'.reader? queue) := by
  have hlt := (List.getElem?_eq_some_iff.mp ht).1
  funext j
  rw [reader?, htasks, List.getElem?_set]
  by_cases hij : i = j
  · subst hij
    rw [if_pos rfl, if_pos hlt, Function.update_self]
    rfl
  · rw [if_neg hij, Function.update_of_ne (Ne.symm hij)]
    rfl

theorem Attends.of_turned {i : Nat} {t t' : Task} {b : Brokers} (h : w.Attends queue)
    (ht : w.tasks[i]? = some t) (hturned : Task.Turned queue t w.brokers t' b)
    (htasks : w'.tasks = w.tasks.set i t') (hbrokers : w'.brokers = b) : w'.Attends queue := by
  have hreaders : w'.reader? queue = _ := reader?_set ht t' htasks
  have hbefore : w.reader? queue i = t.reader? queue := by
    rw [reader?, ht]
    rfl
  subst hbrokers
  cases hreader : t.reader? queue with
  | none =>
      obtain ⟨hnone, hsame⟩ := hturned.apart hreader
      rw [hnone, ← hreader, ← hbefore, Function.update_eq_self] at hreaders
      refine ⟨?_, fun j x hx => ?_, fun j x hx => ?_⟩
      · rw [hreaders, hsame]
        exact h.attended
      · rw [hreaders] at hx
        exact isSome_queue?_of_keeps hturned.keeps (h.declared j x hx)
      · rw [hreaders] at hx
        exact h.loyal j x hx
  | some x =>
      have hx : w.reader? queue i = some x := hbefore.trans hreader
      have hdeclared := h.declared i x hx
      obtain ⟨state, hstate, hadvances⟩ := hturned.reads x hreader hdeclared
      rw [hstate] at hreaders
      refine ⟨?_, fun j y _ => isSome_queue?_of_keeps hturned.keeps hdeclared, fun j y hy => ?_⟩
      · rw [hreaders]
        exact h.attended.advance hx (h.loyal i x hx) hadvances
      · rw [hreaders] at hy
        by_cases hji : j = i
        · subst hji
          rw [Function.update_self] at hy
          cases hy
          exact h.loyal j x hx
        · rw [Function.update_of_ne hji] at hy
          exact h.loyal j y hy

theorem Attends.turn (h : w.Attends queue) (i : Nat) : (w.turn i).Attends queue := by
  cases ht : w.tasks[i]? with
  | none =>
      rw [turn_of_none ht]
      exact h
  | some t =>
      rw [turn_eq ht]
      exact h.of_turned ht (Task.turned_turn queue t w.turns w.brokers) rfl rfl

/-- A reader of a world with new consumers is as it was, or it is new. -/
theorem reader?_append {cs : List Consumer} (htasks : w'.tasks = w.tasks ++ cs.map .consumer)
    (queue : String) (i : Nat) :
    w'.reader? queue i = w.reader? queue i ∨
      w.reader? queue i = none ∧ ∃ c ∈ cs, w'.reader? queue i = (Task.consumer c).reader? queue := by
  rw [reader?, reader?, htasks, List.getElem?_append]
  split
  · exact .inl rfl
  · next hi =>
      rw [List.getElem?_eq_none_iff.mpr (Nat.le_of_not_lt hi)]
      cases hnew : (cs.map Task.consumer)[i - w.tasks.length]? with
      | none => exact .inl rfl
      | some t =>
          obtain ⟨c, hc, rfl⟩ := List.mem_map.mp (List.mem_of_getElem? hnew)
          exact .inr ⟨rfl, c, hc, rfl⟩

/-- There are new consumers, and what they read from is declared. -/
theorem Attends.hire (h : w.Attends queue) {cs : List Consumer}
    (htasks : w'.tasks = w.tasks ++ cs.map .consumer)
    (hkeeps : w.brokers.rabbit.Keeps w'.brokers.rabbit)
    (hstream : w'.brokers.rabbit.streamOf queue = w.brokers.rabbit.streamOf queue)
    (hdeclared : ∀ c ∈ cs, c.endpoint.queue = queue →
      (w'.brokers.rabbit.queue? queue).isSome) : w'.Attends queue := by
  have hreaders := reader?_append htasks queue
  have hnew : ∀ i x, w.reader? queue i = none → w'.reader? queue i = some x →
      x = ⟨.starting, .none⟩ ∧ (w'.brokers.rabbit.queue? queue).isSome := by
    intro i x hnone hx
    rcases hreaders i with hsame | ⟨_, c, hc, hreader⟩
    · rw [hsame, hnone] at hx
      cases hx
    · rw [hreader, Task.reader?_consumer] at hx
      split at hx
      · next hqueue =>
          cases hx
          exact ⟨rfl, hdeclared c hc hqueue⟩
      · cases hx
  have hold : ∀ i x, w.reader? queue i = some x → w'.reader? queue i = some x := by
    intro i x hx
    rcases hreaders i with hsame | ⟨hnone, _⟩
    · exact hsame.trans hx
    · cases hnone.symm.trans hx
  refine ⟨?_, fun i x hx => ?_, fun i x hx => ?_⟩
  · rw [hstream]
    refine h.attended.of_readers (fun i x hx => ⟨x.stop, hold i x hx, id⟩) fun i x hnone hx => ?_
    rw [(hnew i x hnone hx).1]
  · cases hbefore : w.reader? queue i with
    | none => exact (hnew i x hbefore hx).2
    | some y => exact isSome_queue?_of_keeps hkeeps (h.declared i y hbefore)
  · cases hbefore : w.reader? queue i with
    | none =>
        rw [(hnew i x hbefore hx).1]
        decide
    | some y =>
        cases hx.symm.trans (hold i y hbefore)
        exact h.loyal i x hbefore

theorem reader?_signal (w : World) (ids : List Nat) (queue : String) (i : Nat) :
    (w.signal ids .requested).reader? queue i =
      (w.reader? queue i).map fun x =>
        ⟨x.state, if ids.contains i then .requested else x.stop⟩ := by
  rw [reader?, reader?, getElem?_signal]
  cases w.tasks[i]? with
  | none => rfl
  | some t =>
      show (if ids.contains i then t.signal .requested else t).reader? queue =
        (t.reader? queue).map _
      split
      · exact Task.reader?_signal queue t
      · cases t.reader? queue <;> rfl

/-- Some tasks are told to stop. -/
theorem Attends.signal (h : w.Attends queue) (ids : List Nat) :
    (w.signal ids .requested).Attends queue := by
  have hreaders := w.reader?_signal ids queue
  refine ⟨?_, fun i x hx => ?_, fun i x hx => ?_⟩
  · refine h.attended.of_readers (fun i x hx => ?_) fun i x hnone hx => ?_
    · rw [hreaders, hx]
      refine ⟨_, rfl, fun hrequested => ?_⟩
      split
      · rfl
      · exact hrequested
    · rw [hreaders, hnone] at hx
      cases hx
  · rw [hreaders] at hx
    obtain ⟨y, hy, _⟩ := Option.map_eq_some_iff.mp hx
    exact h.declared i y hy
  · rw [hreaders] at hx
    obtain ⟨y, hy, rfl⟩ := Option.map_eq_some_iff.mp hx
    show (if ids.contains i then StopSignal.requested else y.stop) ≠ .abandoned
    split
    · decide
    · exact h.loyal i y hy

/-! ## While time passes -/

/-- The tasks are the same consumers with the same signals, and those that were over
are as they were. -/
structure Proceeds (w w' : World) : Prop where
  consumers : ∀ i, w'.consumer? i = w.consumer? i
  stops : ∀ i : Nat, (w'.tasks[i]?).map (fun t : Task => t.stop) =
    (w.tasks[i]?).map fun t : Task => t.stop
  ended : ∀ (i : Nat) (t : Task), w.tasks[i]? = some t → t.isAlive = false →
    w'.tasks[i]? = some t

theorem Proceeds.refl (w : World) : Proceeds w w :=
  ⟨fun _ => rfl, fun _ => rfl, fun _ _ ht _ => ht⟩

theorem Proceeds.of_tasks (h : w'.tasks = w.tasks) : Proceeds w w' where
  consumers := fun i => by rw [consumer?, consumer?, h]
  stops := fun i => by rw [h]
  ended := fun i t ht _ => h ▸ ht

theorem Proceeds.trans {w₁ w₂ w₃ : World} (h₁₂ : Proceeds w₁ w₂) (h₂₃ : Proceeds w₂ w₃) :
    Proceeds w₁ w₃ where
  consumers := fun i => (h₂₃.consumers i).trans (h₁₂.consumers i)
  stops := fun i => (h₂₃.stops i).trans (h₁₂.stops i)
  ended := fun i t ht hover => h₂₃.ended i t (h₁₂.ended i t ht hover) hover

theorem proceeds_turn (w : World) (i : Nat) : Proceeds w (w.turn i) := by
  cases ht : w.tasks[i]? with
  | none =>
      rw [turn_of_none ht]
      exact .refl w
  | some t =>
      have hturned := Task.turned_turn "" t w.turns w.brokers
      have hlt := (List.getElem?_eq_some_iff.mp ht).1
      -- what the tasks are after the turn, one by one
      have htask : (w.turn i).tasks[i]? = some (t.turn w.turns w.brokers).1 := by
        rw [turn_eq ht]
        exact (List.getElem?_set_self hlt)
      have hothers : ∀ j, i ≠ j → (w.turn i).tasks[j]? = w.tasks[j]? := fun j hj => by
        rw [turn_eq ht]
        exact List.getElem?_set_ne hj
      refine ⟨fun j => ?_, fun j => ?_, fun j u hu hover => ?_⟩
      · by_cases hj : i = j
        · subst hj
          rw [consumer?, consumer?, htask, ht]
          exact hturned.consumer
        · rw [consumer?, consumer?, hothers j hj]
      · by_cases hj : i = j
        · subst hj
          rw [htask, ht]
          exact congrArg some hturned.stop
        · rw [hothers j hj]
      · by_cases hj : i = j
        · subst hj
          cases ht.symm.trans hu
          rw [htask, Task.turn_of_over hover]
        · rw [hothers j hj]
          exact hu

theorem proceeds_wait {isOver : World → Bool} {deadline : Option Instant}
    (h : w.wait isOver deadline = some w') : Proceeds w w' :=
  wait_preserves (P := Proceeds w) (fun _ _ hw => hw.trans (.of_tasks rfl))
    (fun w₁ i hw => hw.trans (proceeds_turn w₁ i)) (fun _ _ hw => hw.trans (.of_tasks rfl)) h
    (.refl w)

/-- A reader of the later world has been a reader before. -/
theorem Proceeds.reader? (h : Proceeds w w') {i : Nat} {x : Reader}
    (hx : w'.reader? queue i = some x) : ∃ state, w.reader? queue i = some ⟨state, x.stop⟩ := by
  obtain ⟨t', ht', hreader'⟩ := Option.bind_eq_some_iff.mp hx
  obtain ⟨c, hc, hqueue⟩ := Task.consumer?_of_reader? hreader'
  have hconsumer := h.consumers i
  have hstop := h.stops i
  rw [World.consumer?, World.consumer?, ht'] at hconsumer
  rw [ht'] at hstop
  obtain ⟨t, ht, hsame⟩ := Option.bind_eq_some_iff.mp (hconsumer.symm.trans hc)
  obtain ⟨state, hreader⟩ := Task.reader?_of_consumer? hsame hqueue
  rw [ht] at hstop
  have hsamestop : t'.stop = t.stop := Option.some.inj hstop
  refine ⟨state, ?_⟩
  rw [World.reader?, ht, ← Task.stop_of_reader? hreader', hsamestop]
  exact hreader

/-- A reader that has finished stays as it is. -/
theorem Proceeds.finished (h : Proceeds w w') {i : Nat} {x : Reader}
    {result : Except Failure Unit} (hx : w.reader? queue i = some x)
    (hfinished : x.state = .finished result) : w'.reader? queue i = some x := by
  obtain ⟨t, ht, hreader⟩ := Option.bind_eq_some_iff.mp hx
  rw [World.reader?, h.ended i t ht (Task.over_of_finished hreader hfinished)]
  exact hreader

theorem Attends.wait {isOver : World → Bool} {deadline : Option Instant} (hw : w.Attends queue)
    (h : w.wait isOver deadline = some w') : w'.Attends queue :=
  wait_preserves (P := (Attends · queue)) (fun _ _ hw => hw.of_calm rfl (.refl _) rfl)
    (fun _ i hw => hw.turn i) (fun _ _ hw => hw.of_calm rfl (.refl _) rfl) h hw

end World

end MessageBridge
