import MessageBridge.Proofs.Forward.Endpoints
import MessageBridge.Proofs.Process.Turns
import MessageBridge.Proofs.Rabbit.Streams
import Mathlib.Logic.Function.Basic

/-!
# Consumers and the stream of a queue

A queue has one stream, and several consumers may read from the queue. Seen from
the stream there is little that a consumer can do in a turn, and `Advances` lists
it: take the stream in its first turn or be refused, go on with the stream as it
is, or drop it when it was told to stop. The deliveries that it works on meanwhile
do not matter.

`Attended` says who has the stream. While it is idle no consumer has had a turn.
Afterwards there is one consumer that took it: this one reads from it for as long
as it stands, and has dropped it when it was told to stop. All the others have not
had a turn yet, or they have been refused. No turn of any consumer of the queue
changes that, and neither does a consumer that is new or is told to stop.
-/

namespace MessageBridge

open Rabbit (Stream Refusal)

/-! ## Turns that leave a stream alone -/

/-- The event is an operation on the stream of the queue. -/
def Event.TouchesStream (queue : String) : Event → Prop
  | .rabbit op => op.TouchesStream queue
  | _ => False

theorem streamOf_on {event : Event} {queue : String} (h : ¬ event.TouchesStream queue)
    (b : Brokers) : (b.on event).rabbit.streamOf queue = b.rabbit.streamOf queue := by
  rcases b.rabbit_on event with hsame | ⟨op, horders, hop⟩
  · rw [hsame]
  · rw [hop]
    refine Rabbit.Broker.streamOf_after (fun htouches => ?_) b.rabbit
    cases event with
    | rabbit op' => exact h (horders ▸ htouches)
    | settle c d result => cases result <;> (cases horders; exact htouches)
    | forward d m =>
        obtain ⟨text, rfl⟩ := horders
        exact htouches
    | amazon | counted | clock | attempt => exact horders

/-- Declarations stay, and nobody has touched the stream of any queue. -/
structure Calm (b b' : Brokers) : Prop where
  keeps : b.rabbit.Keeps b'.rabbit
  streams : ∀ queue, b'.rabbit.streamOf queue = b.rabbit.streamOf queue

theorem Calm.refl (b : Brokers) : Calm b b :=
  ⟨.refl b.rabbit, fun _ => rfl⟩

theorem Calm.trans {a b c : Brokers} (hab : Calm a b) (hbc : Calm b c) : Calm a c :=
  ⟨hab.keeps.trans hbc.keeps, fun queue => (hbc.streams queue).trans (hab.streams queue)⟩

theorem Calm.of_course {rule : Rule} {past h : List Moment} {b b' : Brokers}
    (hrule : ∀ h event, rule h event → ∀ queue, ¬ event.TouchesStream queue)
    (hc : Course rule past b h b') : Calm b b' := by
  refine ⟨hc.reaches.keeps, fun queue => ?_⟩
  induction hc with
  | start => rfl
  | next _ event allowed ih => rw [streamOf_on (hrule _ event allowed queue), ih]

theorem Declares.calm {past : List Moment} {b b' : Brokers} (h : Declares past b b') :
    Calm b b' := by
  obtain ⟨_, hcourse⟩ := h
  refine .of_course (fun h event hdeclaring => ?_) hcourse
  cases hdeclaring <;> exact fun _ => id

theorem Polling.calm_turn (p : Poller) (stop : StopSignal) (number : Nat) (state : Polling)
    (b : Brokers) : Calm b (state.turn p stop number b).2 := by
  obtain ⟨_, hcourse⟩ := Polling.course_turn p stop number state b []
  refine .of_course (fun h event hdoes => ?_) hcourse
  cases hdoes <;> exact fun _ => id

theorem Handling.calm_turn (c : Consumer) (handling : Handling) (b : Brokers) :
    Calm b (Handling.turn c handling b).2 := by
  obtain ⟨⟨_, hcourse⟩, _⟩ := Handling.course_turn c handling b []
  refine .of_course (fun h event hhandles => ?_) hcourse
  cases hhandles <;> exact fun _ => id

theorem Consuming.calm_work (c : Consumer) (number : Nat) (underway : List Underway) :
    ∀ (again : List Underway) (b : Brokers), Calm b (work c number again underway b).2 := by
  induction underway with
  | nil => intro again b; exact .refl b
  | cons u rest ih =>
      intro again b
      rw [work]
      split
      · have hturn := u.handling.calm_turn c b
        rcases hturned : Handling.turn c u.handling b with ⟨turned, b₁⟩
        rw [hturned] at hturn
        cases turned with
        | done outcome => exact hturn
        | asleep sleep handling => exact hturn.trans (ih _ b₁)
      · exact ih again b

/-- A consumer that keeps its stream may take a delivery from it. One that drops it
was told to. -/
theorem Consuming.take_cases (c : Consumer) (stop : StopSignal) (number : Nat)
    (streamOpen : Bool) (underway : List Underway) (b : Brokers) :
    (∃ underway' b', take c stop number streamOpen underway b = (streamOpen, underway', b') ∧
        Calm b b') ∨
      streamOpen = true ∧ stop.isGiven ∧ take c stop number streamOpen underway b =
        (false, underway, { b with rabbit := b.rabbit.dropStream c.endpoint.queue }) := by
  unfold take
  split
  · next hopen =>
      obtain ⟨rfl, _⟩ := hopen
      split
      · next htold => exact .inr ⟨rfl, htold, rfl⟩
      · refine .inl ?_
        have hkeeps := Rabbit.Broker.Reaches.of_after b.rabbit (.next c.endpoint.queue) |>.keeps
        have hnext := b.rabbit.streamOf_next c.endpoint.queue
        simp only [Rabbit.Broker.after] at hkeeps
        rcases hdelivery : b.rabbit.next c.endpoint.queue with ⟨delivery, rabbit⟩
        rw [hdelivery] at hnext hkeeps
        simp only [Brokers.onRabbit, hdelivery]
        cases delivery with
        | none => exact ⟨_, _, rfl, hkeeps, hnext⟩
        | some d => exact ⟨_, _, rfl, hkeeps, hnext⟩
  · exact .inl ⟨_, _, rfl, .refl b⟩

/-! ## The turns of a consumer of the queue -/

namespace Consuming

/-- What a turn of a consumer can come to, together with the stream of its queue. -/
inductive Advances (queue : String) (stop : StopSignal) :
    Consuming → Stream → Consuming → Stream → Prop where
  | takes : Advances queue stop .starting .idle (.running true []) .taken
  | refused {s : Stream} (held : s ≠ .idle) :
    Advances queue stop .starting s (.finished (.error (Refusal.streamTaken queue).failure)) s
  | stays {s : Stream} (streamOpen : Bool) (underway underway' : List Underway) :
    Advances queue stop (.running streamOpen underway) s (.running streamOpen underway') s
  /-- The stream is dropped, and what is underway is still worked on. -/
  | leaves {s : Stream} (told : stop.isGiven) (underway underway' : List Underway) :
    Advances queue stop (.running true underway) s (.running false underway') .dropped
  | closes {s : Stream} (told : stop.isGiven) (underway : List Underway) :
    Advances queue stop (.running true underway) s (.finished (.ok ())) .dropped
  | ends {s : Stream} (underway : List Underway) :
    Advances queue stop (.running false underway) s (.finished (.ok ())) s
  | rests {s : Stream} (result : Except Failure Unit) :
    Advances queue stop (.finished result) s (.finished result) s

/-- A turn of a consumer: the stream of its queue goes along with it, as long as the
queue is declared, and all other streams stay as they are. -/
structure Moves (c : Consumer) (stop : StopSignal) (state : Consuming) (b : Brokers)
    (state' : Consuming) (b' : Brokers) : Prop where
  keeps : b.rabbit.Keeps b'.rabbit
  others : ∀ queue, c.endpoint.queue ≠ queue → b'.rabbit.streamOf queue = b.rabbit.streamOf queue
  advances : (b.rabbit.queue? c.endpoint.queue).isSome →
    Advances c.endpoint.queue stop state (b.rabbit.streamOf c.endpoint.queue) state'
      (b'.rabbit.streamOf c.endpoint.queue)

/-- What a consumer does to the stream of its queue is not noticed by others. -/
theorem Moves.of_operation {c : Consumer} {stop : StopSignal} {state state' : Consuming}
    {b b' : Brokers} (op : Rabbit.Operation) (hafter : b'.rabbit = b.rabbit.after op)
    (hown : ∀ queue, op.TouchesStream queue → c.endpoint.queue = queue)
    (hadvances : (b.rabbit.queue? c.endpoint.queue).isSome →
      Advances c.endpoint.queue stop state (b.rabbit.streamOf c.endpoint.queue) state'
        (b'.rabbit.streamOf c.endpoint.queue)) : Moves c stop state b state' b' where
  keeps := hafter ▸ (Rabbit.Broker.Reaches.of_after b.rabbit op).keeps
  others := fun queue hne => by
    rw [hafter]
    exact Rabbit.Broker.streamOf_after (fun htouches => hne (hown queue htouches)) b.rabbit
  advances := hadvances

theorem Moves.of_calm {c : Consumer} {stop : StopSignal} {state state' : Consuming}
    {b b' : Brokers} (hcalm : Calm b b')
    (hadvances : ∀ s, Advances c.endpoint.queue stop state s state' s) :
    Moves c stop state b state' b' where
  keeps := hcalm.keeps
  others := fun queue _ => hcalm.streams queue
  advances := fun _ => by
    rw [hcalm.streams]
    exact hadvances _

/-- Work on deliveries after the stream was dealt with does not count. -/
theorem Moves.calm {c : Consumer} {stop : StopSignal} {state state' : Consuming}
    {b b' b'' : Brokers} (h : Moves c stop state b state' b') (hcalm : Calm b' b'') :
    Moves c stop state b state' b'' where
  keeps := h.keeps.trans hcalm.keeps
  others := fun queue hne => (hcalm.streams queue).trans (h.others queue hne)
  advances := fun hdeclared => by
    rw [hcalm.streams]
    exact h.advances hdeclared

theorem moves_turn (c : Consumer) (stop : StopSignal) (number : Nat) (state : Consuming)
    (b : Brokers) :
    Moves c stop state b (state.turn c stop number b).1 (state.turn c stop number b).2 := by
  cases state with
  | starting =>
      have hcases := b.rabbit.consume_cases c.endpoint.queue
      rw [turn, Brokers.onRabbit]
      rcases hconsumed : b.rabbit.consume c.endpoint.queue with ⟨result, rabbit⟩
      rw [hconsumed] at hcases
      have hafter : rabbit = b.rabbit.after (.consume c.endpoint.queue) :=
        (congrArg Prod.snd hconsumed).symm
      cases result with
      | error failure =>
          refine .of_operation (.consume c.endpoint.queue) hafter (fun _ h => h) ?_
          intro hdeclared
          rcases hcases hdeclared with ⟨_, hok, _⟩ | ⟨hheld, heq⟩
          · cases hok
          · cases heq
            exact .refused hheld
      | ok =>
          refine .of_operation (.consume c.endpoint.queue) hafter (fun _ h => h) ?_
          intro hdeclared
          rcases hcases hdeclared with ⟨hidle, _, htaken⟩ | ⟨_, heq⟩
          · show Advances _ _ _ _ _ (rabbit.streamOf c.endpoint.queue)
            rw [hidle, htaken]
            exact .takes
          · cases heq
  | running streamOpen underway =>
      rw [turn]
      rcases take_cases c stop number streamOpen underway b with
        ⟨underway', b₁, htake, hcalm⟩ | ⟨rfl, htold, htake⟩
      · rw [htake]
        have hwork := hcalm.trans (calm_work c number underway' [] b₁)
        simp only []
        rcases hworked : work c number [] underway' b₁ with ⟨underway'', b₂⟩
        rw [hworked] at hwork
        cases streamOpen with
        | true => exact .of_calm hwork fun _ => .stays true underway underway''
        | false =>
            cases underway'' with
            | nil => exact .of_calm hwork fun _ => .ends underway
            | cons u rest => exact .of_calm hwork fun _ => .stays false underway (u :: rest)
      · rw [htake]
        -- the stream goes first, and the deliveries underway are worked on without it
        have hdrops : ∀ state', (∀ s, Advances c.endpoint.queue stop (.running true underway) s
            state' .dropped) → Moves c stop (.running true underway) b state'
              { b with rabbit := b.rabbit.dropStream c.endpoint.queue } := by
          intro state' hadvances
          refine .of_operation (.dropStream c.endpoint.queue) rfl (fun _ h => h) ?_
          intro hdeclared
          show Advances _ _ _ _ _ ((b.rabbit.dropStream c.endpoint.queue).streamOf _)
          rw [Rabbit.Broker.streamOf_dropStream hdeclared]
          exact hadvances _
        have hwork := calm_work c number underway []
          { b with rabbit := b.rabbit.dropStream c.endpoint.queue }
        simp only []
        rcases hworked : work c number [] underway
          { b with rabbit := b.rabbit.dropStream c.endpoint.queue } with ⟨underway', b₂⟩
        rw [hworked] at hwork
        cases underway' with
        | nil => exact (hdrops _ fun _ => .closes htold underway).calm hwork
        | cons u rest => exact (hdrops _ fun _ => .leaves htold underway (u :: rest)).calm hwork
  | finished result => exact .of_calm (.refl b) fun _ => .rests result

end Consuming

/-! ## Who has the stream -/

/-- A consumer of a queue: how far it is, and what it has been told. -/
structure Reader where
  state : Consuming
  stop : StopSignal

/-- The reader has got nothing from the stream. -/
inductive Reader.Without (queue : String) : Reader → Prop where
  | unpolled (stop : StopSignal) : Without queue ⟨.starting, stop⟩
  | refused (stop : StopSignal) :
    Without queue ⟨.finished (.error (Refusal.streamTaken queue).failure), stop⟩

/-- The stream of a queue is in its place among the readers of the queue. -/
inductive Attended (queue : String) (readers : Nat → Option Reader) : Stream → Prop where
  | free (unpolled : ∀ i x, readers i = some x → x.state = .starting) :
    Attended queue readers .idle
  | consumed {i : Nat} {underway : List Underway} {stop : StopSignal}
      (holder : readers i = some ⟨.running true underway, stop⟩)
      (others : ∀ j x, j ≠ i → readers j = some x → x.Without queue) :
    Attended queue readers .taken
  | dropped {i : Nat} {state : Consuming} (holder : readers i = some ⟨state, .requested⟩)
      (leaving : (∃ underway, state = .running false underway) ∨ state = .finished (.ok ()))
      (others : ∀ j x, j ≠ i → readers j = some x → x.Without queue) :
    Attended queue readers .dropped

namespace Attended

variable {queue : String} {readers readers' : Nat → Option Reader} {s s' : Stream}

/-- A reader that has got nothing gets nothing from a stream that is gone. -/
theorem without_of_advances {x : Reader} {state : Consuming} (hx : x.Without queue)
    (hs : s ≠ .idle) (h : Consuming.Advances queue x.stop x.state s state s') :
    s' = s ∧ Reader.Without queue ⟨state, x.stop⟩ := by
  cases hx with
  | unpolled stop =>
      cases h with
      | takes => exact absurd rfl hs
      | refused => exact ⟨rfl, .refused stop⟩
  | refused stop =>
      cases h with
      | rests => exact ⟨rfl, .refused stop⟩

/-- The others stay without the stream when one of them has a turn. -/
theorem others_update {i k : Nat} {x : Reader}
    (others : ∀ j x, j ≠ k → readers j = some x → x.Without queue)
    (hx : i ≠ k → x.Without queue) :
    ∀ j y, j ≠ k → Function.update readers i (some x) j = some y → y.Without queue := by
  intro j y hj hy
  by_cases hji : j = i
  · subst hji
    rw [Function.update_self] at hy
    cases hy
    exact hx hj
  · rw [Function.update_of_ne hji] at hy
    exact others j y hj hy

/-- A turn of a reader. -/
theorem advance {i : Nat} {x : Reader} {state : Consuming} (h : Attended queue readers s)
    (hx : readers i = some x) (hloyal : x.stop ≠ .abandoned)
    (hadvances : Consuming.Advances queue x.stop x.state s state s') :
    Attended queue (Function.update readers i (some ⟨state, x.stop⟩)) s' := by
  have htold : x.stop.isGiven → x.stop = .requested := by
    cases hstop : x.stop <;> simp_all [StopSignal.isGiven]
  cases h with
  | free unpolled =>
      have hstarting := unpolled i x hx
      rw [hstarting] at hadvances
      cases hadvances with
      | refused held => exact absurd rfl held
      | takes =>
          refine .consumed (i := i) (Function.update_self ..) ?_
          intro j y hj hy
          rw [Function.update_of_ne hj] at hy
          obtain ⟨state, stop⟩ := y
          obtain rfl : state = .starting := unpolled j _ hy
          exact .unpolled stop
  | @consumed k underway stop holder others =>
      by_cases hik : i = k
      · subst hik
        cases hx.symm.trans holder
        have hothers := others_update (i := i) (x := ⟨state, stop⟩) others fun h => absurd rfl h
        cases hadvances with
        | stays => exact .consumed (Function.update_self ..) hothers
        | leaves told _ underway' =>
            cases htold told
            exact .dropped (Function.update_self ..) (.inl ⟨underway', rfl⟩) hothers
        | closes told =>
            cases htold told
            exact .dropped (Function.update_self ..) (.inr rfl) hothers
      · obtain ⟨rfl, hwithout⟩ :=
          without_of_advances (others i x hik hx) (by decide) hadvances
        have hkept := holder
        rw [← Function.update_of_ne (Ne.symm hik) (some ⟨state, x.stop⟩) readers] at hkept
        exact .consumed hkept (others_update others fun _ => hwithout)
  | @dropped k state₀ holder leaving others =>
      by_cases hik : i = k
      · subst hik
        cases hx.symm.trans holder
        have hothers := others_update (i := i) (x := ⟨state, .requested⟩) others
          fun h => absurd rfl h
        rcases leaving with ⟨underway, rfl⟩ | rfl
        · cases hadvances with
          | stays _ _ underway' =>
              exact .dropped (Function.update_self ..) (.inl ⟨underway', rfl⟩) hothers
          | ends => exact .dropped (Function.update_self ..) (.inr rfl) hothers
        · cases hadvances with
          | rests => exact .dropped (Function.update_self ..) (.inr rfl) hothers
      · obtain ⟨rfl, hwithout⟩ :=
          without_of_advances (others i x hik hx) (by decide) hadvances
        have hkept := holder
        rw [← Function.update_of_ne (Ne.symm hik) (some ⟨state, x.stop⟩) readers] at hkept
        exact .dropped hkept leaving (others_update others fun _ => hwithout)

/-- Readers may be told to stop, and there may be new ones. -/
theorem of_readers (h : Attended queue readers s)
    (hold : ∀ i x, readers i = some x → ∃ stop, readers' i = some ⟨x.state, stop⟩ ∧
      (x.stop = .requested → stop = .requested))
    (hnew : ∀ i x, readers i = none → readers' i = some x → x.state = .starting) :
    Attended queue readers' s := by
  have hstate : ∀ i x', readers' i = some x' →
      x'.state = .starting ∨ ∃ x, readers i = some x ∧ x'.state = x.state := by
    intro i x' hx'
    cases hx : readers i with
    | none => exact .inl (hnew i x' hx hx')
    | some x =>
        obtain ⟨stop, hstop, _⟩ := hold i x hx
        cases hx'.symm.trans hstop
        exact .inr ⟨x, rfl, rfl⟩
  have hothers : ∀ k, (∀ j x, j ≠ k → readers j = some x → x.Without queue) →
      ∀ j x, j ≠ k → readers' j = some x → x.Without queue := by
    rintro k others j ⟨state, stop⟩ hj hx'
    rcases hstate j _ hx' with hstarting | ⟨x, hx, hsame⟩
    · cases hstarting
      exact .unpolled stop
    · cases hsame
      cases others j x hj hx with
      | unpolled => exact .unpolled stop
      | refused => exact .refused stop
  cases h with
  | free unpolled =>
      refine .free fun i x' hx' => ?_
      rcases hstate i x' hx' with hstarting | ⟨x, hx, hsame⟩
      · exact hstarting
      · exact hsame.trans (unpolled i x hx)
  | @consumed k underway stop holder others =>
      obtain ⟨stop', holder', _⟩ := hold k _ holder
      exact .consumed holder' (hothers k others)
  | @dropped k state holder leaving others =>
      obtain ⟨stop', holder', hkept⟩ := hold k _ holder
      obtain rfl := hkept rfl
      exact .dropped holder' leaving (hothers k others)

end Attended

end MessageBridge
