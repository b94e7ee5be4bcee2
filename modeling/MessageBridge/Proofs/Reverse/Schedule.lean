import MessageBridge.Proofs.Process.Quiet
import MessageBridge.Proofs.Reverse.Prefix
import Mathlib.Data.List.Chain

/-!
# Runs with a fixed delay between them

A poller is at one of three places: a run of it waits for messages, it pauses after a run,
or it is over. What may happen to it meanwhile is anything at all: others work on the
brokers, the clock goes on, somebody signals, and the poller has its turns. When its pause
is over and a signal has come, both at once, it may look at the clock first or at the
signal; whoever looks at the clock goes back to where the poller began, and there the
signal is looked at once more.

The beginnings and ends of runs are entered in a list. `Sound` says where a poller is by
the last entry of its list, and every happening keeps it. What the schedule promises is
read off from there: beginnings and ends alternate, a beginning keeps its distance from
the end before it, only a signal ends the loop, and after a request to stop nothing begins.

A signal is looked at between two runs, never in a run. So a run that has begun goes on to
its end as if there had been no signal.
-/

namespace MessageBridge

namespace Schedule

/-- What is entered about the runs of a poller. -/
inductive Entry where
  | began (t : Instant)
  | ended (t : Instant) (result : Except Failure Nat)

/-- What may come next in the list: after a beginning the end of this run, and after an end
the beginning of the next run, when the delay has passed. -/
def Entry.Follows (delay : Duration) : Entry → Entry → Prop
  | .began t, .ended t' _ => t ≤ t'
  | .ended t _, .began t' => t * 1000000 + delay.nanos ≤ t' * 1000000
  | _, _ => False

def Entry.isBeginning : Entry → Bool
  | .began _ => true
  | .ended _ _ => false

/-- Beginnings and ends in turns, from a beginning on, and with the delay in between. -/
def Spaced (delay : Duration) (entries : List Entry) : Prop :=
  (∀ entry ∈ entries.head?, entry.isBeginning = true) ∧ entries.IsChain (Entry.Follows delay)

end Schedule

namespace Polling

open Schedule (Entry)

/-- The end of a run, when it is over in this turn. -/
def ended (p : Poller) (deadline : Instant) (b : Brokers) : List Entry :=
  match p.dispatcher.turn deadline b with
  | (.done result, b) => [.ended b.now result]
  | (.asleep _ _, _) => []

/-- The run that begins in a turn, and the one that ends in it. -/
def entries (p : Poller) (stop : StopSignal) : Polling → Brokers → List Entry
  | armed, b =>
    if stop = .requested then []
    else .began b.now :: ended p (p.dispatcher.receiver.deadline b) b
  | running deadline _ _, b => ended p deadline b
  | pausing _ _, b =>
    if stop.isGiven then []
    else .began b.now :: ended p (p.dispatcher.receiver.deadline b) b
  | finished, _ => []

end Polling

/-- A poller among others, with the list of its runs. -/
structure Schedule where
  state : Polling := .armed
  stop : StopSignal := .none
  brokers : Brokers
  entries : List Schedule.Entry := []

namespace Schedule

/-- What may happen to a poller. -/
inductive Happening where
  /-- Others do something to the brokers, and the clock may go on. -/
  | other (f : Brokers → Brokers)
  | signal (stop : StopSignal)
  /-- The poller has a turn. It may look at its timer before it looks for a signal. -/
  | turn (number : Nat) (timerFirst : Bool)

def Happening.isSignal : Happening → Bool
  | .signal _ => true
  | _ => false

/-- The poller pauses, and there is nothing for it to do. -/
def rests (s : Schedule) : Bool :=
  match s.state with
  | .pausing sleep _ => !sleep.isOver s.brokers && !s.stop.isGiven
  | _ => false

/-- Where the poller goes on, and the signal that it sees there. With its timer before its
eyes it does not see a signal until it is back at the beginning. -/
def view (p : Poller) (timerFirst : Bool) (s : Schedule) : Polling × StopSignal :=
  match s.state with
  | .pausing sleep _ =>
    if timerFirst && sleep.isOver s.brokers then (.armed, s.stop) else (s.state, s.stop)
  | .running _ _ _ =>
    if timerFirst && p.fixedDelay.millisUp = 0 then (s.state, .none) else (s.state, s.stop)
  | _ => (s.state, s.stop)

def go (p : Poller) (s : Schedule) (number : Nat) (state : Polling) (stop : StopSignal) :
    Schedule :=
  { s with
    state := (state.turn p stop number s.brokers).1
    brokers := (state.turn p stop number s.brokers).2
    entries := s.entries ++ state.entries p stop s.brokers }

def after (p : Poller) (s : Schedule) : Happening → Schedule
  | .other f =>
    { s with brokers := { f s.brokers with now := max s.brokers.now (f s.brokers).now } }
  | .signal stop => { s with stop := if s.stop = .requested then s.stop else stop }
  | .turn number timerFirst =>
    if s.rests then s
    else s.go p number (s.view p timerFirst).1 (s.view p timerFirst).2

def run (p : Poller) (s : Schedule) (happenings : List Happening) : Schedule :=
  happenings.foldl (after p) s

/-- Where a poller is, by what is entered last. -/
inductive Sound (p : Poller) (s : Schedule) : Prop where
  | armed (state : s.state = .armed) (entries : s.entries = [])
  | running {earlier : List Entry} {began deadline since : Nat} {sleep : Sleep}
    (state : s.state = .running deadline sleep since)
    (entries : s.entries = earlier ++ [.began began]) (past : began ≤ s.brokers.now)
    (ends : deadline = began + p.dispatcher.receiver.waitTime.millisUp)
    (wake : sleep.wake ≤ deadline)
  | pausing {earlier : List Entry} {ended since : Nat} {result : Except Failure Nat}
    {sleep : Sleep} (state : s.state = .pausing sleep since)
    (entries : s.entries = earlier ++ [.ended ended result])
    (sleeps : sleep = ⟨ended + p.fixedDelay.millisUp, none⟩)
  | finished (state : s.state = .finished)
    (idle : ∀ entry ∈ s.entries.getLast?, entry.isBeginning = false)

end Schedule

/-! ## The clock -/

theorem Polling.now_le_goOn (p : Poller) (stop : StopSignal) (number : Nat) (deadline : Instant)
    (b : Brokers) : b.now ≤ (Polling.goOn p stop number deadline b).2.now :=
  Nat.le_of_eq (Polling.quiet_turn p stop number (.running deadline default 0) b).now.symm

theorem Duration.nanos_le (d : Duration) : d.nanos ≤ d.millisUp * 1000000 := by
  unfold Duration.millisUp
  omega

/-- When a pause is over, the delay has passed. -/
theorem Schedule.Entry.follows_of_over {delay : Duration} {ended now : Nat}
    {result : Except Failure Nat} (h : ended + delay.millisUp ≤ now) :
    Entry.Follows delay (.ended ended result) (.began now) := by
  have hnanos := delay.nanos_le
  show ended * 1000000 + delay.nanos ≤ now * 1000000
  omega

/-! ## One turn -/

theorem Dispatcher.turn_asleep {d : Dispatcher} {deadline next : Instant} {b b' : Brokers}
    {sleep : Sleep} (h : d.turn deadline b = (.asleep sleep next, b')) :
    next = deadline ∧ sleep.wake ≤ deadline ∧ b.now < deadline := by
  have hreceive : d.receiver.turn deadline b = (.asleep sleep next, b') := by
    unfold turn at h
    rcases hreceive : d.receiver.turn deadline b with ⟨received, b₁⟩
    rw [hreceive] at h
    cases received with
    | done => cases h
    | asleep =>
        cases h
        rfl
  rcases hlook : b.amazon.look b.now d.receiver.url d.receiver.maxMessages with ⟨found, s'⟩
  match found with
  | .error failure =>
      rw [Receiver.turn_of_error (by rw [hlook])] at hreceive
      cases hreceive
  | .ok [] =>
      rw [Receiver.turn_of_nothing (by rw [hlook])] at hreceive
      by_cases hnow : b.now < deadline
      · rw [if_pos hnow] at hreceive
        cases hreceive
        exact ⟨rfl, Nat.min_le_left _ _, hnow⟩
      · rw [if_neg hnow] at hreceive
        cases hreceive
  | .ok (x :: rest) =>
      rw [Receiver.turn_of_batch hlook] at hreceive
      cases hreceive

namespace Polling

variable {p : Poller}

/-- Going on with a run, it waits on, or it is over. -/
theorem goOn_cases (p : Poller) (stop : StopSignal) (number : Nat) (deadline : Instant)
    (b : Brokers) :
    (∃ sleep b', goOn p stop number deadline b = (running deadline sleep number, b') ∧
        ended p deadline b = [] ∧ sleep.wake ≤ deadline ∧ b.now < deadline) ∨
      ∃ result b', ended p deadline b = [.ended b'.now result] ∧
        goOn p stop number deadline b =
          (if stop.isGiven then finished
            else pausing ⟨b'.now + p.fixedDelay.millisUp, none⟩ number, b') := by
  unfold goOn ended
  rcases hturn : p.dispatcher.turn deadline b with ⟨turned, b'⟩
  cases turned with
  | asleep sleep next =>
      obtain ⟨rfl, hwake, hnow⟩ := Dispatcher.turn_asleep hturn
      exact .inl ⟨sleep, b', rfl, rfl, hwake, hnow⟩
  | done result =>
      refine .inr ⟨result, b', rfl, ?_⟩
      cases hstop : stop.isGiven <;> simp [Sleep.lasting]

/-- What was signalled matters only for what follows a run. -/
theorem goOn_stop (p : Poller) (stop stop' : StopSignal) (number : Nat) (deadline : Instant)
    (b : Brokers) :
    (goOn p stop' number deadline b).2 = (goOn p stop number deadline b).2 ∧
      (ended p deadline b = [] →
        goOn p stop' number deadline b = goOn p stop number deadline b) := by
  unfold goOn ended
  rcases p.dispatcher.turn deadline b with ⟨turned, b'⟩
  cases turned with
  | asleep => exact ⟨rfl, fun _ => rfl⟩
  | done result =>
      refine ⟨?_, nofun⟩
      simp only []
      split <;> split <;> rfl

end Polling

namespace Schedule

variable {p : Poller} {s : Schedule} {entries new : List Entry} {delay : Duration}

theorem Spaced.append (h : Spaced delay entries) (hnew : new.IsChain (Entry.Follows delay))
    (hlast : ∀ x ∈ entries.getLast?, ∀ y ∈ new.head?, Entry.Follows delay x y)
    (hfirst : entries = [] → ∀ y ∈ new.head?, y.isBeginning = true) :
    Spaced delay (entries ++ new) := by
  refine ⟨fun y hy => ?_, List.isChain_append.mpr ⟨h.2, hnew, hlast⟩⟩
  cases entries with
  | nil => exact hfirst rfl y hy
  | cons x rest => exact h.1 y (by simpa using hy)

/-- A run that has begun goes on, from a poller whose list ends with its beginning. -/
theorem sound_goOn {earlier : List Entry} {began deadline : Nat} (number : Nat)
    (stop : StopSignal) (hentries : s.entries = earlier ++ [.began began])
    (hpast : began ≤ s.brokers.now)
    (hends : deadline = began + p.dispatcher.receiver.waitTime.millisUp)
    (hspaced : Spaced p.fixedDelay s.entries) :
    let next : Schedule := { s with
      state := (Polling.goOn p stop number deadline s.brokers).1
      brokers := (Polling.goOn p stop number deadline s.brokers).2
      entries := s.entries ++ Polling.ended p deadline s.brokers }
    next.Sound p ∧ Spaced p.fixedDelay next.entries := by
  have hnow := Polling.now_le_goOn p stop number deadline s.brokers
  rcases Polling.goOn_cases p stop number deadline s.brokers with
    ⟨sleep, b', hgoOn, hended, hwake, _⟩ | ⟨result, b', hended, hgoOn⟩
  · rw [hgoOn] at hnow ⊢
    rw [hended, List.append_nil]
    exact ⟨.running rfl hentries (Nat.le_trans hpast hnow) hends hwake, hspaced⟩
  · rw [hgoOn] at hnow ⊢
    rw [hended]
    refine ⟨?_, hspaced.append (.singleton _) ?_ ?_⟩
    · cases hstop : stop.isGiven with
      | true => exact .finished rfl (by simp [Entry.isBeginning])
      | false => exact .pausing rfl rfl rfl
    · intro x hx y hy
      rw [hentries] at hx
      obtain rfl : x = .began began := by simpa using hx.symm
      obtain rfl : y = .ended b'.now result := by simpa using hy.symm
      exact Nat.le_trans hpast hnow
    · intro hnone
      rw [hentries] at hnone
      simp at hnone

/-- A run begins, from a poller whose list can do with a beginning. -/
theorem sound_begin (number : Nat) (stop : StopSignal)
    (hlast : ∀ x ∈ s.entries.getLast?, Entry.Follows p.fixedDelay x (.began s.brokers.now))
    (hspaced : Spaced p.fixedDelay s.entries) :
    let next : Schedule := { s with
      state := (Polling.begin p stop number s.brokers).1
      brokers := (Polling.begin p stop number s.brokers).2
      entries := s.entries ++ .began s.brokers.now ::
        Polling.ended p (p.dispatcher.receiver.deadline s.brokers) s.brokers }
    next.Sound p ∧ Spaced p.fixedDelay next.entries := by
  have hbegun : Spaced p.fixedDelay (s.entries ++ [.began s.brokers.now]) := by
    refine hspaced.append (.singleton _) (fun x hx y hy => ?_) (fun _ y hy => ?_)
    · obtain rfl : y = .began s.brokers.now := by simpa using hy.symm
      exact hlast x hx
    · obtain rfl : y = .began s.brokers.now := by simpa using hy.symm
      rfl
  have hgoes := sound_goOn (s := { s with entries := s.entries ++ [.began s.brokers.now] }) number
    stop rfl (Nat.le_refl _) rfl hbegun
  rw [List.append_assoc, List.singleton_append] at hgoes
  exact hgoes

theorem sound_go_armed (number : Nat) (stop : StopSignal)
    (hidle : ∀ x ∈ s.entries.getLast?, x.isBeginning = false)
    (hlast : ∀ x ∈ s.entries.getLast?, Entry.Follows p.fixedDelay x (.began s.brokers.now))
    (hspaced : Spaced p.fixedDelay s.entries) :
    (s.go p number .armed stop).Sound p ∧
      Spaced p.fixedDelay (s.go p number .armed stop).entries := by
  by_cases hstop : stop = .requested
  · simp only [go, Polling.turn, Polling.entries, hstop, if_true, List.append_nil]
    exact ⟨.finished rfl hidle, hspaced⟩
  · simp only [go, Polling.turn, Polling.entries, hstop, if_false]
    exact sound_begin number stop hlast hspaced

theorem sound_go_pausing {ended since : Nat} {result : Except Failure Nat} {sleep : Sleep}
    {earlier : List Entry} (number : Nat) (stop : StopSignal)
    (hentries : s.entries = earlier ++ [.ended ended result])
    (hover : stop.isGiven = true ∨ ended + p.fixedDelay.millisUp ≤ s.brokers.now)
    (hspaced : Spaced p.fixedDelay s.entries) :
    (s.go p number (.pausing sleep since) stop).Sound p ∧
      Spaced p.fixedDelay (s.go p number (.pausing sleep since) stop).entries := by
  cases hstop : stop.isGiven with
  | true =>
      simp only [go, Polling.turn, Polling.entries, hstop, if_true, List.append_nil]
      exact ⟨.finished rfl (by simp [hentries, Entry.isBeginning]), hspaced⟩
  | false =>
      simp only [go, Polling.turn, Polling.entries, hstop, Bool.false_eq_true, if_false]
      refine sound_begin number stop (fun x hx => ?_) hspaced
      obtain rfl : x = .ended ended result := by simpa [hentries] using hx.symm
      exact Entry.follows_of_over (hover.resolve_left (by simp [hstop]))

theorem Sound.after (h : s.Sound p) (hspaced : Spaced p.fixedDelay s.entries) (x : Happening) :
    (s.after p x).Sound p ∧ Spaced p.fixedDelay (s.after p x).entries := by
  cases x with
  | other f =>
      refine ⟨?_, hspaced⟩
      cases h with
      | armed state entries => exact .armed state entries
      | running state entries past ends wake =>
          exact .running state entries (Nat.le_trans past (Nat.le_max_left _ _)) ends wake
      | pausing state entries sleeps => exact .pausing state entries sleeps
      | finished state idle => exact .finished state idle
  | signal stop =>
      refine ⟨?_, hspaced⟩
      cases h with
      | armed state entries => exact .armed state entries
      | running state entries past ends wake => exact .running state entries past ends wake
      | pausing state entries sleeps => exact .pausing state entries sleeps
      | finished state idle => exact .finished state idle
  | turn number timerFirst =>
      rw [Schedule.after]
      by_cases hrests : s.rests = true
      · rw [if_pos hrests]
        exact ⟨h, hspaced⟩
      rw [if_neg hrests]
      cases h with
      | armed state entries =>
          rw [show s.view p timerFirst = (.armed, s.stop) by simp only [view, state]]
          exact sound_go_armed number s.stop (by simp [entries]) (by simp [entries]) hspaced
      | @running _ _ deadline since sleep state entries past ends wake =>
          obtain ⟨stop, hview⟩ : ∃ stop,
              s.view p timerFirst = (.running deadline sleep since, stop) := by
            simp only [view, state]
            split <;> exact ⟨_, rfl⟩
          rw [hview]
          exact sound_goOn number stop entries past ends hspaced
      | @pausing _ ended since result sleep state entries sleeps =>
          have hover : s.stop.isGiven = true ∨ ended + p.fixedDelay.millisUp ≤ s.brokers.now := by
            simpa [rests, state, sleeps, Sleep.isOver, or_comm, or_iff_not_imp_left] using hrests
          by_cases htimer : timerFirst && sleep.isOver s.brokers
          · -- The timer is looked at first, and the signal not before the poller is back.
            rw [show s.view p timerFirst = (.armed, s.stop) by simp [view, state, htimer]]
            refine sound_go_armed number s.stop (by simp [entries, Entry.isBeginning]) ?_ hspaced
            intro x hx
            obtain rfl : x = .ended ended result := by simpa [entries] using hx.symm
            refine Entry.follows_of_over ?_
            simpa [sleeps, Sleep.isOver] using (Bool.and_eq_true_iff.mp htimer).2
          · rw [show s.view p timerFirst = (.pausing sleep since, s.stop) by
              simp [view, state, htimer]]
            exact sound_go_pausing number s.stop entries hover hspaced
      | finished state idle =>
          rw [show s.view p timerFirst = (.finished, s.stop) by simp only [view, state]]
          simp only [go, Polling.turn, Polling.entries, List.append_nil]
          exact ⟨.finished rfl idle, hspaced⟩

/-! ## Any number of happenings -/

theorem run_append (p : Poller) (s : Schedule) (xs ys : List Happening) :
    s.run p (xs ++ ys) = (s.run p xs).run p ys :=
  List.foldl_append

theorem Sound.run (h : s.Sound p) (hspaced : Spaced p.fixedDelay s.entries)
    (happenings : List Happening) :
    (s.run p happenings).Sound p ∧ Spaced p.fixedDelay (s.run p happenings).entries := by
  induction happenings generalizing s with
  | nil => exact ⟨h, hspaced⟩
  | cons x rest ih =>
      obtain ⟨hsound, hspaced⟩ := h.after hspaced x
      exact ih hsound hspaced

theorem entries_prefix_after (p : Poller) (s : Schedule) (x : Happening) :
    s.entries <+: (s.after p x).entries := by
  cases x with
  | other | signal => exact List.prefix_refl _
  | turn number timerFirst =>
      rw [Schedule.after]
      split
      · exact List.prefix_refl _
      · exact List.prefix_append _ _

theorem entries_prefix_run (p : Poller) (happenings : List Happening) :
    ∀ s : Schedule, s.entries <+: (s.run p happenings).entries := by
  induction happenings with
  | nil => exact fun s => List.prefix_refl _
  | cons x rest ih => exact fun s => (entries_prefix_after p s x).trans (ih _)

/-! ## Signals -/

def Signalled (happenings : List Happening) : Prop :=
  ∃ stop, .signal stop ∈ happenings ∧ stop.isGiven = true

theorem isGiven_after {x : Happening} (h : (s.after p x).stop.isGiven = true) :
    s.stop.isGiven = true ∨ ∃ stop, x = .signal stop ∧ stop.isGiven = true := by
  cases x with
  | other => exact .inl h
  | signal stop =>
      simp only [Schedule.after] at h
      split at h
      · exact .inl h
      · exact .inr ⟨stop, rfl, h⟩
  | turn number timerFirst =>
      simp only [Schedule.after] at h
      split at h <;> exact .inl h

/-- A turn does not end the loop of a poller that nobody has told to stop. -/
theorem finished_after {x : Happening} (h : (s.after p x).state = .finished) :
    s.state = .finished ∨ s.stop.isGiven = true := by
  cases x with
  | other | signal => exact .inl h
  | turn number timerFirst =>
      rw [Schedule.after] at h
      by_cases hrests : s.rests = true
      · rw [if_pos hrests] at h
        exact .inl h
      rw [if_neg hrests] at h
      cases hgiven : s.stop.isGiven with
      | true => exact .inr rfl
      | false =>
          have hview : (s.view p timerFirst).2.isGiven = false := by
            unfold view
            repeat' split
            all_goals first | exact hgiven | rfl
          -- Whatever the poller sees, it goes on, and a run that is over pauses.
          generalize hstop : (s.view p timerFirst).2 = stop at h hview
          have hgoOn : ∀ deadline,
              (Polling.goOn p stop number deadline s.brokers).1 ≠ .finished := by
            intro deadline hfinished
            rcases Polling.goOn_cases p stop number deadline s.brokers with
              ⟨sleep, b', hgoOn, _⟩ | ⟨result, b', _, hgoOn⟩ <;>
              simp [hgoOn, hview] at hfinished
          have hrequested : stop ≠ .requested := by
            rintro rfl
            cases hview
          cases hstate : (s.view p timerFirst).1 with
          | armed =>
              rw [hstate] at h
              simp only [go, Polling.turn, hrequested, if_false] at h
              exact absurd h (hgoOn _)
          | running deadline sleep since =>
              rw [hstate] at h
              exact absurd h (hgoOn _)
          | pausing sleep since =>
              rw [hstate] at h
              simp only [go, Polling.turn, hview, Bool.false_eq_true, if_false] at h
              exact absurd h (hgoOn _)
          | finished =>
              left
              unfold view at hstate
              split at hstate
              · next hpausing => split at hstate <;> simp_all
              · next hrunning => split at hstate <;> simp_all
              · exact hstate

theorem signalled_of_finished {happenings : List Happening} :
    ∀ {s : Schedule}, (s.run p happenings).state = .finished ∨
      (s.run p happenings).stop.isGiven = true →
      s.state = .finished ∨ s.stop.isGiven = true ∨ Signalled happenings := by
  induction happenings with
  | nil =>
      intro s h
      exact h.imp_right .inl
  | cons x rest ih =>
      intro s h
      rcases ih (s := s.after p x) h with hfinished | hgiven | ⟨stop, hmem, hstop⟩
      · exact (finished_after hfinished).imp_right .inl
      · rcases isGiven_after hgiven with hgiven | ⟨stop, rfl, hstop⟩
        · exact .inr (.inl hgiven)
        · exact .inr (.inr ⟨stop, List.mem_cons_self, hstop⟩)
      · exact .inr (.inr ⟨stop, List.mem_cons_of_mem _ hmem, hstop⟩)

/-! ## After a request to stop -/

theorem beginnings_ended (p : Poller) (deadline : Instant) (b : Brokers) :
    (Polling.ended p deadline b).filter Entry.isBeginning = [] := by
  unfold Polling.ended
  split <;> rfl

/-- Once a poller is asked to stop, it stays so, and no run of it begins. -/
theorem nothing_begins_after (h : s.stop = .requested) (x : Happening) :
    (s.after p x).stop = .requested ∧
      (s.after p x).entries.filter Entry.isBeginning =
        s.entries.filter Entry.isBeginning := by
  cases x with
  | other => exact ⟨h, rfl⟩
  | signal stop => exact ⟨by simp only [Schedule.after, h, if_true], rfl⟩
  | turn number timerFirst =>
      rw [Schedule.after]
      by_cases hrests : s.rests = true
      · rw [if_pos hrests]
        exact ⟨h, rfl⟩
      rw [if_neg hrests]
      refine ⟨h, ?_⟩
      have hnone : ((s.view p timerFirst).1.entries p (s.view p timerFirst).2 s.brokers).filter
          Entry.isBeginning = [] := by
        unfold view
        cases hstate : s.state with
        | armed => simp [Polling.entries, h]
        | running deadline sleep since =>
            simp only []
            split <;> exact beginnings_ended p deadline s.brokers
        | pausing sleep since =>
            simp only []
            split <;> simp [Polling.entries, h, StopSignal.isGiven]
        | finished => rfl
      rw [go, List.filter_append, hnone, List.append_nil]

theorem nothing_begins {happenings : List Happening} : ∀ {s : Schedule}, s.stop = .requested →
    (s.run p happenings).entries.filter Entry.isBeginning =
      s.entries.filter Entry.isBeginning := by
  induction happenings with
  | nil => exact fun _ => rfl
  | cons x rest ih =>
      intro s h
      obtain ⟨hstop, hsame⟩ := nothing_begins_after (p := p) h x
      exact (ih hstop).trans hsame

/-! ## After an end -/

/-- When the delay is over the next run begins, whatever the last one has come to. -/
theorem Sound.begins {earlier : List Entry} {ended : Instant} {result : Except Failure Nat}
    (h : s.Sound p) (hentries : s.entries = earlier ++ [.ended ended result])
    (hgoes : s.state ≠ .finished) (hstop : s.stop.isGiven = false)
    (hnow : ended + p.fixedDelay.millisUp ≤ s.brokers.now) (number : Nat) (timerFirst : Bool) :
    ∃ more, (s.after p (.turn number timerFirst)).entries =
      s.entries ++ .began s.brokers.now :: more := by
  have hrequested : s.stop ≠ .requested := by
    intro hrequested
    rw [hrequested] at hstop
    cases hstop
  cases h with
  | armed _ entries => simp [entries] at hentries
  | running _ entries => simp [entries] at hentries
  | finished state => exact absurd state hgoes
  | @pausing _ ended' since result' sleep state entries sleeps =>
      obtain ⟨_, rfl, _⟩ : _ ∧ ended' = ended ∧ result' = result := by
        simpa [entries] using hentries
      have hover : sleep.isOver s.brokers = true := by simpa [sleeps, Sleep.isOver] using hnow
      have hrests : s.rests = false := by simp [rests, state, hover]
      refine ⟨Polling.ended p (p.dispatcher.receiver.deadline s.brokers) s.brokers, ?_⟩
      cases timerFirst <;>
        simp [Schedule.after, hrests, view, state, hover, go, Polling.entries, hstop, hrequested]

/-! ## A run that has begun -/

/-- A run that has begun waits for its end, and for nothing else. -/
theorem Sound.running_of_began {earlier : List Entry} {began : Instant} (h : s.Sound p)
    (hentries : s.entries = earlier ++ [.began began]) :
    ∃ sleep since, s.state =
        .running (began + p.dispatcher.receiver.waitTime.millisUp) sleep since ∧
      sleep.wake ≤ began + p.dispatcher.receiver.waitTime.millisUp := by
  cases h with
  | armed _ entries => simp [entries] at hentries
  | pausing _ entries => simp [entries] at hentries
  | finished _ idle => simp [hentries, Entry.isBeginning] at idle
  | @running _ began' _ since sleep state entries _ ends wake =>
      obtain ⟨_, rfl⟩ : _ ∧ began' = began := by simpa [entries] using hentries
      subst ends
      exact ⟨sleep, since, state, wake⟩

variable {deadline : Instant} {sleep : Sleep} {since : Nat}

/-- In a turn a run goes on, whatever is signalled. -/
theorem after_running (hstate : s.state = .running deadline sleep since) (number : Nat)
    (timerFirst : Bool) :
    ∃ stop, s.after p (.turn number timerFirst) = { s with
      state := (Polling.goOn p stop number deadline s.brokers).1
      brokers := (Polling.goOn p stop number deadline s.brokers).2
      entries := s.entries ++ Polling.ended p deadline s.brokers } := by
  have hrests : s.rests = false := by simp only [rests, hstate]
  refine ⟨(s.view p timerFirst).2, ?_⟩
  rw [Schedule.after, hrests]
  have hview : (s.view p timerFirst).1 = .running deadline sleep since := by
    simp only [view, hstate]
    split <;> rfl
  rw [hview]
  rfl

theorem ends_after (hstate : s.state = .running deadline sleep since)
    (hnow : deadline ≤ s.brokers.now) (number : Nat) (timerFirst : Bool) :
    ∃ t result, (s.after p (.turn number timerFirst)).entries =
      s.entries ++ [.ended t result] := by
  obtain ⟨stop, hafter⟩ := after_running (p := p) hstate number timerFirst
  rcases Polling.goOn_cases p stop number deadline s.brokers with
    ⟨_, _, _, _, _, hearly⟩ | ⟨result, b', hended, _⟩
  · exact absurd hearly (Nat.not_lt.mpr hnow)
  · rw [hafter, hended]
    exact ⟨_, _, rfl⟩

/-- Both are in the same run, and differ in what was signalled at most. -/
structure Alike (s s' : Schedule) : Prop where
  runs : ∃ deadline sleep since, s.state = .running deadline sleep since
  state : s'.state = s.state
  brokers : s'.brokers = s.brokers
  entries : s'.entries = s.entries

/-- What a turn does to a run does not depend on what was signalled. -/
theorem Alike.after_turn {s' : Schedule} (h : Alike s s') (number : Nat) (timerFirst : Bool) :
    let next := s.after p (.turn number timerFirst)
    let next' := s'.after p (.turn number timerFirst)
    next'.brokers = next.brokers ∧ next'.entries = next.entries ∧
      (next.entries = s.entries → Alike next next') := by
  obtain ⟨deadline, sleep, since, hstate⟩ := h.runs
  obtain ⟨stop, hafter⟩ := after_running (p := p) hstate number timerFirst
  obtain ⟨stop', hafter'⟩ := after_running (p := p) (h.state.trans hstate) number timerFirst
  obtain ⟨hbrokers, hsame⟩ := Polling.goOn_stop p stop stop' number deadline s.brokers
  simp only [hafter, hafter', h.brokers, h.entries]
  refine ⟨hbrokers, trivial, fun hnone => ?_⟩
  have hended : Polling.ended p deadline s.brokers = [] := List.append_right_eq_self.mp hnone
  rcases Polling.goOn_cases p stop number deadline s.brokers with
    ⟨sleep', b', hgoOn, _⟩ | ⟨result, b', hresult, _⟩
  · rw [hsame hended, hgoOn]
    exact ⟨⟨_, _, _, rfl⟩, rfl, rfl, rfl⟩
  · rw [hresult] at hended
    cases hended

/-- Whatever happens, a run goes on as if nobody had signalled. -/
theorem Alike.run {later : List Happening} : ∀ {s s' : Schedule}, Alike s s' →
    (s.run p later).entries = s.entries →
    Alike (s.run p later) (s'.run p (later.filter fun x => !x.isSignal)) := by
  induction later with
  | nil => exact fun h _ => h
  | cons x rest ih =>
      intro s s' h hsame
      -- Nothing is taken out of the list again, so nothing was entered at first either.
      have hfirst : (s.after p x).entries = s.entries := by
        have hprefix := entries_prefix_run p rest (s.after p x)
        have hlength := hprefix.length_le
        rw [show (s.after p x).run p rest = s.run p (x :: rest) from rfl, hsame] at hlength
        exact ((entries_prefix_after p s x).eq_of_length_le hlength).symm
      have hrest : ((s.after p x).run p rest).entries = (s.after p x).entries :=
        hsame.trans hfirst.symm
      cases x with
      | other f =>
          have hbrokers : (s'.after p (.other f)).brokers = (s.after p (.other f)).brokers := by
            simp only [Schedule.after, h.brokers]
          exact ih ⟨h.runs, h.state, hbrokers, h.entries⟩ hrest
      | signal stop =>
          have halike : Alike (s.after p (.signal stop)) s' :=
            ⟨h.runs, h.state, h.brokers, h.entries⟩
          exact ih halike hrest
      | turn number timerFirst => exact ih ((h.after_turn number timerFirst).2.2 hfirst) hrest

/-! ## What a schedule promises -/

/-- What a poller has done after some happenings, and what it does next. -/
structure Promises (p : Poller) (b : Brokers) (happenings : List Happening) : Prop where
  /-- Runs do not overlap, and each keeps its distance from the one before it. -/
  spaced : Spaced p.fixedDelay (run p { brokers := b } happenings).entries
  /-- Nothing but a signal ends the loop. -/
  loops : (run p { brokers := b } happenings).state = .finished → Signalled happenings
  /-- As long as nobody signals, the next run begins when the delay is over, whatever the
  last one has come to. -/
  begins : let s := run p { brokers := b } happenings
    ¬ Signalled happenings → ∀ earlier ended result, s.entries = earlier ++ [.ended ended result] →
      ended + p.fixedDelay.millisUp ≤ s.brokers.now → ∀ number timerFirst, ∃ more,
        (s.after p (.turn number timerFirst)).entries = s.entries ++ .began s.brokers.now :: more
  /-- After a request to stop nothing begins. -/
  stops : ∀ earlier later, happenings = earlier ++ .signal .requested :: later →
    (run p { brokers := b } happenings).entries.filter Entry.isBeginning =
      (run p { brokers := b } earlier).entries.filter Entry.isBeginning
  /-- A run that has begun is going on, wakes up until its receive is over, and then ends. -/
  ends : let s := run p { brokers := b } happenings
    ∀ earlier began, s.entries = earlier ++ [.began began] →
      let deadline := began + p.dispatcher.receiver.waitTime.millisUp
      (∃ alarm, s.state.alarms = [alarm] ∧ alarm ≤ deadline) ∧
        (deadline ≤ s.brokers.now → ∀ number timerFirst, ∃ t result,
          (s.after p (.turn number timerFirst)).entries = s.entries ++ [.ended t result])
  /-- In every turn that it has, up to the one in which it ends, it does what it would have
  done if nobody had signalled since it began. -/
  same : let s := run p { brokers := b } happenings
    ∀ earlier began, s.entries = earlier ++ [.began began] → ∀ later,
      (s.run p later).entries = s.entries → ∀ number timerFirst,
        let there := (s.run p later).after p (.turn number timerFirst)
        let without := (s.run p (later.filter fun x => !x.isSignal)).after p
          (.turn number timerFirst)
        there.brokers = without.brokers ∧ there.entries = without.entries

theorem promises (p : Poller) (b : Brokers) (happenings : List Happening) :
    Promises p b happenings := by
  have hstart : Sound p { brokers := b } := .armed rfl rfl
  obtain ⟨hsound, hspaced⟩ := hstart.run ⟨nofun, .nil⟩ happenings
  have hsignalled : (run p { brokers := b } happenings).state = .finished ∨
      (run p { brokers := b } happenings).stop.isGiven = true → Signalled happenings := by
    intro h
    rcases signalled_of_finished h with h | h | h
    · cases h
    · cases h
    · exact h
  refine ⟨hspaced, fun h => hsignalled (.inl h), ?_, ?_, ?_, ?_⟩
  · intro s hno earlier ended result hentries hnow number timerFirst
    exact hsound.begins hentries (fun h => hno (hsignalled (.inl h)))
      (Bool.eq_false_iff.mpr fun h => hno (hsignalled (.inr h))) hnow number timerFirst
  · intro earlier later hsplit
    rw [hsplit, run_append]
    refine nothing_begins (s := (run p { brokers := b } earlier).after p (.signal .requested)) ?_
    simp only [Schedule.after]
    split
    · assumption
    · rfl
  · intro s earlier began hentries
    obtain ⟨sleep, since, hstate, hwake⟩ := hsound.running_of_began hentries
    exact ⟨⟨sleep.wake, by rw [hstate]; rfl, hwake⟩, fun hnow => ends_after hstate hnow⟩
  · intro s earlier began hentries later hlater number timerFirst
    obtain ⟨sleep, since, hstate, _⟩ := hsound.running_of_began hentries
    have halike : Alike s s := ⟨⟨_, sleep, since, hstate⟩, rfl, rfl, rfl⟩
    obtain ⟨hbrokers, hsame, _⟩ := (halike.run hlater).after_turn (p := p) number timerFirst
    exact ⟨hbrokers.symm, hsame.symm⟩

end Schedule

end MessageBridge
