import MessageBridge.Proofs.Amazon.Batches
import MessageBridge.Proofs.Amazon.Visibility
import MessageBridge.Proofs.Process.Queueing

/-!
# A receive ends on time

A receive that finds nothing sleeps until its next look, which is 25 milliseconds later
or at the deadline, whichever comes first. `EndsAt` says at which of its looks it ends,
without the loop: at the first one that finds a visible message, and at the deadline at
the latest. Going from one look to the next does not change the moment at which the
receive ends (`endsAt_next_iff`), and this carries the induction over the looks.

While nobody else goes on, the clock jumps from look to look. Alarms of tasks cannot come
in between, since a task whose alarm has gone off can go on.
-/

namespace MessageBridge

open Amazon (Service Stored Message)

theorem Duration.millisUp_ofMillis (n : Nat) : (Duration.ofMillis n).millisUp = n := by
  simp only [millisUp, ofMillis]
  omega

namespace Sleep

variable {s : Sleep} {b : Brokers}

theorem isOver_of_le (hwake : s.wake ≤ b.now) : s.isOver b = true := by
  rw [isOver, decide_eq_true hwake, Bool.true_or]

theorem isOver_eq_false (hwake : b.now < s.wake) (hheard : s.heard = some b.amazon.arrivals) :
    s.isOver b = false := by
  rw [isOver, decide_eq_false (Nat.not_le.mpr hwake), hheard, Option.any_some,
    decide_eq_false fun hne => hne rfl, Bool.or_self]

end Sleep

/-! ## One look -/

namespace Receiver

variable {r : Receiver} {b : Brokers} {deadline : Nat}

theorem turn_of_error {failure : Failure}
    (h : (b.amazon.look b.now r.url r.maxMessages).1 = .error failure) :
    r.turn deadline b = (.done (.error failure), b) := by
  have hlook : b.amazon.look b.now r.url r.maxMessages = (.error failure, b.amazon) := by
    rcases b.amazon.look_cases b.now r.url r.maxMessages with
      ⟨_, hl⟩ | ⟨_, _, _, _, _, _, _, _, hl⟩
    · rw [hl] at h ⊢
      injection h with h
      rw [h]
    · rw [hl] at h
      cases h
  simp [Receiver.turn, Brokers.onAmazon, hlook]

theorem turn_of_nothing (h : (b.amazon.look b.now r.url r.maxMessages).1 = .ok []) :
    r.turn deadline b =
      (if b.now < deadline then
        .asleep ⟨min deadline (b.now + tick), some b.amazon.arrivals⟩ deadline
      else .done (.ok []), b) := by
  have hlook : b.amazon.look b.now r.url r.maxMessages = (.ok [], b.amazon) :=
    Prod.ext h (Service.look_of_nothing h)
  by_cases hwait : b.now < deadline <;>
    simp [Receiver.turn, Brokers.onAmazon, hlook, hwait]

theorem turn_of_batch {x : Message} {rest : List Message} {s' : Service}
    (h : b.amazon.look b.now r.url r.maxMessages = (.ok (x :: rest), s')) :
    r.turn deadline b = (.done (.ok (x :: rest)), { b with amazon := s' }) := by
  simp [Receiver.turn, Brokers.onAmazon, h]

/-! ## When a receive ends -/

/-- A receive looks every 25 milliseconds from its start on, and at its deadline. -/
def IsLook (start deadline t : Nat) : Prop :=
  t = deadline ∨ t < deadline ∧ ∃ k, t = start + k * tick

/-- The first look that finds a visible message, or else the one at the deadline. -/
structure EndsAt (ms : List Stored) (start deadline t : Nat) : Prop where
  look : IsLook start deadline t
  found : (∃ m ∈ ms, m.isVisible t = true) ∨ t = deadline
  first : ∀ t', IsLook start deadline t' → t' < t → ∀ m ∈ ms, m.isVisible t' = false

variable {ms : List Stored} {start t : Nat}

theorem IsLook.le (h : IsLook start deadline t) : t ≤ deadline := by
  obtain h | ⟨h, _⟩ := h <;> omega

theorem IsLook.ge (h : IsLook start deadline t) (hle : start ≤ deadline) : start ≤ t := by
  obtain h | ⟨_, k, h⟩ := h <;> omega

theorem isLook_start (hle : start ≤ deadline) : IsLook start deadline start := by
  obtain heq | hlt := Nat.eq_or_lt_of_le hle
  · exact .inl heq
  · exact .inr ⟨hlt, 0, by omega⟩

/-- The looks are the one at the start and those that there are from the second one on. -/
theorem isLook_iff (hlt : start < deadline) :
    IsLook start deadline t ↔ t = start ∨ IsLook (min deadline (start + tick)) deadline t := by
  simp only [IsLook, tick]
  constructor
  · intro h
    obtain rfl | ⟨ht, k, hk⟩ := h
    · exact .inr (.inl rfl)
    · cases k with
      | zero => exact .inl (by omega)
      | succ k => exact .inr (.inr ⟨ht, k, by omega⟩)
  · intro h
    obtain rfl | rfl | ⟨ht, k, hk⟩ := h
    · exact .inr ⟨hlt, 0, by omega⟩
    · exact .inl rfl
    · exact .inr ⟨ht, k + 1, by omega⟩

/-- A look that finds something is the last one, and so is the one at the deadline. -/
theorem endsAt_now_iff (hle : start ≤ deadline)
    (hfound : (∃ m ∈ ms, m.isVisible start = true) ∨ start = deadline) :
    EndsAt ms start deadline t ↔ t = start := by
  constructor
  · intro h
    by_contra hne
    have hlater : start < t := by
      have hge := h.look.ge hle
      omega
    obtain ⟨m, hm, hvisible⟩ | rfl := hfound
    · rw [h.first start (isLook_start hle) hlater m hm] at hvisible
      cases hvisible
    · exact absurd h.look.le (by omega)
  · intro h
    subst h
    refine ⟨isLook_start hle, hfound, fun t' hlook hlt => ?_⟩
    have hge := hlook.ge hle
    omega

/-- A receive whose first look finds nothing ends when it would end if it began with the
second one. -/
theorem endsAt_next_iff (hlt : start < deadline) (hnone : ∀ m ∈ ms, m.isVisible start = false) :
    EndsAt ms start deadline t ↔ EndsAt ms (min deadline (start + tick)) deadline t := by
  have hlooks : ∀ t, IsLook start deadline t ↔
      t = start ∨ IsLook (min deadline (start + tick)) deadline t := fun t => isLook_iff hlt
  constructor
  · intro h
    refine ⟨((hlooks t).mp h.look).resolve_left ?_, h.found,
      fun t' hlook => h.first t' ((hlooks t').mpr (.inr hlook))⟩
    intro heq
    subst heq
    obtain ⟨m, hm, hvisible⟩ | heq := h.found
    · rw [hnone m hm] at hvisible
      cases hvisible
    · omega
  · intro h
    refine ⟨(hlooks t).mpr (.inr h.look), h.found, fun t' hlook hlt' => ?_⟩
    obtain rfl | hlook := (hlooks t').mp hlook
    · exact hnone
    · exact h.first t' hlook hlt'

/-- A receive is done at a look, or the look finds nothing and it goes on. -/
theorem done_or_waits (ms : List Stored) (hle : start ≤ deadline) :
    ((∃ m ∈ ms, m.isVisible start = true) ∨ start = deadline) ∨
      start < deadline ∧ ∀ m ∈ ms, m.isVisible start = false := by
  by_cases hvisible : ∃ m ∈ ms, m.isVisible start = true
  · exact .inl (.inl hvisible)
  · obtain heq | hlt := Nat.eq_or_lt_of_le hle
    · exact .inl (.inr heq)
    · exact .inr ⟨hlt, by simpa using hvisible⟩

theorem exists_endsAt (ms : List Stored) (hle : start ≤ deadline) :
    ∃ t, EndsAt ms start deadline t := by
  induction hn : deadline - start using Nat.strong_induction_on generalizing start with
  | _ n ih =>
    obtain hdone | ⟨hlt, hnone⟩ := done_or_waits ms hle
    · exact ⟨start, (endsAt_now_iff hle hdone).mpr rfl⟩
    · have hnext : start < min deadline (start + tick) := by
        rw [tick]
        omega
      obtain ⟨t, ht⟩ := ih (deadline - min deadline (start + tick)) (by omega)
        (Nat.min_le_left ..) rfl
      exact ⟨t, (endsAt_next_iff hlt hnone).mpr ht⟩

end Receiver

/-! ## While nobody else goes on -/

theorem Task.isSome_urgency?_of_alarm {t : Task} {alarm : Instant} (h : alarm ∈ t.alarms)
    {b : Brokers} (hle : alarm ≤ b.now) : (t.urgency? b).isSome := by
  obtain ⟨work, stop⟩ := t
  cases work with
  | consuming c state =>
      cases state with
      | starting | finished => cases h
      | running streamOpen underway =>
          obtain ⟨u, hu, rfl⟩ := List.mem_map.mp h
          have hover : u.sleep.isOver b = true := by simp [Sleep.isOver, hle]
          have hfind : (underway.find? (·.sleep.isOver b)).isSome :=
            List.find?_isSome.mpr ⟨u, hu, hover⟩
          obtain ⟨first, hfirst⟩ := Option.isSome_iff_exists.mp hfind
          simp [urgency?, Consuming.urgency?, hfirst]
  | polling p state =>
      cases state with
      | armed | finished => cases h
      | running _ sleep since | pausing sleep since =>
          obtain rfl := List.mem_singleton.mp h
          simp [urgency?, Polling.urgency?, Sleep.isOver, hle]

/-- A task asks Amazon for nothing but whether an arrival has been announced. -/
theorem Task.urgency?_of_arrivals (t : Task) (b : Brokers) {s' : Service}
    (h : s'.arrivals = b.amazon.arrivals) :
    t.urgency? { b with amazon := s' } = t.urgency? b := by
  have hover : ∀ sleep : Sleep, sleep.isOver { b with amazon := s' } = sleep.isOver b := by
    intro sleep
    simp [Sleep.isOver, h]
  obtain ⟨work, stop⟩ := t
  cases work with
  | consuming c state => cases state <;> simp [urgency?, Consuming.urgency?, hover]
  | polling p state => cases state <;> simp [urgency?, Polling.urgency?, hover]

namespace World

/-- The world at another moment. -/
def atMoment (w : World) (t : Instant) : World :=
  { w with brokers := { w.brokers with now := t } }

/-- What a look at a queue makes of the world, at another moment. -/
def looked (w : World) (t : Instant) (url : String) (max : Nat) : World :=
  { w with brokers := { w.brokers with now := t, amazon := (w.brokers.amazon.look t url max).2 } }

/-- No task can go on before the moment is over, unless something is done to the brokers. -/
structure Undisturbed (w : World) (t : Instant) : Prop where
  ready : w.ready = []
  asleep : ∀ task ∈ w.tasks, ∀ now, w.brokers.now ≤ now → now ≤ t →
    task.urgency? { w.brokers with now } = none

variable {w : World} {t now : Nat}

theorem Undisturbed.later (h : w.Undisturbed t) (hle : w.brokers.now ≤ now) :
    (w.atMoment now).Undisturbed t where
  ready := h.ready
  asleep := fun task htask now' hge => h.asleep task htask now' (Nat.le_trans hle hge)

theorem Undisturbed.able (h : w.Undisturbed t) (hle : w.brokers.now ≤ t) (s' : Service)
    (hsame : s'.arrivals = w.brokers.amazon.arrivals) :
    able { w with brokers := { w.brokers with amazon := s' } } = [] := by
  refine able_eq_nil fun i task htask => .inr ?_
  rw [task.urgency?_of_arrivals w.brokers hsame]
  exact h.asleep task (List.mem_of_getElem? htask) _ (Nat.le_refl _) hle

theorem Undisturbed.alarm (h : w.Undisturbed t) (hle : w.brokers.now ≤ t) {task : Task}
    (htask : task ∈ w.tasks) {alarm : Instant} (halarm : alarm ∈ task.alarms) : t < alarm := by
  by_contra hnot
  have hnone := h.asleep task htask t hle (Nat.le_refl _)
  have hsome := task.isSome_urgency?_of_alarm halarm (b := { w.brokers with now := t })
    (Nat.le_of_not_lt hnot)
  rw [hnone] at hsome
  cases hsome

theorem earliest_of_le {alarms : List Instant} (h : ∀ alarm ∈ alarms, t ≤ alarm) :
    earliest (t :: alarms) = some t := by
  rw [earliest]
  congr 1
  induction alarms with
  | nil => rfl
  | cons alarm rest ih =>
      obtain ⟨halarm, hrest⟩ := List.forall_mem_cons.mp h
      rw [List.foldl_cons, Nat.min_eq_left halarm]
      exact ih hrest

/-- The clock jumps right to the end of the wait. -/
theorem Undisturbed.wait (h : w.Undisturbed t) {wake : Instant} (hlater : w.brokers.now ≤ wake)
    (hwake : wake ≤ t) (isOver : World → Bool) (hnot : isOver w = false)
    (hover : isOver (w.atMoment wake) = true) (hpatience : 1 ≤ w.patience) :
    w.wait isOver (some wake) = some (w.atMoment wake) := by
  have halarm : w.nextAlarm (some wake) = some wake := by
    refine earliest_of_le fun alarm halarm => ?_
    obtain ⟨task, htask, halarm⟩ := List.mem_flatMap.mp halarm
    exact Nat.le_of_lt (Nat.lt_of_le_of_lt hwake
      (h.alarm (Nat.le_trans hlater hwake) htask halarm))
  have hjump : w.jump wake = w.atMoment wake := by
    rw [jump, Nat.max_eq_right hlater]
    exact notice_of_able ((h.later hlater).able hwake w.brokers.amazon rfl)
  obtain ⟨budget, hbudget⟩ : ∃ budget, w.patience = budget + 1 := ⟨w.patience - 1, by omega⟩
  rw [World.wait, hnot, hbudget, waitFrom, h.ready]
  simp [hnot, halarm, hjump, hover]

end World

/-! ## A whole receive -/

namespace Receiver

variable {r : Receiver} {w : World} {queue : String} {ms : List Stored} {deadline t : Nat}

theorem look_shows {s : Service} (hurl : r.url = Amazon.queueUrl queue)
    (hms : s.queue? queue = some ms) (now : Instant) :
    ∃ out s', s.look now r.url r.maxMessages = (.ok out, s') ∧ s'.arrivals = s.arrivals ∧
      List.Forall₂ (fun m x => x.Shows m) ((ms.filter (·.isVisible now)).take r.maxMessages)
        out := by
  rw [hurl, Service.look, Amazon.queueOfUrl?_queueUrl]
  simp only [Service.takeVisible, hms]
  exact ⟨_, _, rfl, rfl, Service.shows_receiveFrom ..⟩

/-- A look hands out nothing just when nothing is visible. -/
theorem shown_eq_nil_iff {out : List Message} (hmax : 1 ≤ r.maxMessages)
    (hshows : List.Forall₂ (fun m x => Message.Shows x m)
      ((ms.filter (·.isVisible t)).take r.maxMessages) out) :
    out = [] ↔ ∀ m ∈ ms, m.isVisible t = false := by
  rw [← List.length_eq_zero_iff, ← hshows.length_eq, List.length_eq_zero_iff, List.take_eq_nil_iff]
  simp [Nat.ne_of_gt hmax]

/-- At its last look a receive is done, with what there is. -/
theorem turn_of_last {b : Brokers} {out : List Message} {s' : Service} (hmax : 1 ≤ r.maxMessages)
    (hlast : (∃ m ∈ ms, m.isVisible b.now = true) ∨ b.now = deadline)
    (hlook : b.amazon.look b.now r.url r.maxMessages = (.ok out, s'))
    (hshows : List.Forall₂ (fun m x => Message.Shows x m)
      ((ms.filter (·.isVisible b.now)).take r.maxMessages) out) :
    r.turn deadline b = (.done (.ok out), { b with amazon := s' }) := by
  cases out with
  | cons x rest => exact turn_of_batch hlook
  | nil =>
      have hnothing : (b.amazon.look b.now r.url r.maxMessages).1 = .ok [] := by rw [hlook]
      have hsame := Service.look_of_nothing hnothing
      rw [hlook] at hsame
      obtain rfl : s' = b.amazon := hsame
      have hnow : ¬ b.now < deadline := by
        obtain ⟨m, hm, hvisible⟩ | heq := hlast
        · rw [(shown_eq_nil_iff hmax hshows).mp rfl m hm] at hvisible
          cases hvisible
        · exact Nat.not_lt.mpr (Nat.le_of_eq heq.symm)
      rw [turn_of_nothing hnothing, if_neg hnow]

/-- The last look of a receive. -/
theorem driveFrom_last (hurl : r.url = Amazon.queueUrl queue)
    (hms : w.brokers.amazon.queue? queue = some ms) (hmax : 1 ≤ r.maxMessages)
    (hlast : (∃ m ∈ ms, m.isVisible w.brokers.now = true) ∨ w.brokers.now = deadline)
    (hundisturbed : w.Undisturbed w.brokers.now) (budget : Nat) :
    World.driveFrom r.turn (budget + 1) deadline w =
      some ((w.brokers.amazon.look w.brokers.now r.url r.maxMessages).1,
        w.looked w.brokers.now r.url r.maxMessages) := by
  obtain ⟨out, s', hlook, harrivals, hshows⟩ := look_shows hurl hms w.brokers.now
  have hable := hundisturbed.able (Nat.le_refl _) s' harrivals
  rw [World.driveFrom, World.act, turn_of_last hmax hlast hlook hshows, World.looked, hlook]
  simp only [World.notice_of_able hable]

/-- A look that finds nothing, and the sleep until the next one. -/
theorem driveFrom_next (hurl : r.url = Amazon.queueUrl queue)
    (hms : w.brokers.amazon.queue? queue = some ms) (hmax : 1 ≤ r.maxMessages)
    (hlt : w.brokers.now < deadline) (hnone : ∀ m ∈ ms, m.isVisible w.brokers.now = false)
    (hundisturbed : w.Undisturbed t) (ht : min deadline (w.brokers.now + tick) ≤ t)
    (hpatience : 1 ≤ w.patience) (budget : Nat) :
    World.driveFrom r.turn (budget + 1) deadline w =
      World.driveFrom r.turn budget deadline
        (w.atMoment (min deadline (w.brokers.now + tick))) := by
  obtain ⟨out, s', hlook, _, hshows⟩ := look_shows hurl hms w.brokers.now
  have hnothing : (w.brokers.amazon.look w.brokers.now r.url r.maxMessages).1 = .ok [] := by
    rw [hlook, (shown_eq_nil_iff hmax hshows).mpr hnone]
  have hlater : w.brokers.now < min deadline (w.brokers.now + tick) :=
    Nat.lt_min.mpr ⟨hlt, Nat.lt_add_of_pos_right (by decide)⟩
  have hable := hundisturbed.able (Nat.le_trans (Nat.le_of_lt hlater) ht) w.brokers.amazon rfl
  have hwait := hundisturbed.wait (Nat.le_of_lt hlater) ht
    (fun w' => Sleep.isOver
      ⟨min deadline (w.brokers.now + tick), some w.brokers.amazon.arrivals⟩ w'.brokers)
    (Sleep.isOver_eq_false hlater rfl) (Sleep.isOver_of_le (Nat.le_refl _)) hpatience
  rw [World.driveFrom, World.act, turn_of_nothing hnothing, if_pos hlt]
  simp only [World.notice_of_able hable, hwait, Option.bind_some]

/-- From look to look, with a budget that allows for all that may come. -/
theorem driveFrom_turn (hurl : r.url = Amazon.queueUrl queue)
    (hms : w.brokers.amazon.queue? queue = some ms) (hmax : 1 ≤ r.maxMessages)
    (hle : w.brokers.now ≤ deadline) (hends : EndsAt ms w.brokers.now deadline t)
    (hundisturbed : w.Undisturbed t) (hpatience : 1 ≤ w.patience) (budget : Nat)
    (hbudget : deadline ≤ w.brokers.now + budget * tick) :
    World.driveFrom r.turn (budget + 1) deadline w =
      some ((w.brokers.amazon.look t r.url r.maxMessages).1,
        w.looked t r.url r.maxMessages) := by
  induction budget generalizing w with
  | zero =>
      have hlast : w.brokers.now = deadline := Nat.le_antisymm hle (by simpa using hbudget)
      obtain rfl := (endsAt_now_iff hle (.inr hlast)).mp hends
      exact driveFrom_last hurl hms hmax (.inr hlast) hundisturbed 0
  | succ budget ih =>
      obtain hlast | ⟨hlt, hnone⟩ := done_or_waits ms hle
      · obtain rfl := (endsAt_now_iff hle hlast).mp hends
        exact driveFrom_last hurl hms hmax hlast hundisturbed _
      · have hends' := (endsAt_next_iff hlt hnone).mp hends
        have hnext := hends'.look.ge (Nat.min_le_left ..)
        rw [driveFrom_next hurl hms hmax hlt hnone hundisturbed hnext hpatience]
        refine ih (w := w.atMoment _) hms (Nat.min_le_left ..) hends' (hundisturbed.later ?_)
          hpatience ?_
        · exact Nat.le_min.mpr ⟨Nat.le_of_lt hlt, Nat.le_add_right ..⟩
        · show deadline ≤ min deadline (w.brokers.now + tick) + budget * tick
          rw [tick] at hbudget ⊢
          omega

/-- A receive during which nobody else goes on ends at its first look that finds a visible
message, and at its deadline at the latest. It hands out the first visible messages, in the
order of their arrival; when there are none, only time has gone by. How many turns and
jumps a wait may take does not matter beyond the number of looks. -/
theorem ends_on_time {wait : Nat} (hurl : r.url = Amazon.queueUrl queue)
    (hms : w.brokers.amazon.queue? queue = some ms) (hmax : 1 ≤ r.maxMessages)
    (hwait : r.waitTime = .ofMillis wait) :
    ∃ t, EndsAt ms w.brokers.now (w.brokers.now + wait) t ∧ t ≤ w.brokers.now + wait ∧
      (w.Undisturbed t → ∀ patience, wait / tick + 2 ≤ patience →
        ∃ out s', ({ w with patience } : World).drive r.turn (r.deadline w.brokers) =
            some (.ok out,
              { w with patience, brokers := { w.brokers with now := t, amazon := s' } }) ∧
          w.brokers.amazon.look t r.url r.maxMessages = (.ok out, s') ∧
          List.Forall₂ (fun m x => x.Shows m) ((ms.filter (·.isVisible t)).take r.maxMessages)
            out ∧
          ((∀ m ∈ ms, m.isVisible t = false) →
            t = w.brokers.now + wait ∧ out = [] ∧ s' = w.brokers.amazon)) := by
  have hle : w.brokers.now ≤ w.brokers.now + wait := Nat.le_add_right ..
  have hdeadline : r.deadline w.brokers = w.brokers.now + wait := by
    rw [deadline, hwait, Duration.millisUp_ofMillis]
  obtain ⟨t, hends⟩ := exists_endsAt ms hle
  refine ⟨t, hends, hends.look.le, fun hundisturbed patience hpatience => ?_⟩
  obtain ⟨out, s', hlook, _, hshows⟩ := look_shows hurl hms t
  refine ⟨out, s', ?_, hlook, hshows, fun hnone => ?_⟩
  · rw [tick] at hpatience
    obtain ⟨budget, rfl⟩ : ∃ budget, patience = budget + 1 := ⟨patience - 1, by omega⟩
    have hbudget : wait ≤ budget * tick := by
      rw [tick]
      omega
    have hdrive := driveFrom_turn (w := { w with patience := budget + 1 }) hurl hms hmax hle
      hends ⟨hundisturbed.ready, hundisturbed.asleep⟩ (Nat.le_add_left ..) budget
      (Nat.add_le_add_left hbudget w.brokers.now)
    rw [hdeadline]
    show World.driveFrom _ (budget + 1) _ _ = _
    rw [hdrive, World.looked]
    simp only [hlook]
  · have hnil : out = [] := (shown_eq_nil_iff hmax hshows).mpr hnone
    have hnothing : (w.brokers.amazon.look t r.url r.maxMessages).1 = .ok [] := by
      rw [hlook, hnil]
    have hsame := Service.look_of_nothing hnothing
    rw [hlook] at hsame
    refine ⟨hends.found.resolve_left ?_, hnil, hsame⟩
    intro ⟨m, hm, hvisible⟩
    rw [hnone m hm] at hvisible
    cases hvisible

def patientReceiver : Receiver :=
  ⟨"stock", Amazon.queueUrl "stock", .ofMillis 60, 10⟩

/-- The only message of the queue is visible from the thirtieth millisecond on, and a poller
sleeps for longer. -/
def messageSoon : World where
  brokers := { amazon := { queues := [("stock", [⟨"1", "sold", some "2", some 30, 1⟩])] } }
  tasks := [⟨.polling default (.pausing ⟨1000, none⟩ 0), .none⟩]

/-- The looks after 0 and after 25 milliseconds find nothing, and the one after 50 does. -/
theorem received_after_fifty :
    patientReceiver.waitTime = .ofMillis 60 ∧ messageSoon.Undisturbed 50 ∧
      ∃ out w', messageSoon.drive patientReceiver.turn
          (patientReceiver.deadline messageSoon.brokers) = some (.ok out, w') ∧
        w'.brokers.now = 50 ∧ out.map (·.body) = ["sold"] := by
  have hundisturbed : messageSoon.Undisturbed 50 := by
    refine ⟨rfl, fun task htask now _ hnow => ?_⟩
    obtain rfl := List.mem_singleton.mp htask
    have hasleep : ¬ 1000 ≤ now := Nat.not_le_of_lt (Nat.lt_of_le_of_lt hnow (by decide))
    simp [Task.urgency?, Polling.urgency?, Sleep.isOver, StopSignal.isGiven, hasleep]
  have hurl : patientReceiver.url = Amazon.queueUrl "stock" := rfl
  obtain ⟨t, hends, _, hdrive⟩ := ends_on_time (w := messageSoon) hurl rfl (by decide) rfl
  have hsecond := (endsAt_next_iff (by decide) (by decide)).mp hends
  have hthird := (endsAt_next_iff (by decide) (by decide)).mp hsecond
  obtain rfl : t = 50 := (endsAt_now_iff (by decide) (.inl (by decide))).mp hthird
  obtain ⟨out, s', hout, _, hshows, _⟩ := hdrive hundisturbed messageSoon.patience (by decide)
  refine ⟨rfl, hundisturbed, out, _, hout, rfl, ?_⟩
  have hbodies := Amazon.map_eq_of_forall₂ (f := Stored.body) (g := Message.body)
    (fun _ _ h => h.body.symm) hshows
  exact hbodies.symm

end Receiver

end MessageBridge
