import MessageBridge.Proofs.Process.Commands

/-!
# What commands do to the brokers

What matters to those whose messages pass through a session is that nothing is
deleted on the Amazon side behind their backs. So the rule of a command says just
this: a deletion happens only if the command asks for it in so many words, and a
message is taken to rabbit only after it was received, and by a dispatcher that is at
work then. `Conducts` adds what may be published besides, which is nothing but what
the command asks for.

Each effect of a command is a course under its rule, and so `carries_step` holds of
all commands. `Lived` strings commands together to the history of a session.
-/

namespace MessageBridge.Session

/-- The dispatcher is at work while the command is carried out: the command runs it,
a task of the session polls with it, or an app that the command starts prepares it
for one of its reverse bridges. -/
inductive Employs (s : Session) (command : Command) (d : Dispatcher) : Prop where
  | run (index : Nat) (runs : command = .runOnce index)
      (held : s.dispatchers[index]? = some (some d))
  | task (p : Poller) (state : Polling) (stop : StopSignal)
      (mem : ⟨.polling p state, stop⟩ ∈ s.world.tasks) (polls : p.dispatcher = d)
  | app (a : App) (held : s.app = some a)
      (starts : command = .appStart ∨ ∃ millis, command = .appRun millis) (bridge : Bridge)
      (b : Brokers) (mem : bridge ∈ Bridge.reverse a.bridges)
      (prepared : (App.prepare a.poller bridge b).1 = .ok d)

/-- What may happen while a command is carried out. -/
def Permits (s : Session) (command : Command) (h : List Moment) : Event → Prop
  | .amazon op => op.IsDeletion → s.AsksFor command op
  | .forward d m => s.Employs command d ∧ HandedOut h d.receiver.url m
  | _ => True

/-- What carrying out a command does. It is permitted, and whatever is published
without being taken to rabbit by a dispatcher is what the command asks for. -/
def Conducts (s : Session) (command : Command) (h : List Moment) (event : Event) : Prop :=
  s.Permits command h event ∧ ∀ exchange routingKey body,
    event = .rabbit (.send exchange routingKey body) → Publishes command exchange routingKey body

/-- Whoever takes messages to rabbit among the tasks of the world is at work for the
command. -/
def Oversees (s : Session) (command : Command) (w : World) : Prop :=
  ∀ rule ∈ w.rules, ∀ h d m, rule h (.forward d m) → s.Employs command d

/-- What leads from one world to the other is a course of what the command does. -/
def Carries (past : List Moment) (s : Session) (command : Command) (w w' : World) : Prop :=
  ∃ h, Course (s.Conducts command) past w.brokers h w'.brokers ∧ w'.Accounted (past ++ h)

variable {α : Type} {past h : List Moment} {s s' : Session} {command : Command}
  {reply : Except Failure Answer} {w w' : World}

/-- Other than by publishing, a command does whatever it permits. -/
theorem conducts_of_permits {event : Event} (hp : s.Permits command h event)
    (hno : ∀ exchange routingKey body, event ≠ .rabbit (.send exchange routingKey body)) :
    s.Conducts command h event :=
  ⟨hp, fun exchange routingKey body hevent => (hno exchange routingKey body hevent).elim⟩

theorem conducts_of_asks {event : Event} (asks : s.Asks command event) :
    s.Conducts command h event := by
  cases asks with
  | rabbit op published =>
      refine ⟨trivial, fun exchange routingKey body hevent => ?_⟩
      injection hevent with hop
      exact published exchange routingKey body hop
  | amazon op deleted => exact conducts_of_permits deleted nofun
  | attempt => exact conducts_of_permits trivial nofun

theorem conducts_declaring {event : Event} (hd : Declaring h event) :
    s.Conducts command h event := by
  cases hd <;> exact conducts_of_permits trivial nofun

theorem conducts_handling {c : Consumer} {d : Rabbit.Delivery} {event : Event}
    (hh : c.Handles d h event) : s.Conducts command h event := by
  cases hh <;> exact conducts_of_permits trivial nofun

theorem conducts_dispatcher {d : Dispatcher} {event : Event} (hd : d.Does h event)
    (hemploys : s.Employs command d) : s.Conducts command h event := by
  cases hd with
  | forwards out => exact conducts_of_permits ⟨hemploys, out⟩ nofun
  | looks max => exact conducts_of_permits (fun hdeletion => hdeletion.elim) nofun
  | releases out => exact conducts_of_permits (fun hdeletion => hdeletion.elim) nofun
  | counts => exact conducts_of_permits trivial nofun

/-- A consumer takes nothing to rabbit. -/
theorem not_forward_of_consumer {c : Consumer} {d : Dispatcher} {m : Amazon.Message} :
    ¬ c.Does h (.forward d m) := by
  intro hd
  cases hd with
  | handles _ handled => cases handled

theorem conducts_work {work : Work} {event : Event} (hd : work.Does h event)
    (hemploys : ∀ d m, work.Does h (.forward d m) → s.Employs command d) :
    s.Conducts command h event := by
  cases work with
  | consuming c state =>
      cases hd with
      | handles _ handled => exact conducts_handling handled
      | _ => exact conducts_of_permits trivial nofun
  | polling p state =>
      cases hd with
      | forwards out => exact conducts_of_permits ⟨hemploys _ _ (.forwards out), out⟩ nofun
      | looks max => exact conducts_of_permits (fun hdeletion => hdeletion.elim) nofun
      | releases out => exact conducts_of_permits (fun hdeletion => hdeletion.elim) nofun
      | counts => exact conducts_of_permits trivial nofun

theorem conducts_interleaved {event : Event} (ho : s.Oversees command w)
    (hi : Interleaved w.rules h event) : s.Conducts command h event := by
  cases hi with
  | ticks => exact conducts_of_permits trivial nofun
  | works mem does =>
      have hemploys := ho _ mem
      obtain ⟨t, _, rfl⟩ := List.mem_map.mp mem
      exact conducts_work does (hemploys h)

/-! ## Who is at work -/

theorem oversees_world : s.Oversees command s.world := by
  intro rule hrule h d m hd
  obtain ⟨⟨work, stop⟩, ht, rfl⟩ := List.mem_map.mp hrule
  cases work with
  | consuming c state => exact absurd hd not_forward_of_consumer
  | polling p state =>
      cases hd with
      | forwards out => exact .task p state stop ht rfl

theorem Oversees.of_rules (hrules : w'.rules = w.rules) (ho : s.Oversees command w) :
    s.Oversees command w' := by
  unfold Oversees
  rw [hrules]
  exact ho

theorem Oversees.hires {a : App} (hheld : s.app = some a)
    (hstarts : command = .appStart ∨ ∃ millis, command = .appRun millis)
    (hh : World.Hires a past w w') (ho : s.Oversees command w) : s.Oversees command w' := by
  obtain ⟨new, hnew, hhired⟩ := hh.tasks
  intro rule hrule h d m hd
  unfold World.rules at hrule
  rw [hnew, List.map_append] at hrule
  rcases List.mem_append.mp hrule with hrule | hrule
  · exact ho rule hrule h d m hd
  · obtain ⟨t, ht, rfl⟩ := List.mem_map.mp hrule
    have hired := (hhired t ht).2
    generalize t.work.Does = rule at hired hd
    cases hired with
    | poller d' bridge b mem prepared =>
        cases hd with
        | forwards out => exact .app a hheld hstarts bridge b mem prepared
    | consumer c => exact absurd hd not_forward_of_consumer

namespace Carries

theorem refl (ha : w.Accounted past) : Carries past s command w w :=
  ⟨[], .start, by rw [List.append_nil]; exact ha⟩

theorem trans {w'' : World} (hc : Carries past s command w w')
    (hnext : ∀ past, w'.Accounted past → Carries past s command w' w'') :
    Carries past s command w w'' := by
  obtain ⟨h, hcourse, ha⟩ := hc
  obtain ⟨h', hcourse', ha'⟩ := hnext _ ha
  exact ⟨h ++ h', hcourse.trans hcourse', by rw [← List.append_assoc]; exact ha'⟩

theorem of_course (ha : w.Accounted past) (htasks : w'.tasks = w.tasks)
    (hc : Course (s.Conducts command) past w.brokers h w'.brokers) :
    Carries past s command w w' := by
  refine ⟨h, hc, ?_⟩
  unfold World.Accounted
  rw [htasks]
  exact ha.mono (List.subset_append_left _ _)

theorem of_counted (ha : w.Accounted past) (m : Metric) (amount : Nat)
    (htasks : w'.tasks = w.tasks) (hw : w.brokers.on (.counted m amount) = w'.brokers) :
    Carries past s command w w' := by
  have hallowed : s.Conducts command past (.counted m amount) :=
    conducts_of_permits trivial nofun
  exact .of_course ha htasks (.single hallowed hw)

theorem of_passes (ho : s.Oversees command w) (hp : World.Passes past w w') :
    Carries past s command w w' := by
  obtain ⟨h, hcourse, _, ha⟩ := hp
  exact ⟨h, hcourse.imp fun _ _ _ hi => conducts_interleaved ho hi, ha⟩

theorem of_declares (ha : w.Accounted past) (htasks : w'.tasks = w.tasks)
    (hd : Declares past w.brokers w'.brokers) : Carries past s command w w' := by
  obtain ⟨h, hcourse⟩ := hd
  exact .of_course ha htasks (hcourse.imp fun _ _ _ hd => conducts_declaring hd)

/-- An activity in the foreground, with an invariant of its own. -/
theorem of_drive {σ : Type} {turn : σ → Brokers → Turn σ α × Brokers} (rule : Rule)
    (Inv : σ → Prop) {state : σ} {result : α} (ha : w.Accounted past)
    (ho : s.Oversees command w)
    (hrule : ∀ h event, rule h event → s.Conducts command h event)
    (hturn : ∀ state b past, Inv state → (∃ h, Course rule past b h (turn state b).2) ∧
      ∀ sleep next, (turn state b).1 = .asleep sleep next → Inv next)
    (hstate : Inv state) (hd : w.drive turn state = some (result, w')) :
    Carries past s command w w' := by
  obtain ⟨h, hcourse, _, ha'⟩ :=
    World.passes_driveFrom hturn w.patience state w past hstate ha hd
  refine ⟨h, hcourse.imp ?_, ha'⟩
  intro h event _ hi
  cases hi with
  | ticks => exact conducts_of_permits trivial nofun
  | works mem does =>
      rcases List.mem_cons.mp mem with rfl | mem
      · exact hrule h event does
      · exact conducts_interleaved ho (.works mem does)

end Carries

/-! ## Several things at once -/

/-- A sender declares, if it is asked to, and then publishes what it was asked to. -/
theorem course_sendTo (destination : RabbitDestination) (payload : String) (declare : Bool)
    (b : Brokers) (past : List Moment) :
    ∃ h, Course (s.Conducts (.senderSend destination payload declare)) past b h
      { b with rabbit := (sendTo destination payload declare b.rabbit).2 } := by
  have hsend : ∀ (b : Brokers) past,
      Course (s.Conducts (.senderSend destination payload declare)) past b
        [⟨b, .rabbit (.send destination.exchange destination.routingKey payload.toUTF8)⟩]
        { b with rabbit := (b.rabbit.send destination.exchange destination.routingKey
          payload.toUTF8).2 } := by
    intro b past
    refine .single ⟨trivial, ?_⟩ rfl
    intro exchange routingKey body hevent
    injection hevent with hop
    injection hop with hexchange hroutingKey hbody
    exact ⟨hexchange, hroutingKey, hbody⟩
  obtain ⟨h, hdeclares⟩ := declares_declarePair past destination.exchange b
  have hdeclares : Course (s.Conducts (.senderSend destination payload declare)) past b h _ :=
    hdeclares.imp fun _ _ _ hd => conducts_declaring hd
  unfold sendTo
  cases declare with
  | false => exact ⟨_, hsend b past⟩
  | true =>
      simp only [if_true]
      rcases hdeclared : b.rabbit.declarePair destination.exchange with ⟨result, rabbit⟩
      rw [hdeclared] at hdeclares
      cases result with
      | error failure => exact ⟨h, hdeclares⟩
      | ok => exact ⟨_, hdeclares.trans (hsend { b with rabbit } _)⟩

/-- Creating what bridges name deletes nothing. -/
theorem course_provisionFor (bridges : List Bridge) :
    ∀ (b : Brokers) (past : List Moment), ∃ h, Course (s.Conducts command) past b h
      { b with amazon := b.amazon.provisionFor bridges } := by
  induction bridges with
  | nil => intro b past; exact ⟨[], .start⟩
  | cons bridge rest ih =>
      -- Each end on the Amazon side creates one thing before the rest is created.
      have hthen : ∀ (op : Amazon.Operation), ¬ op.IsDeletion → ∀ (b b' : Brokers) past,
          (∀ past, ∃ h, Course (s.Conducts command) past (b.on (.amazon op)) h b') →
          ∃ h, Course (s.Conducts command) past b h b' := by
        intro op hno b b' past hrest
        have hallowed : s.Conducts command past (.amazon op) :=
          conducts_of_permits (fun hdeletion => (hno hdeletion).elim) nofun
        obtain ⟨h, hcourse⟩ := hrest (past ++ [⟨b, .amazon op⟩])
        exact ⟨_, .cons hallowed rfl hcourse⟩
      intro b past
      obtain ⟨source, destination, _, _, _, _⟩ := bridge
      cases source with
      | rabbit source =>
          cases destination with
          | rabbit destination => exact ih b past
          | sqs name => exact hthen (.createQueue name) id b _ past fun past => ih _ past
          | sns name => exact hthen (.createTopic name) id b _ past fun past => ih _ past
      | sqs queue =>
          refine hthen (.createQueue queue) id b _ past fun past => ?_
          cases destination with
          | rabbit destination => exact ih _ past
          | sqs name => exact hthen (.createQueue name) id _ _ past fun past => ih _ past
          | sns name => exact hthen (.createTopic name) id _ _ past fun past => ih _ past

/-! ## Activities and tasks -/

theorem carries_receive {r : Receiver} {deadline : Instant}
    {result : Except Failure (List Amazon.Message)} (ha : w.Accounted past)
    (ho : s.Oversees command w) (hd : w.drive r.turn deadline = some (result, w')) :
    Carries past s command w w' := by
  refine .of_drive (s.Conducts command) (fun _ => True) ha ho (fun _ _ hallowed => hallowed) ?_
    trivial hd
  intro deadline b past _
  have hlook : s.Conducts command past (.amazon (.look r.url r.maxMessages)) :=
    conducts_of_permits (fun hdeletion => hdeletion.elim) nofun
  obtain ⟨h, hcourse, _⟩ := r.course_turn deadline b past hlook
  exact ⟨⟨h, hcourse⟩, fun _ _ _ => trivial⟩

theorem carries_run {d : Dispatcher} {deadline : Instant} {result : Except Failure Nat}
    (ha : w.Accounted past) (ho : s.Oversees command w) (hemploys : s.Employs command d)
    (hd : w.drive d.turn deadline = some (result, w')) : Carries past s command w w' := by
  refine .of_drive d.Does (fun _ => True) ha ho
    (fun _ _ hdoes => conducts_dispatcher hdoes hemploys) ?_ trivial hd
  intro deadline b past _
  exact ⟨d.course_turn deadline b past, fun _ _ _ => trivial⟩

theorem carries_handle {c : Consumer} {handling : Handling} {outcome : Outcome}
    (ha : w.Accounted past) (ho : s.Oversees command w)
    (hd : w.drive (Handling.turn c) handling = some (outcome, w')) :
    Carries past s command w w' := by
  refine .of_drive (c.Handles handling.delivery)
    (fun x : Handling => x.delivery = handling.delivery) ha ho
    (fun _ _ hhandles => conducts_handling hhandles) ?_ rfl hd
  intro x b past hx
  obtain ⟨hcourse, hnext⟩ := Handling.course_turn c x b past
  rw [hx] at hcourse hnext
  exact ⟨hcourse, hnext⟩

theorem carries_spawn {task : Task} (fresh : task.Fresh) (ha : w.Accounted past) :
    Carries past s command w (w.spawn task).2 := by
  refine ⟨[], .start, ?_⟩
  rw [List.append_nil]
  intro t ht
  rcases List.mem_append.mp ht with ht | ht
  · exact ha t ht
  · rw [List.mem_singleton.mp ht]
    rcases fresh with ⟨c, rfl⟩ | ⟨p, rfl⟩ <;> trivial

theorem carries_signal (ha : w.Accounted past) (ids : List Nat) (stop : StopSignal) :
    Carries past s command w (w.signal ids stop) :=
  ⟨[], .start, by rw [List.append_nil]; exact ha.of_works (w.works_signal ids stop)⟩

/-- A start, with what the tasks of the world may do after it. -/
theorem carries_start {a a' : App} {result : Except Failure Unit} (hheld : s.app = some a)
    (hstarts : command = .appStart ∨ ∃ millis, command = .appRun millis)
    (ha : s.world.Accounted past) (h : a.start s.world = some (result, a', w')) :
    Carries past s command s.world w' ∧ (result = .ok () → s.Oversees command w') := by
  obtain ⟨w₁, hhires, hpasses, _, hok⟩ := App.phases_start h past
  obtain ⟨h₁, hdeclares⟩ := hhires.declares
  have ho : s.Oversees command w₁ := oversees_world.hires hheld hstarts hhires
  have hhired : Carries past s command s.world w₁ :=
    ⟨h₁, hdeclares.imp fun _ _ _ hd => conducts_declaring hd,
      hhires.accounted (ha.mono (List.subset_append_left _ _))⟩
  refine ⟨hhired.trans fun past ha => .of_passes ho (hpasses past ha), ?_⟩
  intro hresult
  rw [hok hresult]
  exact ho

theorem carries_runFor {a a' : App} {millis : Nat} {result : Except Failure Unit}
    (hheld : s.app = some a) (ha : s.world.Accounted past)
    (h : a.runFor millis s.world = some (result, a', w')) :
    Carries past s (.appRun millis) s.world w' := by
  obtain ⟨⟨started, a₁, w₁⟩, hstart, h⟩ := Option.bind_eq_some_iff.mp h
  obtain ⟨hstarted, hoversees⟩ := carries_start hheld (Or.inr ⟨millis, rfl⟩) ha hstart
  cases started with
  | error failure =>
      cases h
      exact hstarted
  | ok =>
      obtain ⟨w₂, hsleep, h⟩ := Option.bind_eq_some_iff.mp h
      obtain ⟨⟨a₃, w₃⟩, hstop, h⟩ := Option.bind_eq_some_iff.mp h
      cases h
      have ho₁ := hoversees rfl
      have ⟨_, _, ha₁⟩ := hstarted
      obtain ⟨_, _, hrules, _⟩ := World.passes_wait ha₁ hsleep
      have ho₂ : s.Oversees (.appRun millis) w₂ := ho₁.of_rules hrules
      have hslept : Carries past s (.appRun millis) s.world w₂ :=
        hstarted.trans fun past ha => .of_passes ho₁ (World.passes_wait ha hsleep)
      exact hslept.trans fun past ha => .of_passes ho₂ (App.passes_stop ha hstop).1

/-! ## Commands -/

/-- Carrying out any command is a course under its rule. -/
theorem carries_step (ha : s.world.Accounted past) (h : s.step command = some (reply, s')) :
    Carries past s command s.world s'.world := by
  have heffect := effect_of_step h
  generalize s'.world = w' at heffect ⊢
  cases heffect with
  | nothing => exact .refl ha
  | happens asks => exact .of_course ha rfl (.single (conducts_of_asks asks) rfl)
  | declares f hdeclares => exact .of_declares ha rfl (hdeclares past _)
  | sends destination payload declare given =>
      subst given
      obtain ⟨_, hcourse⟩ := course_sendTo destination payload declare s.world.brokers past
      exact .of_course ha rfl hcourse
  | provides bridges =>
      obtain ⟨_, hcourse⟩ := course_provisionFor bridges s.world.brokers past
      exact .of_course ha rfl hcourse
  | receives r driven => exact carries_receive ha oversees_world driven
  | runs d index given held driven =>
      exact carries_run ha oversees_world (.run index given held) driven
  | handles c d driven =>
      have hstart : Carries past s command s.world (s.world.act (Handling.start c d)).2 :=
        .of_counted ha (.received c.id) 1 rfl rfl
      exact hstart.trans fun past ha => carries_handle ha (oversees_world.of_rules rfl) driven
  | waits ended => exact .of_passes oversees_world (World.passes_wait ha ended)
  | spawns task fresh => exact carries_spawn fresh ha
  | abandons ids => exact carries_signal ha ids .abandoned
  | signals task ids signal given ended =>
      have ho : s.Oversees command (s.world.signal ids signal) :=
        oversees_world.of_rules (World.rules_of_works (s.world.works_signal ids signal))
      exact (carries_signal ha ids signal).trans fun past ha =>
        .of_passes ho (World.passes_wait ha ended)
  | starts a given held answered => exact (carries_start held (.inl given) ha answered).1
  | stops a answered => exact .of_passes oversees_world (App.passes_stop ha answered).1
  | runsFor a millis given held answered =>
      subst given
      exact carries_runFor held ha answered

/-! ## The history of a session -/

/-- A session that was given commands, each together with the session it was given
to, and the history of what they have come to. -/
inductive Lived (s₀ : Session) : List (Session × Command) → List Moment → Session → Prop where
  | start : Lived s₀ [] [] s₀
  | step {given : List (Session × Command)} {h h' : List Moment} {s s' : Session}
      {command : Command} {reply : Except Failure Answer} (lived : Lived s₀ given h s)
      (answered : s.step command = some (reply, s'))
      (course : Course (s.Permits command) h s.world.brokers h' s'.world.brokers)
      (accounted : s'.world.Accounted (h ++ h')) :
    Lived s₀ (given ++ [(s, command)]) (h ++ h') s'

namespace Lived

variable {s₀ : Session} {given : List (Session × Command)}

theorem accounted (hidle : s₀.world.tasks = []) (hl : Lived s₀ given h s) :
    s.world.Accounted h := by
  cases hl with
  | start => exact World.accounted_of_idle hidle []
  | step _ _ _ ha => exact ha

/-- Whatever a command does, the history goes on, and in what is added all that is
published without being taken to rabbit by a dispatcher is what the command asks for. -/
theorem continues_publishing (hidle : s₀.world.tasks = []) (hl : Lived s₀ given h s)
    (hstep : s.step command = some (reply, s')) :
    ∃ h', Lived s₀ (given ++ [(s, command)]) (h ++ h') s' ∧
      ∀ x ∈ h', ∀ exchange routingKey body,
        x.event = .rabbit (.send exchange routingKey body) →
          Publishes command exchange routingKey body := by
  obtain ⟨h', hcourse, ha⟩ := carries_step (hl.accounted hidle) hstep
  refine ⟨h', .step hl hstep (hcourse.imp fun _ _ _ hc => hc.1) ha, fun x hx => ?_⟩
  obtain ⟨_, hconducts⟩ := hcourse.allowed_of_mem hx
  exact hconducts.2

/-- Whatever a command does, the history goes on. -/
theorem continues (hidle : s₀.world.tasks = []) (hl : Lived s₀ given h s)
    (hstep : s.step command = some (reply, s')) :
    ∃ h', Lived s₀ (given ++ [(s, command)]) (h ++ h') s' := by
  obtain ⟨h', hl', _⟩ := hl.continues_publishing hidle hstep
  exact ⟨h', hl'⟩

/-- What all commands permit, the whole history obeys. -/
theorem course {rule : Rule}
    (hrule : ∀ (s : Session) command h event, s.Permits command h event → rule h event)
    (hl : Lived s₀ given h s) : Course rule [] s₀.world.brokers h s.world.brokers := by
  induction hl with
  | start => exact .start
  | step _ _ hcourse _ ih =>
      refine ih.trans ?_
      rw [List.nil_append]
      exact hcourse.imp fun h event _ => hrule _ _ h event

/-- Whatever happened was permitted by a command that was given. -/
theorem permitted {x : Moment} (hl : Lived s₀ given h s) (hx : x ∈ h) :
    ∃ y ∈ given, ∃ h', y.1.Permits y.2 h' x.event := by
  induction hl with
  | start => cases hx
  | @step given h h' s s' command reply _ _ hcourse _ ih =>
      rcases List.mem_append.mp hx with hx | hx
      · obtain ⟨y, hy, hpermits⟩ := ih hx
        exact ⟨y, List.mem_append_left _ hy, hpermits⟩
      · exact ⟨(s, command), List.mem_append_right _ (List.mem_singleton_self _),
          hcourse.allowed_of_mem hx⟩

/-- Every deletion was asked for. -/
theorem asked {op : Amazon.Operation} {x : Moment} (hl : Lived s₀ given h s) (hx : x ∈ h)
    (hevent : x.event = .amazon op) (hdeletion : op.IsDeletion) :
    ∃ y ∈ given, y.1.AsksFor y.2 op := by
  obtain ⟨y, hy, h', hpermits⟩ := hl.permitted hx
  rw [hevent] at hpermits
  exact ⟨y, hy, hpermits hdeletion⟩

/-- Every dispatcher that took something to rabbit was at work for a command. -/
theorem employed {d : Dispatcher} {m : Amazon.Message} {x : Moment} (hl : Lived s₀ given h s)
    (hx : x ∈ h) (hevent : x.event = .forward d m) : ∃ y ∈ given, y.1.Employs y.2 d := by
  obtain ⟨y, hy, h', hpermits⟩ := hl.permitted hx
  rw [hevent] at hpermits
  exact ⟨y, hy, hpermits.1⟩

end Lived

end MessageBridge.Session
