import MessageBridge.Proofs.Process.Commands
import MessageBridge.Proofs.Process.Quiet

/-!
# What is done, one thing after the other

Whatever a session does to its world is made of small deeds: something is done to the
brokers, a task is started, tasks are signalled, a task that is queued has its turn, the
clock jumps. When the foreground handles a delivery it holds this delivery in its hand
from the first attempt to the last, with deeds of the tasks in between; so a `Scene` is a
world with what is in the hand.

`Scene.run` carries out any list of deeds, in any order. What is true after every list of
deeds is true at every moment of every session: `Session.goes_step` says which deeds a command is
made of, effect by effect.
-/

namespace MessageBridge

/-- A world, with the delivery that the foreground is handling. -/
structure Scene where
  world : World
  hand : Option (Consumer × Handling) := none

inductive Deed where
  /-- Something is done to the brokers. -/
  | act (f : Brokers → Brokers)
  | spawn (task : Task)
  | signal (ids : List Nat) (stop : StopSignal)
  /-- A task has a turn, if it is queued. -/
  | turn (id : Nat)
  | jump (t : Instant)
  /-- The foreground takes a delivery into its hand. -/
  | begin (c : Consumer) (d : Rabbit.Delivery)
  /-- The foreground goes on with what it has in its hand. -/
  | goOn

namespace Scene

def after (s : Scene) : Deed → Scene
  | .act f => { s with world := (s.world.act fun b => ((), f b)).2 }
  | .spawn task => { s with world := (s.world.spawn task).2 }
  | .signal ids stop => { s with world := s.world.signal ids stop }
  | .turn id =>
    if id ∈ s.world.ready then
      { s with world := World.turn { s.world with ready := s.world.ready.erase id } id }
    else s
  | .jump t => { s with world := s.world.jump t }
  | .begin c d =>
    match s.hand with
    | some _ => s
    | none =>
      let (handling, world) := s.world.act (Handling.start c d)
      ⟨world, some (c, handling)⟩
  | .goOn =>
    match s.hand with
    | none => s
    | some (c, handling) =>
      match s.world.act (Handling.turn c handling) with
      | (.done _, world) => ⟨world, none⟩
      | (.asleep _ handling, world) => ⟨world, some (c, handling)⟩

theorem world_goOn (w : World) (c : Consumer) (handling : Handling) :
    (after ⟨w, some (c, handling)⟩ .goOn).world = (w.act (handling.turn c)).2 := by
  simp only [after]
  rcases w.act (handling.turn c) with ⟨turned, w'⟩
  cases turned <;> rfl

def run (s : Scene) (deeds : List Deed) : Scene :=
  deeds.foldl after s

theorem run_append (s : Scene) (xs ys : List Deed) : s.run (xs ++ ys) = (s.run xs).run ys :=
  List.foldl_append

/-- Deeds of some kind lead from one scene to the other. -/
def Goes (P : Deed → Prop) (s s' : Scene) : Prop :=
  ∃ deeds, (∀ x ∈ deeds, P x) ∧ s.run deeds = s'

namespace Goes

variable {P Q : Deed → Prop} {s s' s'' : Scene}

theorem refl (s : Scene) : Goes P s s :=
  ⟨[], fun _ hx => (List.not_mem_nil hx).elim, rfl⟩

theorem single {x : Deed} (hx : P x) (h : s.after x = s') : Goes P s s' := by
  refine ⟨[x], fun y hy => ?_, h⟩
  rw [List.mem_singleton.mp hy]
  exact hx

theorem trans (h : Goes P s s') (h' : Goes P s' s'') : Goes P s s'' := by
  obtain ⟨xs, hxs, rfl⟩ := h
  obtain ⟨ys, hys, rfl⟩ := h'
  refine ⟨xs ++ ys, fun x hx => ?_, run_append s xs ys⟩
  rcases List.mem_append.mp hx with hx | hx
  · exact hxs x hx
  · exact hys x hx

theorem mono (hPQ : ∀ x, P x → Q x) (h : Goes P s s') : Goes Q s s' := by
  obtain ⟨xs, hxs, hrun⟩ := h
  exact ⟨xs, fun x hx => hPQ x (hxs x hx), hrun⟩

end Goes

/-! ## What worlds do is made of deeds -/

variable {P : Deed → Prop} {w w' : World} {hand : Option (Consumer × Handling)}

theorem goes_act {α : Type} (f : Brokers → α × Brokers) (h : P (.act fun b => (f b).2)) :
    Goes P ⟨w, hand⟩ ⟨(w.act f).2, hand⟩ :=
  .single h rfl

theorem goes_spawnAll (ts : List Task) (h : ∀ t ∈ ts, P (.spawn t)) :
    ∀ w : World, Goes P ⟨w, hand⟩ ⟨(w.spawnAll ts).2, hand⟩ := by
  induction ts with
  | nil => exact fun w => .refl _
  | cons t rest ih =>
      intro w
      have hfirst : Goes P ⟨w, hand⟩ ⟨(w.spawn t).2, hand⟩ := .single (h t List.mem_cons_self) rfl
      exact hfirst.trans (ih (fun t ht => h t (List.mem_cons_of_mem _ ht)) _)

/-- A wait is made of turns and jumps. -/
theorem goes_wait (hturn : ∀ i, P (.turn i)) (hjump : ∀ t, P (.jump t))
    {isOver : World → Bool} {deadline : Option Instant} (h : w.wait isOver deadline = some w') :
    Goes P ⟨w, hand⟩ ⟨w', hand⟩ := by
  have hfrom : ∀ (budget : Nat) (w : World), World.waitFrom isOver deadline budget w = some w' →
      Goes P ⟨w, hand⟩ ⟨w', hand⟩ := by
    intro budget
    induction budget with
    | zero => intro w h; cases h
    | succ budget ih =>
        intro w h
        rw [World.waitFrom] at h
        split at h
        · next i ready hready =>
            have hafter : after ⟨w, hand⟩ (.turn i) =
                ⟨World.turn { w with ready } i, hand⟩ := by
              simp [after, hready]
            exact Goes.trans (.single (hturn i) hafter) (ih _ h)
        · split at h
          · injection h with h
            exact h ▸ .refl _
          · split at h
            · cases h
            · next t _ =>
                have hafter : Goes P ⟨w, hand⟩ ⟨w.jump t, hand⟩ := .single (hjump t) rfl
                simp only [] at h
                split at h
                · injection h with h
                  exact h ▸ hafter
                · exact hafter.trans (ih _ h)
  unfold World.wait at h
  split at h
  · injection h with h
    exact h ▸ .refl _
  · exact hfrom _ w h

/-- What is driven in the foreground is made of what is done to the brokers, and of
waits. -/
theorem goes_drive {σ α : Type} {turn : σ → Brokers → Turn σ α × Brokers}
    (hact : ∀ state, P (.act fun b => (turn state b).2)) (hturn : ∀ i, P (.turn i))
    (hjump : ∀ t, P (.jump t)) {state : σ} {result : α}
    (h : w.drive turn state = some (result, w')) : Goes P ⟨w, hand⟩ ⟨w', hand⟩ := by
  have hfrom : ∀ (budget : Nat) (state : σ) (w : World),
      World.driveFrom turn budget state w = some (result, w') →
      Goes P ⟨w, hand⟩ ⟨w', hand⟩ := by
    intro budget
    induction budget with
    | zero => intro state w h; cases h
    | succ budget ih =>
        intro state w h
        have hacted : Goes P ⟨w, hand⟩ ⟨(w.act (turn state)).2, hand⟩ :=
          goes_act (turn state) (hact state)
        rw [World.driveFrom] at h
        rcases hturned : w.act (turn state) with ⟨turned, w₁⟩
        rw [hturned] at hacted h
        cases turned with
        | done out =>
            cases h
            exact hacted
        | asleep sleep next =>
            obtain ⟨w₂, hwait, hrest⟩ := Option.bind_eq_some_iff.mp h
            exact hacted.trans ((goes_wait hturn hjump hwait).trans (ih next w₂ hrest))
  exact hfrom _ state w h

/-- The foreground goes on with the delivery in its hand until it is settled. -/
theorem goes_handle {c : Consumer} {outcome : Outcome} (hgoOn : P .goOn)
    (hturn : ∀ i, P (.turn i)) (hjump : ∀ t, P (.jump t)) {handling : Handling}
    (h : w.drive (Handling.turn c) handling = some (outcome, w')) :
    Goes P ⟨w, some (c, handling)⟩ ⟨w', none⟩ := by
  have hfrom : ∀ (budget : Nat) (handling : Handling) (w : World),
      World.driveFrom (Handling.turn c) budget handling w = some (outcome, w') →
      Goes P ⟨w, some (c, handling)⟩ ⟨w', none⟩ := by
    intro budget
    induction budget with
    | zero => intro handling w h; cases h
    | succ budget ih =>
        intro handling w h
        rw [World.driveFrom] at h
        rcases hturned : w.act (Handling.turn c handling) with ⟨turned, w₁⟩
        rw [hturned] at h
        cases turned with
        | done out =>
            cases h
            exact .single hgoOn (by simp only [after, hturned])
        | asleep sleep next =>
            obtain ⟨w₂, hwait, hrest⟩ := Option.bind_eq_some_iff.mp h
            have hasleep : Goes P ⟨w, some (c, handling)⟩ ⟨w₁, some (c, next)⟩ :=
              .single hgoOn (by simp only [after, hturned])
            exact hasleep.trans ((goes_wait hturn hjump hwait).trans (ih next w₂ hrest))
  exact hfrom _ handling w h

end Scene

/-! ## What commands do is made of deeds -/

open Scene (Goes)

namespace Session

/-- The deeds that a command may be made of. -/
inductive Undertakes (s : Session) (command : Command) : Deed → Prop where
  | works (f : Brokers → Brokers) (quiet : ∀ b, Quiet b (f b)) : Undertakes s command (.act f)
  | attempts (consumer : Nat) (ref : DeliveryRef) (c : Consumer)
      (asked : command = .onMessage consumer ref) (held : s.consumers[consumer]? = some c) :
    Undertakes s command (.act fun b => (c.endpoint.attempt (s.delivery ref) b).2)
  | spawns (t : Task) (fresh : t.Fresh) : Undertakes s command (.spawn t)
  | signals (ids : List Nat) (stop : StopSignal)
      (given : stop.isGiven = true ∨ ∃ task, command = .stopTask task stop) :
    Undertakes s command (.signal ids stop)
  | turns (id : Nat) : Undertakes s command (.turn id)
  | jumps (t : Instant) : Undertakes s command (.jump t)
  | begins (c : Consumer) (d : Rabbit.Delivery) : Undertakes s command (.begin c d)
  | goesOn : Undertakes s command .goOn

variable {α : Type} {s s' : Session} {command : Command} {reply : Except Failure Answer}
  {w w' : World}

theorem goes_works (f : Brokers → α × Brokers) (quiet : ∀ b, Quiet b (f b).2) (w : World) :
    Goes (s.Undertakes command) ⟨w, none⟩ ⟨(w.act f).2, none⟩ :=
  Scene.goes_act f (.works _ quiet)

theorem undertakes_of_asks {event : Event} (asks : s.Asks command event) :
    s.Undertakes command (.act fun b => b.on event) := by
  cases asks with
  | rabbit op | amazon op => exact .works _ fun _ => .of_eq rfl rfl
  | attempt consumer ref c given held => exact .attempts consumer ref c given held

theorem goes_waiting {isOver : World → Bool} {deadline : Option Instant}
    (h : w.wait isOver deadline = some w') :
    Goes (s.Undertakes command) ⟨w, none⟩ ⟨w', none⟩ :=
  Scene.goes_wait .turns .jumps h

theorem goes_driving {σ : Type} {turn : σ → Brokers → Turn σ α × Brokers}
    (quiet : ∀ state b, Quiet b (turn state b).2) {state : σ} {result : α}
    (h : w.drive turn state = some (result, w')) :
    Goes (s.Undertakes command) ⟨w, none⟩ ⟨w', none⟩ :=
  Scene.goes_drive (fun state => .works _ (quiet state)) .turns .jumps h

/-! ### Apps -/

theorem goes_startForwarding (a : App) (w : World) :
    Goes (s.Undertakes command) ⟨w, none⟩ ⟨(a.startForwarding w).2, none⟩ := by
  have hmade : Goes (s.Undertakes command) ⟨w, none⟩
      ⟨(w.act (Endpoint.generateAll a.rabbit.retry.enabled a.bridges)).2, none⟩ :=
    goes_works _ (fun b => (Endpoint.declares_ofBridges [] _ _ 0 b).1.quiet) w
  unfold App.startForwarding
  split
  · exact .refl _
  · split
    · next hacted =>
        rw [hacted] at hmade
        exact hmade
    · next hacted =>
        rw [hacted] at hmade
        refine hmade.trans (Scene.goes_spawnAll _ (fun t ht => ?_) _)
        obtain ⟨e, _, rfl⟩ := List.mem_map.mp ht
        exact .spawns _ (.inl ⟨_, rfl⟩)

theorem goes_startPolling (a : App) (w : World) :
    Goes (s.Undertakes command) ⟨w, none⟩ ⟨(a.startPolling w).2, none⟩ := by
  have hmade : Goes (s.Undertakes command) ⟨w, none⟩
      ⟨(w.act (App.prepareAll a.poller (Bridge.reverse a.bridges))).2, none⟩ :=
    goes_works _ (fun b => (App.declares_prepareAll [] _ _ b).1.quiet) w
  unfold App.startPolling
  split
  · exact .refl _
  · split
    · next hacted =>
        rw [hacted] at hmade
        exact hmade
    · next hacted =>
        rw [hacted] at hmade
        refine hmade.trans (Scene.goes_spawnAll _ (fun t ht => ?_) _)
        obtain ⟨d, _, rfl⟩ := List.mem_map.mp ht
        exact .spawns _ (.inr ⟨_, rfl⟩)

theorem goes_stopDirection {d : Direction} (h : App.stopDirection d w = some w') :
    Goes (s.Undertakes command) ⟨w, none⟩ ⟨w', none⟩ := by
  unfold App.stopDirection at h
  split at h
  · exact Goes.trans (.single (.signals d.tasks .requested (.inl rfl)) rfl) (goes_waiting h)
  · cases h
    exact .refl _

theorem goes_stopForwarding {a a' : App} (h : a.stopForwarding w = some (a', w')) :
    Goes (s.Undertakes command) ⟨w, none⟩ ⟨w', none⟩ := by
  obtain ⟨w₁, hstop, heq⟩ := Option.map_eq_some_iff.mp h
  cases heq
  exact goes_stopDirection hstop

theorem goes_stop {a a' : App} (h : a.stop w = some (a', w')) :
    Goes (s.Undertakes command) ⟨w, none⟩ ⟨w', none⟩ := by
  obtain ⟨⟨a₁, w₁⟩, hpolling, hforwarding⟩ := Option.bind_eq_some_iff.mp h
  obtain ⟨w₂, hstop, heq⟩ := Option.map_eq_some_iff.mp hpolling
  cases heq
  exact (goes_stopDirection hstop).trans (goes_stopForwarding hforwarding)

theorem goes_start {a a' : App} {result : Except Failure Unit}
    (h : a.start w = some (result, a', w')) :
    Goes (s.Undertakes command) ⟨w, none⟩ ⟨w', none⟩ := by
  have hforwarding : Goes (s.Undertakes command) ⟨w, none⟩ ⟨(a.startForwarding w).2, none⟩ :=
    goes_startForwarding a w
  unfold App.start at h
  rcases hforwarded : a.startForwarding w with ⟨forwarded, w₁⟩
  rw [hforwarded] at hforwarding h
  cases forwarded with
  | error failure =>
      cases h
      exact hforwarding
  | ok a₁ =>
      have hpolling := hforwarding.trans (goes_startPolling a₁ w₁)
      simp only [] at h
      rcases hpolled : a₁.startPolling w₁ with ⟨polled, w₂⟩
      rw [hpolled] at hpolling h
      cases polled with
      | ok a₂ =>
          cases h
          exact hpolling
      | error failure =>
          obtain ⟨⟨a₂, w₃⟩, hstop, heq⟩ := Option.map_eq_some_iff.mp h
          cases heq
          exact hpolling.trans (goes_stopForwarding hstop)

theorem goes_runFor {a a' : App} {millis : Nat} {result : Except Failure Unit}
    (h : a.runFor millis w = some (result, a', w')) :
    Goes (s.Undertakes command) ⟨w, none⟩ ⟨w', none⟩ := by
  obtain ⟨⟨started, a₁, w₁⟩, hstart, h⟩ := Option.bind_eq_some_iff.mp h
  have hstarted : Goes (s.Undertakes command) ⟨w, none⟩ ⟨w₁, none⟩ := goes_start hstart
  cases started with
  | error failure =>
      cases h
      exact hstarted
  | ok =>
      obtain ⟨w₂, hsleep, h⟩ := Option.bind_eq_some_iff.mp h
      obtain ⟨⟨a₃, w₃⟩, hstop, h⟩ := Option.bind_eq_some_iff.mp h
      cases h
      exact hstarted.trans ((goes_waiting hsleep).trans (goes_stop hstop))

/-! ### Commands -/

/-- Every command is made of the deeds that it may be made of. -/
theorem goes_step (h : s.step command = some (reply, s')) :
    Goes (s.Undertakes command) ⟨s.world, none⟩ ⟨s'.world, none⟩ := by
  have heffect := effect_of_step h
  generalize s'.world = w' at heffect ⊢
  cases heffect with
  | nothing => exact .refl _
  | happens asks => exact .single (undertakes_of_asks asks) rfl
  | declares f hdeclares =>
      exact goes_works (fun b => ((), f b)) (fun b => (hdeclares [] b).quiet) s.world
  | sends | provides => exact goes_works _ (fun _ => .of_eq rfl rfl) s.world
  | receives r driven => exact goes_driving r.quiet_turn driven
  | runs d index given held driven => exact goes_driving d.quiet_turn driven
  | handles c d driven =>
      exact Goes.trans (.single (.begins c d) rfl)
        (Scene.goes_handle .goesOn .turns .jumps driven)
  | waits ended => exact goes_waiting ended
  | spawns task fresh => exact .single (.spawns task fresh) rfl
  | abandons ids => exact .single (.signals ids .abandoned (.inl rfl)) rfl
  | signals task ids signal given ended =>
      exact Goes.trans (.single (.signals ids signal (.inr ⟨task, given⟩)) rfl)
        (goes_waiting ended)
  | starts a given held answered => exact goes_start answered
  | stops a answered => exact goes_stop answered
  | runsFor a millis given held answered => exact goes_runFor answered

end Session

end MessageBridge
