import MessageBridge.Proofs.Process.Turns
import MessageBridge.Process.World

/-!
# What happens while the foreground waits

The tasks of a world have their turns only while the foreground waits. A wait is
a course in which each event is one of a task, by the rule of its work, or the
clock moves on. The tasks come and go through their states, but what they work on
never changes, so the rules of a world are the same before and after the wait.

Everything else that is done to a world, an action on the brokers, a new task, a
signal, leaves the tasks that are there with their rules and what they have taken.
-/

namespace MessageBridge

/-- Each event is allowed by some rule of a list, or the clock moves on. -/
inductive Interleaved (rules : List Rule) (h : List Moment) : Event → Prop where
  | ticks (t : Instant) : Interleaved rules h (.clock t)
  | works {rule : Rule} {event : Event} (mem : rule ∈ rules) (does : rule h event) :
    Interleaved rules h event

theorem Interleaved.mono {rules rules' : List Rule} (hsub : rules ⊆ rules')
    {h : List Moment} {event : Event} (hi : Interleaved rules h event) :
    Interleaved rules' h event := by
  cases hi with
  | ticks t => exact .ticks t
  | works mem does => exact .works (hsub mem) does

namespace World

/-- The rules of the tasks. -/
def rules (w : World) : List Rule :=
  w.tasks.map fun t => t.work.Does

/-- All tasks can account for the deliveries that they are busy with. -/
def Accounted (h : List Moment) (w : World) : Prop :=
  ∀ t ∈ w.tasks, t.work.Accounted h

theorem accounted_of_idle {w : World} (hidle : w.tasks = []) (h : List Moment) :
    w.Accounted h := by
  intro t ht
  rw [hidle] at ht
  cases ht

theorem Accounted.mono {h h' : List Moment} (hsub : h ⊆ h') {w : World}
    (ha : w.Accounted h) : w.Accounted h' :=
  fun t ht => (ha t ht).mono hsub

theorem works_signal (w : World) (ids : List Nat) (stop : StopSignal) :
    (w.signal ids stop).tasks.map (·.work) = w.tasks.map (·.work) := by
  have hwork : ∀ t : Task, (t.signal stop).work = t.work := by
    intro t
    unfold Task.signal
    split <;> rfl
  have hzip : ∀ x : Task × Nat,
      (if ids.contains x.2 then x.1.signal stop else x.1).work = x.1.work := by
    intro x
    split
    · exact hwork x.1
    · rfl
  show (w.tasks.zipIdx.map _).map _ = _
  rw [List.map_map]
  calc w.tasks.zipIdx.map _
      = w.tasks.zipIdx.map fun x => x.1.work := List.map_congr_left fun x _ => hzip x
    _ = (w.tasks.zipIdx.map Prod.fst).map (·.work) := by rw [List.map_map]; rfl
    _ = w.tasks.map (·.work) := by rw [List.zipIdx_map_fst]

/-- Tasks with the same work have the same rules. -/
theorem rules_of_works {w w' : World} (h : w'.tasks.map (·.work) = w.tasks.map (·.work)) :
    w'.rules = w.rules := by
  have hrules : ∀ w : World, w.rules = (w.tasks.map (·.work)).map Work.Does := by
    intro w
    rw [List.map_map]
    rfl
  rw [hrules, hrules, h]

theorem Accounted.of_works {past : List Moment} {w w' : World}
    (h : w'.tasks.map (·.work) = w.tasks.map (·.work)) (ha : w.Accounted past) :
    w'.Accounted past := by
  intro t ht
  have hmem : t.work ∈ w.tasks.map (·.work) := h ▸ List.mem_map_of_mem ht
  obtain ⟨t₀, ht₀, hwork⟩ := List.mem_map.mp hmem
  rw [← hwork]
  exact ha t₀ ht₀

@[simp] theorem tasks_spawnAll (ts : List Task) :
    ∀ w : World, (w.spawnAll ts).2.tasks = w.tasks ++ ts := by
  induction ts with
  | nil => intro w; exact (List.append_nil _).symm
  | cons t rest ih =>
      intro w
      rw [spawnAll]
      simp only []
      rw [ih]
      show w.tasks ++ [t] ++ rest = _
      rw [List.append_assoc]
      rfl

@[simp] theorem brokers_spawnAll (ts : List Task) :
    ∀ w : World, (w.spawnAll ts).2.brokers = w.brokers := by
  induction ts with
  | nil => intro w; rfl
  | cons t rest ih =>
      intro w
      rw [spawnAll]
      exact ih _

/-! ## Turns and waits -/

/-- What a stretch of time does to a world: the brokers went through a course of
the tasks, and the tasks are still at the same work. -/
def Passes (past : List Moment) (w w' : World) : Prop :=
  ∃ h, Course (Interleaved w.rules) past w.brokers h w'.brokers ∧ w'.rules = w.rules ∧
    w'.Accounted (past ++ h)

theorem Passes.refl {past : List Moment} {w : World} (ha : w.Accounted past) :
    Passes past w w :=
  ⟨[], .start, rfl, by rw [List.append_nil]; exact ha⟩

theorem passes_turn {past : List Moment} {w : World} (ha : w.Accounted past) (id : Nat) :
    Passes past w (w.turn id) := by
  unfold turn
  split
  · exact .refl ha
  · next t ht =>
      have hmem : t ∈ w.tasks := List.mem_of_getElem? ht
      obtain ⟨h, hcourse, hrule, hafter⟩ := t.course_turn w.turns w.brokers past (ha t hmem)
      simp only []
      rcases hturn : t.turn w.turns w.brokers with ⟨t', brokers⟩
      rw [hturn] at hcourse hrule hafter
      refine ⟨h, ?_, ?_, ?_⟩
      · exact hcourse.imp fun _ _ _ hdoes => .works (List.mem_map_of_mem hmem) hdoes
      · show (w.tasks.set id t').map _ = w.tasks.map _
        rw [List.map_set, hrule]
        obtain ⟨hlt, hget⟩ := List.getElem?_eq_some_iff.mp ht
        refine List.ext_getElem (List.length_set ..) ?_
        intro i hi hi'
        rw [List.getElem_set]
        split
        · next hid => simp only [← hid, List.getElem_map, hget]
        · rfl
      · intro x hx
        rcases List.mem_or_eq_of_mem_set hx with hx | rfl
        · exact (ha x hx).mono (List.subset_append_left _ _)
        · exact hafter

theorem passes_jump {past : List Moment} {w : World} (ha : w.Accounted past) (t : Instant) :
    Passes past w (w.jump t) :=
  ⟨_, .single (.ticks t) rfl, rfl, ha.mono (List.subset_append_left _ _)⟩

theorem Passes.trans {past : List Moment} {w₁ w₂ w₃ : World} (h₁₂ : Passes past w₁ w₂)
    (h₂₃ : ∀ past, w₂.Accounted past → Passes past w₂ w₃) : Passes past w₁ w₃ := by
  obtain ⟨h, hcourse, hrules, hafter⟩ := h₁₂
  obtain ⟨h', hcourse', hrules', hafter'⟩ := h₂₃ (past ++ h) hafter
  rw [hrules] at hcourse'
  refine ⟨h ++ h', hcourse.trans hcourse', hrules'.trans hrules, ?_⟩
  rw [← List.append_assoc]
  exact hafter'

theorem passes_waitFrom (isOver : World → Bool) (deadline : Option Instant) {w' : World} :
    ∀ (budget : Nat) (w : World) (past : List Moment), w.Accounted past →
      waitFrom isOver deadline budget w = some w' → Passes past w w' := by
  intro budget
  induction budget with
  | zero => intro w past _ h; cases h
  | succ budget ih =>
      intro w past ha h
      rw [waitFrom] at h
      split at h
      · next id ready _ =>
          have hturn : Passes past w (turn { w with ready } id) :=
            passes_turn (w := { w with ready }) ha id
          exact hturn.trans fun past ha => ih _ past ha h
      · split at h
        · injection h with h
          rw [← h]
          exact .refl ha
        · split at h
          · cases h
          · next t _ =>
              simp only [] at h
              split at h
              · injection h with h
                rw [← h]
                exact passes_jump ha t
              · exact (passes_jump ha t).trans fun past ha => ih _ past ha h

theorem passes_wait {isOver : World → Bool} {deadline : Option Instant} {w w' : World}
    {past : List Moment} (ha : w.Accounted past) (h : w.wait isOver deadline = some w') :
    Passes past w w' := by
  unfold wait at h
  split at h
  · injection h with h
    rw [← h]
    exact .refl ha
  · exact passes_waitFrom isOver deadline _ w past ha h

/-! ## Activities in the foreground -/

/-- An activity that keeps to a rule and to an invariant of its own is, together
with what the tasks do while it sleeps, a course. -/
theorem passes_driveFrom {σ α : Type} {turn : σ → Brokers → Turn σ α × Brokers}
    {rule : Rule} {Inv : σ → Prop} (hturn : ∀ state b past, Inv state →
      (∃ h, Course rule past b h (turn state b).2) ∧
        ∀ sleep next, (turn state b).1 = .asleep sleep next → Inv next)
    {result : α} {w' : World} :
    ∀ (budget : Nat) (state : σ) (w : World) (past : List Moment), Inv state →
      w.Accounted past → driveFrom turn budget state w = some (result, w') →
      ∃ h, Course (Interleaved (rule :: w.rules)) past w.brokers h w'.brokers ∧
        w'.rules = w.rules ∧ w'.Accounted (past ++ h) := by
  intro budget
  induction budget with
  | zero => intro state w past _ _ h; cases h
  | succ budget ih =>
      intro state w past hstate ha h
      obtain ⟨⟨h₁, hcourse⟩, hnext⟩ := hturn state w.brokers past hstate
      have hdoes : Course (Interleaved (rule :: w.rules)) past w.brokers h₁ _ :=
        hcourse.imp fun _ _ _ hdoes => .works List.mem_cons_self hdoes
      rw [driveFrom] at h
      unfold act at h
      rcases hturned : turn state w.brokers with ⟨turned, b₁⟩
      rw [hturned] at hdoes hnext h
      have ha₁ : Accounted (past ++ h₁) (notice { w with brokers := b₁ }) :=
        ha.mono (List.subset_append_left _ _)
      cases turned with
      | done out =>
          injection h with h
          injection h with _ h
          rw [← h]
          exact ⟨h₁, hdoes, rfl, ha₁⟩
      | asleep sleep next =>
          obtain ⟨w₂, hwait, hrest⟩ := Option.bind_eq_some_iff.mp h
          obtain ⟨h₂, hslept, hrules, ha₂⟩ := passes_wait ha₁ hwait
          obtain ⟨h₃, hlast, hrules', ha₃⟩ := ih next w₂ _ (hnext sleep next rfl) ha₂ hrest
          have hslept' : Course (Interleaved (rule :: w.rules)) _ _ h₂ _ :=
            hslept.imp fun _ _ _ hi => hi.mono (List.subset_cons_self rule w.rules)
          rw [hrules] at hlast
          refine ⟨h₁ ++ (h₂ ++ h₃), hdoes.trans (hslept'.trans hlast), hrules'.trans hrules, ?_⟩
          rw [← List.append_assoc, ← List.append_assoc]
          exact ha₃

end World

end MessageBridge
