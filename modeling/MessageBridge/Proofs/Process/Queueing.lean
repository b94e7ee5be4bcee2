import MessageBridge.Process.World
import MessageBridge.Proofs.Process.Waiting
import Mathlib.Algebra.BigOperators.Group.List.Basic
import Mathlib.Algebra.GroupWithZero.Nat

/-!
# Which task is where

Tasks are known by their numbers, and a number stays with its task: a signal and
a turn change a task in its place, and a new task comes last. The queue of those
that can go on only gets new members when something is noticed, and after that
nothing is left to notice.

A task that is over is never queued, and nothing happens to it any more.

A wait goes through turns and jumps only, so what both of them preserve is
preserved by the wait.
-/

namespace MessageBridge

/-! ## Tasks that are over -/

namespace Task

theorem urgency?_of_over {t : Task} (h : t.isAlive = false) (b : Brokers) :
    t.urgency? b = none := by
  obtain ⟨work, stop⟩ := t
  cases work with
  | consuming c state => cases state <;> first | rfl | cases h
  | polling p state => cases state <;> first | rfl | cases h

theorem turn_of_over {t : Task} (h : t.isAlive = false) (number : Nat) (b : Brokers) :
    t.turn number b = (t, b) := by
  obtain ⟨work, stop⟩ := t
  cases work with
  | consuming c state => cases state <;> first | rfl | cases h
  | polling p state => cases state <;> first | rfl | cases h

theorem signal_of_over {t : Task} (h : t.isAlive = false) (stop : StopSignal) :
    (t.signal stop).isAlive = false := by
  unfold signal
  split <;> exact h

end Task

namespace World

variable {w w' : World} {i : Nat} {t : Task}

/-! ## Noticing -/

theorem able_eq_nil (h : ∀ i t, w.tasks[i]? = some t → i ∈ w.ready ∨ t.urgency? w.brokers = none) :
    w.able = [] := by
  unfold able
  rw [List.filterMap_eq_nil_iff]
  rintro ⟨t, i⟩ hmem
  have hget := List.mem_zipIdx_iff_getElem?.mp hmem
  rcases h i t hget with hready | hnone
  · simp [hready]
  · simp [hnone]

theorem mem_able {u : Urgency} :
    (u, i) ∈ w.able ↔ i ∉ w.ready ∧ ∃ t, w.tasks[i]? = some t ∧ t.urgency? w.brokers = some u := by
  unfold able
  rw [List.mem_filterMap]
  constructor
  · rintro ⟨⟨t, j⟩, hmem, hsome⟩
    have hget := List.mem_zipIdx_iff_getElem?.mp hmem
    simp only [List.contains_iff_mem] at hsome
    split at hsome
    · cases hsome
    · next hready =>
        obtain ⟨u', hu, heq⟩ := Option.map_eq_some_iff.mp hsome
        cases heq
        exact ⟨hready, t, hget, hu⟩
  · rintro ⟨hready, t, hget, hu⟩
    refine ⟨(t, i), List.mem_zipIdx_iff_getElem?.mpr hget, ?_⟩
    simp [hready, hu]

theorem notice_of_able (h : w.able = []) : w.notice = w := by
  unfold notice
  rw [h]
  simp

/-- Nothing is noticed twice. -/
theorem able_notice (w : World) : w.notice.able = [] := by
  refine able_eq_nil fun i t ht => ?_
  cases hurgency : t.urgency? w.brokers with
  | none => exact .inr hurgency
  | some u =>
      refine .inl ?_
      show i ∈ w.ready ++ _
      by_cases hready : i ∈ w.ready
      · exact List.mem_append_left _ hready
      · have hable := mem_able.mpr ⟨hready, t, ht, hurgency⟩
        have hsorted : (u, i) ∈ w.able.mergeSort fun a b => a.1.le b.1 :=
          List.mem_mergeSort.mpr hable
        exact List.mem_append_right _ (List.mem_map_of_mem hsorted)

/-! ## Numbers -/

theorem getElem?_signal (w : World) (ids : List Nat) (stop : StopSignal) (i : Nat) :
    (w.signal ids stop).tasks[i]? =
      (w.tasks[i]?).map fun t => if ids.contains i then t.signal stop else t := by
  show (w.tasks.zipIdx.map _)[i]? = _
  rw [List.getElem?_map, List.getElem?_zipIdx]
  cases w.tasks[i]? <;> simp

/-- New tasks get the numbers behind those that are there. -/
theorem ids_spawnAll (ts : List Task) :
    ∀ w : World, (w.spawnAll ts).1 = List.range' w.tasks.length ts.length := by
  induction ts with
  | nil => intro w; rfl
  | cons t rest ih =>
      intro w
      rw [spawnAll]
      simp only []
      rw [ih]
      show w.tasks.length :: List.range' (w.tasks ++ [t]).length rest.length =
        List.range' w.tasks.length (rest.length + 1)
      rw [List.length_append, List.range'_succ]
      rfl

theorem spawnAll_eq {ts : List Task} {ids : List Nat} (h : w.spawnAll ts = (ids, w')) :
    ids = List.range' w.tasks.length ts.length ∧ w'.brokers = w.brokers ∧
      w'.tasks = w.tasks ++ ts := by
  have hids := ids_spawnAll ts w
  have hbrokers := brokers_spawnAll ts w
  have htasks := tasks_spawnAll ts w
  rw [h] at hids hbrokers htasks
  exact ⟨hids, hbrokers, htasks⟩

theorem patience_spawnAll (ts : List Task) :
    ∀ w : World, (w.spawnAll ts).2.patience = w.patience := by
  induction ts with
  | nil => intro w; rfl
  | cons t rest ih => intro w; exact ih _

/-- Consumers that are new are queued in the order of their numbers. -/
theorem ready_spawnAll (cs : List Consumer) :
    ∀ w : World, w.able = [] → (∀ i ∈ w.ready, i < w.tasks.length) →
      (w.spawnAll (cs.map .consumer)).2.ready =
        w.ready ++ List.range' w.tasks.length cs.length := by
  induction cs with
  | nil => intro w _ _; exact (List.append_nil _).symm
  | cons c rest ih =>
      intro w hable hbound
      have hnew : w.ready.contains w.tasks.length = false := by
        rw [Bool.eq_false_iff]
        intro hcontains
        exact Nat.lt_irrefl _ (hbound _ (List.contains_iff_mem.mp hcontains))
      have hnoticed : (w.spawn (.consumer c)).2.ready = w.ready ++ [w.tasks.length] := by
        show w.ready ++ (List.mergeSort (able { w with tasks := w.tasks ++ [.consumer c] }) _).map _
          = _
        have hone : able { w with tasks := w.tasks ++ [.consumer c] } =
            [(.awake 0, w.tasks.length)] := by
          unfold able at hable ⊢
          show ((w.tasks ++ [Task.consumer c]).zipIdx.filterMap _) = _
          rw [List.zipIdx_append, List.filterMap_append, hable, Nat.zero_add, List.nil_append,
            List.zipIdx_singleton, List.filterMap_cons]
          simp only [hnew]
          rfl
        rw [hone, List.mergeSort_singleton]
        rfl
      rw [List.map_cons, spawnAll]
      simp only []
      rw [ih (w.spawn (.consumer c)).2 (able_notice _), hnoticed]
      · show w.ready ++ [w.tasks.length] ++ List.range' (w.tasks ++ [_]).length rest.length =
          w.ready ++ List.range' w.tasks.length (rest.length + 1)
        rw [List.length_append, List.append_assoc, List.range'_succ]
        rfl
      · intro i hi
        rw [hnoticed] at hi
        show i < (w.tasks ++ [_]).length
        rw [List.length_append]
        rcases List.mem_append.mp hi with hi | hi
        · exact Nat.lt_of_lt_of_le (hbound i hi) (Nat.le_add_right _ _)
        · obtain rfl := List.mem_singleton.mp hi
          exact Nat.lt_add_one _

/-- What is done to the brokers is all that is done. -/
theorem act_eq {α : Type} {f : Brokers → α × Brokers} {x : α} (h : w.act f = (x, w')) :
    f w.brokers = (x, w'.brokers) ∧ w'.tasks = w.tasks := by
  cases h
  exact ⟨rfl, rfl⟩

/-! ## Turns -/

/-- What is summed over the tasks changes with the task that is changed. -/
theorem sum_map_set (f : Task → Nat) (t : Task) :
    ∀ (ts : List Task) (i : Nat) {old : Task}, ts[i]? = some old →
      ((ts.set i t).map f).sum + f old = (ts.map f).sum + f t := by
  intro ts
  induction ts with
  | nil => intro i old h; cases h
  | cons x ts ih =>
      intro i old h
      cases i with
      | zero =>
          cases h
          simp only [List.set_cons_zero, List.map_cons, List.sum_cons]
          omega
      | succ i =>
          have hrest := ih i h
          simp only [List.set_cons_succ, List.map_cons, List.sum_cons]
          omega

/-- A turn changes its task in its place. -/
theorem turn_eq (ht : w.tasks[i]? = some t) :
    w.turn i = notice { w with
      brokers := (t.turn w.turns w.brokers).2
      ready := if ((t.turn w.turns w.brokers).1.urgency? (t.turn w.turns w.brokers).2).isSome
        then i :: w.ready else w.ready
      tasks := w.tasks.set i (t.turn w.turns w.brokers).1
      turns := w.turns + 1 } := by
  unfold turn
  rw [ht]

theorem turn_of_none (ht : w.tasks[i]? = none) : w.turn i = w := by
  unfold turn
  rw [ht]

/-- What holds after every turn and every jump holds after a wait. The queue and
the count of turns are the business of the wait alone. -/
theorem wait_preserves {P : World → Prop} (hready : ∀ w ready, P w → P { w with ready })
    (hturn : ∀ w i, P w → P (w.turn i)) (hjump : ∀ w now, P w → P (w.jump now))
    {isOver : World → Bool} {deadline : Option Instant} (h : w.wait isOver deadline = some w')
    (hw : P w) : P w' := by
  have hfrom : ∀ (budget : Nat) (w : World), P w →
      waitFrom isOver deadline budget w = some w' → P w' := by
    intro budget
    induction budget with
    | zero => intro w _ h; cases h
    | succ budget ih =>
        intro w hw h
        rw [waitFrom] at h
        split at h
        · next i ready _ => exact ih _ (hturn _ i (hready w ready hw)) h
        · split at h
          · injection h with h
            exact h ▸ hw
          · split at h
            · cases h
            · next now _ =>
                simp only [] at h
                split at h
                · injection h with h
                  exact h ▸ hjump w now hw
                · exact ih _ (hjump w now hw) h
  unfold wait at h
  split at h
  · injection h with h
    exact h ▸ hw
  · exact hfrom w.patience w hw h

/-- When the foreground goes on, its waiting is over. -/
theorem isOver_of_wait {isOver : World → Bool} {deadline : Option Instant}
    (h : w.wait isOver deadline = some w') : isOver w' = true := by
  have hfrom : ∀ (budget : Nat) (w : World), waitFrom isOver deadline budget w = some w' →
      isOver w' = true := by
    intro budget
    induction budget with
    | zero => intro w h; cases h
    | succ budget ih =>
        intro w h
        rw [waitFrom] at h
        split at h
        · exact ih _ h
        · split at h
          · next hover =>
              injection h with h
              exact h ▸ hover
          · split at h
            · cases h
            · simp only [] at h
              split at h
              · next hover =>
                  injection h with h
                  exact h ▸ hover
              · exact ih _ h
  unfold wait at h
  split at h
  · next hover =>
      injection h with h
      exact h ▸ hover
  · exact hfrom w.patience w h

end World

end MessageBridge
