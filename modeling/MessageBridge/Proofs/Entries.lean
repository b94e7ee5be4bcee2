import MessageBridge.Entries
import Mathlib.Data.List.Nodup

/-!
# Looking up and setting entries

What is found at a key after an entry was set, dropped or put at the end, and that
setting an entry repeats no key.
-/

namespace MessageBridge

namespace Entries

variable {α : Type} {key : String} {v : α} {es : Entries α}

/-! ## What is found -/

theorem get?_set (key k : String) (v : α) (es : Entries α) :
    get? k (set key v es) = if k = key then some v else get? k es := by
  induction es with
  | nil => simp [set, get?, eq_comm]
  | cons e es ih =>
      obtain ⟨k₀, v₀⟩ := e
      rw [set]
      by_cases h₀ : k₀ = key
      · rw [if_pos h₀]
        by_cases hk : k = key
        · simp [get?, h₀, hk]
        · have hne : ¬ k₀ = k := fun h => hk (h.symm.trans h₀)
          simp [get?, hk, hne]
      · rw [if_neg h₀, get?, get?, ih]
        by_cases hk : k = key
        · simp [hk, h₀]
        · simp [hk]

theorem get?_erase (key k : String) (es : Entries α) :
    get? k (erase key es) = if k = key then none else get? k es := by
  unfold erase
  induction es with
  | nil => simp [get?]
  | cons e es ih =>
      obtain ⟨k₀, v₀⟩ := e
      rw [List.filter_cons]
      by_cases h₀ : k₀ = key
      · simp only [h₀, ne_eq, not_true, decide_false, Bool.false_eq_true, if_false]
        rw [ih, get?]
        by_cases hk : k = key
        · simp [hk]
        · simp [hk, Ne.symm hk]
      · simp only [ne_eq, h₀, not_false_iff, decide_true, if_true]
        rw [get?, get?, ih]
        by_cases hk : k = key
        · simp [hk, h₀]
        · simp [hk]

theorem get?_append (k key : String) (v : α) (es : Entries α) :
    get? k (es ++ [(key, v)]) = (get? k es).or (if k = key then some v else none) := by
  induction es with
  | nil => simp [get?, eq_comm]
  | cons e es ih =>
      obtain ⟨k₀, v₀⟩ := e
      rw [List.cons_append, get?, get?, ih]
      split <;> rfl

theorem get?_modify (key k : String) (f : α → α) (es : Entries α) :
    get? k (modify key f es) = if k = key then (get? k es).map f else get? k es := by
  induction es with
  | nil => simp [modify, get?]
  | cons e es ih =>
      obtain ⟨k₀, v₀⟩ := e
      rw [modify]
      by_cases h₀ : k₀ = key
      · rw [if_pos h₀, get?, get?]
        by_cases hk : k = key
        · simp [h₀, hk]
        · have hne : ¬ k₀ = k := fun h => hk (h.symm.trans h₀)
          simp [hk, hne]
      · rw [if_neg h₀, get?, get?, ih]
        by_cases hk : k = key
        · simp [hk, h₀]
        · simp [hk]

theorem mem_of_get? (h : get? key es = some v) :
    (key, v) ∈ es := by
  induction es with
  | nil => cases h
  | cons e es ih =>
      obtain ⟨k, w⟩ := e
      rw [get?] at h
      split at h
      · next hk =>
          injection h with h
          exact hk ▸ h ▸ List.mem_cons_self
      · exact List.mem_cons_of_mem _ (ih h)

theorem isSome_get?_iff : (get? key es).isSome = true ↔ key ∈ keys es := by
  induction es with
  | nil => simp [get?, keys]
  | cons e es ih =>
      obtain ⟨k, w⟩ := e
      rw [get?, keys, List.map_cons, List.mem_cons]
      split
      · next hk => simp [hk]
      · next hk => simp [ih, keys, Ne.symm hk]

theorem get?_eq_none_iff : get? key es = none ↔ key ∉ keys es := by
  rw [← isSome_get?_iff, Bool.not_eq_true, Option.isSome_eq_false_iff, Option.isNone_iff_eq_none]

/-- Where each key stands once, the value of an entry is found at its key. -/
theorem DistinctKeys.get?_of_mem (h : es.DistinctKeys) (hmem : (key, v) ∈ es) :
    get? key es = some v := by
  induction es with
  | nil => cases hmem
  | cons e es ih =>
      obtain ⟨k, w⟩ := e
      obtain ⟨hnew, hrest⟩ := List.nodup_cons.mp h
      rw [get?]
      rcases List.mem_cons.mp hmem with heq | hmem
      · cases heq
        rw [if_pos rfl]
      · have hk : k ≠ key := fun hk => hnew (List.mem_map.mpr ⟨_, hmem, hk.symm⟩)
        rw [if_neg hk]
        exact ih hrest hmem

theorem get?_append_left (h : get? key es = some v) (later : Entries α) :
    get? key (es ++ later) = some v := by
  induction es with
  | nil => cases h
  | cons e es ih =>
      obtain ⟨k, w⟩ := e
      rw [get?] at h
      rw [List.cons_append, get?]
      split at h
      · next hk => rw [if_pos hk, h]
      · next hk => rw [if_neg hk, ih h]

/-- The entry that is found is the one that is set. -/
theorem split_of_get? (h : get? key es = some v) :
    ∃ before later, es = before ++ (key, v) :: later ∧
      ∀ w, set key w es = before ++ (key, w) :: later := by
  induction es with
  | nil => cases h
  | cons e es ih =>
      obtain ⟨k, u⟩ := e
      rw [get?] at h
      split at h
      · next hk =>
          injection h with h
          exact ⟨[], es, by rw [hk, h]; rfl, fun w => by rw [set, if_pos hk, hk]; rfl⟩
      · next hk =>
          obtain ⟨before, later, hes, hset⟩ := ih h
          exact ⟨(k, u) :: before, later, by rw [hes]; rfl,
            fun w => by rw [set, if_neg hk, hset]; rfl⟩

/-! ## What is set -/

theorem keys_modify (key : String) (f : α → α) (es : Entries α) :
    keys (modify key f es) = keys es := by
  induction es with
  | nil => rfl
  | cons e es ih =>
      obtain ⟨k, w⟩ := e
      rw [modify]
      split
      · rfl
      · exact congrArg (k :: ·) ih

/-- Changing the value at a key changes the one entry with this key. -/
theorem DistinctKeys.modify_eq (h : es.DistinctKeys) (key : String) (f : α → α) :
    modify key f es = es.map fun e => if e.1 = key then (e.1, f e.2) else e := by
  induction es with
  | nil => rfl
  | cons e es ih =>
      obtain ⟨k, w⟩ := e
      obtain ⟨hnew, hrest⟩ := List.nodup_cons.mp h
      rw [modify, List.map_cons]
      by_cases hk : k = key
      · have hothers : es.map (fun e => if e.1 = key then (e.1, f e.2) else e) = es := by
          refine (List.map_congr_left fun e he => if_neg fun he₀ => hnew ?_).trans es.map_id'
          have hmem : e.1 ∈ keys es := List.mem_map_of_mem he
          rwa [he₀, ← hk] at hmem
        rw [if_pos hk, if_pos hk, hothers]
      · rw [if_neg hk, if_neg hk, ih hrest]

theorem set_of_new (h : key ∉ keys es) (v : α) : set key v es = es ++ [(key, v)] := by
  induction es with
  | nil => rfl
  | cons e es ih =>
      obtain ⟨k, w⟩ := e
      have hk : k ≠ key := fun hk => h (hk ▸ List.mem_cons_self)
      rw [set, if_neg hk, ih fun hmem => h (List.mem_cons_of_mem _ hmem)]
      rfl

/-- To set what is made of the value at a key is to change this value. -/
theorem set_of_get? (h : get? key es = some v) (f : α → α) :
    set key (f v) es = modify key f es := by
  induction es with
  | nil => cases h
  | cons e es ih =>
      obtain ⟨k, w⟩ := e
      rw [get?] at h
      rw [set, modify]
      split at h
      · next hk =>
          injection h with h
          rw [if_pos hk, if_pos hk, h]
      · next hk => rw [if_neg hk, if_neg hk, ih h]

/-- A key that is there keeps its place. -/
theorem set_of_split {before later : Entries α} {old : α} (h : key ∉ keys before) (v : α) :
    set key v (before ++ (key, old) :: later) = before ++ (key, v) :: later := by
  induction before with
  | nil => rw [List.nil_append, set, if_pos rfl, List.nil_append]
  | cons e before ih =>
      obtain ⟨k, w⟩ := e
      have hk : k ≠ key := fun hk => h (hk ▸ List.mem_cons_self)
      rw [List.cons_append, set, if_neg hk, ih fun hmem => h (List.mem_cons_of_mem _ hmem)]
      rfl

/-- Setting an entry leaves the others as they are. -/
theorem erase_set (key : String) (v : α) (es : Entries α) :
    erase key (set key v es) = erase key es := by
  simp only [erase]
  induction es with
  | nil => simp [set]
  | cons e es ih =>
      obtain ⟨k, w⟩ := e
      rw [set]
      split
      · next hk => simp [hk]
      · next hk => rw [List.filter_cons, List.filter_cons, ih]

theorem mem_set {e : String × α} (h : e ∈ set key v es) : e = (key, v) ∨ e ∈ es := by
  induction es with
  | nil => exact .inl (List.mem_singleton.mp h)
  | cons e₀ es ih =>
      obtain ⟨k, w⟩ := e₀
      rw [set] at h
      split at h
      · next hk =>
          rcases List.mem_cons.mp h with h | h
          · exact .inl (hk ▸ h)
          · exact .inr (List.mem_cons_of_mem _ h)
      · rcases List.mem_cons.mp h with h | h
        · exact .inr (h ▸ List.mem_cons_self)
        · exact (ih h).imp_right (List.mem_cons_of_mem _)

theorem keys_set (key : String) (v : α) (es : Entries α) :
    keys (set key v es) = keys es ∨
      key ∉ keys es ∧ keys (set key v es) = keys es ++ [key] := by
  induction es with
  | nil => exact .inr ⟨List.not_mem_nil, rfl⟩
  | cons e es ih =>
      obtain ⟨k, w⟩ := e
      rw [set]
      split
      · exact .inl rfl
      · next hk =>
          rcases ih with h | ⟨hnew, h⟩
          · exact .inl (congrArg (k :: ·) h)
          · refine .inr ⟨?_, congrArg (k :: ·) h⟩
            exact List.not_mem_cons_of_ne_of_not_mem (fun h => hk h.symm) hnew

theorem DistinctKeys.set (h : es.DistinctKeys) (key : String) (v : α) :
    (set key v es).DistinctKeys := by
  unfold DistinctKeys
  rcases keys_set key v es with hkeys | ⟨hnew, hkeys⟩
  · rw [hkeys]
    exact h
  · rw [hkeys, ← List.concat_eq_append]
    exact (List.nodup_concat _ _).mpr ⟨hnew, h⟩

end Entries

end MessageBridge
