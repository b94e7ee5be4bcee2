import MessageBridge.Text.Pieces

/-!
# Cutting a text and joining the pieces

Cutting at a separator and joining with it are inverse to each other. The pieces are
the only texts without the separator that come to the text again, so what the cutting
does can be said without it.
-/

namespace MessageBridge.Text

theorem split_cons {sep c : Char} {rest piece : List Char} {more : List (List Char)}
    (h : split sep rest = piece :: more) :
    split sep (c :: rest) = if c = sep then [] :: piece :: more else (c :: piece) :: more := by
  rw [split, h]

theorem split_eq_splitOn (sep : Char) (cs : List Char) : split sep cs = cs.splitOn sep := by
  induction cs with
  | nil => rfl
  | cons c rest ih =>
      obtain ⟨piece, more, hrest⟩ := List.exists_cons_of_ne_nil (split_ne_nil sep rest)
      rw [split_cons hrest, List.splitOn_cons_eq_if_modifyHead, ← ih, hrest]
      simp only [beq_iff_eq, List.modifyHead_cons]

theorem not_mem_of_mem_split {sep : Char} {cs piece : List Char} (h : piece ∈ split sep cs) :
    sep ∉ piece := by
  induction cs generalizing piece with
  | nil =>
      rw [split, List.mem_singleton] at h
      simp [h]
  | cons c rest ih =>
      obtain ⟨first, more, hrest⟩ := List.exists_cons_of_ne_nil (split_ne_nil sep rest)
      rw [hrest] at ih
      rw [split_cons hrest] at h
      by_cases hc : c = sep
      · rw [if_pos hc, List.mem_cons] at h
        obtain rfl | h := h
        · simp
        · exact ih h
      · rw [if_neg hc, List.mem_cons] at h
        obtain rfl | h := h
        · simpa [Ne.symm hc] using ih List.mem_cons_self
        · exact ih (List.mem_cons_of_mem _ h)

/-- The pieces of a text are the texts without the separator that are joined to it. -/
theorem mem_of_mem_split {sep c : Char} {cs piece : List Char} (h : piece ∈ split sep cs)
    (hc : c ∈ piece) : c ∈ cs := by
  induction cs generalizing piece with
  | nil =>
      rw [split, List.mem_singleton] at h
      exact h ▸ hc
  | cons d rest ih =>
      obtain ⟨first, more, hrest⟩ := List.exists_cons_of_ne_nil (split_ne_nil sep rest)
      rw [hrest] at ih
      rw [split_cons hrest] at h
      split at h
      · rcases List.mem_cons.mp h with rfl | h
        · cases hc
        · exact List.mem_cons_of_mem _ (ih h hc)
      · rcases List.mem_cons.mp h with rfl | h
        · rcases List.mem_cons.mp hc with rfl | hc
          · exact List.mem_cons_self
          · exact List.mem_cons_of_mem _ (ih List.mem_cons_self hc)
        · exact List.mem_cons_of_mem _ (ih (List.mem_cons_of_mem _ h) hc)

theorem pieces_eq_iff {sep : Char} {text : String} {ps : List String} :
    pieces sep text = ps ↔
      ps ≠ [] ∧ (∀ p ∈ ps, sep ∉ p.toList) ∧ (String.singleton sep).intercalate ps = text := by
  have htoList : ∀ css : List (List Char), (css.map String.ofList).map String.toList = css := by
    intro css
    simp [Function.comp_def]
  constructor
  · intro h
    subst h
    refine ⟨by simp [pieces, split_ne_nil], ?_, ?_⟩
    · intro p hp
      obtain ⟨piece, hpiece, rfl⟩ := List.mem_map.mp hp
      rw [String.toList_ofList]
      exact not_mem_of_mem_split hpiece
    · rw [← String.toList_inj, String.toList_intercalate, String.toList_singleton, pieces,
        htoList, split_eq_splitOn, List.intercalate_splitOn]
  · intro ⟨hsome, hpieces, hjoined⟩
    subst hjoined
    rw [pieces, String.toList_intercalate, String.toList_singleton, split_eq_splitOn,
      List.splitOn_intercalate sep (by simpa using hpieces) (by simpa using hsome)]
    simp [Function.comp_def]

end MessageBridge.Text
