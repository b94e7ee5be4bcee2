import MessageBridge.Rabbit.Topic

/-!
# Patterns that match themselves

Every text matches itself as a pattern, since a wildcard stands for itself among
others. And a text is nothing but its words with points between them, so a pattern
in which no word is a wildcard matches no other text than itself.
-/

namespace MessageBridge.Rabbit

theorem mem_suffixes_self {α : Type} (xs : List α) : xs ∈ suffixes xs := by
  cases xs <;> exact List.mem_cons_self

theorem matchWords_self (ws : List String) : matchWords ws ws = true := by
  induction ws with
  | nil => rfl
  | cons w ws ih =>
      rw [matchWords]
      by_cases hw : w = "#"
      · rw [if_pos hw, List.any_eq_true]
        exact ⟨ws, List.mem_cons_of_mem _ (mem_suffixes_self ws), ih⟩
      · rw [if_neg hw]
        simp [ih]

theorem topicMatches_self (text : String) : topicMatches text text = true :=
  matchWords_self (words text)

theorem words_injective {a b : String} (h : words a = words b) : a = b := by
  have hpieces : Text.split '.' a.toList = Text.split '.' b.toList :=
    (List.map_inj_right fun _ _ => String.ofList_injective).mp h
  have hchars : a.toList = b.toList := by
    rw [← Text.join_split '.' a.toList, hpieces, Text.join_split]
  exact String.toList_inj.mp hchars

/-- The word stands for itself. -/
def IsLiteral (word : String) : Prop :=
  word ≠ "*" ∧ word ≠ "#"

instance (word : String) : Decidable (IsLiteral word) :=
  inferInstanceAs (Decidable (_ ∧ _))

theorem eq_of_matchWords {pattern key : List String} (hliteral : ∀ w ∈ pattern, IsLiteral w)
    (h : matchWords pattern key = true) : pattern = key := by
  induction pattern generalizing key with
  | nil => exact (List.isEmpty_iff.mp h).symm
  | cons p pattern ih =>
      obtain ⟨hone, hany⟩ := hliteral p List.mem_cons_self
      cases key with
      | nil => simp only [matchWords, if_neg hany, Bool.false_eq_true] at h
      | cons w key =>
          simp only [matchWords, if_neg hany, Bool.and_eq_true, Bool.or_eq_true,
            decide_eq_true_eq, hone, false_or] at h
          obtain ⟨rfl, hrest⟩ := h
          rw [ih (fun w hw => hliteral w (List.mem_cons_of_mem _ hw)) hrest]

/-- A pattern without wildcards matches no other text than itself. -/
theorem eq_of_topicMatches {pattern key : String} (hliteral : ∀ w ∈ words pattern, IsLiteral w)
    (h : topicMatches pattern key = true) : pattern = key :=
  words_injective (eq_of_matchWords hliteral h)

end MessageBridge.Rabbit
