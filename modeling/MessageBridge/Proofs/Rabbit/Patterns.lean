import MessageBridge.Proofs.Rabbit.Topic
import MessageBridge.Proofs.Text.Pieces
import Mathlib.Data.List.Forall2

/-!
# The language of topic patterns

A pattern stands for all routing keys that come about by putting words in the place of
its words: one word for each `*`, any words for each `#`, and every other word for
itself. `Fills` says so of lists of words. There may be many ways to fill a pattern, as
several `#` can share the words between them in any way; the matcher tries all of them,
and it answers yes exactly when there is one.
-/

namespace MessageBridge.Rabbit

/-! ## Filling a pattern -/

/-- The words that may stand in the place of a word of a pattern. -/
inductive StandsFor : String → List String → Prop where
  | one (w : String) : StandsFor "*" [w]
  | any (ws : List String) : StandsFor "#" ws
  | itself {w : String} (h : IsLiteral w) : StandsFor w [w]

/-- The words of a key, when each word of a pattern is replaced. -/
def Fills (pattern key : List String) : Prop :=
  ∃ parts : List (List String), List.Forall₂ StandsFor pattern parts ∧ key = parts.flatten

/-- Every word but `#` stands for one word. -/
theorem standsFor_word {p : String} (hp : p ≠ "#") {ws : List String} :
    StandsFor p ws ↔ ∃ w, ws = [w] ∧ (p = "*" ∨ p = w) := by
  constructor
  · intro h
    cases h with
    | one w => exact ⟨w, rfl, .inl rfl⟩
    | any => exact absurd rfl hp
    | itself => exact ⟨p, rfl, .inr rfl⟩
  · intro ⟨w, hw, h⟩
    subst hw
    by_cases hstar : p = "*"
    · subst hstar
      exact .one w
    · obtain rfl := h.resolve_left hstar
      exact .itself ⟨hstar, hp⟩

@[simp] theorem fills_nil {key : List String} : Fills [] key ↔ key = [] := by
  simp [Fills]

/-- The words that stand for the first word of a pattern come first. -/
theorem fills_cons {p : String} {pattern key : List String} :
    Fills (p :: pattern) key ↔
      ∃ ws rest, StandsFor p ws ∧ Fills pattern rest ∧ key = ws ++ rest := by
  constructor
  · intro ⟨parts, hparts, hkey⟩
    obtain ⟨ws, more, hws, hmore, rfl⟩ := List.forall₂_cons_left_iff.mp hparts
    exact ⟨ws, more.flatten, hws, ⟨more, hmore, rfl⟩, hkey⟩
  · intro ⟨ws, rest, hws, ⟨more, hmore, hrest⟩, hkey⟩
    exact ⟨ws :: more, .cons hws hmore, by rw [hkey, hrest, List.flatten_cons]⟩

/-! ## The matcher finds a filling -/

theorem mem_suffixes {α : Type} {xs rest : List α} :
    rest ∈ suffixes xs ↔ ∃ front, xs = front ++ rest := by
  induction xs with
  | nil => simp [suffixes, eq_comm]
  | cons x xs ih =>
      rw [suffixes, List.mem_cons, ih]
      constructor
      · intro h
        obtain rfl | ⟨front, rfl⟩ := h
        · exact ⟨[], rfl⟩
        · exact ⟨x :: front, rfl⟩
      · intro ⟨front, h⟩
        cases front with
        | nil => exact .inl h.symm
        | cons y front => exact .inr ⟨front, (List.cons.inj h).2⟩

/-- By the words of the pattern: the first one takes a front of the key, and what is left
of the key is for the others. -/
theorem matchWords_iff {pattern key : List String} :
    matchWords pattern key = true ↔ Fills pattern key := by
  induction pattern generalizing key with
  | nil => simp [matchWords]
  | cons p pattern ih =>
      rw [matchWords.eq_def, fills_cons]
      simp only []
      by_cases hany : p = "#"
      · subst hany
        rw [if_pos rfl, List.any_eq_true]
        constructor
        · intro hsome
          obtain ⟨rest, hrest, hmatch⟩ := hsome
          obtain ⟨front, hkey⟩ := mem_suffixes.mp hrest
          exact ⟨front, rest, .any front, ih.mp hmatch, hkey⟩
        · intro hsplit
          obtain ⟨ws, rest, _, hfills, hkey⟩ := hsplit
          exact ⟨rest, mem_suffixes.mpr ⟨ws, hkey⟩, ih.mpr hfills⟩
      · rw [if_neg hany]
        simp only [standsFor_word hany]
        cases key with
        | nil => simp
        | cons w key =>
            rw [Bool.and_eq_true, ih]
            constructor
            · intro hboth
              obtain ⟨hw, hfills⟩ := hboth
              exact ⟨[w], key, ⟨w, rfl, by simpa using hw⟩, hfills, rfl⟩
            · intro hsplit
              obtain ⟨_, rest, ⟨w', rfl, hw⟩, hfills, hkey⟩ := hsplit
              obtain ⟨rfl, rfl⟩ := List.cons.inj hkey
              exact ⟨by simpa using hw, hfills⟩

theorem topicMatches_iff {pattern key : String} :
    topicMatches pattern key = true ↔ Fills (words pattern) (words key) :=
  matchWords_iff

/-- A pattern matches a routing key exactly when the words of the key come about by putting
words in the place of the words of the pattern: one word for `*`, any words for `#`, and
each other word for itself. The words of a text are those between its points; the empty
text has one, which is empty. And every text matches itself, wildcards or not. -/
theorem matches_iff_fills (pattern key : String) :
    (topicMatches pattern key = true ↔
      ∃ parts, List.Forall₂ StandsFor (words pattern) parts ∧ words key = parts.flatten) ∧
    (∀ text ws, words text = ws ↔
      ws ≠ [] ∧ (∀ w ∈ ws, '.' ∉ w.toList) ∧ ".".intercalate ws = text) ∧
    words "" = [""] ∧
    topicMatches key key = true :=
  ⟨topicMatches_iff, fun _ _ => Text.pieces_eq_iff, rfl, topicMatches_self key⟩

/-- Two `#` share three words between them, with a `*` that takes one of the others. -/
example : topicMatches "#.b.*.#" "a.b.c.d.e" = true ∧ topicMatches "#.b.*.#" "a.c.b" = false := by
  decide +kernel

end MessageBridge.Rabbit
