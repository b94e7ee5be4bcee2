/-!
# Texts cut at a separator

Topic patterns, routing keys, output paths and lists of files are all texts cut
at one character. A text without the separator is one piece, so there is always
one more piece than there are separators, and the empty text has one empty
piece. `join_split` says that nothing is lost by cutting.
-/

namespace MessageBridge.Text

/-- The pieces between the occurrences of the separator. -/
def split (sep : Char) : List Char → List (List Char)
  | [] => [[]]
  | c :: rest =>
    if c = sep then [] :: split sep rest
    else
      match split sep rest with
      | [] => [[c]]
      | piece :: pieces => (c :: piece) :: pieces

/-- The pieces put together again, with the separator between them. -/
def join (sep : Char) : List (List Char) → List Char
  | [] => []
  | [piece] => piece
  | piece :: next :: pieces => piece ++ sep :: join sep (next :: pieces)

/-- The pieces of a text. -/
def pieces (sep : Char) (text : String) : List String :=
  (split sep text.toList).map String.ofList

theorem split_ne_nil (sep : Char) (cs : List Char) : split sep cs ≠ [] := by
  cases cs with
  | nil => simp [split]
  | cons c rest =>
    rw [split]
    split
    · simp
    · split <;> simp

theorem join_split (sep : Char) (cs : List Char) : join sep (split sep cs) = cs := by
  induction cs with
  | nil => rfl
  | cons c rest ih =>
    rw [split]
    split
    · next h =>
      obtain ⟨piece, more, hs⟩ := List.exists_cons_of_ne_nil (split_ne_nil sep rest)
      rw [hs] at ih ⊢
      simp [join, ih, h]
    · split
      · next hs => exact absurd hs (split_ne_nil sep rest)
      · next piece more hs =>
        rw [hs] at ih
        cases more with
        | nil => simpa [join] using ih
        | cons next more => simpa [join] using ih

end MessageBridge.Text
