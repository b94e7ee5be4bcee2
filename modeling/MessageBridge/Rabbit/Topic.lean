import MessageBridge.Text.Pieces

/-!
# Topic patterns

A routing key is a list of words with points between them, and so is a pattern.
In a pattern the word `*` stands for one word and the word `#` for any number of
words; every other word stands for itself. The empty text has one word, which is
empty.
-/

namespace MessageBridge.Rabbit

/-- The words of a routing key or a pattern. -/
def words (text : String) : List String :=
  Text.pieces '.' text

/-- The lists that are left when any number of elements is taken off the front. -/
def suffixes {α : Type} : List α → List (List α)
  | [] => [[]]
  | x :: xs => (x :: xs) :: suffixes xs

/-- Whether the words of a pattern match the words of a routing key. -/
def matchWords : List String → List String → Bool
  | [], key => key.isEmpty
  | p :: pattern, key =>
    if p = "#" then (suffixes key).any (matchWords pattern)
    else
      match key with
      | [] => false
      | w :: key => (p = "*" || p = w) && matchWords pattern key

/-- Whether a pattern matches a routing key. -/
def topicMatches (pattern routingKey : String) : Bool :=
  matchWords (words pattern) (words routingKey)

end MessageBridge.Rabbit
