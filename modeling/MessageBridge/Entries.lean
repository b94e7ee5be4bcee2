/-!
# Ordered entries

Objects, tables, arguments and stores are lists of keys with values, in the
order in which the keys first came. Setting a key keeps its place and puts a new
key last. Each key should stand once; `DistinctKeys` says so.
-/

namespace MessageBridge

/-- Keys with their values, in order. -/
abbrev Entries (α : Type) := List (String × α)

namespace Entries

variable {α : Type}

/-- The value at a key. -/
def get? (key : String) : Entries α → Option α
  | [] => none
  | (k, v) :: rest => if k = key then some v else get? key rest

/-- Whether a key is present. -/
def has (key : String) (entries : Entries α) : Bool :=
  (entries.get? key).isSome

/-- The keys in order. -/
def keys (entries : Entries α) : List String :=
  entries.map Prod.fst

/-- Change the value at a key; without the key nothing changes. -/
def modify (key : String) (f : α → α) : Entries α → Entries α
  | [] => []
  | (k, v) :: rest => if k = key then (k, f v) :: rest else (k, v) :: modify key f rest

/-- Set the value at a key, in its place, or at the end when it is new. -/
def set (key : String) (value : α) : Entries α → Entries α
  | [] => [(key, value)]
  | (k, v) :: rest => if k = key then (k, value) :: rest else (k, v) :: set key value rest

/-- Drop the entries at a key. -/
def erase (key : String) (entries : Entries α) : Entries α :=
  entries.filter (·.1 ≠ key)

/-- Set the value at a key and keep the keys in ascending order. -/
def setSorted (key : String) (value : α) : Entries α → Entries α
  | [] => [(key, value)]
  | (k, v) :: rest =>
    if key = k then (k, value) :: rest
    else if key < k then (key, value) :: (k, v) :: rest
    else (k, v) :: setSorted key value rest

/-- Each key stands once. -/
def DistinctKeys (entries : Entries α) : Prop :=
  entries.keys.Nodup

end Entries

/-- Texts in ascending order, each once. -/
abbrev OrderedTexts := List String

namespace OrderedTexts

/-- Put a text at its place, unless it is there already. -/
def insert (text : String) : OrderedTexts → OrderedTexts
  | [] => [text]
  | t :: rest =>
    if text = t then t :: rest
    else if text < t then text :: t :: rest
    else t :: insert text rest

/-- The texts of a list. -/
def ofList (texts : List String) : OrderedTexts :=
  texts.foldl (fun acc t => insert t acc) []

end OrderedTexts

end MessageBridge
