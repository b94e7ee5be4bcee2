import MessageBridge.Json.Reader

/-!
# Typed reading

Bridge files and settings are read into types of their own instead of documents.
A record may be written as an object or as the list of its fields in the order
of their declaration. In an object, fields nobody knows are skipped, whatever
they hold, and a known field may stand only once; in a list, fields may be left
off the end.

A `Node` is a place in a text with the depth that is left below it. Skipped
values are never looked into, so neither the depth limit nor the meaning of
their numbers and strings concerns them.
-/

namespace MessageBridge.Json

/-- A value of a text that is read into a type. -/
structure Node where
  /-- How many containers may still be opened, this one included. -/
  depth : Nat
  tree : Tree

namespace Node

/-- The fields of an object that are among the given names. -/
def known? (names : List String) (found : Entries Tree) :
    List (List StringPart × Tree) → Option (Entries Tree)
  | [] => some found
  | (key, value) :: rest =>
    match text? key with
    | none => none
    | some key =>
      if names.contains key then
        if found.has key then none else known? names (found ++ [(key, value)]) rest
      else known? names found rest

/-- The values of the named fields, in the order of the names. -/
def fields? (names : List String) (node : Node) : Option (List (Option Node)) :=
  match node.depth with
  | 0 => none
  | depth + 1 =>
    match node.tree with
    | .object entries =>
      (known? names [] entries).map fun found =>
        names.map fun name => (found.get? name).map (⟨depth, ·⟩)
    | .array items =>
      if items.length ≤ names.length then
        some (items.map (fun item => some ⟨depth, item⟩)
          ++ List.replicate (names.length - items.length) none)
      else none
    | _ => none

def isNull (node : Node) : Bool :=
  match node.tree with
  | .null => true
  | _ => false

def json? (node : Node) : Option Json :=
  node.tree.toJson? node.depth

def bool? (node : Node) : Option Bool :=
  match node.tree with
  | .bool b => some b
  | _ => none

def text? (node : Node) : Option String :=
  match node.tree with
  | .string parts => Json.text? parts
  | _ => none

/-- A natural number up to a limit, written as an integer. -/
def natural? (limit : Nat) (node : Node) : Option Nat :=
  match node.tree with
  | .number literal =>
    match literal.toNumber? with
    | some (.integer n) => if 0 ≤ n ∧ n ≤ limit then some n.toNat else none
    | _ => none
  | _ => none

/-- Any number. -/
def float? (node : Node) : Option Binary64 :=
  match node.tree with
  | .number literal =>
    literal.toNumber?.map fun
      | .integer n => .ofInt n
      | .float x => x
  | _ => none

/-- The items of an array. -/
def items? (node : Node) : Option (List Node) :=
  match node.depth, node.tree with
  | depth + 1, .array items => some (items.map (⟨depth, ·⟩))
  | _, _ => none

/-- The root of a text. -/
def ofBytes? (bytes : ByteArray) : Option Node :=
  (Tree.ofBytes? bytes).map (⟨depthLimit, ·⟩)

def ofText? (text : String) : Option Node :=
  (Tree.ofText? text).map (⟨depthLimit, ·⟩)

end Node

/-- A field that has to be there. -/
def required {ν α : Type} (read : ν → Option α) : Option ν → Option α
  | none => none
  | some node => read node

/-- A field that stands for a default when it is left out. -/
def withDefault {ν α : Type} (default : α) (read : ν → Option α) : Option ν → Option α
  | none => some default
  | some node => read node

/-- A field that may be left out, or be null. -/
def optional {ν α : Type} (isNull : ν → Bool) (read : ν → Option α) :
    Option ν → Option (Option α)
  | none => some none
  | some node => if isNull node then some none else (read node).map some

end MessageBridge.Json
