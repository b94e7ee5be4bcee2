import MessageBridge.Spec.Basic

/-!
# Applying a transformation

A shift is described by what it writes: walking through the document, every
value that a rule selects is written to the paths of the rule, and `writes` lists
these writes in order. The result is the empty object with all of them carried
out by `writeAt`, which collects repeated writes to one path into an array and
leaves the document alone where a written value stands in the way.

Defaults are filled in from outside inwards; removals are carried out one rule
after the other. Arrays add no key: a removal treats each item like the array
itself.
-/

namespace MessageBridge.Spec

/-- The rule for a key: the one that names it, or else the one for any key. -/
def ruleFor {α : Type} (rules : List (String × α)) (key : String) : Option α :=
  (Entries.get? key rules).or (Entries.get? wildcard rules)

/-- The text of a part, given the matched keys with the innermost first. A
compiled path never asks for a key that is not there. -/
def PathPart.render (keys : List String) : PathPart → String
  | .text s => s
  | .key up => keys.getD up ""

/-- The names of a path, given the matched keys with the innermost first. -/
def OutputPath.render (keys : List String) (path : OutputPath) : List String :=
  path.map fun name => String.join (name.map (PathPart.render keys))

/-- A value that a shift writes, and where. -/
abbrev Write := List String × Json

mutual

/-- What the rules write for the entries of an object or the items of an array,
whose keys are their positions. -/
def writesOf (rules : List (String × ShiftRule)) (keys : List String) : Json → List Write
  | .object entries => writesOfEntries rules keys entries
  | .array items => writesOfItems rules keys 0 items
  | _ => []

def writesOfEntries (rules : List (String × ShiftRule)) (keys : List String) :
    List (String × Json) → List Write
  | [] => []
  | (key, value) :: rest =>
    (match ruleFor rules key with
      | none => []
      | some (.write paths) => paths.map fun path => (path.render (key :: keys), value)
      | some (.descend rules) => writesOf rules (key :: keys) value)
    ++ writesOfEntries rules keys rest

def writesOfItems (rules : List (String × ShiftRule)) (keys : List String) (position : Nat) :
    List Json → List Write
  | [] => []
  | value :: rest =>
    (match ruleFor rules (toString position) with
      | none => []
      | some (.write paths) =>
        paths.map fun path => (path.render (toString position :: keys), value)
      | some (.descend rules) => writesOf rules (toString position :: keys) value)
    ++ writesOfItems rules keys (position + 1) rest

end

/-- Put a value where another one has been written already. -/
def collect (value : Json) : Json → Json
  | .array items => .array (items ++ [value])
  | written => .array [written, value]

/-- Write a value at a path. The objects on the way are made when they are
missing; where something else stands on the way nothing is written. -/
def writeAt (value : Json) : List String → Entries Json → Entries Json
  | [], out => out
  | [name], out =>
    match out.get? name with
    | none => out ++ [(name, value)]
    | some _ => out.modify name (collect value)
  | name :: rest, out =>
    match out.get? name with
    | none => out ++ [(name, .object (writeAt value rest []))]
    | some (.object inner) => out.set name (.object (writeAt value rest inner))
    | some _ => out

/-- Carry out writes in order. -/
def writeAll (writes : List Write) : Entries Json :=
  writes.foldl (fun out w => writeAt w.2 w.1 out) []

mutual

/-- Fill a default into a value that faces it: only objects are filled. -/
def fill : Json → Json → Json
  | .object defaults, .object entries => .object (fillEntries defaults entries)
  | _, existing => existing

/-- Fill defaults into the entries of an object. -/
def fillEntries : List (String × Json) → Entries Json → Entries Json
  | [], entries => entries
  | (key, default) :: rest, entries =>
    fillEntries rest
      (match Entries.get? key entries with
        | none => entries ++ [(key, default)]
        | some existing => Entries.set key (fill default existing) entries)

end

mutual

/-- Change the objects of a document that no key leads to: the document itself,
or the objects in the array, in arrays within the array and so on. -/
def mapTopObjects (f : Entries Json → Entries Json) : Json → Json
  | .object entries => .object (f entries)
  | .array items => .array (mapTopObjectsOfItems f items)
  | other => other

def mapTopObjectsOfItems (f : Entries Json → Entries Json) : List Json → List Json
  | [] => []
  | item :: rest => mapTopObjects f item :: mapTopObjectsOfItems f rest

end

mutual

/-- Carry out the removal rule of a key on the entries of an object. -/
def removeBy (key : String) : RemoveRule → Entries Json → Entries Json
  | .drop, entries => if key = wildcard then [] else entries.erase key
  | .descend rules, entries =>
    if key = wildcard then
      entries.map fun (k, v) => (k, mapTopObjects (removeEntries rules) v)
    else entries.modify key (mapTopObjects (removeEntries rules))

/-- Carry out removal rules one after the other on the entries of an object. -/
def removeEntries : List (String × RemoveRule) → Entries Json → Entries Json
  | [], entries => entries
  | (key, rule) :: rest, entries => removeEntries rest (removeBy key rule entries)

end

/-- Apply a stage. A shift of a document without entries or items yields
nothing. -/
def Stage.apply : Stage → Json → Option Json
  | .shift rules, .object entries => some (.object (writeAll (writesOf rules [] (.object entries))))
  | .shift rules, .array items => some (.object (writeAll (writesOf rules [] (.array items))))
  | .shift _, _ => none
  | .default defaults, .null => some (.object defaults)
  | .default defaults, .object entries => some (.object (fillEntries defaults entries))
  | .default _, other => some other
  | .remove rules, doc => some (mapTopObjects (removeEntries rules) doc)

/-- Apply the stages in order, until one of them yields nothing. -/
def apply : Spec → Json → Option Json
  | [], doc => some doc
  | stage :: rest, doc => (stage.apply doc).bind (apply rest)

end MessageBridge.Spec
