import MessageBridge.Json.Basic
import MessageBridge.Failure

/-!
# Transformations of documents

A transformation is a chain of stages. `shift` builds a new document out of
values of the old one, `default` adds what is absent and `remove` drops entries.

This module holds what a specification is compiled to. Rules keep the order in
which the specification lists them, and the key `*` stands for any key.
-/

namespace MessageBridge.Spec

/-- The key that matches any key. -/
def wildcard : String := "*"

/-- A part of one name in an output path. -/
inductive PathPart where
  /-- Text that stands for itself. -/
  | text (s : String)
  /-- The key that was matched this many levels up. -/
  | key (up : Nat)
  deriving DecidableEq, Repr

/-- An output path: a list of names, each put together from its parts. -/
abbrev OutputPath := List (List PathPart)

/-- What `shift` does with the value at a matched key. -/
inductive ShiftRule where
  /-- Write it to each of the paths. -/
  | write (paths : List OutputPath)
  /-- Go into it with rules for its keys. -/
  | descend (rules : List (String × ShiftRule))
  deriving Inhabited

/-- What `remove` does with the value at a matched key. -/
inductive RemoveRule where
  /-- Drop the entry. -/
  | drop
  /-- Go into it with rules for its keys. -/
  | descend (rules : List (String × RemoveRule))
  deriving Inhabited

inductive Stage where
  | shift (rules : List (String × ShiftRule))
  | default (entries : Entries Json)
  | remove (rules : List (String × RemoveRule))
  deriving Inhabited

/-- Why a specification does not compile. -/
inductive Defect where
  | notStages (kind : String)
  | stageNotObject
  | noOperation
  | noSpec (operation : String)
  | unknownOperation (operation : String)
  | pathNotText (key : String)
  | shiftValue (key kind : String)
  | removeValue (key kind : String)
  | malformedPath (path : String)
  | aboveTop (up : Nat) (path : String)
  deriving DecidableEq, Repr

def Defect.message : Defect → String
  | .notStages kind => "spec must be an array of stages, got " ++ kind
  | .stageNotObject => "each stage must be an object"
  | .noOperation => "stage is missing its 'operation'"
  | .noSpec operation => "'" ++ operation ++ "' stage needs an object 'spec'"
  | .unknownOperation operation => "unknown operation '" ++ operation ++ "'"
  | .pathNotText key => "output paths under '" ++ key ++ "' must be strings"
  | .shiftValue key kind => "shift value for '" ++ key ++ "' cannot be a " ++ kind
  | .removeValue key kind => "remove value for '" ++ key ++ "' cannot be a " ++ kind
  | .malformedPath path => "malformed output path '" ++ path ++ "'"
  | .aboveTop up path =>
    "'&" ++ toString up ++ "' in '" ++ path ++ "' refers above the top of the spec"

def Defect.failure (d : Defect) : Failure :=
  .spec d.message

end MessageBridge.Spec

namespace MessageBridge

/-- A compiled transformation. -/
abbrev Spec := List Spec.Stage

end MessageBridge
