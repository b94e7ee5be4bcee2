import MessageBridge.Spec.Basic
import MessageBridge.Text.Pieces

/-!
# Compiling a specification

A specification is a stage or a list of stages, and a stage names its operation
and carries the rules of this operation. Compiling checks everything that can be
checked without a document. In particular a reference `&N` in an output path
must name a key that has been matched by the time the path is written: at depth
`d` of the rules exactly `d` keys have been, so `N` must be below `d`.

Defects are found in the order of the text, the first one is reported.
-/

namespace MessageBridge.Spec

/-- A piece of a name in an output path, as it is written. -/
inductive PathPiece where
  | text (cs : List Char)
  /-- A reference with its digits, of which there may be none. -/
  | reference (digits : List Char)

/-- The pieces of a name. The digits right behind a `&` belong to it. -/
def pathPieces : List Char → List PathPiece
  | [] => []
  | c :: rest =>
    match c == '&', pathPieces rest with
    | true, .text cs :: more =>
      let digits := cs.takeWhile Char.isDigit
      match cs.dropWhile Char.isDigit with
      | [] => .reference digits :: more
      | cs => .reference digits :: .text cs :: more
    | true, more => .reference [] :: more
    | false, .text cs :: more => .text (c :: cs) :: more
    | false, more => .text [c] :: more

/-- The number that digits stand for; no digits stand for zero. -/
def numberOf (digits : List Char) : Nat :=
  digits.foldl (fun acc c => acc * 10 + (c.toNat - 48)) 0

/-- A piece of a name at the given depth. -/
def compilePiece (depth : Nat) (path : String) : PathPiece → Except Defect PathPart
  | .text cs => .ok (.text (String.ofList cs))
  | .reference digits =>
    let up := numberOf digits
    if Word.limit ≤ up then .error (.malformedPath path)
    else if depth ≤ up then .error (.aboveTop up path)
    else .ok (.key up)

/-- A name at the given depth; it must not be empty. -/
def compileName (depth : Nat) (path : String) (name : List Char) :
    Except Defect (List PathPart) :=
  if name.isEmpty then .error (.malformedPath path)
  else (pathPieces name).mapM (compilePiece depth path)

/-- An output path at the given depth. -/
def compilePath (depth : Nat) (path : String) : Except Defect OutputPath :=
  (Text.split '.' path.toList).mapM (compileName depth path)

/-- The output paths of a list. -/
def compilePaths (depth : Nat) (key : String) : List Json → Except Defect (List OutputPath)
  | [] => .ok []
  | .string path :: rest => do
    let path ← compilePath depth path
    let rest ← compilePaths depth key rest
    return path :: rest
  | _ :: _ => .error (.pathNotText key)

mutual

/-- The rule for a key at the given depth. -/
def compileShiftRule (depth : Nat) (key : String) : Json → Except Defect ShiftRule
  | .string path => do
    let path ← compilePath depth path
    return .write [path]
  | .array paths => do
    let paths ← compilePaths depth key paths
    return .write paths
  | .object entries => do
    let rules ← compileShift (depth + 1) entries
    return .descend rules
  | .null => .error (.shiftValue key "null")
  | .bool _ => .error (.shiftValue key "boolean")
  | .number _ => .error (.shiftValue key "number")

/-- The rules of one level of a shift. -/
def compileShift (depth : Nat) :
    List (String × Json) → Except Defect (List (String × ShiftRule))
  | [] => .ok []
  | (key, value) :: rest => do
    let rule ← compileShiftRule depth key value
    let rules ← compileShift depth rest
    return (key, rule) :: rules

end

mutual

/-- The rule for a key of a removal. -/
def compileRemoveRule (key : String) : Json → Except Defect RemoveRule
  | .string _ => .ok .drop
  | .object entries => do
    let rules ← compileRemove entries
    return .descend rules
  | .null => .error (.removeValue key "null")
  | .bool _ => .error (.removeValue key "boolean")
  | .number _ => .error (.removeValue key "number")
  | .array _ => .error (.removeValue key "array")

/-- The rules of one level of a removal. -/
def compileRemove : List (String × Json) → Except Defect (List (String × RemoveRule))
  | [] => .ok []
  | (key, value) :: rest => do
    let rule ← compileRemoveRule key value
    let rules ← compileRemove rest
    return (key, rule) :: rules

end

/-- One stage. -/
def compileStage : Json → Except Defect Stage
  | .object stage =>
    match Entries.get? "operation" stage with
    | some (.string operation) =>
      match Entries.get? "spec" stage with
      | some (.object spec) =>
        if operation = "shift" then (compileShift 1 spec).map .shift
        else if operation = "default" then .ok (.default spec)
        else if operation = "remove" then (compileRemove spec).map .remove
        else .error (.unknownOperation operation)
      | _ => .error (.noSpec operation)
    | _ => .error .noOperation
  | _ => .error .stageNotObject

/-- A stage, or a list of stages. -/
def compile : Json → Except Defect Spec
  | .array stages => stages.mapM compileStage
  | .object stage => (compileStage (.object stage)).map ([·])
  | other => .error (.notStages other.kindName)

end MessageBridge.Spec
