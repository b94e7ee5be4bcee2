import MessageBridge.Json.Basic
import MessageBridge.Failure

/-!
# Whitelisted fields

A whitelist names fields by their paths: the keys on the way from the top, with
points between them. Arrays add nothing to the path, so the items of an array
stand at the path of the array. Scrubbing a document drops every entry whose path
is not on the list. A field deep inside is kept only if all objects on its way
are kept too, so their paths have to be on the list as well.

An object that loses all its entries is dropped itself; an object that was empty
before stays. Documents without any field are refused, since nothing could be
said about what they hold.
-/

namespace MessageBridge.Whitelist

/-- The path of a field inside an object at the given path. -/
def childPath (path key : String) : String :=
  if path.isEmpty then key else path ++ "." ++ key

mutual

/-- What is left of a value at a path, if anything is. -/
def elide (fields : OrderedTexts) (path : String) : Json → Option Json
  | .object [] => some (.object [])
  | .object (entry :: rest) =>
    match elideEntries fields path (entry :: rest) with
    | [] => none
    | kept => some (.object kept)
  | .array items => some (.array (elideItems fields path items))
  | leaf => some leaf

/-- The entries that are left of an object at a path. -/
def elideEntries (fields : OrderedTexts) (path : String) : List (String × Json) → Entries Json
  | [] => []
  | (key, value) :: rest =>
    if fields.contains (childPath path key) then
      match elide fields (childPath path key) value with
      | some value => (key, value) :: elideEntries fields path rest
      | none => elideEntries fields path rest
    else elideEntries fields path rest

/-- The items that are left of an array at a path. -/
def elideItems (fields : OrderedTexts) (path : String) : List Json → List Json
  | [] => []
  | item :: rest =>
    match elide fields path item with
    | some item => item :: elideItems fields path rest
    | none => elideItems fields path rest

end

/-- Why a document cannot be scrubbed. -/
inductive Defect where
  | primitive
  | primitiveItems
  deriving DecidableEq, Repr

def Defect.message : Defect → String
  | .primitive => "primitive json values are not supported"
  | .primitiveItems => "Array of primitive json values are not supported"

def Defect.failure (d : Defect) : Failure :=
  .transform d.message none

/-- A document with nothing but whitelisted fields. A document that is null
stays; one of which nothing is left becomes the empty object. -/
def scrub (fields : OrderedTexts) (doc : Json) : Except Defect Json :=
  if doc.isPrimitive then .error .primitive
  else
    match doc with
    | .array items =>
      if items.any Json.isPrimitive then .error .primitiveItems
      else .ok ((elide fields "" doc).getD (.object []))
    | _ => .ok ((elide fields "" doc).getD (.object []))

end MessageBridge.Whitelist
