import MessageBridge.Json.Token

/-!
# The grammar of JSON over tokens

A text is read into a `Tree`, which keeps strings and numbers as they are
written and every entry of an object, repeated keys included. Reading is a stack
machine that takes one token at a time: it holds the containers that are open,
the innermost first, and what may come next. A text is JSON when its tokens take
the machine from the start to the one value it has read.

Containers may be open to any depth here. How deep a document may nest is
decided when a tree is turned into a value.
-/

namespace MessageBridge.Json

/-- JSON text, taken apart. -/
inductive Tree where
  | null
  | bool (b : Bool)
  | number (literal : NumberLiteral)
  | string (parts : List StringPart)
  | array (items : List Tree)
  | object (entries : List (List StringPart × Tree))
  deriving Inhabited, Repr

namespace Tree

/-- A container that is open. What it holds so far is kept last first. -/
inductive Open where
  /-- An array. -/
  | array (items : List Tree)
  /-- An object between two entries. -/
  | object (entries : List (List StringPart × Tree))
  /-- An object with an entry whose value is still to come. -/
  | entry (entries : List (List StringPart × Tree)) (key : List StringPart)

/-- What may come next. -/
inductive Expected where
  | value
  | valueOrClose
  | key
  | keyOrClose
  | colon
  /-- A comma or the end of the innermost container. -/
  | separator
  /-- Nothing: the value is complete. -/
  | nothing (read : Tree)

structure Machine where
  stack : List Open
  expected : Expected

/-- Before the first token. -/
def Machine.start : Machine :=
  ⟨[], .value⟩

/-- A value is complete: it goes into the innermost container. -/
def complete (read : Tree) : List Open → Option Machine
  | [] => some ⟨[], .nothing read⟩
  | .array items :: stack => some ⟨.array (read :: items) :: stack, .separator⟩
  | .entry entries key :: stack => some ⟨.object ((key, read) :: entries) :: stack, .separator⟩
  | .object _ :: _ => none

/-- The first token of a value. -/
def begin (stack : List Open) : Token → Option Machine
  | .null => complete .null stack
  | .bool b => complete (.bool b) stack
  | .number literal => complete (.number literal) stack
  | .string parts => complete (.string parts) stack
  | .openArray => some ⟨.array [] :: stack, .valueOrClose⟩
  | .openObject => some ⟨.object [] :: stack, .keyOrClose⟩
  | .closeArray | .closeObject | .comma | .colon => none

/-- The token that stands where a key must stand. -/
def beginKey (stack : List Open) : Token → Option Machine
  | .string key =>
    match stack with
    | .object entries :: stack => some ⟨.entry entries key :: stack, .colon⟩
    | _ => none
  | _ => none

/-- Close the innermost container. -/
def close (stack : List Open) : Token → Option Machine
  | .closeArray =>
    match stack with
    | .array items :: stack => complete (.array items.reverse) stack
    | _ => none
  | .closeObject =>
    match stack with
    | .object entries :: stack => complete (.object entries.reverse) stack
    | _ => none
  | _ => none

/-- Take one token. -/
def Machine.step (m : Machine) (token : Token) : Option Machine :=
  match m.expected with
  | .value => begin m.stack token
  | .valueOrClose =>
    match token with
    | .closeArray => close m.stack token
    | _ => begin m.stack token
  | .key => beginKey m.stack token
  | .keyOrClose =>
    match token with
    | .closeObject => close m.stack token
    | _ => beginKey m.stack token
  | .colon =>
    match token with
    | .colon => some ⟨m.stack, .value⟩
    | _ => none
  | .separator =>
    match token, m.stack with
    | .comma, .array _ :: _ => some ⟨m.stack, .value⟩
    | .comma, .object _ :: _ => some ⟨m.stack, .key⟩
    | _, _ => close m.stack token
  | .nothing _ => none

/-- Take all tokens; the value must be complete at their end. -/
def Machine.run : Machine → List Token → Option Tree
  | m, [] =>
    match m.expected with
    | .nothing read => some read
    | _ => none
  | m, token :: rest => (m.step token).bind (·.run rest)

/-- The tree of a text, if the text is JSON. -/
def ofSymbols? (s : List Text.Symbol) : Option Tree :=
  (tokens? s).bind Machine.start.run

def ofText? (text : String) : Option Tree :=
  ofSymbols? (text.toList.map some)

def ofBytes? (bytes : ByteArray) : Option Tree :=
  ofSymbols? (Text.symbols bytes)

end Tree

end MessageBridge.Json
