import MessageBridge.Proofs.Json.Documents
import MessageBridge.Proofs.Json.Numbers
import MessageBridge.Proofs.Json.Writing

/-!
# Written documents are read back

The text of a document is followed the way the reader goes: token by token through the
stack machine. Wherever a value may begin, the machine takes the text of a document as one
value and then stands before what follows (`Takes`), whatever is open around it. For a
container this needs the same of what it holds, and a walk over the items or entries behind
the first one, each of which begins with a comma.

A document that was read from some text nests within the limit, has each key once and holds
integers that fit, so it is read back from its own text, wherever in a larger text this
stands. Only floating-point numbers have to be read back by themselves.
-/

namespace MessageBridge.Json

open Text (Symbol)
open MessageBridge.Json.Tree (Machine complete)

/-- How the reader sees a text between its quotes. -/
def parts (s : String) : List StringPart :=
  s.toList.map partOf

theorem text?_parts (s : String) : text? (parts s) = some s := by
  rw [text?, parts, characters?_written, Option.map_some, String.ofList_toList]

mutual

/-- What the text of a document is read into. -/
def tree : Json → Tree
  | .null => .null
  | .bool b => .bool b
  | .number n => .number (literalOf n)
  | .string s => .string (parts s)
  | .array items => .array (trees items)
  | .object es => .object (entryTrees es)

def trees : List Json → List Tree
  | [] => []
  | item :: rest => tree item :: trees rest

def entryTrees : List (String × Json) → List (List StringPart × Tree)
  | [] => []
  | (key, value) :: rest => (parts key, tree value) :: entryTrees rest

end

theorem trees_eq_map (items : List Json) : trees items = items.map tree := by
  induction items with
  | nil => rfl
  | cons item rest ih => rw [trees, ih, List.map_cons]

/-! ## Tokens -/

theorem tokens?_stringChars (s : String) (r : List Char) :
    tokens? ((stringChars s ++ r).map some) =
      (tokens? (r.map some)).map (.string (parts s) :: ·) := by
  have hquoted := quoted?_closed s.toList r
  have hstart : (stringChars s ++ r).map some =
      some '"' :: (s.toList.flatMap escape ++ '"' :: r).map some := by simp [stringChars]
  rw [hstart]
  refine tokens?_cons rfl ?_
  rw [token?, hquoted]
  rfl

theorem Ends.stops {r : List Char} (h : Ends r) : Stops (r.map some) := by
  intro s hs
  cases r with
  | nil => cases hs
  | cons c r =>
      cases hs
      obtain rfl | rfl | rfl := h c rfl
      · exact .inl rfl
      · exact .inr (.inl rfl)
      · exact .inr (.inr rfl)

theorem tokens?_numberChars {n : JsonNumber} (hn : IsOneToken n) {r : List Char} (hr : Ends r) :
    tokens? ((numberChars n ++ r).map some) =
      (tokens? (r.map some)).map (.number (literalOf n) :: ·) := by
  rw [List.map_append, tokens?_append hn.token hr.stops]
  rfl

/-! ## The stack machine -/

/-- Read a text on from where the machine is. -/
def Tree.Machine.reads (m : Machine) (s : List Symbol) : Option Tree :=
  (tokens? s).bind m.run

theorem reads_of_tokens {s rest : List Symbol} {token : Token}
    (h : tokens? s = (tokens? rest).map (token :: ·)) (m : Machine) :
    m.reads s = (m.step token).bind (·.reads rest) := by
  rw [Machine.reads, h]
  cases hrest : tokens? rest with
  | none => simp [Machine.reads, hrest]
  | some tokens => simp [Machine.reads, hrest, Machine.run]

/-- The tokens of one character. -/
inductive IsMark : Char → Token → Prop where
  | comma : IsMark ',' .comma
  | colon : IsMark ':' .colon
  | openArray : IsMark '[' .openArray
  | closeArray : IsMark ']' .closeArray
  | openObject : IsMark '{' .openObject
  | closeObject : IsMark '}' .closeObject

theorem reads_mark {c : Char} {token : Token} (hmark : IsMark c token) (m : Machine)
    (s : List Symbol) : m.reads (some c :: s) = (m.step token).bind (·.reads s) := by
  have htokens : tokens? (some c :: s) = (tokens? s).map (token :: ·) := by
    cases hmark <;> exact tokens?_cons rfl rfl
  exact reads_of_tokens htokens m

theorem reads_string (m : Machine) (s : String) (r : List Char) :
    m.reads ((stringChars s ++ r).map some) =
      (m.step (.string (parts s))).bind (·.reads (r.map some)) :=
  reads_of_tokens (tokens?_stringChars s r) m

/-- Where a value may begin, the machine takes the text of the document as one value. -/
def Takes (doc : Json) : Prop :=
  ∀ expected, expected = .value ∨ expected = .valueOrClose → ∀ stack (r : List Char), Ends r →
    Machine.reads ⟨stack, expected⟩ ((doc.chars ++ r).map some) =
      (complete doc.tree stack).bind (·.reads (r.map some))

/-- A value that is one token. -/
theorem takes_of_token {doc : Json} {token : Token}
    (htokens : ∀ r : List Char, Ends r → tokens? ((doc.chars ++ r).map some) =
      (tokens? (r.map some)).map (token :: ·))
    (hbegin : ∀ stack, Tree.begin stack token = complete doc.tree stack)
    (hclose : token ≠ .closeArray) : Takes doc := by
  intro expected hexpected stack r hr
  have hstep : Machine.step ⟨stack, expected⟩ token = complete doc.tree stack := by
    rw [← hbegin]
    obtain rfl | rfl := hexpected
    · rfl
    · exact Tree.step_valueOrClose hclose
  rw [reads_of_tokens (htokens r hr), hstep]

/-- The items behind the first one, and the end of the array. -/
theorem reads_itemsChars {items : List Json} (hitems : ∀ v ∈ items, Takes v)
    (stack : List Tree.Open) (found : List Tree) (r : List Char) :
    Machine.reads ⟨.array found :: stack, .separator⟩ ((itemsChars items ++ ']' :: r).map some) =
      (complete (.array (found.reverse ++ trees items)) stack).bind (·.reads (r.map some)) := by
  induction items generalizing found with
  | nil =>
      rw [itemsChars, List.nil_append, List.map_cons, reads_mark .closeArray, trees,
        List.append_nil]
      rfl
  | cons item rest ih =>
      obtain ⟨hitem, hrest⟩ := List.forall_mem_cons.mp hitems
      have hstep : Machine.step ⟨.array found :: stack, .separator⟩ .comma =
          some ⟨.array found :: stack, .value⟩ := rfl
      have htext : itemsChars (item :: rest) ++ ']' :: r =
          ',' :: (item.chars ++ (itemsChars rest ++ ']' :: r)) := by simp [itemsChars]
      rw [htext, List.map_cons, reads_mark .comma, hstep, Option.bind_some,
        hitem _ (.inl rfl) _ _ (ends_itemsChars rest r)]
      show Machine.reads ⟨.array (item.tree :: found) :: stack, .separator⟩ _ = _
      rw [ih hrest, trees, List.reverse_cons, List.append_assoc, List.singleton_append]

theorem takes_array {items : List Json} (hitems : ∀ v ∈ items, Takes v) :
    Takes (.array items) := by
  intro expected hexpected stack r hr
  have hstep : Machine.step ⟨stack, expected⟩ .openArray =
      some ⟨.array [] :: stack, .valueOrClose⟩ := by
    obtain rfl | rfl := hexpected <;> rfl
  rw [array_chars_append, List.map_cons, reads_mark .openArray, hstep, Option.bind_some, tree]
  cases items with
  | nil =>
      rw [itemsChars, List.drop_nil, List.nil_append, List.map_cons, reads_mark .closeArray]
      rfl
  | cons item rest =>
      obtain ⟨hitem, hrest⟩ := List.forall_mem_cons.mp hitems
      have htext : (itemsChars (item :: rest)).drop 1 ++ ']' :: r =
          item.chars ++ (itemsChars rest ++ ']' :: r) := by simp [itemsChars]
      rw [htext, hitem _ (.inr rfl) _ _ (ends_itemsChars rest r)]
      exact reads_itemsChars hrest stack [item.tree] r

/-- A key with its value. -/
theorem reads_entry {value : Json} (hvalue : Takes value) (key : String)
    (stack : List Tree.Open) (found : List (List StringPart × Tree))
    {expected : Tree.Expected} (hexpected : expected = .key ∨ expected = .keyOrClose)
    {r : List Char} (hr : Ends r) :
    Machine.reads ⟨.object found :: stack, expected⟩
        ((stringChars key ++ ':' :: (value.chars ++ r)).map some) =
      Machine.reads ⟨.object ((parts key, value.tree) :: found) :: stack, .separator⟩
        (r.map some) := by
  have hkey : Machine.step ⟨.object found :: stack, expected⟩ (.string (parts key)) =
      some ⟨.entry found (parts key) :: stack, .colon⟩ := by
    obtain rfl | rfl := hexpected <;> rfl
  have hcolon : Machine.step ⟨.entry found (parts key) :: stack, .colon⟩ .colon =
      some ⟨.entry found (parts key) :: stack, .value⟩ := rfl
  rw [reads_string, hkey, Option.bind_some, List.map_cons, reads_mark .colon, hcolon,
    Option.bind_some, hvalue _ (.inl rfl) _ _ hr]
  rfl

/-- The entries behind the first one, and the end of the object. -/
theorem reads_entriesChars {es : Entries Json} (hvalues : ∀ e ∈ es, Takes e.2)
    (stack : List Tree.Open) (found : List (List StringPart × Tree)) (r : List Char) :
    Machine.reads ⟨.object found :: stack, .separator⟩
        ((entriesChars es ++ '}' :: r).map some) =
      (complete (.object (found.reverse ++ entryTrees es)) stack).bind
        (·.reads (r.map some)) := by
  induction es generalizing found with
  | nil =>
      rw [entriesChars, List.nil_append, List.map_cons, reads_mark .closeObject, entryTrees,
        List.append_nil]
      rfl
  | cons e rest ih =>
      obtain ⟨key, value⟩ := e
      obtain ⟨hvalue, hrest⟩ := List.forall_mem_cons.mp hvalues
      have hstep : Machine.step ⟨.object found :: stack, .separator⟩ .comma =
          some ⟨.object found :: stack, .key⟩ := rfl
      have htext : entriesChars ((key, value) :: rest) ++ '}' :: r =
          ',' :: (stringChars key ++ ':' :: (value.chars ++ (entriesChars rest ++ '}' :: r))) := by
        simp [entriesChars]
      rw [htext, List.map_cons, reads_mark .comma, hstep, Option.bind_some,
        reads_entry hvalue key stack found (.inl rfl) (ends_entriesChars rest r), ih hrest,
        entryTrees, List.reverse_cons, List.append_assoc, List.singleton_append]

theorem takes_object {es : Entries Json} (hvalues : ∀ e ∈ es, Takes e.2) :
    Takes (.object es) := by
  intro expected hexpected stack r hr
  have hstep : Machine.step ⟨stack, expected⟩ .openObject =
      some ⟨.object [] :: stack, .keyOrClose⟩ := by
    obtain rfl | rfl := hexpected <;> rfl
  rw [object_chars_append, List.map_cons, reads_mark .openObject, hstep, Option.bind_some, tree]
  cases es with
  | nil =>
      rw [entriesChars, List.drop_nil, List.nil_append, List.map_cons, reads_mark .closeObject]
      rfl
  | cons e rest =>
      obtain ⟨key, value⟩ := e
      obtain ⟨hvalue, hrest⟩ := List.forall_mem_cons.mp hvalues
      have htext : (entriesChars ((key, value) :: rest)).drop 1 ++ '}' :: r =
          stringChars key ++ ':' :: (value.chars ++ (entriesChars rest ++ '}' :: r)) := by
        simp [entriesChars]
      rw [htext, reads_entry hvalue key stack [] (.inr rfl) (ends_entriesChars rest r)]
      exact reads_entriesChars hrest stack [(parts key, value.tree)] r

/-! ## Documents -/

/-- The document nests no deeper than so many containers, has each key once, and its numbers
are read back. -/
inductive Legible : Nat → Json → Prop where
  | null {depth : Nat} : Legible depth .null
  | bool {depth : Nat} (b : Bool) : Legible depth (.bool b)
  | number {depth : Nat} {n : JsonNumber} (token : IsOneToken n) : Legible depth (.number n)
  | string {depth : Nat} (s : String) : Legible depth (.string s)
  | array {depth : Nat} {items : List Json} (each : ∀ v ∈ items, Legible depth v) :
    Legible (depth + 1) (.array items)
  | object {depth : Nat} {es : Entries Json} (keys : es.DistinctKeys)
    (values : ∀ e ∈ es, Legible depth e.2) : Legible (depth + 1) (.object es)

variable {depth depth' : Nat} {doc : Json}

theorem Legible.mono (h : Legible depth doc) (hle : depth ≤ depth') : Legible depth' doc := by
  induction h generalizing depth' with
  | null => exact .null
  | bool b => exact .bool b
  | number token => exact .number token
  | string s => exact .string s
  | array _ ih =>
      obtain ⟨k, rfl⟩ : ∃ k, depth' = k + 1 := ⟨depth' - 1, by omega⟩
      exact .array fun v hv => ih v hv (by omega)
  | object keys _ ih =>
      obtain ⟨k, rfl⟩ : ∃ k, depth' = k + 1 := ⟨depth' - 1, by omega⟩
      exact .object keys fun e he => ih e he (by omega)

theorem Legible.takes (h : Legible depth doc) : Takes doc := by
  induction h with
  | null =>
      have htokens : ∀ r : List Char, Ends r → tokens? ((Json.null.chars ++ r).map some) =
          (tokens? (r.map some)).map (.null :: ·) := fun _ _ => tokens?_cons rfl rfl
      exact takes_of_token htokens (fun _ => rfl) nofun
  | bool b =>
      have htokens : ∀ r : List Char, Ends r → tokens? (((Json.bool b).chars ++ r).map some) =
          (tokens? (r.map some)).map (.bool b :: ·) := by
        intro r _
        cases b <;> exact tokens?_cons rfl rfl
      exact takes_of_token htokens (fun _ => rfl) nofun
  | @number _ n token =>
      have htokens : ∀ r : List Char, Ends r → tokens? (((Json.number n).chars ++ r).map some) =
          (tokens? (r.map some)).map (.number (literalOf n) :: ·) :=
        fun _ hr => tokens?_numberChars token hr
      exact takes_of_token htokens (fun _ => rfl) nofun
  | string s =>
      have htokens : ∀ r : List Char, Ends r → tokens? (((Json.string s).chars ++ r).map some) =
          (tokens? (r.map some)).map (.string (parts s) :: ·) :=
        fun r _ => tokens?_stringChars s r
      exact takes_of_token htokens (fun _ => rfl) nofun
  | array _ ih => exact takes_array ih
  | object _ _ ih => exact takes_object ih

theorem itemsToJson?_trees {items : List Json}
    (h : ∀ v ∈ items, v.tree.toJson? depth = some v) :
    Tree.itemsToJson? depth (trees items) = some items := by
  induction items with
  | nil => rfl
  | cons item rest ih =>
      obtain ⟨hitem, hrest⟩ := List.forall_mem_cons.mp h
      rw [trees, Tree.itemsToJson?, hitem, ih hrest]

/-- Entries with new keys are put behind those that are there. -/
theorem entriesToJson?_entryTrees {es : Entries Json}
    (h : ∀ e ∈ es, e.2.tree.toJson? depth = some e.2) (found : Entries Json)
    (hkeys : (Entries.keys found ++ Entries.keys es).Nodup) :
    Tree.entriesToJson? depth found (entryTrees es) = some (found ++ es) := by
  induction es generalizing found with
  | nil => rw [entryTrees, Tree.entriesToJson?, List.append_nil]
  | cons e rest ih =>
      obtain ⟨key, value⟩ := e
      obtain ⟨hvalue, hrest⟩ := List.forall_mem_cons.mp h
      have hnew : key ∉ Entries.keys found := fun hmem =>
        (List.nodup_append.mp hkeys).2.2 key hmem key List.mem_cons_self rfl
      have hkeys' : (Entries.keys (found ++ [(key, value)]) ++ Entries.keys rest).Nodup := by
        simpa [Entries.keys] using hkeys
      rw [entryTrees, Tree.entriesToJson?, text?_parts, hvalue]
      simp only []
      rw [Entries.set_of_new hnew, ih hrest _ hkeys', List.append_assoc, List.singleton_append]

theorem Legible.toJson?_tree (h : Legible depth doc) : doc.tree.toJson? depth = some doc := by
  induction h with
  | null => rfl
  | bool b => rfl
  | number token => rw [tree, Tree.toJson?, token.value, Option.map_some]
  | string s => rw [tree, Tree.toJson?, text?_parts, Option.map_some]
  | array _ ih => rw [tree, Tree.toJson?, itemsToJson?_trees ih, Option.map_some]
  | object keys _ ih =>
      rw [tree, Tree.toJson?, entriesToJson?_entryTrees ih [] keys, Option.map_some,
        List.nil_append]

theorem Legible.ofText?_write (h : Legible depth doc) :
    Tree.ofText? doc.write = some doc.tree := by
  have hends : Ends [] := nofun
  have htake := h.takes .value (.inl rfl) [] [] hends
  rw [List.append_nil] at htake
  have hend : Machine.reads ⟨[], .nothing doc.tree⟩ [] = some doc.tree := by
    rw [Machine.reads, tokens?]
    rfl
  rw [Tree.ofText?, write, String.toList_ofList]
  exact htake.trans hend

/-- What is written for a document is read back, as long as it is within the limit. -/
theorem Legible.readsBack (h : Legible depthLimit doc) : doc.ReadsBack := by
  rw [ReadsBack, read?, h.ofText?_write, Option.bind_some, h.toJson?_tree]

/-! ## Documents that have been read -/

/-- The floating-point numbers in the document are read back. -/
inductive FloatsReadBack : Json → Prop where
  | null : FloatsReadBack .null
  | bool (b : Bool) : FloatsReadBack (.bool b)
  | integer (n : Int) : FloatsReadBack (.number (.integer n))
  | float {x : Binary64} (reads : (number (.float x)).ReadsBack) :
    FloatsReadBack (.number (.float x))
  | string (s : String) : FloatsReadBack (.string s)
  | array {items : List Json} (each : ∀ v ∈ items, FloatsReadBack v) :
    FloatsReadBack (.array items)
  | object {es : Entries Json} (values : ∀ e ∈ es, FloatsReadBack e.2) :
    FloatsReadBack (.object es)

/-- A document that was read from one text is read back from another. -/
theorem legible_of_toJson? {tree : Tree} (h : tree.toJson? depth = some doc)
    (hfloats : doc.FloatsReadBack) : Legible depth doc := by
  have hbuilds : Builds fun depth doc => doc.FloatsReadBack → Legible depth doc := {
    null := fun _ _ => .null
    bool := fun _ b _ => .bool b
    number := by
      intro depth n literal hn hfloats
      cases hfloats with
      | integer n => exact .number (isOneToken_of_toNumber? hn)
      | float reads => exact .number reads.isOneToken
    string := fun _ s _ => .string s
    array := by
      intro depth items hitems hfloats
      cases hfloats with
      | array each => exact .array fun v hv => hitems v hv (each v hv)
    object := by
      intro depth es hkeys hvalues hfloats
      cases hfloats with
      | object values => exact .object hkeys fun e he => hvalues e he (values e he) }
  exact hbuilds.of_toJson? tree h hfloats

/-! ## Objects of texts -/

/-- The object that holds some texts. -/
def ofTexts (es : Entries String) : Json :=
  .object (es.map fun e => (e.1, .string e.2))

theorem read?_write_ofTexts {es : Entries String} (hkeys : es.DistinctKeys) :
    read? (ofTexts es).write = some (ofTexts es) := by
  have hkeys' : Entries.DistinctKeys (es.map fun e => (e.1, Json.string e.2)) := by
    rw [Entries.DistinctKeys, Entries.keys, List.map_map]
    exact hkeys
  have hlegible : Legible depthLimit (ofTexts es) := .object hkeys' fun e he => by
    obtain ⟨e, _, rfl⟩ := List.mem_map.mp he
    exact .string e.2
  exact hlegible.readsBack

end MessageBridge.Json
