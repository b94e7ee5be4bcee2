import MessageBridge.Proofs.Spec.Writing

/-!
# References resolve

An output path is compiled at a depth, and rendered with the keys that have been matched by
then. The depth is counted while the rules are gone through, the keys are gathered while the
document is. `Renders` is the walk through both with the keys in view. Wherever it comes to
a path, as many keys have been matched as there are names above the text of this path. So
each reference finds its key, and the text that stands in for a missing key is never used.

A name of a path comes to one name of the rendered path, whatever the keys hold: a key with
a point in it, or an empty one, divides nothing.
-/

namespace MessageBridge

/-- The values that an object or an array holds, with their keys. The key of an item is its
position. -/
def Json.members : Json → List (String × Json)
  | .object entries => entries
  | .array items => items.zipIdx.map fun v => (toString v.2, v.1)
  | _ => []

theorem Json.inside_eq (doc : Json) :
    doc.inside = doc.members.flatMap fun e => insideAt e.1 e.2 := by
  cases doc with
  | null | bool | number | string => simp only [inside, members, List.flatMap_nil]
  | array items => rw [inside, insideItems_eq, members, List.flatMap_map]
  | object entries => rw [inside, insideEntries_eq, members]

namespace Spec

/-! ## The walk -/

/-- A path as it is rendered, for a value, with the keys matched by then, the innermost
first. -/
structure Rendering where
  keys : List String
  path : OutputPath
  value : Json

/-- What is written. -/
def Rendering.write (r : Rendering) : Write :=
  (r.path.render r.keys, r.value)

/-- Walking through a document with rules, after some keys have been matched, comes to
rendering a path. Each step matches one more key. -/
inductive Renders : List (String × ShiftRule) → List String → Json → Rendering → Prop where
  | here {rules : List (String × ShiftRule)} {above : List String} {doc value : Json}
      {key : String} {paths : List OutputPath} {path : OutputPath}
      (member : (key, value) ∈ doc.members) (rule_eq : ruleFor rules key = some (.write paths))
      (path_mem : path ∈ paths) : Renders rules above doc ⟨key :: above, path, value⟩
  | further {rules inner : List (String × ShiftRule)} {above : List String} {doc value : Json}
      {key : String} {r : Rendering} (member : (key, value) ∈ doc.members)
      (rule_eq : ruleFor rules key = some (.descend inner))
      (renders : Renders inner (key :: above) value r) : Renders rules above doc r

variable {rules : List (String × ShiftRule)} {above : List String} {doc : Json}
  {entries : Entries Json} {r : Rendering}

theorem writesOf_eq_members (rules : List (String × ShiftRule)) (above : List String)
    (doc : Json) :
    writesOf rules above doc = doc.members.flatMap fun e => writesAt rules above e.1 e.2 := by
  cases doc with
  | null | bool | number | string => simp only [writesOf, Json.members, List.flatMap_nil]
  | array items => rw [writesOf, writesOfItems_eq, Json.members, List.flatMap_map]
  | object entries => rw [writesOf, writesOfEntries_eq, Json.members]

theorem Renders.mem_writesOf (h : Renders rules above doc r) :
    r.write ∈ writesOf rules above doc := by
  induction h with
  | here member rule_eq path_mem =>
      rw [writesOf_eq_members]
      refine List.mem_flatMap.mpr ⟨_, member, ?_⟩
      rw [writesAt, rule_eq]
      exact List.mem_map.mpr ⟨_, path_mem, rfl⟩
  | further member rule_eq _ ih =>
      rw [writesOf_eq_members]
      refine List.mem_flatMap.mpr ⟨_, member, ?_⟩
      rw [writesAt, rule_eq]
      exact ih

theorem exists_renders {w : Write} (hw : w ∈ writesOf rules above doc) :
    ∃ r, Renders rules above doc r ∧ r.write = w := by
  have step (doc : Json) (ih : ∀ e ∈ doc.members, ∀ {rules above},
        w ∈ writesOf rules above e.2 → ∃ r, Renders rules above e.2 r ∧ r.write = w)
      {rules : List (String × ShiftRule)} {above : List String}
      (hw : w ∈ writesOf rules above doc) : ∃ r, Renders rules above doc r ∧ r.write = w := by
    rw [writesOf_eq_members] at hw
    obtain ⟨⟨key, value⟩, member, hw⟩ := List.mem_flatMap.mp hw
    rw [writesAt] at hw
    split at hw
    · cases hw
    · next paths rule_eq =>
        obtain ⟨path, path_mem, rfl⟩ := List.mem_map.mp hw
        exact ⟨_, .here member rule_eq path_mem, rfl⟩
    · next inner rule_eq =>
        obtain ⟨r, hrenders, hwrite⟩ := ih _ member hw
        exact ⟨r, .further member rule_eq hrenders, hwrite⟩
  induction doc using Json.induction_inside generalizing rules above with
  | null | bool | number | string => exact step _ (fun _ he => absurd he List.not_mem_nil) hw
  | array items ih =>
      refine step _ (fun e he => ?_) hw
      obtain ⟨v, hv, rfl⟩ := List.mem_map.mp he
      exact ih v.1 (List.fst_mem_of_mem_zipIdx hv)
  | object entries ih => exact step (.object entries) ih hw

/-- The keys of a rendering are keys of the document, and lead to the value. -/
theorem Renders.found (h : Renders rules above doc r) :
    ∃ keys, r.keys = keys.reverse ++ above ∧ (keys, r.value) ∈ doc.inside := by
  induction h with
  | @here _ _ doc value key _ _ member _ _ =>
      refine ⟨[key], rfl, ?_⟩
      rw [Json.inside_eq]
      exact List.mem_flatMap.mpr ⟨_, member, List.mem_cons_self⟩
  | @further _ _ _ doc value key r member _ _ ih =>
      obtain ⟨keys, hkeys, hinside⟩ := ih
      refine ⟨key :: keys, by simp [hkeys], ?_⟩
      rw [Json.inside_eq]
      exact List.mem_flatMap.mpr ⟨_, member, List.mem_cons_of_mem _ (List.mem_map_of_mem hinside)⟩

/-! ## Texts of paths -/

/-- The entries of a shift have the text of a path below these names, the outermost first. -/
inductive Places : Entries Json → List String → String → Prop where
  | path {entries : Entries Json} {name text : String}
      (mem : (name, .string text) ∈ entries) : Places entries [name] text
  | paths {entries : Entries Json} {name text : String} {items : List Json}
      (mem : (name, .array items) ∈ entries) (item : .string text ∈ items) :
      Places entries [name] text
  | inside {entries inner : Entries Json} {name text : String} {names : List String}
      (mem : (name, .object inner) ∈ entries) (places : Places inner names text) :
      Places entries (name :: names) text

/-- A name of a rule matches this key. -/
def Matches (name key : String) : Prop :=
  name = wildcard ∨ name = key

/-- The two countings agree: a path that is rendered with the keys above and some more was
compiled at a depth that is greater by as many, and stands below names that match the
further keys. -/
theorem Renders.compiled {depth : Nat} (h : Renders rules above doc r)
    (hrules : compileShift (depth + 1) entries = .ok rules) :
    ∃ keys names text, r.keys = keys.reverse ++ above ∧ Places entries names text ∧
      List.Forall₂ Matches names keys ∧
      compilePath (depth + names.length) text = .ok r.path := by
  induction h generalizing depth entries with
  | @here _ _ _ _ key paths path member rule_eq path_mem =>
      obtain ⟨name, hname, hmem⟩ := mem_of_ruleFor rule_eq
      obtain ⟨value, hvalue, hrule⟩ := exists_of_mem_compileShift hrules hmem
      obtain ⟨_, heq, hpaths⟩ | ⟨_, _, _, heq, _⟩ := compileShiftRule_cases hrule <;> cases heq
      obtain ⟨text, htext, hcompiled⟩ := hpaths path path_mem
      refine ⟨[key], [name], text, rfl, ?_, .cons hname .nil, hcompiled⟩
      obtain rfl | ⟨items, rfl, hitem⟩ := htext
      · exact .path hvalue
      · exact .paths hvalue hitem
  | @further _ _ _ _ _ key r member rule_eq _ ih =>
      obtain ⟨name, hname, hmem⟩ := mem_of_ruleFor rule_eq
      obtain ⟨value, hvalue, hrule⟩ := exists_of_mem_compileShift hrules hmem
      obtain ⟨_, heq, _⟩ | ⟨inner, _, rfl, heq, hinner⟩ := compileShiftRule_cases hrule <;>
        cases heq
      obtain ⟨keys, names, text, hkeys, hplaces, hmatch, hcompiled⟩ := ih hinner
      refine ⟨key :: keys, name :: names, text, by simp [hkeys], .inside hvalue hplaces,
        .cons hname hmatch, ?_⟩
      rwa [Nat.add_assoc, Nat.add_comm 1] at hcompiled

/-! ## What a path comes to -/

/-- What a name of a path comes to with matched keys, the innermost first. A `&` comes with
its digits to the key so many levels up, and any other character to itself. Nothing is
said where the key is missing. -/
inductive Expands (keys : List String) : List Char → List Char → Prop where
  | nil : Expands keys [] []
  | text {c : Char} {rest out : List Char} (plain : c ≠ '&') (behind : Expands keys rest out) :
    Expands keys (c :: rest) (c :: out)
  | reference {rest out : List Char} {key : String}
      (matched : keys[numeral (rest.takeWhile Char.isDigit)]? = some key)
      (behind : Expands keys (rest.dropWhile Char.isDigit) out) :
    Expands keys ('&' :: rest) (key.toList ++ out)

/-- Digits at the beginning come to themselves, so they can be taken off both. -/
theorem Expands.dropDigits {keys : List String} {cs out : List Char} (h : Expands keys cs out) :
    Expands keys (cs.dropWhile Char.isDigit) (out.drop (cs.takeWhile Char.isDigit).length) := by
  induction h with
  | nil => exact .nil
  | @text c rest out plain behind ih =>
      cases hc : c.isDigit with
      | true =>
          rw [List.dropWhile_cons_of_pos hc, List.takeWhile_cons_of_pos hc]
          exact ih
      | false =>
          have hfalse : ¬ c.isDigit = true := by simp [hc]
          rw [List.dropWhile_cons_of_neg hfalse, List.takeWhile_cons_of_neg hfalse]
          exact .text plain behind
  | reference matched behind _ => exact .reference matched behind

/-- The text of a piece, given the matched keys. -/
def PathPiece.render (keys : List String) : PathPiece → List Char
  | .text cs => cs
  | .reference digits => (keys.getD (numberOf digits) "").toList

/-- The text of a name with one more character in front. The digits behind a `&` have been
read as text before, and are taken off again. -/
theorem render_pathPieces_cons (keys : List String) (c : Char) (rest : List Char) :
    (pathPieces (c :: rest)).flatMap (PathPiece.render keys) =
      if c = '&' then
        (keys.getD (numeral (rest.takeWhile Char.isDigit)) "").toList ++
          ((pathPieces rest).flatMap (PathPiece.render keys)).drop
            (rest.takeWhile Char.isDigit).length
      else c :: (pathPieces rest).flatMap (PathPiece.render keys) := by
  have hdigits : (firstText (pathPieces rest)).takeWhile Char.isDigit =
      rest.takeWhile Char.isDigit := by
    rw [firstText_pathPieces, takeWhile_isDigit rfl]
  rw [pathPieces]
  by_cases hc : c = '&'
  · subst hc
    rw [if_pos rfl, ← hdigits, ← numberOf_eq]
    rcases pathPieces rest with _ | ⟨cs | _, more⟩
    case nil => simp [firstText, PathPiece.render]
    case cons.reference => simp [firstText, PathPiece.render]
    case cons.text =>
      have hcs : cs = cs.takeWhile Char.isDigit ++ cs.dropWhile Char.isDigit :=
        List.takeWhile_append_dropWhile.symm
      simp only [beq_self_eq_true, firstText, List.flatMap_cons, PathPiece.render]
      conv_rhs => rw [hcs, List.append_assoc, List.takeWhile_append_dropWhile, List.drop_left]
      cases cs.dropWhile Char.isDigit <;> simp [PathPiece.render]
  · have hfalse : (c == '&') = false := by simpa using hc
    rw [hfalse, if_neg hc]
    rcases pathPieces rest with _ | ⟨_ | _, _⟩ <;> simp [PathPiece.render]

/-- Where no reference lacks its key, the text of a name is what the name comes to. -/
theorem expands_pathPieces {keys : List String} {name : List Char}
    (h : ∀ digits, Refers name digits → numeral digits < keys.length) :
    Expands keys name ((pathPieces name).flatMap (PathPiece.render keys)) := by
  induction name with
  | nil => exact .nil
  | cons c rest ih =>
      have hrest := ih fun digits hd => h digits (refers_cons.mpr (.inr hd))
      rw [render_pathPieces_cons]
      by_cases hc : c = '&'
      · subst hc
        have hup := h _ (refers_cons.mpr (.inl ⟨rfl, rfl⟩))
        rw [if_pos rfl]
        refine .reference ?_ hrest.dropDigits
        rw [List.getD_eq_getElem?_getD, List.getElem?_eq_getElem hup, Option.getD_some]
      · rw [if_neg hc]
        exact .text hc hrest

/-- A reference that compiled stays below the depth. -/
theorem compilePiece_cases {depth : Nat} {path : String} {piece : PathPiece} {part : PathPart}
    (h : compilePiece depth path piece = .ok part) :
    (∃ cs, piece = .text cs ∧ part = .text (String.ofList cs)) ∨
      ∃ digits, piece = .reference digits ∧ part = .key (numberOf digits) ∧
        numberOf digits < depth := by
  cases piece with
  | text cs =>
      cases h
      exact .inl ⟨cs, rfl, rfl⟩
  | reference digits =>
      rw [compilePiece] at h
      split at h
      · cases h
      · split at h
        · cases h
        · next hbelow =>
            cases h
            exact .inr ⟨digits, rfl, rfl, Nat.not_le.mp hbelow⟩

/-- The parts of a name that compiled are made of its pieces. -/
theorem parts_of_compileName {depth : Nat} {path : String} {name : List Char}
    {parts : List PathPart} (h : compileName depth path name = .ok parts) :
    List.Forall₂ (fun piece part => compilePiece depth path piece = .ok part)
      (pathPieces name) parts := by
  rw [compileName] at h
  split at h
  · cases h
  · exact mapM_ok_iff.mp h

theorem render_of_parts {depth : Nat} {path : String} {pieces : List PathPiece}
    {parts : List PathPart} (keys : List String)
    (h : List.Forall₂ (fun piece part => compilePiece depth path piece = .ok part)
      pieces parts) :
    (String.join (parts.map (PathPart.render keys))).toList =
      pieces.flatMap (PathPiece.render keys) := by
  rw [String.toList_join, List.flatMap_map]
  induction h with
  | nil => rfl
  | cons hpiece _ ih =>
      rw [List.flatMap_cons, List.flatMap_cons, ih]
      obtain ⟨cs, rfl, rfl⟩ | ⟨digits, rfl, rfl, _⟩ := compilePiece_cases hpiece
      · rw [PathPart.render, PathPiece.render, String.toList_ofList]
      · rw [PathPart.render, PathPiece.render]

theorem expands_of_compileName {path : String} {name : List Char} {parts : List PathPart}
    {keys : List String} (h : compileName keys.length path name = .ok parts) :
    Expands keys name (String.join (parts.map (PathPart.render keys))).toList := by
  have hrefers := (compileName_succeeds_iff.mp ⟨parts, h⟩).2
  rw [render_of_parts keys (parts_of_compileName h)]
  exact expands_pathPieces fun digits hd => (hrefers digits hd).2

/-- A path with as many keys as its depth: each name comes to one name, with a key for each
reference. -/
theorem expands_of_compilePath {text : String} {path : OutputPath} {keys : List String}
    (h : compilePath keys.length text = .ok path) :
    List.Forall₂ (fun name out => Expands keys name out.toList) (text.toList.splitOn '.')
      (path.render keys) := by
  rw [OutputPath.render, List.forall₂_map_right_iff, ← Text.split_eq_splitOn]
  exact (mapM_ok_iff.mp h).imp fun _ _ => expands_of_compileName

/-- No path that compiled refers beyond its depth. -/
theorem lt_of_compilePath {depth up : Nat} {text : String} {path : OutputPath}
    {parts : List PathPart} (h : compilePath depth text = .ok path) (hparts : parts ∈ path)
    (hup : .key up ∈ parts) : up < depth := by
  obtain ⟨name, _, hname⟩ := exists_of_mem_right (mapM_ok_iff.mp h) hparts
  obtain ⟨piece, _, hpiece⟩ := exists_of_mem_right (parts_of_compileName hname) hup
  obtain ⟨_, _, hpart⟩ | ⟨digits, _, hpart, hbelow⟩ := compilePiece_cases hpiece <;> cases hpart
  exact hbelow

/-! ## Every reference -/

/-- A rendering of a path that has this text below these names. As many keys have been
matched as there are names, by these names and on the way to the value. No reference leads
further, and each name of the text comes to one name of what is written. -/
structure Resolves (entries : Entries Json) (doc : Json) (r : Rendering) (names : List String)
    (text : String) : Prop where
  placed : Places entries names text
  compiled : compilePath names.length text = .ok r.path
  depth : r.keys.length = names.length
  matched : List.Forall₂ Matches names r.keys.reverse
  found : (r.keys.reverse, r.value) ∈ doc.inside
  resolved : ∀ parts ∈ r.path, ∀ up, .key up ∈ parts → ∃ key, r.keys[up]? = some key
  expanded : List.Forall₂ (fun name out => Expands r.keys name out.toList)
    (text.toList.splitOn '.') r.write.1

/-- The rules of a shift that compiled come only to renderings in which each reference
resolves, and to nothing else that is written. -/
theorem references_resolve {source : Json} {spec : Spec} {rules : List (String × ShiftRule)}
    (hcompile : compile source = .ok spec) (hmem : .shift rules ∈ spec) :
    ∃ entries, HasShift source entries ∧ ∀ doc,
      (∀ w, w ∈ writesOf rules [] doc ↔ ∃ r, Renders rules [] doc r ∧ r.write = w) ∧
      ∀ r, Renders rules [] doc r → ∃ names text, Resolves entries doc r names text ∧
        r.write.1.length = (text.toList.splitOn '.').length := by
  obtain ⟨entries, hshift, hrules⟩ := exists_shift_of_mem_compile hcompile hmem
  refine ⟨entries, hshift, fun doc => ⟨fun w => ⟨exists_renders, ?_⟩, fun r hr => ?_⟩⟩
  · rintro ⟨r, hr, rfl⟩
    exact hr.mem_writesOf
  · obtain ⟨keys, names, text, hkeys, hplaces, hmatch, hcompiled⟩ := hr.compiled hrules
    obtain ⟨keys', hkeys', hfound⟩ := hr.found
    rw [List.append_nil] at hkeys hkeys'
    have hreverse : r.keys.reverse = keys := by rw [hkeys, List.reverse_reverse]
    have hsame : keys' = keys := List.reverse_injective (hkeys'.symm.trans hkeys)
    have hdepth : r.keys.length = names.length := by
      rw [hkeys, List.length_reverse, hmatch.length_eq]
    rw [Nat.zero_add] at hcompiled
    have hexpanded := expands_of_compilePath (hdepth ▸ hcompiled)
    refine ⟨names, text, ⟨hplaces, hcompiled, hdepth, hreverse ▸ hmatch, ?_, ?_, hexpanded⟩,
      hexpanded.length_eq.symm⟩
    · rw [hreverse, ← hsame]
      exact hfound
    · intro parts hparts up hup
      have hlt := lt_of_compilePath hcompiled hparts hup
      exact ⟨_, List.getElem?_eq_getElem (hdepth ▸ hlt)⟩

def guestShift : Entries Json :=
  [("rooms", .object [("*", .object [("*", .string "&1.in-&2.&")])])]

def guestRules : List (String × ShiftRule) :=
  [("rooms", .descend [("*", .descend
    [("*", .write [[[.key 1], [.text "in-", .key 2], [.key 0]]])])])]

def guests : Json :=
  .object [("rooms", .object [("a.b", .array [.string "Ada"]),
    ("", .object [("x.y", .string "Bob")])])]

/-- Keys with points in them and the empty key are names of the path like any other. -/
theorem guests_resolve :
    compile (shiftOf guestShift) = .ok [.shift guestRules] ∧
      writesOf guestRules [] guests =
        [(["a.b", "in-rooms", "0"], .string "Ada"), (["", "in-rooms", "x.y"], .string "Bob")] ∧
      ∃ r, r.write = (["", "in-rooms", "x.y"], .string "Bob") ∧
        ∃ names text, Resolves guestShift guests r names text := by
  have hcompile : compile (shiftOf guestShift) = .ok [.shift guestRules] := rfl
  have hwrites : writesOf guestRules [] guests =
      [(["a.b", "in-rooms", "0"], .string "Ada"), (["", "in-rooms", "x.y"], .string "Bob")] := rfl
  obtain ⟨entries, ⟨stage, hstage, _, hspec⟩, hresolve⟩ :=
    references_resolve hcompile (List.mem_singleton_self _)
  obtain hstage | ⟨items, hstage, _⟩ := hstage <;> cases hstage
  cases hspec
  obtain ⟨hwritten, hrenders⟩ := hresolve guests
  obtain ⟨r, hr, hwrite⟩ := (hwritten (["", "in-rooms", "x.y"], .string "Bob")).mp
    (hwrites ▸ List.mem_cons_of_mem _ (List.mem_singleton_self _))
  obtain ⟨names, text, hresolves, _⟩ := hrenders r hr
  exact ⟨hcompile, hwrites, r, hwrite, names, text, hresolves⟩

end Spec

end MessageBridge
