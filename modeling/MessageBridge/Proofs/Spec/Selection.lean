import MessageBridge.Proofs.Entries
import MessageBridge.Proofs.Spec.Language
import MessageBridge.Spec.Apply

/-!
# What a shift selects

The rules of a shift are walked through together with a document. The same writes are got
by going through all values inside the document, in order, and asking for each of them
which paths the rules have for the keys that lead to it; most values have none.

A path that compiled knows how many keys have been matched when it is written: exactly the
keys that lead to the value.
-/

namespace MessageBridge

namespace Json

mutual

/-- The values inside a document, each after the one that holds it and in order, with the
keys that lead to them, the outermost first. The key of an item is its position. -/
def inside : Json → List (List String × Json)
  | .object entries => insideEntries entries
  | .array items => insideItems 0 items
  | _ => []

def insideEntries : List (String × Json) → List (List String × Json)
  | [] => []
  | (key, value) :: rest =>
    ([key], value) :: value.inside.map (fun v => (key :: v.1, v.2)) ++ insideEntries rest

def insideItems (position : Nat) : List Json → List (List String × Json)
  | [] => []
  | item :: rest =>
    ([toString position], item) :: item.inside.map (fun v => (toString position :: v.1, v.2))
      ++ insideItems (position + 1) rest

end

/-- The value at a key or a position, and the values inside it. -/
def insideAt (key : String) (value : Json) : List (List String × Json) :=
  ([key], value) :: value.inside.map fun v => (key :: v.1, v.2)

theorem insideEntries_eq (entries : Entries Json) :
    insideEntries entries = entries.flatMap fun e => insideAt e.1 e.2 := by
  induction entries with
  | nil => rfl
  | cons e rest ih => rw [insideEntries, ih, List.flatMap_cons, insideAt]

theorem insideItems_eq (position : Nat) (items : List Json) :
    insideItems position items =
      (items.zipIdx position).flatMap fun v => insideAt (toString v.2) v.1 := by
  induction items generalizing position with
  | nil => rfl
  | cons item rest ih => rw [insideItems, ih, List.zipIdx_cons, List.flatMap_cons, insideAt]

/-- At least one key leads to a value inside another. -/
theorem ne_nil_of_mem_inside {doc : Json} {v : List String × Json} (hv : v ∈ doc.inside) :
    v.1 ≠ [] := by
  have hat {key : String} {value : Json} (hv : v ∈ insideAt key value) : v.1 ≠ [] := by
    rcases List.mem_cons.mp hv with rfl | hv
    · exact List.cons_ne_nil key []
    · obtain ⟨w, _, rfl⟩ := List.mem_map.mp hv
      exact List.cons_ne_nil key w.1
  cases doc with
  | null | bool | number | string => cases hv
  | array items =>
      rw [inside, insideItems_eq] at hv
      obtain ⟨_, _, hv⟩ := List.mem_flatMap.mp hv
      exact hat hv
  | object entries =>
      rw [inside, insideEntries_eq] at hv
      obtain ⟨_, _, hv⟩ := List.mem_flatMap.mp hv
      exact hat hv

end Json

namespace Spec

/-! ## Paths for a value -/

/-- The output paths that a rule has for a value, given the keys that lead there. The rule
that names a key comes before the one for any key. -/
def ShiftRule.pathsFor : ShiftRule → List String → List OutputPath
  | .write paths, [] => paths
  | .write _, _ :: _ => []
  | .descend _, [] => []
  | .descend rules, key :: keys =>
    match Entries.get? key rules, Entries.get? "*" rules with
    | some rule, _ => rule.pathsFor keys
    | none, some rule => rule.pathsFor keys
    | none, none => []

/-- What a rule writes for a value, given the keys that lead there from where the rule
stands, and those that lead to the rule, the innermost first. -/
def ShiftRule.writesFor (above : List String) (rule : ShiftRule) (value : List String × Json) :
    List Write :=
  (rule.pathsFor value.1).map fun path => (path.render (value.1.reverse ++ above), value.2)

/-- The writes that rules declare for a document: for all values inside it, in order. -/
def declared (rules : List (String × ShiftRule)) (doc : Json) : List Write :=
  doc.inside.flatMap ((ShiftRule.descend rules).writesFor [])

variable {rules : List (String × ShiftRule)} {above : List String} {key : String}

theorem pathsFor_descend (rules : List (String × ShiftRule)) (key : String)
    (keys : List String) :
    (ShiftRule.descend rules).pathsFor (key :: keys) =
      (ruleFor rules key).elim [] (·.pathsFor keys) := by
  rw [ShiftRule.pathsFor, ruleFor, wildcard]
  cases Entries.get? key rules <;> cases Entries.get? "*" rules <;> rfl

/-- What rules write for the value at a key. -/
def writesAt (rules : List (String × ShiftRule)) (above : List String) (key : String)
    (value : Json) : List Write :=
  match ruleFor rules key with
  | none => []
  | some (.write paths) => paths.map fun path => (path.render (key :: above), value)
  | some (.descend rules) => writesOf rules (key :: above) value

theorem writesOfEntries_eq (rules : List (String × ShiftRule)) (above : List String)
    (entries : Entries Json) :
    writesOfEntries rules above entries =
      entries.flatMap fun e => writesAt rules above e.1 e.2 := by
  induction entries with
  | nil => rw [writesOfEntries]; rfl
  | cons e rest ih =>
      rw [List.flatMap_cons, ← ih]
      rfl

theorem writesOfItems_eq (rules : List (String × ShiftRule)) (above : List String)
    (position : Nat) (items : List Json) :
    writesOfItems rules above position items =
      (items.zipIdx position).flatMap fun v => writesAt rules above (toString v.2) v.1 := by
  induction items generalizing position with
  | nil => rw [writesOfItems]; rfl
  | cons item rest ih =>
      rw [List.zipIdx_cons, List.flatMap_cons, ← ih]
      rfl

theorem writesFor_cons (above : List String) (rules : List (String × ShiftRule)) (key : String)
    (v : List String × Json) :
    (ShiftRule.descend rules).writesFor above (key :: v.1, v.2) =
      (ruleFor rules key).elim [] fun rule => rule.writesFor (key :: above) v := by
  simp only [ShiftRule.writesFor, pathsFor_descend, List.reverse_cons, List.append_assoc,
    List.singleton_append]
  cases ruleFor rules key <;> rfl

/-- What is written for a value at a key is what its rule writes there and further
inside. -/
theorem writesAt_eq {value : Json} (above : List String) (rules : List (String × ShiftRule))
    (key : String)
    (hvalue : ∀ (rules : List (String × ShiftRule)) (above : List String),
      writesOf rules above value =
        value.inside.flatMap ((ShiftRule.descend rules).writesFor above)) :
    writesAt rules above key value =
      (Json.insideAt key value).flatMap ((ShiftRule.descend rules).writesFor above) := by
  have hfirst := writesFor_cons above rules key ([], value)
  have hothers (v : List String × Json) := writesFor_cons above rules key v
  rw [Json.insideAt, List.flatMap_cons, List.flatMap_map, hfirst, writesAt]
  simp only [hothers]
  cases ruleFor rules key with
  | none => simp
  | some rule =>
      cases rule with
      | write paths =>
          have hnone : ∀ v ∈ value.inside,
              (ShiftRule.write paths).writesFor (key :: above) v = [] := by
            intro v hv
            obtain ⟨k, ks, hkeys⟩ := List.exists_cons_of_ne_nil (Json.ne_nil_of_mem_inside hv)
            rw [ShiftRule.writesFor, hkeys, ShiftRule.pathsFor, List.map_nil]
          simp only [Option.elim_some, List.flatMap_eq_nil_iff.mpr hnone, List.append_nil]
          rfl
      | descend inner =>
          simp only [Option.elim_some]
          exact hvalue inner (key :: above)

theorem writesOf_eq (rules : List (String × ShiftRule)) (above : List String) (value : Json) :
    writesOf rules above value =
      value.inside.flatMap ((ShiftRule.descend rules).writesFor above) := by
  induction value using Json.induction_inside generalizing rules above with
  | null | bool | number | string => simp only [writesOf, Json.inside, List.flatMap_nil]
  | array items ih =>
      rw [writesOf, Json.inside, writesOfItems_eq, Json.insideItems_eq, List.flatMap_assoc]
      exact List.flatMap_congr fun v hv =>
        writesAt_eq above rules _ (ih v.1 (List.fst_mem_of_mem_zipIdx hv))
  | object entries ih =>
      rw [writesOf, Json.inside, writesOfEntries_eq, Json.insideEntries_eq, List.flatMap_assoc]
      exact List.flatMap_congr fun e he => writesAt_eq above rules _ (ih e he)

theorem writesOf_eq_declared (rules : List (String × ShiftRule)) (doc : Json) :
    writesOf rules [] doc = declared rules doc :=
  writesOf_eq rules [] doc

/-! ## Paths that compiled -/

/-- The rule for a key stands at this key, or at the one for any key. -/
theorem mem_of_ruleFor {rule : ShiftRule} (h : ruleFor rules key = some rule) :
    ∃ name, (name = wildcard ∨ name = key) ∧ (name, rule) ∈ rules := by
  rcases Option.or_eq_some_iff.mp h with h | ⟨_, h⟩
  · exact ⟨key, .inr rfl, Entries.mem_of_get? h⟩
  · exact ⟨wildcard, .inl rfl, Entries.mem_of_get? h⟩

theorem exists_of_mem_compileShift {depth : Nat} {entries : Entries Json} {name : String}
    {rule : ShiftRule} (hrules : compileShift depth entries = .ok rules)
    (hmem : (name, rule) ∈ rules) :
    ∃ value, (name, value) ∈ entries ∧ compileShiftRule depth name value = .ok rule := by
  rw [compileShift_eq, mapM_ok_iff] at hrules
  obtain ⟨⟨_, value⟩, he, hcompiled⟩ := exists_of_mem_right hrules hmem
  obtain ⟨_, hrule, hname⟩ := map_eq_ok hcompiled
  cases hname
  exact ⟨value, he, hrule⟩

/-- What a rule is compiled from: one or more paths of its own depth, or rules of the next
one. -/
theorem compileShiftRule_cases {depth : Nat} {name : String} {value : Json} {rule : ShiftRule}
    (h : compileShiftRule depth name value = .ok rule) :
    (∃ paths, rule = .write paths ∧ ∀ path ∈ paths, ∃ text,
      (value = .string text ∨ ∃ items, value = .array items ∧ .string text ∈ items) ∧
        compilePath depth text = .ok path) ∨
    ∃ entries rules, value = .object entries ∧ rule = .descend rules ∧
      compileShift (depth + 1) entries = .ok rules := by
  cases value with
  | null | bool | number => cases h
  | string text =>
      obtain ⟨path, hpath, h⟩ := bind_eq_ok h
      cases h
      exact .inl ⟨[path], rfl, List.forall_mem_singleton.mpr ⟨text, .inl rfl, hpath⟩⟩
  | array items =>
      obtain ⟨paths, hpaths, h⟩ := bind_eq_ok h
      cases h
      rw [compilePaths_eq, mapM_ok_iff] at hpaths
      refine .inl ⟨paths, rfl, fun path hpath => ?_⟩
      obtain ⟨item, hitem, hcompiled⟩ := exists_of_mem_right hpaths hpath
      cases item with
      | string text => exact ⟨text, .inr ⟨items, rfl, hitem⟩, hcompiled⟩
      | _ => cases hcompiled
  | object entries =>
      obtain ⟨rules, hrules, h⟩ := bind_eq_ok h
      cases h
      exact .inr ⟨entries, rules, rfl, rfl, hrules⟩

/-- A path for a value was compiled at the depth at which the value is found. -/
theorem exists_compilePath {depth : Nat} {name : String} {value : Json} {rule : ShiftRule}
    {keys : List String} {path : OutputPath}
    (hrule : compileShiftRule depth name value = .ok rule) (hpath : path ∈ rule.pathsFor keys) :
    ∃ text, compilePath (depth + keys.length) text = .ok path := by
  induction keys generalizing depth name value rule with
  | nil =>
      rcases compileShiftRule_cases hrule with ⟨paths, rfl, hpaths⟩ | ⟨_, _, _, rfl, _⟩
      · obtain ⟨text, _, hcompiled⟩ := hpaths path hpath
        exact ⟨text, hcompiled⟩
      · cases hpath
  | cons key keys ih =>
      rcases compileShiftRule_cases hrule with ⟨paths, rfl, hpaths⟩ | ⟨_, rules, _, rfl, hrules⟩
      · cases hpath
      · rw [pathsFor_descend] at hpath
        cases hchosen : ruleFor rules key with
        | none =>
            rw [hchosen] at hpath
            cases hpath
        | some chosen =>
            rw [hchosen] at hpath
            obtain ⟨_, _, hmem⟩ := mem_of_ruleFor hchosen
            obtain ⟨_, _, he⟩ := exists_of_mem_compileShift hrules hmem
            have := ih he hpath
            rwa [Nat.add_assoc, Nat.add_comm 1] at this

theorem ne_nil_of_compilePath {depth : Nat} {text : String} {path : OutputPath}
    (h : compilePath depth text = .ok path) : path ≠ [] := by
  have hlength := (mapM_ok_iff.mp h).length_eq
  rintro rfl
  exact Text.split_ne_nil '.' text.toList (List.length_eq_zero_iff.mp hlength)

/-- A specification has a shift with these entries: it is this stage, or has it. -/
def HasShift (doc : Json) (entries : Entries Json) : Prop :=
  ∃ stage : Entries Json,
    (doc = .object stage ∨ ∃ items, doc = .array items ∧ .object stage ∈ items) ∧
    stage.get? "operation" = some (.string "shift") ∧ stage.get? "spec" = some (.object entries)

/-- The rules of a shift are compiled from the first level on. -/
theorem exists_of_compileStage {item : Json} (h : compileStage item = .ok (.shift rules)) :
    ∃ stage entries : Entries Json, item = .object stage ∧
      stage.get? "operation" = some (.string "shift") ∧
      stage.get? "spec" = some (.object entries) ∧ compileShift 1 entries = .ok rules := by
  obtain ⟨stage, entries, _, rfl, hoperation, hspec, hcompiles⟩ := compileStage_ok_iff.mp h
  cases hcompiles with
  | shift hrules => exact ⟨stage, entries, rfl, hoperation, hspec, hrules⟩

theorem exists_shift_of_mem_compile {doc : Json} {spec : Spec} (h : compile doc = .ok spec)
    (hmem : .shift rules ∈ spec) :
    ∃ entries, HasShift doc entries ∧ compileShift 1 entries = .ok rules := by
  cases doc with
  | null | bool | number | string => cases h
  | array items =>
      obtain ⟨item, hitem, hstage⟩ := exists_of_mem_right (mapM_ok_iff.mp h) hmem
      obtain ⟨stage, entries, rfl, hoperation, hspec, hrules⟩ := exists_of_compileStage hstage
      exact ⟨entries, ⟨stage, .inr ⟨items, rfl, hitem⟩, hoperation, hspec⟩, hrules⟩
  | object stage =>
      obtain ⟨compiled, hstage, rfl⟩ := map_eq_ok h
      cases List.mem_singleton.mp hmem
      obtain ⟨_, entries, heq, hoperation, hspec, hrules⟩ := exists_of_compileStage hstage
      cases heq
      exact ⟨entries, ⟨stage, .inl rfl, hoperation, hspec⟩, hrules⟩

theorem exists_of_mem_compile {doc : Json} {spec : Spec} (h : compile doc = .ok spec)
    (hmem : .shift rules ∈ spec) : ∃ entries, compileShift 1 entries = .ok rules := by
  obtain ⟨entries, _, hrules⟩ := exists_shift_of_mem_compile h hmem
  exact ⟨entries, hrules⟩

/-- No write of a compiled stage has an empty path. -/
theorem ne_nil_of_mem_declared {doc : Json} {entries : Entries Json}
    (hrules : compileShift 1 entries = .ok rules) {w : Write} (hw : w ∈ declared rules doc) :
    w.1 ≠ [] := by
  obtain ⟨v, _, hv⟩ := List.mem_flatMap.mp hw
  obtain ⟨path, hpath, rfl⟩ := List.mem_map.mp hv
  have hrule : compileShiftRule 0 "" (.object entries) = .ok (.descend rules) := by
    rw [compileShiftRule, hrules]
    rfl
  obtain ⟨text, hcompiled⟩ := exists_compilePath hrule hpath
  exact fun hnil => ne_nil_of_compilePath hcompiled (List.map_eq_nil_iff.mp hnil)

end Spec

end MessageBridge
