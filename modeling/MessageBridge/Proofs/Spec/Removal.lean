import MessageBridge.Proofs.Json.Keys
import MessageBridge.Proofs.Spec.Language
import MessageBridge.Spec.Apply

/-!
# What a removal leaves of a document

Removal rules are carried out one after the other, and each changes what the next one
finds. What comes out can be said without any order. Every text in a specification has a
path of keys that lead to it. An entry of a document goes if the keys on the way to it
begin with such a path, where `*` fits every key; all else stays.

The proof turns each rule into such a loss of entries. Losing some entries and then
others is losing both, so rules can be put together in any order.
-/

namespace MessageBridge

namespace Json

/-! ## Documents without some of their entries -/

/-- The keys on the way to a position. -/
def keysTo : Json → Position → List String
  | .object entries, .entry i :: pos =>
    match entries[i]? with
    | some (key, value) => key :: value.keysTo pos
    | none => []
  | .array items, .item i :: pos =>
    match items[i]? with
    | some item => item.keysTo pos
    | none => []
  | _, _ => []

/-- A document without the entries that are dropped, which depends on the keys that lead
to an entry. -/
def without (drops : List String → Bool) (doc : Json) : Json :=
  doc.prune fun pos => !drops (doc.keysTo pos)

/-- What is left of an entry, if it is not dropped. -/
def entryWithout (drops : List String → Bool) (entry : String × Json) :
    Option (String × Json) :=
  if drops [entry.1] then none
  else some (entry.1, entry.2.without fun keys => drops (entry.1 :: keys))

variable {drops drops' : List String → Bool}

@[simp]
theorem keysTo_nil (value : Json) : value.keysTo [] = [] := by
  cases value <;> rfl

theorem without_object (drops : List String → Bool) (entries : Entries Json) :
    (object entries).without drops = .object (entries.filterMap (entryWithout drops)) := by
  have hentry (e : String × Json) (i : Nat) (hi : entries[i]? = some e) :
      pruneEntry (fun pos => !drops ((object entries).keysTo pos)) (e, i) =
        entryWithout drops e := by
    simp only [pruneEntry, keysTo, hi, keysTo_nil, entryWithout, without]
    cases drops [e.1] <;> rfl
  rw [without, prune, pruneEntries_eq, filterMap_zipIdx hentry]

/-- Arrays lose no item. -/
theorem without_array (hnil : drops [] = false) (items : List Json) :
    (array items).without drops = .array (items.map (without drops)) := by
  have hitem (v : Json) (i : Nat) (hi : items[i]? = some v) :
      pruneItem (fun pos => !drops ((array items).keysTo pos)) (v, i) =
        some (v.without drops) := by
    simp only [pruneItem, keysTo, hi, keysTo_nil, hnil, without]
    rfl
  rw [without, prune, pruneItems_eq, filterMap_zipIdx hitem, ← List.filterMap_eq_map]
  rfl

theorem without_nothing {value : Json} (hnone : ∀ keys, drops keys = false) :
    value.without drops = value := by
  simp only [without, hnone, Bool.not_false]
  exact prune_all value

theorem without_within (drops : List String → Bool) (value : Json) :
    (value.without drops).Within value :=
  value.prune_within _

/-- Losing some entries and then others is losing both. -/
theorem without_without (hnil : drops [] = false) (hnil' : drops' [] = false) (value : Json) :
    (value.without drops).without drops' = value.without fun keys => drops keys || drops' keys := by
  induction value using induction_inside generalizing drops drops' with
  | null | bool | number | string => simp only [without, prune]
  | array items ih =>
      rw [without_array hnil, without_array hnil', without_array (by simp [hnil, hnil']),
        List.map_map]
      exact congrArg Json.array (List.map_congr_left fun v hv => ih v hv hnil hnil')
  | object entries ih =>
      rw [without_object, without_object, without_object, List.filterMap_filterMap]
      refine congrArg Json.object (List.filterMap_congr fun e he => ?_)
      unfold entryWithout
      cases hdrop : drops [e.1] <;> cases hdrop' : drops' [e.1] <;> simp [hdrop, hdrop']
      exact ih e he hdrop hdrop'

mutual

/-- The keys that lead to each text of a specification. -/
def textPaths : Json → List (List String)
  | .string _ => [[]]
  | .object entries => entriesTextPaths entries
  | _ => []

def entriesTextPaths : List (String × Json) → List (List String)
  | [] => []
  | (key, value) :: rest => value.textPaths.map (key :: ·) ++ entriesTextPaths rest

end

theorem entriesTextPaths_eq (entries : Entries Json) :
    entriesTextPaths entries = entries.flatMap fun e => e.2.textPaths.map (e.1 :: ·) := by
  induction entries with
  | nil => rfl
  | cons e rest ih => rw [entriesTextPaths, ih, List.flatMap_cons]

/-! ## Documents within others, and reordered ones -/

theorem exists_of_mem_sublist {α : Type} {R : α → α → Prop} {xs ys : List α} {x : α}
    (h : List.SublistForall₂ R xs ys) (hx : x ∈ xs) : ∃ y ∈ ys, R x y := by
  induction h with
  | nil => cases hx
  | cons hxy _ ih =>
      rcases List.mem_cons.mp hx with rfl | hx
      · exact ⟨_, List.mem_cons_self, hxy⟩
      · exact (ih hx).imp fun _ => And.imp_left (List.mem_cons_of_mem _)
  | cons_right _ ih => exact (ih hx).imp fun _ => And.imp_left (List.mem_cons_of_mem _)

theorem keys_sublist {R : Json → Json → Prop} {entries wider : Entries Json}
    (h : List.SublistForall₂ (SameKey R) entries wider) : entries.keys.Sublist wider.keys := by
  have hkeys : ∀ e ∈ entries, ∀ f, SameKey R e f → [e.1].Sublist [f.1] := by
    rintro _ _ _ ⟨key, _⟩
    exact List.Sublist.refl _
  simpa only [Entries.keys, List.map_eq_flatMap] using sublist_flatMap h hkeys

/-- What is within a document in which each key stands once is such a document too. -/
theorem Within.keysOnce {v w : Json} (h : v.Within w) (hw : w.KeysOnce) : v.KeysOnce := by
  induction v using induction_inside generalizing w with
  | null => exact .null
  | bool b => exact .bool b
  | number n => exact .number n
  | string s => exact .string s
  | array items ih =>
      cases h with
      | array h =>
          cases hw with
          | array each =>
              refine .array fun v hv => ?_
              obtain ⟨w, hw, hvw⟩ := exists_of_mem_sublist h hv
              exact ih v hv hvw (each w hw)
  | object entries ih =>
      cases h with
      | object h =>
          cases hw with
          | object hkeys hvalues =>
              refine .object ?_ fun e he => ?_
              · exact (keys_sublist h).nodup hkeys
              · obtain ⟨w, hw, hvw⟩ := exists_of_mem_sublist h he
                cases hvw with
                | mk key hvw => exact ih _ he hvw (hvalues _ hw)

/-- The same document, but for the order in which its objects list their entries. -/
inductive Reordered : Json → Json → Prop where
  | same (value : Json) : Reordered value value
  | object {entries middle entries' : Entries Json} (order : entries.Perm middle)
      (values : List.Forall₂ (SameKey Reordered) middle entries') :
      Reordered (.object entries) (.object entries')

theorem Reordered.textPaths_perm {v w : Json} (h : v.Reordered w) :
    v.textPaths.Perm w.textPaths := by
  induction v using induction_inside generalizing w with
  | null | bool | number | string | array =>
      cases h
      exact .refl _
  | object entries ih =>
      cases h with
      | same => exact .refl _
      | @object _ middle entries' order values =>
          have hvalues : ∀ e ∈ middle, ∀ w, e.2.Reordered w → e.2.textPaths.Perm w.textPaths :=
            fun e he w => ih e (order.mem_iff.mpr he)
          rw [textPaths, textPaths, entriesTextPaths_eq, entriesTextPaths_eq]
          refine (order.flatMap_right _).trans ?_
          clear order ih
          induction values with
          | nil => exact .refl _
          | cons hef _ ih =>
              obtain ⟨hfirst, hrest⟩ := List.forall_mem_cons.mp hvalues
              obtain ⟨key, hvw⟩ := hef
              exact ((hfirst _ hvw).map _).append (ih hrest)

end Json

namespace Spec

/-- A name in a specification fits a key. -/
def Fits (name key : String) : Prop :=
  name = key ∨ name = wildcard

instance (name key : String) : Decidable (Fits name key) :=
  inferInstanceAs (Decidable (_ ∨ _))

/-- The keys begin with some that fit one of the paths, one by one. -/
def Covers (paths : List (List String)) (keys : List String) : Prop :=
  ∃ path ∈ paths, List.Forall₂ Fits path (keys.take path.length)

instance (paths : List (List String)) (keys : List String) : Decidable (Covers paths keys) :=
  inferInstanceAs (Decidable (∃ path ∈ paths, _))

theorem covers_append {paths paths' : List (List String)} {keys : List String} :
    Covers (paths ++ paths') keys ↔ Covers paths keys ∨ Covers paths' keys := by
  simp only [Covers, List.mem_append, or_and_right, exists_or]

theorem covers_cons {name key : String} {paths : List (List String)} {keys : List String} :
    Covers (paths.map (name :: ·)) (key :: keys) ↔ Fits name key ∧ Covers paths keys := by
  constructor
  · rintro ⟨_, hmem, hfits⟩
    obtain ⟨path, hpath, rfl⟩ := List.mem_map.mp hmem
    obtain ⟨hname, hrest⟩ := List.forall₂_cons.mp hfits
    exact ⟨hname, path, hpath, hrest⟩
  · rintro ⟨hname, path, hpath, hrest⟩
    exact ⟨name :: path, List.mem_map_of_mem hpath, .cons hname hrest⟩

theorem not_covers_cons_nil {name : String} {paths : List (List String)} :
    ¬ Covers (paths.map (name :: ·)) [] := by
  simp [Covers]

theorem covers_text (keys : List String) : Covers [[]] keys := by
  simp [Covers]

/-- A document is not covered as a whole, whatever is to be removed of it. -/
theorem not_covers_nil (spec : Entries Json) : ¬ Covers (Json.entriesTextPaths spec) [] := by
  induction spec with
  | nil => simp [Json.entriesTextPaths, Covers]
  | cons e rest ih =>
      rw [Json.entriesTextPaths, covers_append]
      exact not_or.mpr ⟨not_covers_cons_nil, ih⟩

/-! ## What the rules drop -/

theorem mapTopObjectsOfItems_eq (f : Entries Json → Entries Json) (items : List Json) :
    mapTopObjectsOfItems f items = items.map (mapTopObjects f) := by
  induction items with
  | nil => rfl
  | cons item rest ih => rw [mapTopObjectsOfItems, ih, List.map_cons]

/-- What drops entries of an object drops those of objects in arrays as well. -/
theorem mapTopObjects_eq {drops : List String → Bool} {f : Entries Json → Entries Json}
    (hnil : drops [] = false)
    (hf : ∀ entries : Entries Json, (Json.object entries).KeysOnce →
      .object (f entries) = (Json.object entries).without drops)
    {value : Json} (hv : value.KeysOnce) : mapTopObjects f value = value.without drops := by
  induction hv with
  | null | bool | number | string => simp only [mapTopObjects, Json.without, Json.prune]
  | array _ ih =>
      rw [mapTopObjects, mapTopObjectsOfItems_eq, Json.without_array hnil]
      exact congrArg Json.array (List.map_congr_left ih)
  | object keys values => exact hf _ (.object keys values)

/-- The entries go whose keys fit the name. -/
theorem removeBy_drop (key : String) (entries : Entries Json) :
    removeBy key .drop entries = entries.filter (¬ Fits key ·.1) := by
  rw [removeBy]
  split
  · next hany => simp [Fits, hany]
  · next hkey => simp [Fits, hkey, Entries.erase, @eq_comm _ key]

/-- The values change whose keys fit the name. -/
theorem removeBy_descend {key : String} {rules : List (String × RemoveRule)}
    {entries : Entries Json} (hkeys : entries.DistinctKeys) :
    removeBy key (.descend rules) entries =
      entries.map fun e =>
        if Fits key e.1 then (e.1, mapTopObjects (removeEntries rules) e.2) else e := by
  rw [removeBy]
  split
  · next hany => simp [Fits, hany]
  · next hkey => simp [Fits, hkey, hkeys.modify_eq, @eq_comm _ key]

theorem entryWithout_covers (key : String) (paths : List (List String)) (e : String × Json) :
    Json.entryWithout (Covers (paths.map (key :: ·)) ·) e =
      if Fits key e.1 then
        if Covers paths [] then none else some (e.1, e.2.without (Covers paths ·))
      else some e := by
  simp only [Json.entryWithout, covers_cons]
  by_cases hfits : Fits key e.1
  · simp [hfits]
  · simp [hfits, Json.without_nothing]

/-- The entries that rules leave, one rule after the other, when each of them leaves what
its text says. -/
theorem removeEntries_eq {spec : Entries Json}
    (hrules : ∀ e ∈ spec, ∀ rule, compileRemoveRule e.1 e.2 = .ok rule →
      ∀ entries : Entries Json, (Json.object entries).KeysOnce →
        .object (removeBy e.1 rule entries) =
          (Json.object entries).without (Covers (e.2.textPaths.map (e.1 :: ·)) ·))
    {rules : List (String × RemoveRule)} (hcompiled : compileRemove spec = .ok rules)
    {entries : Entries Json} (honce : (Json.object entries).KeysOnce) :
    .object (removeEntries rules entries) =
      (Json.object entries).without (Covers (Json.entriesTextPaths spec) ·) := by
  induction spec generalizing rules entries with
  | nil =>
      cases hcompiled
      exact (Json.without_nothing fun keys => by simp [Json.entriesTextPaths, Covers]).symm
  | cons e rest ih =>
      obtain ⟨hrule, hrest⟩ := List.forall_mem_cons.mp hrules
      rw [compileRemove] at hcompiled
      obtain ⟨rule, hcompiledRule, hcompiled⟩ := bind_eq_ok hcompiled
      obtain ⟨others, hothers, hcompiled⟩ := bind_eq_ok hcompiled
      cases hcompiled
      have hfirst := hrule rule hcompiledRule entries honce
      have hleft : (Json.object (removeBy e.1 rule entries)).KeysOnce := by
        rw [hfirst]
        exact (Json.without_within _ _).keysOnce honce
      rw [removeEntries, ih hrest hothers hleft, hfirst, Json.without_without]
      · simp only [Json.entriesTextPaths, covers_append, Bool.decide_or]
      · exact decide_eq_false not_covers_cons_nil
      · exact decide_eq_false (not_covers_nil rest)

/-- A removal at one key leaves what its text says. -/
theorem removeBy_eq {key : String} {value : Json} {rule : RemoveRule}
    (hrule : compileRemoveRule key value = .ok rule) {entries : Entries Json}
    (honce : (Json.object entries).KeysOnce) :
    .object (removeBy key rule entries) =
      (Json.object entries).without (Covers (value.textPaths.map (key :: ·)) ·) := by
  induction value using Json.induction_inside generalizing key rule entries with
  | null | bool | number | array => cases hrule
  | string text =>
      cases hrule
      rw [removeBy_drop, Json.without_object, ← List.filterMap_eq_filter]
      refine congrArg Json.object (List.filterMap_congr fun e he => ?_)
      rw [Json.textPaths, entryWithout_covers, if_pos (covers_text [])]
      by_cases hfits : Fits key e.1 <;> simp [hfits]
  | object spec ih =>
      rw [compileRemoveRule] at hrule
      obtain ⟨rules, hrules, hrule⟩ := bind_eq_ok hrule
      cases hrule
      cases honce with
      | object hkeys hvalues =>
          rw [removeBy_descend hkeys, Json.without_object, ← List.filterMap_eq_map]
          refine congrArg Json.object (List.filterMap_congr fun e he => ?_)
          have hinside : mapTopObjects (removeEntries rules) e.2 =
              e.2.without (Covers (Json.entriesTextPaths spec) ·) :=
            mapTopObjects_eq (decide_eq_false (not_covers_nil spec))
              (fun _ => removeEntries_eq (fun e he _ hrule _ => ih e he hrule) hrules)
              (hvalues e he)
          rw [Json.textPaths, entryWithout_covers, if_neg (not_covers_nil spec), ← hinside]
          by_cases hfits : Fits key e.1 <;> simp [hfits]

theorem RemoveValue.reordered {v w : Json} (hv : RemoveValue v) (h : v.Reordered w) :
    RemoveValue w := by
  induction hv generalizing w with
  | drop text =>
      cases h
      exact .drop text
  | @inside entries _ ih =>
      cases h with
      | same => exact .inside ‹_›
      | object order values =>
          refine .inside fun f hf => ?_
          obtain ⟨e, he, hef⟩ := exists_of_mem_right values hf
          obtain ⟨key, hvw⟩ := hef
          exact ih _ (order.mem_iff.mpr he) hvw

theorem Covers.mono {paths paths' : List (List String)} {keys : List String}
    (h : Covers paths keys) (hsub : paths ⊆ paths') : Covers paths' keys :=
  h.imp fun _ => And.imp_left (@hsub _)

/-- A stage that removes what its entries say. -/
structure Removes (stage entries : Entries Json) : Prop where
  operation : stage.get? "operation" = some (.string "remove")
  spec : stage.get? "spec" = some (.object entries)

variable {stage entries : Entries Json} {compiled : Stage}

theorem Removes.compileStage_eq (h : Removes stage entries) :
    compileStage (.object stage) = (compileRemove entries).map .remove := by
  simp only [compileStage, h.operation, h.spec]
  rfl

theorem Removes.compiles_iff (h : Removes stage entries) :
    (∃ compiled, compileStage (.object stage) = .ok compiled) ↔ RemoveValue (.object entries) := by
  rw [h.compileStage_eq, map_succeeds_iff, compileRemove_succeeds_iff]
  exact ⟨.inside, fun | .inside valid => valid⟩

theorem Removes.apply_eq (h : Removes stage entries)
    (hcompiled : compileStage (.object stage) = .ok compiled) {doc : Json} (hdoc : doc.KeysOnce) :
    compiled.apply doc = some (doc.without (Covers (Json.object entries).textPaths ·)) := by
  rw [h.compileStage_eq] at hcompiled
  cases hrules : compileRemove entries with
  | error defect =>
      rw [hrules] at hcompiled
      cases hcompiled
  | ok rules =>
      rw [hrules] at hcompiled
      cases hcompiled
      refine congrArg some (mapTopObjects_eq (decide_eq_false (not_covers_nil entries)) ?_ hdoc)
      exact fun _ => removeEntries_eq (fun e _ _ hrule _ => removeBy_eq hrule) hrules

/-- A removal leaves a document without the entries that are reached by keys beginning with
a path of the specification, and changes nothing else. So it changes nothing the second
time, and it does not matter in which order the specification lists its keys. -/
theorem removal_drops_covered (h : Removes stage entries)
    (hcompiled : compileStage (.object stage) = .ok compiled) :
    (∀ doc : Json, doc.KeysOnce →
      compiled.apply doc = some (doc.without (Covers (Json.object entries).textPaths ·))) ∧
    (∀ doc left : Json, doc.KeysOnce → compiled.apply doc = some left →
      compiled.apply left = some left) ∧
    ∀ stage' entries' : Entries Json, Removes stage' entries' →
      (Json.object entries).Reordered (.object entries') →
        ∃ compiled', compileStage (.object stage') = .ok compiled' ∧
          ∀ doc : Json, doc.KeysOnce → compiled'.apply doc = compiled.apply doc := by
  refine ⟨fun doc => h.apply_eq hcompiled, fun doc left hdoc hleft => ?_, ?_⟩
  · have hnil : decide (Covers (Json.object entries).textPaths []) = false :=
      decide_eq_false (not_covers_nil entries)
    rw [h.apply_eq hcompiled hdoc] at hleft
    cases hleft
    rw [h.apply_eq hcompiled ((Json.without_within _ doc).keysOnce hdoc),
      Json.without_without hnil hnil]
    simp only [Bool.or_self]
  · intro stage' entries' h' hreordered
    have hvalid := (h.compiles_iff.mp ⟨compiled, hcompiled⟩).reordered hreordered
    obtain ⟨compiled', hcompiled'⟩ := h'.compiles_iff.mpr hvalid
    refine ⟨compiled', hcompiled', fun doc hdoc => ?_⟩
    have hpaths := hreordered.textPaths_perm
    rw [h.apply_eq hcompiled hdoc, h'.apply_eq hcompiled' hdoc]
    have hcovers (keys : List String) : Covers (Json.object entries').textPaths keys ↔
        Covers (Json.object entries).textPaths keys :=
      ⟨fun hkeys => hkeys.mono hpaths.symm.subset, fun hkeys => hkeys.mono hpaths.subset⟩
    simp only [hcovers]

/-- Cards go from wherever they are, and from the notes the texts as well. -/
def cardless : Entries Json :=
  [("notes", .object [("text", .string "")]), ("*", .object [("card", .string "")])]

def cardlessStage (spec : Entries Json) : Entries Json :=
  [("operation", .string "remove"), ("spec", .object spec)]

def notedOrder : Json :=
  .object [("id", .number (.integer 1)),
    ("notes", .array [.object [("text", .string "a"), ("card", .null)],
      .array [.object [("day", .null), ("text", .string "b")]]]),
    ("payer", .object [("card", .string "4111")])]

/-- Both rules reach the notes, in either order: what is left of them is a note without
entries and a day. -/
theorem order_left_cardless :
    ∃ compiled left, Removes (cardlessStage cardless) cardless ∧ notedOrder.KeysOnce ∧
      compileStage (.object (cardlessStage cardless)) = .ok compiled ∧
      left = .object [("id", .number (.integer 1)),
        ("notes", .array [.object [], .array [.object [("day", .null)]]]),
        ("payer", .object [])] ∧
      compiled.apply notedOrder = some left ∧ compiled.apply left = some left ∧
      ∃ compiled', compileStage (.object (cardlessStage cardless.reverse)) = .ok compiled' ∧
        compiled'.apply notedOrder = some left := by
  have hremoves : Removes (cardlessStage cardless) cardless := ⟨rfl, rfl⟩
  have honce : notedOrder.KeysOnce := by decide +kernel
  have hreordered : (Json.object cardless).Reordered (.object cardless.reverse) :=
    .object cardless.reverse_perm.symm (List.forall₂_same.mpr fun e _ => .mk e.1 (.same e.2))
  obtain ⟨_, hagain, horder⟩ := removal_drops_covered hremoves rfl
  obtain ⟨compiled', hcompiled', hsame⟩ :=
    horder (cardlessStage cardless.reverse) cardless.reverse ⟨rfl, rfl⟩ hreordered
  refine ⟨_, _, hremoves, honce, rfl, rfl, rfl, hagain _ _ honce rfl, compiled', hcompiled', ?_⟩
  exact (hsame _ honce).trans rfl

end Spec

end MessageBridge
