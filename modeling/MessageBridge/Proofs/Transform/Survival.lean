import MessageBridge.Proofs.Transform.Pruning

/-!
# What scrubbing leaves of a document

Scrubbing works its way up: an object is dropped once all its entries are gone. What
is left can be said from the top down as well, position by position. A scalar, an
array or an empty object survives if the keys on the way to it are on the list, and an
object with entries survives if one of these does. A document that is not refused then
loses the positions that do not survive, and nothing else.

The two readings meet in one lemma, by induction over the document: something is left
of a value if the value survives. Behind a step into an entry, what survives is what
survives of the value there, once the key of the entry is on the list.
-/

namespace MessageBridge

/-- Anything but an object with entries. -/
def Json.isSolid : Json → Bool
  | .object (_ :: _) => false
  | _ => true

namespace Whitelist

/-- What stands at a position survives: an object with entries by one of them, anything
else if the keys on the way are on the list. -/
inductive Survives (fields : OrderedTexts) (path : String) (value : Json) :
    Json.Position → Prop where
  | solid {pos : Json.Position} {v : Json} (there : value.valueAt? pos = some v)
      (whole : v.isSolid = true) (listed : ∀ p ∈ value.pathsFrom path pos, p ∈ fields) :
      Survives fields path value pos
  | entry {pos : Json.Position} {entries : Entries Json} {i : Nat}
      (there : value.valueAt? pos = some (.object entries))
      (survives : Survives fields path value (pos ++ [.entry i])) :
      Survives fields path value pos

variable {fields : OrderedTexts} {path : String} {value v : Json} {pos : Json.Position}
  {entries : Entries Json}

namespace Survives

theorem there (h : Survives fields path value pos) : ∃ v, value.valueAt? pos = some v := by
  cases h with
  | solid there => exact ⟨_, there⟩
  | entry there => exact ⟨_, there⟩

theorem listed (h : Survives fields path value pos) :
    ∀ p ∈ value.pathsFrom path pos, p ∈ fields := by
  induction h with
  | solid _ _ listed => exact listed
  | entry _ _ ih => exact fun p hp => ih p (Json.pathsFrom_append path value _ _ hp)

theorem of_step {step : Json.Step} (h : Survives fields path value (pos ++ [step])) :
    Survives fields path value pos := by
  obtain ⟨v, hv⟩ := h.there
  rw [Json.valueAt?_append] at hv
  obtain ⟨outer, houter, hinner⟩ := Option.bind_eq_some_iff.mp hv
  cases step with
  | entry i =>
      cases outer with
      | object entries => exact .entry houter h
      | null | bool | number | string | array => cases hinner
  | item i =>
      cases outer with
      | array items =>
          -- An array survives by its own keys, and these are those of its items.
          refine .solid houter rfl ?_
          rw [← Json.pathsFrom_append_item path value pos i]
          exact h.listed
      | null | bool | number | string | object => cases hinner

/-- What holds a survivor survives. -/
theorem of_append {further : Json.Position}
    (h : Survives fields path value (pos ++ further)) : Survives fields path value pos := by
  induction further generalizing pos with
  | nil =>
      rw [List.append_nil] at h
      exact h
  | cons step further ih =>
      rw [List.append_cons] at h
      exact (ih h).of_step

end Survives

theorem survives_solid_iff (hv : value.valueAt? pos = some v) (hsolid : v.isSolid = true) :
    Survives fields path value pos ↔ ∀ p ∈ value.pathsFrom path pos, p ∈ fields :=
  ⟨Survives.listed, .solid hv hsolid⟩

theorem survives_object_iff (hv : value.valueAt? pos = some (.object entries))
    (hne : entries ≠ []) :
    Survives fields path value pos ↔ ∃ i, Survives fields path value (pos ++ [.entry i]) := by
  refine ⟨fun h => ?_, fun ⟨i, h⟩ => .entry hv h⟩
  cases h with
  | entry _ survives => exact ⟨_, survives⟩
  | solid there whole _ =>
      rw [hv] at there
      cases there
      cases entries with
      | nil => exact absurd rfl hne
      | cons => cases whole

/-! ## One step inside -/

/-- A step leads to a value that stands at an inner path, and passes some keys. What
survives behind it is what survives of that value, once these keys are on the list. -/
theorem survives_cons {step : Json.Step} {inner : String} {passed : List String}
    (hvalue : ∀ pos, value.valueAt? (step :: pos) = v.valueAt? pos)
    (hpaths : ∀ pos, value.pathsFrom path (step :: pos) = passed ++ v.pathsFrom inner pos) :
    Survives fields path value (step :: pos) ↔
      (∀ p ∈ passed, p ∈ fields) ∧ Survives fields inner v pos := by
  constructor
  · intro h
    generalize hpos : step :: pos = q at h
    induction h generalizing pos with
    | solid there whole listed =>
        subst hpos
        rw [hvalue] at there
        rw [hpaths] at listed
        exact ⟨fun p hp => listed p (List.mem_append_left _ hp),
          .solid there whole fun p hp => listed p (List.mem_append_right _ hp)⟩
    | entry there _ ih =>
        subst hpos
        rw [hvalue] at there
        obtain ⟨hpassed, h⟩ := ih rfl
        exact ⟨hpassed, .entry there h⟩
  · rintro ⟨hpassed, h⟩
    induction h with
    | solid there whole listed =>
        refine .solid ((hvalue _).trans there) whole fun p hp => ?_
        rw [hpaths] at hp
        exact (List.mem_append.mp hp).elim (hpassed p) (listed p)
    | entry there _ ih => exact .entry ((hvalue _).trans there) ih

theorem survives_entry {i : Nat} {key : String} (hi : entries[i]? = some (key, v)) :
    Survives fields path (.object entries) (.entry i :: pos) ↔
      childPath path key ∈ fields ∧ Survives fields (childPath path key) v pos := by
  have hvalue (pos) : (Json.object entries).valueAt? (.entry i :: pos) = v.valueAt? pos := by
    simp only [Json.valueAt?, hi]
  have hpaths (pos) : (Json.object entries).pathsFrom path (.entry i :: pos) =
      [childPath path key] ++ v.pathsFrom (childPath path key) pos := by
    simp only [Json.pathsFrom, hi, List.singleton_append]
  rw [survives_cons hvalue hpaths, List.forall_mem_singleton]

theorem survives_item {items : List Json} {i : Nat} (hi : items[i]? = some v) :
    Survives fields path (.array items) (.item i :: pos) ↔ Survives fields path v pos := by
  have hvalue (pos) : (Json.array items).valueAt? (.item i :: pos) = v.valueAt? pos := by
    simp only [Json.valueAt?, hi]
  have hpaths (pos) : (Json.array items).pathsFrom path (.item i :: pos) =
      [] ++ v.pathsFrom path pos := by
    simp only [Json.pathsFrom, hi, List.nil_append]
  rw [survives_cons hvalue hpaths]
  exact and_iff_right (List.forall_mem_nil _)

theorem survives_nil_of_solid (hsolid : value.isSolid = true) :
    Survives fields path value [] := by
  refine .solid (Json.valueAt?_nil _) hsolid fun p hp => ?_
  rw [Json.pathsFrom_nil] at hp
  cases hp

theorem survives_nil_iff (hne : entries ≠ []) :
    Survives fields path (.object entries) [] ↔
      ∃ e ∈ entries, childPath path e.1 ∈ fields ∧
        Survives fields (childPath path e.1) e.2 [] := by
  rw [survives_object_iff (Json.valueAt?_nil _) hne]
  constructor
  · rintro ⟨i, h⟩
    obtain ⟨v, hv⟩ := h.there
    cases hi : entries[i]? with
    | none => simp [Json.valueAt?, hi] at hv
    | some e => exact ⟨e, List.mem_of_getElem? hi, (survives_entry hi).mp h⟩
  · rintro ⟨e, he, h⟩
    obtain ⟨i, hi⟩ := List.mem_iff_getElem?.mp he
    exact ⟨i, (survives_entry hi).mpr h⟩

/-! ## What is left, entry by entry and item by item -/

/-- What is left of an entry, if anything is. -/
def elideEntry (fields : OrderedTexts) (path : String) (entry : String × Json) :
    Option (String × Json) :=
  if childPath path entry.1 ∈ fields then
    (elide fields (childPath path entry.1) entry.2).map (entry.1, ·)
  else none

theorem elideEntries_eq (fields : OrderedTexts) (path : String) (entries : Entries Json) :
    elideEntries fields path entries = entries.filterMap (elideEntry fields path) := by
  induction entries with
  | nil => rfl
  | cons entry rest ih =>
      rw [elideEntries, ih, List.filterMap_cons, elideEntry, List.contains_eq_mem]
      by_cases hlisted : childPath path entry.1 ∈ fields
      · rw [if_pos (decide_eq_true hlisted), if_pos hlisted]
        cases elide fields (childPath path entry.1) entry.2 <;> rfl
      · rw [if_neg (by simpa using hlisted), if_neg hlisted]

theorem elideItems_eq (fields : OrderedTexts) (path : String) (items : List Json) :
    elideItems fields path items = items.filterMap (elide fields path) := by
  induction items with
  | nil => rfl
  | cons item rest ih =>
      rw [elideItems, ih, List.filterMap_cons]
      cases elide fields path item <;> rfl

theorem elide_object (fields : OrderedTexts) (path : String) (entries : Entries Json) :
    elide fields path (.object entries) =
      if entries ≠ [] ∧ elideEntries fields path entries = [] then none
      else some (.object (elideEntries fields path entries)) := by
  cases entries with
  | nil => rfl
  | cons entry rest =>
      rw [elide]
      cases elideEntries fields path (entry :: rest) <;> simp

theorem isSome_elide_of_solid (hsolid : value.isSolid = true) :
    (elide fields path value).isSome = true := by
  match value, hsolid with
  | .object [], _ | .array _, _ | .null, _ | .bool _, _ | .number _, _ | .string _, _ =>
      simp only [elide, Option.isSome_some]

theorem isSome_elide_object_iff (hne : entries ≠ []) :
    (elide fields path (.object entries)).isSome = true ↔
      ∃ e ∈ entries, (elideEntry fields path e).isSome = true := by
  rw [elide_object, elideEntries_eq]
  split
  · next hnone =>
      refine iff_of_false nofun ?_
      rintro ⟨e, he, hsome⟩
      rw [List.filterMap_eq_nil_iff.mp hnone.2 e he] at hsome
      cases hsome
  · next hsome =>
      refine iff_of_true rfl (Classical.byContradiction fun hno => hsome ⟨hne, ?_⟩)
      refine List.filterMap_eq_nil_iff.mpr fun e he => ?_
      exact Option.not_isSome_iff_eq_none.mp fun h => hno ⟨e, he, h⟩

/-- Something is left of a value if the value survives. -/
theorem isSome_elide_iff (fields : OrderedTexts) (path : String) (value : Json) :
    (elide fields path value).isSome = true ↔ Survives fields path value [] := by
  induction value using Json.induction_inside generalizing path with
  | null | bool | number | string | array =>
      exact iff_of_true (isSome_elide_of_solid rfl) (survives_nil_of_solid rfl)
  | object entries ih =>
      by_cases hne : entries = []
      · subst hne
        exact iff_of_true (isSome_elide_of_solid rfl) (survives_nil_of_solid rfl)
      · have hentry (e) (he : e ∈ entries) : (elideEntry fields path e).isSome = true ↔
            childPath path e.1 ∈ fields ∧ Survives fields (childPath path e.1) e.2 [] := by
          rw [elideEntry, ← ih e he]
          split <;> simp [*]
        rw [survives_nil_iff hne, isSome_elide_object_iff hne]
        exact exists_congr fun e => and_congr_right (hentry e)

/-- To see whether a position survives, go there and look whether something is left. -/
instance decidableSurvives (fields : OrderedTexts) (path : String) (value : Json) :
    DecidablePred (Survives fields path value)
  | [] => decidable_of_iff _ (isSome_elide_iff fields path value)
  | .entry i :: pos =>
    match value with
    | .object entries =>
      match hi : entries[i]? with
      | some (key, v) =>
        have := decidableSurvives fields (childPath path key) v pos
        decidable_of_iff _ (survives_entry hi).symm
      | none => .isFalse fun h => by
          obtain ⟨_, hv⟩ := h.there
          simp only [Json.valueAt?, hi] at hv
          cases hv
    | .null | .bool _ | .number _ | .string _ | .array _ => .isFalse fun h => nomatch h.there
  | .item i :: pos =>
    match value with
    | .array items =>
      match hi : items[i]? with
      | some v =>
        have := decidableSurvives fields path v pos
        decidable_of_iff _ (survives_item hi).symm
      | none => .isFalse fun h => by
          obtain ⟨_, hv⟩ := h.there
          simp only [Json.valueAt?, hi] at hv
          cases hv
    | .null | .bool _ | .number _ | .string _ | .object _ => .isFalse fun h => nomatch h.there

/-! ## What is left, by positions -/

theorem getD_elide_object (fields : OrderedTexts) (path : String) (entries : Entries Json) :
    (elide fields path (.object entries)).getD (.object []) =
      .object (elideEntries fields path entries) := by
  rw [elide_object]
  split
  · next h =>
      rw [h.2]
      rfl
  · rfl

/-- What is left of a value is the value without the positions that do not survive. -/
theorem prune_survives (fields : OrderedTexts) (path : String) (value : Json) :
    value.prune (Survives fields path value ·) =
      (elide fields path value).getD (.object []) := by
  induction value using Json.induction_inside generalizing path with
  | null | bool | number | string => simp only [Json.prune, elide, Option.getD_some]
  | array items ih =>
      have hitem (v) (i : Nat) (hi : items[i]? = some v) :
          Json.pruneItem (Survives fields path (.array items) ·) (v, i) = elide fields path v := by
        have hv := ih v (List.mem_of_getElem? hi) path
        have hsurvives := isSome_elide_iff fields path v
        simp only [Json.pruneItem, survives_item hi, hv, decide_eq_true_eq, ← hsurvives]
        cases elide fields path v <;> rfl
      rw [Json.prune, elide, Option.getD_some, Json.pruneItems_eq, Json.filterMap_zipIdx hitem,
        elideItems_eq]
  | object entries ih =>
      have hentry (e) (i : Nat) (hi : entries[i]? = some e) :
          Json.pruneEntry (Survives fields path (.object entries) ·) (e, i) =
            elideEntry fields path e := by
        have hv := ih e (List.mem_of_getElem? hi) (childPath path e.1)
        have hsurvives := isSome_elide_iff fields (childPath path e.1) e.2
        simp only [Json.pruneEntry, elideEntry, survives_entry hi, decide_eq_true_eq, ← hsurvives]
        by_cases hlisted : childPath path e.1 ∈ fields
        · simp only [hlisted, true_and, if_true, hv]
          cases elide fields (childPath path e.1) e.2 <;> rfl
        · simp only [hlisted, false_and, if_false]
      rw [Json.prune, getD_elide_object, Json.pruneEntries_eq, Json.filterMap_zipIdx hentry,
        elideEntries_eq]

/-! ## Documents -/

/-- Bare documents other than null are refused, whatever is on the list. -/
theorem scrub_ok_iff {doc kept : Json} : scrub fields doc = .ok kept ↔
    (doc.isBare = true → doc = .null) ∧ kept = (elide fields "" doc).getD (.object []) := by
  unfold scrub
  cases doc with
  | null | object => simp [Json.isPrimitive, Json.isBare, @eq_comm _ kept]
  | bool | number | string => simp [Json.isPrimitive, Json.isBare]
  | array items =>
      by_cases hitems : items.any Json.isPrimitive = true <;>
        simp [Json.isPrimitive, Json.isBare, hitems, @eq_comm _ kept]

/-- A document that is not refused is left without the positions that do not survive,
and is otherwise as it was. A scalar, an array or an empty object survives if all keys on
the way to it are on the list, an object with entries if one of these does, and nothing
survives in what does not. An object of which nothing survives is left empty. -/
theorem scrub_keeps_survivors (fields : OrderedTexts) (doc : Json) :
    (∀ kept, scrub fields doc = .ok kept ↔
      (doc.isBare = true → doc = .null) ∧ kept = doc.prune (Survives fields "" doc ·)) ∧
    (∀ kept, scrub fields doc = .ok kept → kept.Within doc) ∧
    (∀ pos v, doc.valueAt? pos = some v → v.isSolid = true →
      (Survives fields "" doc pos ↔ ∀ p ∈ doc.pathsTo pos, p ∈ fields)) ∧
    (∀ pos entries, doc.valueAt? pos = some (.object entries) → entries ≠ [] →
      (Survives fields "" doc pos ↔ ∃ i, Survives fields "" doc (pos ++ [.entry i]))) ∧
    (∀ pos further, Survives fields "" doc (pos ++ further) → Survives fields "" doc pos) ∧
    ∀ entries, doc = .object entries → ¬ Survives fields "" doc [] →
      scrub fields doc = .ok (.object []) := by
  have hkept (kept) : scrub fields doc = .ok kept ↔
      (doc.isBare = true → doc = .null) ∧ kept = doc.prune (Survives fields "" doc ·) := by
    rw [scrub_ok_iff, prune_survives]
  refine ⟨hkept, fun kept h => ?_, fun pos v => survives_solid_iff,
    fun pos entries => survives_object_iff, fun pos further => Survives.of_append, ?_⟩
  · rw [((hkept kept).mp h).2]
    exact doc.prune_within _
  · rintro entries rfl hnone
    rw [← isSome_elide_iff, Option.not_isSome_iff_eq_none] at hnone
    rw [scrub_ok_iff, hnone]
    exact ⟨nofun, rfl⟩

/-- An order with a payer and some lines. -/
def order : Json :=
  .object [("id", .number (.integer 1)), ("payer", .object [("card", .string "4111")]),
    ("lines", .array [.object [("sku", .string "a"), ("price", .number (.integer 3))],
      .object [("price", .number (.integer 4))], .null])]

def orderFields : OrderedTexts := ["id", "lines", "lines.sku", "payer"]

def scrubbedOrder : Json :=
  .object [("id", .number (.integer 1)),
    ("lines", .array [.object [("sku", .string "a")], .null])]

/-- The first line survives by its article, the second one and the payer do not survive,
and without a list nothing of the order does. -/
theorem order_keeps_survivors :
    (scrub orderFields order = .ok scrubbedOrder ∧
      scrubbedOrder = order.prune (Survives orderFields "" order ·) ∧
      scrubbedOrder.Within order ∧
      Survives orderFields "" order [.entry 2, .item 0, .entry 0] ∧
      Survives orderFields "" order [.entry 2, .item 0] ∧
      Survives orderFields "" order [.entry 2] ∧
      ¬ Survives orderFields "" order [.entry 2, .item 1] ∧
      ¬ Survives orderFields "" order [.entry 1]) ∧
    scrub [] order = .ok (.object []) := by
  obtain ⟨hkept, hwithin, hsolid, hobject, hheld, _⟩ := scrub_keeps_survivors orderFields order
  have hscrubbed : scrub orderFields order = .ok scrubbedOrder := rfl
  have hsku : Survives orderFields "" order [.entry 2, .item 0, .entry 0] :=
    (hsolid _ (.string "a") rfl rfl).mpr (by decide +kernel)
  have hline : Survives orderFields "" order [.entry 2, .item 0] :=
    (hobject _ _ rfl (List.cons_ne_nil _ _)).mpr ⟨0, hsku⟩
  refine ⟨⟨hscrubbed, ((hkept _).mp hscrubbed).2, hwithin _ hscrubbed, hsku, hline,
    hheld [.entry 2] [.item 0] hline, by decide +kernel, by decide +kernel⟩, ?_⟩
  exact (scrub_keeps_survivors [] order).2.2.2.2.2 _ rfl (by decide +kernel)

end Whitelist

end MessageBridge
