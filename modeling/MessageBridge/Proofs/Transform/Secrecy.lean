import MessageBridge.Proofs.Transform.Survival

/-!
# What a whitelist keeps secret

What stands under a key that is not on the list has no say in what scrubbing comes to,
be it a refusal or what is left. Two documents agree when they differ in nothing else,
and scrubbing cannot tell them apart.

The values that no key stands above, because nothing but arrays leads to them, are
another matter: no list speaks of them. The check at the top of a document refuses
those in the document itself and in its items, and scrubbing lets all others through.
So they are what may escape a whitelist, and the only thing that may.
-/

namespace MessageBridge

/-! ## Values under keys that are not on the list -/

namespace Whitelist

mutual

/-- Values at a path that differ in nothing but in what stands under keys that are not on
the list. Also there the keys are the same. -/
inductive Agree (fields : OrderedTexts) : String → Json → Json → Prop where
  | same (path : String) (v : Json) : Agree fields path v v
  | array {path : String} {items items' : List Json}
      (each : AgreeItems fields path items items') :
      Agree fields path (.array items) (.array items')
  | object {path : String} {entries entries' : Entries Json}
      (each : AgreeEntries fields path entries entries') :
      Agree fields path (.object entries) (.object entries')

inductive AgreeItems (fields : OrderedTexts) : String → List Json → List Json → Prop where
  | nil (path : String) : AgreeItems fields path [] []
  | cons {path : String} {v v' : Json} {rest rest' : List Json}
      (first : Agree fields path v v') (others : AgreeItems fields path rest rest') :
      AgreeItems fields path (v :: rest) (v' :: rest')

inductive AgreeEntries (fields : OrderedTexts) :
    String → Entries Json → Entries Json → Prop where
  | nil (path : String) : AgreeEntries fields path [] []
  | listed {path key : String} {v v' : Json} {rest rest' : Entries Json}
      (first : Agree fields (childPath path key) v v')
      (others : AgreeEntries fields path rest rest') :
      AgreeEntries fields path ((key, v) :: rest) ((key, v') :: rest')
  | secret {path key : String} (unlisted : childPath path key ∉ fields) (v v' : Json)
      {rest rest' : Entries Json} (others : AgreeEntries fields path rest rest') :
      AgreeEntries fields path ((key, v) :: rest) ((key, v') :: rest')

end

variable {fields : OrderedTexts}

theorem AgreeEntries.eq_nil_iff {path : String} {entries entries' : Entries Json}
    (h : AgreeEntries fields path entries entries') : entries = [] ↔ entries' = [] := by
  cases h with
  | nil => exact Iff.rfl
  | listed | secret => exact iff_of_false (List.cons_ne_nil _ _) (List.cons_ne_nil _ _)

mutual

theorem elide_eq_of_agree {path : String} {v v' : Json} (h : Agree fields path v v') :
    elide fields path v = elide fields path v' := by
  match h with
  | .same _ _ => rfl
  | .array each => rw [elide, elide, elideItems_eq_of_agree each]
  | .object each =>
      simp only [elide_object, ne_eq, each.eq_nil_iff, elideEntries_eq_of_agree each]

theorem elideItems_eq_of_agree {path : String} {items items' : List Json}
    (h : AgreeItems fields path items items') :
    elideItems fields path items = elideItems fields path items' := by
  match h with
  | .nil _ => rfl
  | .cons first others =>
      rw [elideItems, elideItems, elide_eq_of_agree first, elideItems_eq_of_agree others]

theorem elideEntries_eq_of_agree {path : String} {entries entries' : Entries Json}
    (h : AgreeEntries fields path entries entries') :
    elideEntries fields path entries = elideEntries fields path entries' := by
  match h with
  | .nil _ => rfl
  | .listed first others =>
      rw [elideEntries, elideEntries, elide_eq_of_agree first, elideEntries_eq_of_agree others]
  | .secret unlisted v v' others =>
      have hno := mt List.contains_iff_mem.mp unlisted
      rw [elideEntries, elideEntries, if_neg hno, if_neg hno, elideEntries_eq_of_agree others]

end

theorem any_isPrimitive_of_agree {path : String} {items items' : List Json}
    (h : AgreeItems fields path items items') :
    items.any Json.isPrimitive = items'.any Json.isPrimitive := by
  match h with
  | .nil _ => rfl
  | .cons first others =>
      rw [List.any_cons, List.any_cons, any_isPrimitive_of_agree others]
      cases first <;> rfl

/-- Documents that agree are both refused, for the same reason, or the same is left of
them. -/
theorem scrub_eq_of_agree {doc doc' : Json} (h : Agree fields "" doc doc') :
    scrub fields doc = scrub fields doc' := by
  have helide := elide_eq_of_agree h
  unfold scrub
  cases h with
  | same => rfl
  | object => exact congrArg (fun left => Except.ok (left.getD (.object []))) helide
  | array each =>
      simp only [any_isPrimitive_of_agree each, helide]
      rfl

/-- The order, paid with another card. -/
def otherCard : Json :=
  .object [("id", .number (.integer 1)), ("payer", .object [("card", .array [])]),
    ("lines", .array [.object [("sku", .string "a"), ("price", .number (.integer 3))],
      .object [("price", .null)], .null])]

/-- Nobody can see from what is left which card was used, nor what the goods were. -/
theorem cards_agree :
    Agree orderFields "" order otherCard ∧
      scrub orderFields order = scrub orderFields otherCard := by
  have hagree : Agree orderFields "" order otherCard := by
    refine .object (.listed (.same _ _) (.listed (.object ?_) (.listed (.array ?_) (.nil _))))
    · exact .secret (by decide +kernel) _ _ (.nil _)
    · refine .cons (.same _ _) (.cons (.object ?_) (.cons (.same _ _) (.nil _)))
      exact .secret (by decide +kernel) _ _ (.nil _)
  exact ⟨hagree, scrub_eq_of_agree hagree⟩

end Whitelist

/-! ## Values that no key stands above -/

namespace Json

mutual

/-- The booleans, numbers and strings that nothing but arrays leads to. -/
def keyless : Json → List Json
  | .array items => itemsKeyless items
  | .null | .object _ => []
  | primitive => [primitive]

def itemsKeyless : List Json → List Json
  | [] => []
  | item :: rest => item.keyless ++ itemsKeyless rest

end

theorem itemsKeyless_eq (items : List Json) : itemsKeyless items = items.flatMap keyless := by
  induction items with
  | nil => rfl
  | cons v rest ih => rw [itemsKeyless, ih, List.flatMap_cons]

theorem keyless_of_isPrimitive {v : Json} (h : v.isPrimitive = true) : v.keyless = [v] := by
  cases v with
  | bool | number | string => simp only [keyless]
  | null | array | object => cases h

theorem valueAt?_cons {value v : Json} {step : Step} {pos : Position}
    (h : value.valueAt? (step :: pos) = some v) :
    (∃ entries i key inner, value = .object entries ∧ step = .entry i ∧
      entries[i]? = some (key, inner) ∧ inner.valueAt? pos = some v) ∨
    ∃ items i inner, value = .array items ∧ step = .item i ∧
      items[i]? = some inner ∧ inner.valueAt? pos = some v := by
  cases value <;> cases step <;> simp only [valueAt?, reduceCtorEq] at h
  case object.entry entries i =>
    split at h
    · next key inner hi => exact .inl ⟨_, _, _, _, rfl, rfl, hi, h⟩
    · cases h
  case array.item items i =>
    split at h
    · next inner hi => exact .inr ⟨_, _, _, rfl, rfl, hi, h⟩
    · cases h

theorem mem_keyless_of_valueAt? {value v : Json} {pos : Position} (path : String)
    (hv : value.valueAt? pos = some v) (hprimitive : v.isPrimitive = true)
    (hpaths : value.pathsFrom path pos = []) : v ∈ value.keyless := by
  induction pos generalizing value with
  | nil =>
      rw [valueAt?_nil] at hv
      cases hv
      rw [keyless_of_isPrimitive hprimitive]
      exact List.mem_singleton_self v
  | cons step pos ih =>
      rcases valueAt?_cons hv with ⟨entries, i, key, inner, rfl, rfl, hi, hinner⟩ |
        ⟨items, i, inner, rfl, rfl, hi, hinner⟩
      · simp only [pathsFrom, hi, reduceCtorEq] at hpaths
      · simp only [pathsFrom, hi] at hpaths
        rw [keyless, itemsKeyless_eq]
        exact List.mem_flatMap.mpr ⟨inner, List.mem_of_getElem? hi, ih hinner hpaths⟩

theorem exists_valueAt?_of_mem_keyless {value v : Json} (path : String)
    (h : v ∈ value.keyless) :
    ∃ pos, value.valueAt? pos = some v ∧ v.isPrimitive = true ∧
      value.pathsFrom path pos = [] := by
  induction value using induction_inside with
  | null | object =>
      rw [keyless] at h
      cases h
  | bool | number | string =>
      rw [keyless_of_isPrimitive rfl] at h
      cases List.mem_singleton.mp h
      exact ⟨[], rfl, rfl, rfl⟩
  | array items ih =>
      rw [keyless, itemsKeyless_eq] at h
      obtain ⟨item, hitem, h⟩ := List.mem_flatMap.mp h
      obtain ⟨pos, hv, hprimitive, hpaths⟩ := ih item hitem h
      obtain ⟨i, hi⟩ := List.mem_iff_getElem?.mp hitem
      refine ⟨.item i :: pos, ?_, hprimitive, ?_⟩
      · simpa only [valueAt?, hi] using hv
      · simpa only [pathsFrom, hi] using hpaths

/-- The keys on the way to a position are keys of the value. -/
theorem pathsFrom_subset (path : String) (value : Json) (pos : Position) :
    value.pathsFrom path pos ⊆ value.keyPathsAt path := by
  induction pos generalizing path value with
  | nil =>
      rw [pathsFrom_nil]
      exact List.nil_subset _
  | cons step pos ih =>
      cases value <;> cases step <;> simp only [pathsFrom, List.nil_subset]
      case object.entry entries i =>
        cases hi : entries[i]? with
        | none => exact List.nil_subset _
        | some e =>
            rw [keyPathsAt, entriesKeyPaths_eq]
            intro p hp
            refine List.mem_flatMap.mpr ⟨e, List.mem_of_getElem? hi, ?_⟩
            exact (List.cons_subset_cons _ (ih _ _)) hp
      case array.item items i =>
        cases hi : items[i]? with
        | none => exact List.nil_subset _
        | some item =>
            rw [keyPathsAt, itemsKeyPaths_eq]
            intro p hp
            exact List.mem_flatMap.mpr ⟨item, List.mem_of_getElem? hi, ih _ _ hp⟩

/-- Every boolean, number and string lies below a key whose path is on the list. -/
def Confined (fields : OrderedTexts) (doc : Json) : Prop :=
  ∀ pos v, doc.valueAt? pos = some v → v.isPrimitive = true → ∃ p ∈ doc.pathsTo pos, p ∈ fields

theorem listed_or_keyless {fields : OrderedTexts} {doc v : Json} {pos : Position}
    (hlisted : ∀ p ∈ doc.keyPaths, p ∈ fields) (hpos : doc.valueAt? pos = some v)
    (hprimitive : v.isPrimitive = true) :
    (∃ p ∈ doc.pathsTo pos, p ∈ fields) ∨ v ∈ doc.keyless := by
  cases hpaths : doc.pathsTo pos with
  | nil => exact .inr (mem_keyless_of_valueAt? "" hpos hprimitive hpaths)
  | cons p rest =>
      have hp : p ∈ doc.pathsTo pos := hpaths ▸ List.mem_cons_self
      exact .inl ⟨p, List.mem_cons_self, hlisted p (pathsFrom_subset "" doc pos hp)⟩

theorem confined_iff {fields : OrderedTexts} {doc : Json}
    (hlisted : ∀ p ∈ doc.keyPaths, p ∈ fields) : doc.Confined fields ↔ doc.keyless = [] := by
  constructor
  · intro h
    refine List.eq_nil_iff_forall_not_mem.mpr fun v hv => ?_
    obtain ⟨pos, hpos, hprimitive, hpaths⟩ := exists_valueAt?_of_mem_keyless "" hv
    obtain ⟨p, hp, _⟩ := h pos v hpos hprimitive
    rw [pathsTo, hpaths] at hp
    cases hp
  · intro h pos v hpos hprimitive
    refine (listed_or_keyless hlisted hpos hprimitive).resolve_right fun hv => ?_
    rw [h] at hv
    cases hv

end Json

namespace Whitelist

/-- All values that no key stands above are left. -/
theorem keyless_elide (fields : OrderedTexts) (path : String) (value : Json) :
    (elide fields path value).toList.flatMap Json.keyless = value.keyless := by
  induction value using Json.induction_inside with
  | null | bool | number | string =>
      simp only [elide, Option.toList_some, List.flatMap_singleton]
  | array items ih =>
      rw [elide, Option.toList_some, List.flatMap_singleton, Json.keyless, Json.keyless,
        Json.itemsKeyless_eq, Json.itemsKeyless_eq, elideItems_eq,
        List.filterMap_eq_flatMap_toList, List.flatMap_assoc]
      exact List.flatMap_congr ih
  | object entries =>
      rw [elide_object]
      split <;> simp only [Option.toList_none, Option.toList_some, List.flatMap_nil,
        List.flatMap_singleton, Json.keyless]

theorem keyless_scrub {fields : OrderedTexts} {doc kept : Json}
    (h : scrub fields doc = .ok kept) : kept.keyless = doc.keyless := by
  obtain ⟨_, rfl⟩ := scrub_ok_iff.mp h
  rw [← keyless_elide fields "" doc]
  cases elide fields "" doc with
  | none => simp only [Option.getD_none, Option.toList_none, List.flatMap_nil, Json.keyless]
  | some left => simp only [Option.getD_some, Option.toList_some, List.flatMap_singleton]

end Whitelist

namespace Transformer

/-- Of what a scrubber lets through, each boolean, number and string lies below a key on
the list, or it is one that arrays alone lead to. Those are neither the document nor among
its items, but further inside, and all of them are let through. So the text is confined to
the list, and with an empty list free of such values, unless the document holds some of
them. -/
theorem scrubText_confines {fields : OrderedTexts} {text out : String}
    (h : scrubText fields text = .ok out) :
    ∃ doc kept : Json, Json.read? text = some doc ∧ out = kept.write ∧
      (∀ pos v, kept.valueAt? pos = some v → v.isPrimitive = true →
        (∃ p ∈ kept.pathsTo pos, p ∈ fields) ∨ v ∈ doc.keyless) ∧
      doc.isBare = false ∧ kept.keyless = doc.keyless ∧
      (kept.Confined fields ↔ doc.keyless = []) ∧
      (fields = [] → doc.keyless = [] →
        ∀ pos v, kept.valueAt? pos = some v → v.isPrimitive = false) := by
  obtain ⟨doc, kept, hread, hnull, hscrub, hout⟩ := scrubText_ok h
  obtain ⟨hpaths, hbare⟩ := Whitelist.keyPaths_scrub hscrub
  have hkeyless := Whitelist.keyless_scrub hscrub
  have hconfined := Json.confined_iff hpaths
  rw [hkeyless] at hconfined
  refine ⟨doc, kept, hread, hout, ?_, Bool.eq_false_iff.mpr (mt hbare hnull), hkeyless,
    hconfined, ?_⟩
  · intro pos v hpos hprimitive
    rw [← hkeyless]
    exact Json.listed_or_keyless hpaths hpos hprimitive
  · rintro rfl hnone pos v hpos
    refine Bool.eq_false_iff.mpr fun hprimitive => ?_
    obtain ⟨_, _, hlisted⟩ := hconfined.mpr hnone pos v hpos hprimitive
    cases hlisted

/-- An array in an array, with a number in it. -/
def nestedItems : Json :=
  .array [.array [.number (.integer 1)]]

/-- The number passes, although nothing is on the list. -/
theorem nested_items_escape :
    scrubText [] "[[1]]" = .ok nestedItems.write ∧
      Whitelist.scrub [] nestedItems = .ok nestedItems ∧ ¬ nestedItems.Confined [] := by
  refine ⟨by decide +kernel, rfl, fun h => ?_⟩
  obtain ⟨_, _, hlisted⟩ := h [.item 0, .item 0] (.number (.integer 1)) rfl rfl
  cases hlisted

/-- Of an order with a card the identifier is left, below its key. -/
theorem cardless_confined :
    scrubText ["id"] "\x7b\"id\":1,\"card\":2\x7d" = .ok "\x7b\"id\":1\x7d" ∧
      ∃ kept : Json, kept.write = "\x7b\"id\":1\x7d" ∧ kept.Confined ["id"] := by
  have h : scrubText ["id"] "\x7b\"id\":1,\"card\":2\x7d" = .ok "\x7b\"id\":1\x7d" := by
    decide +kernel
  have hkeyless : (Json.read? "\x7b\"id\":1,\"card\":2\x7d").map (·.keyless.isEmpty) =
      some true := by decide +kernel
  obtain ⟨doc, kept, hread, hout, _, _, _, hconfined, _⟩ := scrubText_confines h
  rw [hread] at hkeyless
  injection hkeyless with hkeyless
  exact ⟨h, kept, hout.symm, hconfined.mpr (List.isEmpty_iff.mp hkeyless)⟩

end Transformer

end MessageBridge
