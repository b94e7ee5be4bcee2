import MessageBridge.Json.Node
import MessageBridge.Proofs.Json.Reading
import MessageBridge.Proofs.Text.Utf8
import MessageBridge.Proofs.Traversal

/-!
# Fields that have been written

A record is written as an object with those of its fields that are there. Slots describe
it: the names of all fields, each with its value or without one. A reader that asks an
object for its fields finds the slots again. A null would stand for a field that is left
out, but nothing that is written for a field is null.

`Survives` puts together what is needed of the parts of a record to say the same of the
record.
-/

namespace MessageBridge

namespace Json

/-- The entries of an object with these fields, of which some are left out. -/
def present (slots : List (String × Option Json)) : Entries Json :=
  slots.filterMap fun slot => slot.2.map (slot.1, ·)

theorem mem_present {slots : List (String × Option Json)} {e : String × Json} :
    e ∈ present slots ↔ (e.1, some e.2) ∈ slots := by
  obtain ⟨key, value⟩ := e
  rw [present, List.mem_filterMap]
  constructor
  · intro ⟨⟨name, slot⟩, hslot, heq⟩
    obtain ⟨v, rfl, heq⟩ := Option.map_eq_some_iff.mp heq
    cases heq
    exact hslot
  · intro h
    exact ⟨_, h, rfl⟩

theorem keys_present_sublist (slots : List (String × Option Json)) :
    (present slots).keys.Sublist (slots.map Prod.fst) := by
  induction slots with
  | nil => exact .slnil
  | cons slot slots ih =>
      obtain ⟨key, value⟩ := slot
      cases value with
      | none => exact ih.cons key
      | some value => exact ih.cons_cons key

theorem get?_present {slots : List (String × Option Json)} (hkeys : (slots.map Prod.fst).Nodup)
    {slot : String × Option Json} (hslot : slot ∈ slots) :
    (present slots).get? slot.1 = slot.2 := by
  have hdistinct : (present slots).DistinctKeys := hkeys.sublist (keys_present_sublist slots)
  obtain ⟨key, value⟩ := slot
  cases value with
  | some value => exact hdistinct.get?_of_mem (mem_present.mpr hslot)
  | none =>
      rw [Entries.get?_eq_none_iff, Entries.keys, List.mem_map]
      intro hmem
      obtain ⟨e, he, hkey⟩ := hmem
      have hsame := List.inj_on_of_nodup_map hkeys (mem_present.mp he) hslot hkey
      cases hsame

theorem legible_present {slots : List (String × Option Json)} {depth : Nat}
    (hkeys : (slots.map Prod.fst).Nodup)
    (hvalues : ∀ slot ∈ slots, ∀ value, slot.2 = some value → Legible depth value) :
    Legible (depth + 1) (.object (present slots)) :=
  .object (hkeys.sublist (keys_present_sublist slots)) fun e he =>
    hvalues _ (mem_present.mp he) e.2 rfl

namespace Node

/-- A place at which a document has been written. -/
def written (depth : Nat) (doc : Json) : Node :=
  ⟨depth, doc.tree⟩

variable {depth : Nat}

theorem known?_entryTrees {names : List String} {es : Entries Json}
    (hnames : ∀ e ∈ es, e.1 ∈ names) (found : Entries Tree)
    (hkeys : (found.keys ++ es.keys).Nodup) :
    known? names found (entryTrees es) = some (found ++ es.map fun e => (e.1, e.2.tree)) := by
  induction es generalizing found with
  | nil => rw [entryTrees, known?, List.map_nil, List.append_nil]
  | cons e rest ih =>
      obtain ⟨key, value⟩ := e
      obtain ⟨hname, hrest⟩ := List.forall_mem_cons.mp hnames
      have hnew : found.has key = false := by
        rw [Entries.has, Option.isSome_eq_false_iff, Option.isNone_iff_eq_none,
          Entries.get?_eq_none_iff]
        exact fun hmem => (List.nodup_append.mp hkeys).2.2 key hmem key List.mem_cons_self rfl
      have hkeys' : (Entries.keys (found ++ [(key, value.tree)]) ++ Entries.keys rest).Nodup := by
        simpa [Entries.keys] using hkeys
      rw [entryTrees, known?, text?_parts]
      simp only [List.contains_iff_mem.mpr hname, hnew, if_true, Bool.false_eq_true, if_false]
      rw [ih hrest _ hkeys', List.map_cons, List.append_assoc, List.singleton_append]

theorem get?_map_tree (es : Entries Json) (key : String) :
    Entries.get? key (es.map fun e => (e.1, e.2.tree)) = (es.get? key).map Json.tree := by
  induction es with
  | nil => rfl
  | cons e rest ih =>
      rw [List.map_cons, Entries.get?, Entries.get?]
      split
      · rfl
      · exact ih

/-- The fields of an object that has been written are its slots. -/
theorem fields?_written (slots : List (String × Option Json))
    (hkeys : (slots.map Prod.fst).Nodup) (depth : Nat) :
    (written (depth + 1) (.object (present slots))).fields? (slots.map Prod.fst) =
      some (slots.map fun slot => slot.2.map (written depth)) := by
  have hnames : ∀ e ∈ present slots, e.1 ∈ slots.map Prod.fst := fun e he =>
    List.mem_map.mpr ⟨_, mem_present.mp he, rfl⟩
  have hknown := known?_entryTrees hnames [] (hkeys.sublist (keys_present_sublist slots))
  rw [written, fields?, Json.tree]
  simp only [hknown, Option.map_some, List.nil_append, List.map_map]
  congr 1
  refine List.map_congr_left fun slot hslot => ?_
  rw [Function.comp_apply, get?_map_tree, get?_present hkeys hslot, Option.map_map]
  rfl

theorem text?_written (s : String) : (written depth (.string s)).text? = some s :=
  text?_parts s

theorem isNull_written {doc : Json} (h : doc ≠ .null) : (written depth doc).isNull = false := by
  cases doc with
  | null => exact absurd rfl h
  | bool | number | string | array | object => rfl

theorem items?_written (items : List Json) :
    (written (depth + 1) (.array items)).items? = some (items.map (written depth)) := by
  rw [written, items?, Json.tree, trees_eq_map]
  simp only [List.map_map]
  rfl

theorem json?_written {doc : Json} (h : Legible depth doc) :
    (written depth doc).json? = some doc :=
  h.toJson?_tree

theorem ofText?_write {doc : Json} (h : Legible depthLimit doc) :
    ofText? doc.write = some (written depthLimit doc) := by
  rw [ofText?, h.ofText?_write]
  rfl

theorem ofBytes?_toUTF8 (text : String) : ofBytes? text.toUTF8 = ofText? text := by
  rw [ofBytes?, ofText?, Tree.ofBytes?, Tree.ofText?, Text.symbols_toUTF8]

/-- A place below another one has one container less to open. -/
theorem depth_of_fields? {names : List String} {node : Node} {fields : List (Option Node)}
    (h : node.fields? names = some fields) {field : Node} (hfield : some field ∈ fields) :
    field.depth + 1 = node.depth := by
  rw [fields?.eq_def] at h
  split at h
  · cases h
  · next below hdepth =>
      rw [hdepth, Nat.add_right_cancel_iff]
      split at h
      · obtain ⟨found, _, rfl⟩ := Option.map_eq_some_iff.mp h
        obtain ⟨name, _, hname⟩ := List.mem_map.mp hfield
        obtain ⟨tree, _, rfl⟩ := Option.map_eq_some_iff.mp hname
        rfl
      · split at h
        · cases h
          obtain hitem | hnone := List.mem_append.mp hfield
          · obtain ⟨tree, _, hsome⟩ := List.mem_map.mp hitem
            cases hsome
            rfl
          · cases List.eq_of_mem_replicate hnone
        · cases h
      · cases h

theorem depth_of_items? {node : Node} {items : List Node} (h : node.items? = some items)
    {item : Node} (hitem : item ∈ items) : item.depth + 1 = node.depth := by
  rw [items?.eq_def] at h
  split at h
  · next depth _ hdepth _ =>
      cases h
      obtain ⟨tree, _, rfl⟩ := List.mem_map.mp hitem
      exact hdepth.symm
  · cases h

end Node

theorem optional_eq_some {ν α : Type} {isNull : ν → Bool} {read : ν → Option α} {field : Option ν}
    {value : α} (h : optional isNull read field = some (some value)) :
    ∃ node, field = some node ∧ isNull node = false ∧ read node = some value := by
  cases field with
  | none => cases h
  | some node =>
      rw [optional] at h
      split at h
      · cases h
      · next hnull =>
          obtain ⟨_, hread, heq⟩ := Option.map_eq_some_iff.mp h
          cases heq
          exact ⟨node, rfl, Bool.eq_false_iff.mpr hnull, hread⟩

/-- A document that was read from something else than null is not null. -/
theorem Node.ne_null_of_json? {node : Node} {doc : Json} (h : node.json? = some doc)
    (hnull : node.isNull = false) : doc ≠ .null := by
  intro hdoc
  subst hdoc
  obtain ⟨depth, tree⟩ := node
  cases tree with
  | null => cases hnull
  | bool => cases h
  | number | string =>
      obtain ⟨_, _, heq⟩ := Option.map_eq_some_iff.mp h
      cases heq
  | array | object =>
      cases depth with
      | zero => cases h
      | succ =>
          obtain ⟨_, _, heq⟩ := Option.map_eq_some_iff.mp h
          cases heq

/-! ## Values that survive -/

/-- What is written for a value can stand as a field within so many containers, and there
the value is read back from it. -/
structure Survives {α : Type} (toJson : α → Json) (read : Node → Option α) (depth : Nat)
    (value : α) : Prop where
  legible : Legible depth (toJson value)
  notNull : toJson value ≠ .null
  readsBack : read (.written depth (toJson value)) = some value

variable {α : Type} {toJson : α → Json} {read : Node → Option α} {depth : Nat}

theorem survives_text (depth : Nat) (s : String) : Survives .string Node.text? depth s :=
  ⟨.string s, nofun, Node.text?_written s⟩

theorem survives_bool (depth : Nat) (b : Bool) : Survives .bool Node.bool? depth b :=
  ⟨.bool b, nofun, rfl⟩

/-- Where each item is read back, the whole list is. -/
theorem mapM_written {values : List α} (h : ∀ v ∈ values, Survives toJson read depth v) :
    ((values.map toJson).map (Node.written depth)).mapM read = some values := by
  rw [List.map_map, mapM_some_iff, List.forall₂_map_left_iff, List.forall₂_same]
  exact fun v hv => (h v hv).readsBack

theorem optional_written {value : Option α}
    (h : ∀ v, value = some v → Survives toJson read depth v) :
    optional Node.isNull read ((value.map toJson).map (Node.written depth)) = some value := by
  cases value with
  | none => rfl
  | some v =>
      have hv := h v rfl
      rw [Option.map_some, Option.map_some, optional, Node.isNull_written hv.notNull, hv.readsBack]
      rfl

theorem legible_slot {value : Option α}
    (h : ∀ v, value = some v → Survives toJson read depth v) {doc : Json}
    (hdoc : value.map toJson = some doc) : Legible depth doc := by
  obtain ⟨v, hv, rfl⟩ := Option.map_eq_some_iff.mp hdoc
  exact (h v hv).legible

/-- A record survives that is written by its slots, each of which can be read, and that is
read from its fields. -/
theorem survives_record {value : α} (names : List String) (slots : List (String × Option Json))
    (hnames : slots.map Prod.fst = names) (hkeys : names.Nodup)
    (hjson : toJson value = .object (present slots))
    (hslots : ∀ slot ∈ slots, ∀ doc, slot.2 = some doc → Legible depth doc)
    (hread : ∀ node : Node, node.fields? names =
      some (slots.map fun slot => slot.2.map (.written depth)) → read node = some value) :
    Survives toJson read (depth + 1) value := by
  subst hnames
  refine ⟨?_, ?_, hread _ ?_⟩
  · rw [hjson]
    exact legible_present hkeys hslots
  · rw [hjson]
    nofun
  · rw [hjson]
    exact Node.fields?_written slots hkeys depth

end Json

end MessageBridge
