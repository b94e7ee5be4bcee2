import MessageBridge.Proofs.Json.Documents

/-!
# Each key stands once

A text may repeat the keys of an object. The reader sets the entries one after the
other, so in a document that was read no object has a key twice, however deep it is
nested, and what stands at a key is not a matter of where one looks for it.
-/

namespace MessageBridge

namespace Json

/-- In the document and in all that it holds, each key of an object stands once. -/
inductive KeysOnce : Json → Prop where
  | null : KeysOnce .null
  | bool (b : Bool) : KeysOnce (.bool b)
  | number (n : JsonNumber) : KeysOnce (.number n)
  | string (s : String) : KeysOnce (.string s)
  | array {items : List Json} (each : ∀ v ∈ items, KeysOnce v) : KeysOnce (.array items)
  | object {es : Entries Json} (keys : es.DistinctKeys) (values : ∀ e ∈ es, KeysOnce e.2) :
    KeysOnce (.object es)

theorem keysOnce_array_iff {items : List Json} :
    (array items).KeysOnce ↔ ∀ v ∈ items, v.KeysOnce :=
  ⟨fun | .array each => each, .array⟩

theorem keysOnce_object_iff {es : Entries Json} :
    (object es).KeysOnce ↔ es.keys.Nodup ∧ ∀ e ∈ es, e.2.KeysOnce :=
  ⟨fun | .object keys values => ⟨keys, values⟩, fun h => .object h.1 h.2⟩

mutual

instance decidableKeysOnce : DecidablePred KeysOnce
  | .null => .isTrue .null
  | .bool b => .isTrue (.bool b)
  | .number n => .isTrue (.number n)
  | .string s => .isTrue (.string s)
  | .array items =>
    have := decidableItemsKeysOnce items
    decidable_of_iff _ keysOnce_array_iff.symm
  | .object es =>
    have := decidableEntriesKeysOnce es
    decidable_of_iff _ keysOnce_object_iff.symm

instance decidableItemsKeysOnce : (items : List Json) → Decidable (∀ v ∈ items, v.KeysOnce)
  | [] => .isTrue nofun
  | v :: rest =>
    have := decidableKeysOnce v
    have := decidableItemsKeysOnce rest
    decidable_of_iff _ List.forall_mem_cons.symm

instance decidableEntriesKeysOnce :
    (es : List (String × Json)) → Decidable (∀ e ∈ es, e.2.KeysOnce)
  | [] => .isTrue nofun
  | (key, v) :: rest =>
    have := decidableKeysOnce v
    have := decidableEntriesKeysOnce rest
    decidable_of_iff (v.KeysOnce ∧ ∀ e ∈ rest, e.2.KeysOnce) (by rw [List.forall_mem_cons])

end

theorem keysOnce_toJson? {depth : Nat} (tree : Tree) {doc : Json}
    (h : tree.toJson? depth = some doc) : doc.KeysOnce := by
  have hbuilds : Builds fun _ doc => doc.KeysOnce := {
    null := fun _ => .null
    bool := fun _ b => .bool b
    number := fun _ n _ _ => .number n
    string := fun _ s => .string s
    array := fun _ _ => .array
    object := fun _ _ => .object }
  exact hbuilds.of_toJson? tree h

theorem keysOnce_of_read? {text : String} {doc : Json} (h : read? text = some doc) :
    doc.KeysOnce := by
  obtain ⟨tree, _, htree⟩ := Option.bind_eq_some_iff.mp h
  exact keysOnce_toJson? tree htree

end Json

end MessageBridge
