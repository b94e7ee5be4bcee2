import MessageBridge.Json.Reader
import MessageBridge.Proofs.Entries

/-!
# Documents that have been read

A document that was read has been put together from its parts: its items and values have
been read themselves, with one container less to be opened, and its entries were set one
after the other, so each key stands once. What holds of the parts whenever it is to hold of
the whole therefore holds of every document that was read.
-/

namespace MessageBridge.Json

/-- A property of documents, and of how many containers may be open, that a document has
by the way in which it was read. -/
structure Builds (P : Nat → Json → Prop) : Prop where
  null : ∀ depth, P depth .null
  bool : ∀ depth b, P depth (.bool b)
  number : ∀ depth n (literal : NumberLiteral), literal.toNumber? = some n → P depth (.number n)
  string : ∀ depth s, P depth (.string s)
  array : ∀ depth items, (∀ v ∈ items, P depth v) → P (depth + 1) (.array items)
  object : ∀ depth (es : Entries Json), es.DistinctKeys → (∀ e ∈ es, P depth e.2) →
    P (depth + 1) (.object es)

variable {P : Nat → Json → Prop}

mutual

theorem Builds.of_toJson? (hP : Builds P) {depth : Nat} (tree : Tree) {doc : Json}
    (h : tree.toJson? depth = some doc) : P depth doc := by
  match tree with
  | .null =>
      cases h
      exact hP.null depth
  | .bool b =>
      cases h
      exact hP.bool depth b
  | .number literal =>
      obtain ⟨n, hn, rfl⟩ := Option.map_eq_some_iff.mp h
      exact hP.number depth n literal hn
  | .string parts =>
      obtain ⟨s, _, rfl⟩ := Option.map_eq_some_iff.mp h
      exact hP.string depth s
  | .array items =>
      cases depth with
      | zero => cases h
      | succ depth =>
          obtain ⟨vs, hvs, rfl⟩ := Option.map_eq_some_iff.mp h
          exact hP.array depth vs (hP.of_itemsToJson? items hvs)
  | .object entries =>
      cases depth with
      | zero => cases h
      | succ depth =>
          obtain ⟨es, hes, rfl⟩ := Option.map_eq_some_iff.mp h
          obtain ⟨hkeys, hvalues⟩ := hP.of_entriesToJson? entries hes List.nodup_nil nofun
          exact hP.object depth es hkeys hvalues

theorem Builds.of_itemsToJson? (hP : Builds P) {depth : Nat} (items : List Tree)
    {vs : List Json} (h : Tree.itemsToJson? depth items = some vs) : ∀ v ∈ vs, P depth v := by
  match items with
  | [] =>
      cases h
      exact nofun
  | item :: rest =>
      rw [Tree.itemsToJson?] at h
      split at h
      · next hitem hrest =>
          cases h
          exact List.forall_mem_cons.mpr
            ⟨hP.of_toJson? item hitem, hP.of_itemsToJson? rest hrest⟩
      · cases h

theorem Builds.of_entriesToJson? (hP : Builds P) {depth : Nat} {read : Entries Json}
    (entries : List (List StringPart × Tree)) {es : Entries Json}
    (h : Tree.entriesToJson? depth read entries = some es) (hkeys : read.DistinctKeys)
    (hvalues : ∀ e ∈ read, P depth e.2) : es.DistinctKeys ∧ ∀ e ∈ es, P depth e.2 := by
  match entries with
  | [] =>
      cases h
      exact ⟨hkeys, hvalues⟩
  | (key, value) :: rest =>
      rw [Tree.entriesToJson?] at h
      split at h
      · next k v _ hv =>
          refine hP.of_entriesToJson? rest h (hkeys.set k v) ?_
          intro e he
          obtain rfl | he := Entries.mem_set he
          · exact hP.of_toJson? value hv
          · exact hvalues e he
      · cases h

end

end MessageBridge.Json
