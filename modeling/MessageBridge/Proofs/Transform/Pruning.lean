import MessageBridge.Proofs.Transform.KeyPaths
import Mathlib.Data.List.Forall2

/-!
# Positions in a document, and pruning

A position leads from a value to one of those inside it, step by step: into the value
of an entry or into an item, counted from the first. On its way it passes keys, and
each of these has a path, as in a whitelist.

Pruning drops what stands at the positions that are not to be kept, with all that is
inside. It does nothing else, so the value that comes out is within the one that went
in: objects keep some of their entries and arrays some of their items, in the old
order. Where more positions are kept, more is left.
-/

namespace MessageBridge.Json

/-- What holds of a value once it holds of its items, or of the values of its entries,
holds of every value. -/
@[elab_as_elim]
theorem induction_inside {motive : Json → Prop} (null : motive .null)
    (bool : ∀ b, motive (.bool b)) (number : ∀ n, motive (.number n))
    (string : ∀ s, motive (.string s))
    (array : ∀ items, (∀ v ∈ items, motive v) → motive (.array items))
    (object : ∀ entries, (∀ e ∈ entries, motive e.2) → motive (.object entries)) :
    ∀ value, motive value
  | .null => null
  | .bool b => bool b
  | .number n => number n
  | .string s => string s
  | .array items =>
      array items fun v _ => induction_inside null bool number string array object v
  | .object entries =>
      object entries fun e _ => induction_inside null bool number string array object e.2
termination_by value => sizeOf value
decreasing_by
  · next hv =>
      have := List.sizeOf_lt_of_mem hv
      rw [Json.array.sizeOf_spec]
      omega
  · next he =>
      have := List.sizeOf_lt_of_mem he
      obtain ⟨key, v⟩ := e
      rw [Prod.mk.sizeOf_spec] at this
      rw [Json.object.sizeOf_spec]
      simp only []
      omega

/-! ## Positions -/

/-- A step from a value to one that it holds. -/
inductive Step where
  | entry (index : Nat)
  | item (index : Nat)
  deriving DecidableEq, Repr

/-- The steps from a value to one inside it, the first one first. -/
abbrev Position := List Step

/-- The value at a position. -/
def valueAt? : Json → Position → Option Json
  | value, [] => some value
  | .object entries, .entry i :: pos =>
    match entries[i]? with
    | some (_, value) => value.valueAt? pos
    | none => none
  | .array items, .item i :: pos =>
    match items[i]? with
    | some item => item.valueAt? pos
    | none => none
  | _, _ :: _ => none

/-- The paths of the keys on the way to a position, for a value that stands at a path. -/
def pathsFrom (path : String) : Json → Position → List String
  | .object entries, .entry i :: pos =>
    match entries[i]? with
    | some (key, value) =>
      Whitelist.childPath path key :: pathsFrom (Whitelist.childPath path key) value pos
    | none => []
  | .array items, .item i :: pos =>
    match items[i]? with
    | some item => pathsFrom path item pos
    | none => []
  | _, _ => []

/-- The paths of the keys on the way to a position of a document. -/
def pathsTo (doc : Json) (pos : Position) : List String :=
  doc.pathsFrom "" pos

@[simp]
theorem valueAt?_nil (value : Json) : value.valueAt? [] = some value := by
  cases value <;> rfl

@[simp]
theorem pathsFrom_nil (path : String) (value : Json) : value.pathsFrom path [] = [] := by
  cases value <;> rfl

theorem valueAt?_append (value : Json) (pos further : Position) :
    value.valueAt? (pos ++ further) = (value.valueAt? pos).bind (·.valueAt? further) := by
  induction pos generalizing value with
  | nil => simp
  | cons step pos ih =>
      cases value <;> cases step <;> simp only [List.cons_append, valueAt?, Option.bind_none]
      · split <;> simp [ih]
      · split <;> simp [ih]

/-- The way to a position inside another one passes the keys on the way to that one. -/
theorem pathsFrom_append (path : String) (value : Json) (pos further : Position) :
    value.pathsFrom path pos ⊆ value.pathsFrom path (pos ++ further) := by
  induction pos generalizing path value with
  | nil =>
      rw [pathsFrom_nil]
      exact List.nil_subset _
  | cons step pos ih =>
      cases value <;> cases step <;> simp only [List.cons_append, pathsFrom]
      case object.entry entries i =>
        cases entries[i]? with
        | none => exact List.Subset.refl _
        | some entry => exact List.cons_subset_cons _ (ih _ _)
      case array.item items i =>
        cases items[i]? with
        | none => exact List.Subset.refl _
        | some item => exact ih _ _
      all_goals exact List.Subset.refl _

/-- A step into an item passes no key. -/
theorem pathsFrom_append_item (path : String) (value : Json) (pos : Position) (i : Nat) :
    value.pathsFrom path (pos ++ [.item i]) = value.pathsFrom path pos := by
  induction pos generalizing path value with
  | nil =>
      cases value <;> simp only [List.nil_append, pathsFrom, pathsFrom_nil]
      split <;> rfl
  | cons step pos ih =>
      cases value <;> cases step <;> simp only [List.cons_append, pathsFrom, ih]

/-! ## Values within others -/

/-- Entries with the same key whose values are related. -/
inductive SameKey (R : Json → Json → Prop) : String × Json → String × Json → Prop where
  | mk (key : String) {v w : Json} (h : R v w) : SameKey R (key, v) (key, w)

/-- A value is within another one that it can be got from by dropping entries and
items, at any depth, and by nothing else. -/
inductive Within : Json → Json → Prop where
  | null : Within .null .null
  | bool (b : Bool) : Within (.bool b) (.bool b)
  | number (n : JsonNumber) : Within (.number n) (.number n)
  | string (s : String) : Within (.string s) (.string s)
  | array {items wider : List Json} (h : List.SublistForall₂ Within items wider) :
      Within (.array items) (.array wider)
  | object {entries wider : Entries Json}
      (h : List.SublistForall₂ (SameKey Within) entries wider) :
      Within (.object entries) (.object wider)

theorem sublist_flatMap {α : Type} {R : α → α → Prop} {f : α → List String} {xs ys : List α}
    (h : List.SublistForall₂ R xs ys) (hf : ∀ x ∈ xs, ∀ y, R x y → (f x).Sublist (f y)) :
    (xs.flatMap f).Sublist (ys.flatMap f) := by
  induction h with
  | nil => exact List.nil_sublist _
  | cons hxy _ ih =>
      rw [List.flatMap_cons, List.flatMap_cons]
      exact (hf _ List.mem_cons_self _ hxy).append
        (ih fun x hx => hf x (List.mem_cons_of_mem _ hx))
  | cons_right _ ih =>
      rw [List.flatMap_cons]
      exact (ih hf).trans (List.sublist_append_right _ _)

theorem itemsKeyPaths_eq (path : String) (items : List Json) :
    itemsKeyPaths path items = items.flatMap (keyPathsAt path) := by
  induction items with
  | nil => rfl
  | cons v rest ih => rw [itemsKeyPaths, ih, List.flatMap_cons]

theorem entriesKeyPaths_eq (path : String) (entries : Entries Json) :
    entriesKeyPaths path entries = entries.flatMap fun e =>
      Whitelist.childPath path e.1 :: keyPathsAt (Whitelist.childPath path e.1) e.2 := by
  induction entries with
  | nil => rfl
  | cons e rest ih => rw [entriesKeyPaths, ih, List.flatMap_cons]

/-- A value has all the keys of one that is within it, at the same paths and in the
same order. -/
theorem Within.keyPathsAt_sublist {v w : Json} (h : v.Within w) (path : String) :
    (v.keyPathsAt path).Sublist (w.keyPathsAt path) := by
  induction v using induction_inside generalizing w path with
  | null | bool | number | string =>
      cases h
      exact List.Sublist.refl _
  | array items ih =>
      cases h with
      | array h =>
          rw [keyPathsAt, keyPathsAt, itemsKeyPaths_eq, itemsKeyPaths_eq]
          exact sublist_flatMap h fun v hv w hw => ih v hv hw path
  | object entries ih =>
      cases h with
      | object h =>
          rw [keyPathsAt, keyPathsAt, entriesKeyPaths_eq, entriesKeyPaths_eq]
          refine sublist_flatMap h fun e he f hf => ?_
          cases hf with
          | mk key hvw => exact (ih _ he hvw _).cons_cons _

/-! ## Pruning -/

mutual

/-- What a value is without the entries and the items that are not kept. -/
def prune (keeps : Position → Bool) : Json → Json
  | .object entries => .object (pruneEntries keeps 0 entries)
  | .array items => .array (pruneItems keeps 0 items)
  | leaf => leaf

/-- The entries that are kept of those from an index on. -/
def pruneEntries (keeps : Position → Bool) (i : Nat) : List (String × Json) → Entries Json
  | [] => []
  | (key, value) :: rest =>
    if keeps [.entry i] then
      (key, prune (fun pos => keeps (.entry i :: pos)) value) :: pruneEntries keeps (i + 1) rest
    else pruneEntries keeps (i + 1) rest

/-- The items that are kept of those from an index on. -/
def pruneItems (keeps : Position → Bool) (i : Nat) : List Json → List Json
  | [] => []
  | item :: rest =>
    if keeps [.item i] then
      prune (fun pos => keeps (.item i :: pos)) item :: pruneItems keeps (i + 1) rest
    else pruneItems keeps (i + 1) rest

end

/-- What is kept of an item with its index, if it is kept. -/
def pruneItem (keeps : Position → Bool) (item : Json × Nat) : Option Json :=
  if keeps [.item item.2] then some (item.1.prune fun pos => keeps (.item item.2 :: pos))
  else none

/-- What is kept of an entry with its index, if it is kept. -/
def pruneEntry (keeps : Position → Bool) (entry : (String × Json) × Nat) :
    Option (String × Json) :=
  if keeps [.entry entry.2] then
    some (entry.1.1, entry.1.2.prune fun pos => keeps (.entry entry.2 :: pos))
  else none

theorem pruneItems_eq (keeps : Position → Bool) (i : Nat) (items : List Json) :
    pruneItems keeps i items = (items.zipIdx i).filterMap (pruneItem keeps) := by
  induction items generalizing i with
  | nil => rfl
  | cons v rest ih =>
      rw [pruneItems, ih, List.zipIdx_cons, List.filterMap_cons, pruneItem]
      split <;> rfl

theorem pruneEntries_eq (keeps : Position → Bool) (i : Nat) (entries : Entries Json) :
    pruneEntries keeps i entries = (entries.zipIdx i).filterMap (pruneEntry keeps) := by
  induction entries generalizing i with
  | nil => rfl
  | cons entry rest ih =>
      rw [pruneEntries, ih, List.zipIdx_cons, List.filterMap_cons, pruneEntry]
      split <;> rfl

/-- Where the index of a member does not matter, it can be left out. -/
theorem filterMap_zipIdx {α β : Type} {f : α × Nat → Option β} {g : α → Option β} {xs : List α}
    (h : ∀ x i, xs[i]? = some x → f (x, i) = g x) : xs.zipIdx.filterMap f = xs.filterMap g := by
  calc xs.zipIdx.filterMap f = xs.zipIdx.filterMap (g ∘ Prod.fst) :=
        List.filterMap_congr fun x hx => h x.1 x.2 (List.mem_zipIdx_iff_getElem?.mp hx)
    _ = xs.filterMap g := by rw [← List.filterMap_map, List.zipIdx_map_fst]

theorem sublistForall₂_filterMap {α β : Type} {R : β → β → Prop} {f f' : α → Option β}
    {xs : List α} (h : ∀ x ∈ xs, ∀ b, f x = some b → ∃ b', f' x = some b' ∧ R b b') :
    List.SublistForall₂ R (xs.filterMap f) (xs.filterMap f') := by
  induction xs with
  | nil => exact .nil
  | cons x xs ih =>
      have hxs := ih fun x hx => h x (List.mem_cons_of_mem _ hx)
      rw [List.filterMap_cons, List.filterMap_cons]
      cases hf : f x with
      | none =>
          cases f' x with
          | none => exact hxs
          | some => exact .cons_right hxs
      | some b =>
          obtain ⟨b', hf', hb⟩ := h x List.mem_cons_self b hf
          rw [hf']
          exact .cons hb hxs

/-- Where more is kept, all that was kept before is still there. -/
theorem within_prune {keeps keeps' : Position → Bool} (value : Json)
    (h : ∀ pos, keeps pos → keeps' pos) : (value.prune keeps).Within (value.prune keeps') := by
  induction value using induction_inside generalizing keeps keeps' with
  | null =>
      simp only [prune]
      exact .null
  | bool b =>
      simp only [prune]
      exact .bool b
  | number n =>
      simp only [prune]
      exact .number n
  | string s =>
      simp only [prune]
      exact .string s
  | array items ih =>
      rw [prune, prune, pruneItems_eq, pruneItems_eq]
      refine .array (sublistForall₂_filterMap fun ⟨v, i⟩ hv kept hkept => ?_)
      obtain ⟨hkeeps, hkept⟩ := Option.ite_none_right_eq_some.mp hkept
      cases hkept
      exact ⟨_, if_pos (h _ hkeeps), ih v (List.fst_mem_of_mem_zipIdx hv) fun pos => h _⟩
  | object entries ih =>
      rw [prune, prune, pruneEntries_eq, pruneEntries_eq]
      refine .object (sublistForall₂_filterMap fun ⟨e, i⟩ he kept hkept => ?_)
      obtain ⟨hkeeps, hkept⟩ := Option.ite_none_right_eq_some.mp hkept
      cases hkept
      exact ⟨_, if_pos (h _ hkeeps),
        .mk e.1 (ih e (List.fst_mem_of_mem_zipIdx he) fun pos => h _)⟩

theorem prune_all (value : Json) : value.prune (fun _ => true) = value := by
  induction value using induction_inside with
  | null | bool | number | string => simp only [prune]
  | array items ih =>
      have hitem (v) (i : Nat) (hi : items[i]? = some v) :
          pruneItem (fun _ => true) (v, i) = some v := by
        rw [pruneItem, if_pos rfl, ih v (List.mem_of_getElem? hi)]
      rw [prune, pruneItems_eq, filterMap_zipIdx hitem, List.filterMap_some]
  | object entries ih =>
      have hentry (e) (i : Nat) (hi : entries[i]? = some e) :
          pruneEntry (fun _ => true) (e, i) = some e := by
        rw [pruneEntry, if_pos rfl, ih e (List.mem_of_getElem? hi)]
      rw [prune, pruneEntries_eq, filterMap_zipIdx hentry, List.filterMap_some]

theorem prune_within (value : Json) (keeps : Position → Bool) :
    (value.prune keeps).Within value := by
  have h : (value.prune keeps).Within (value.prune fun _ => true) :=
    within_prune value fun _ _ => rfl
  rw [prune_all] at h
  exact h

end MessageBridge.Json
