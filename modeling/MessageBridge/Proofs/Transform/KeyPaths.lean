import MessageBridge.Transform.Chain

/-!
# The key paths of a document

Every object key of a document has a path, and `keyPaths` lists the paths of all
of them, however deep they are. An array adds nothing to the path, so the keys of
its items stand at the path of the array.

Scrubbing leaves whitelisted paths only. The proof follows the three functions
that scrub: what is left of a value, of entries and of items has no other paths,
given that this is so for whatever is inside. Nothing has to be known about the
document, which may repeat keys or nest as deep as it likes.
-/

namespace MessageBridge

namespace Json

mutual

/-- The paths of all keys of a value that stands at a path. -/
def keyPathsAt (path : String) : Json → List String
  | .object entries => entriesKeyPaths path entries
  | .array items => itemsKeyPaths path items
  | .null | .bool _ | .number _ | .string _ => []

def entriesKeyPaths (path : String) : List (String × Json) → List String
  | [] => []
  | (key, value) :: rest =>
    Whitelist.childPath path key :: keyPathsAt (Whitelist.childPath path key) value
      ++ entriesKeyPaths path rest

def itemsKeyPaths (path : String) : List Json → List String
  | [] => []
  | item :: rest => keyPathsAt path item ++ itemsKeyPaths path rest

end

/-- The paths of all keys of a document. -/
def keyPaths (doc : Json) : List String :=
  doc.keyPathsAt ""

/-- A document without any field, as a whole or among its items. -/
def isBare : Json → Bool
  | .null | .bool _ | .number _ | .string _ => true
  | .array items => items.any isPrimitive
  | .object _ => false

example : keyPaths (.object [("a", .array [.object [("b", .null)], .null])]) = ["a", "a.b"] := by
  decide +kernel

end Json

namespace Whitelist

mutual

theorem keyPathsAt_elide (fields : OrderedTexts) (path : String) :
    ∀ (value kept : Json), elide fields path value = some kept →
      ∀ p ∈ kept.keyPathsAt path, p ∈ fields
  | .object [], kept, h, p, hp => by
      rw [elide] at h
      injection h with h
      subst h
      rw [Json.keyPathsAt, Json.entriesKeyPaths] at hp
      cases hp
  | .object (entry :: rest), kept, h, p, hp => by
      have hentries := entriesKeyPaths_elide fields path (entry :: rest)
      rw [elide] at h
      split at h
      · cases h
      · injection h with h
        subst h
        rw [Json.keyPathsAt] at hp
        exact hentries p hp
  | .array items, kept, h, p, hp => by
      rw [elide] at h
      injection h with h
      subst h
      rw [Json.keyPathsAt] at hp
      exact itemsKeyPaths_elide fields path items p hp
  | .null, kept, h, p, hp | .bool _, kept, h, p, hp | .number _, kept, h, p, hp
  | .string _, kept, h, p, hp => by
      simp only [elide] at h
      injection h with h
      subst h
      rw [Json.keyPathsAt] at hp
      cases hp

theorem entriesKeyPaths_elide (fields : OrderedTexts) (path : String) :
    ∀ entries : List (String × Json),
      ∀ p ∈ Json.entriesKeyPaths path (elideEntries fields path entries), p ∈ fields
  | [], p, hp => by
      rw [elideEntries, Json.entriesKeyPaths] at hp
      cases hp
  | (key, value) :: rest, p, hp => by
      have hrest := entriesKeyPaths_elide fields path rest
      rw [elideEntries] at hp
      split at hp
      · next hlisted =>
          split at hp
          · next kept hkept =>
              rw [Json.entriesKeyPaths, List.cons_append, List.mem_cons, List.mem_append] at hp
              rcases hp with rfl | hp | hp
              · exact List.contains_iff_mem.mp hlisted
              · exact keyPathsAt_elide fields _ value kept hkept p hp
              · exact hrest p hp
          · exact hrest p hp
      · exact hrest p hp

theorem itemsKeyPaths_elide (fields : OrderedTexts) (path : String) :
    ∀ items : List Json,
      ∀ p ∈ Json.itemsKeyPaths path (elideItems fields path items), p ∈ fields
  | [], p, hp => by
      rw [elideItems, Json.itemsKeyPaths] at hp
      cases hp
  | item :: rest, p, hp => by
      have hrest := itemsKeyPaths_elide fields path rest
      rw [elideItems] at hp
      split at hp
      · next kept hkept =>
          rw [Json.itemsKeyPaths, List.mem_append] at hp
          rcases hp with hp | hp
          · exact keyPathsAt_elide fields path item kept hkept p hp
          · exact hrest p hp
      · exact hrest p hp

end

/-- A bare document is refused, null apart, and of any other one only
whitelisted paths are left. -/
theorem keyPaths_scrub {fields : OrderedTexts} {doc kept : Json}
    (h : scrub fields doc = .ok kept) :
    (∀ p ∈ kept.keyPaths, p ∈ fields) ∧ (doc.isBare = true → doc = .null) := by
  have hleft : ∀ p ∈ ((elide fields "" doc).getD (.object [])).keyPaths, p ∈ fields := by
    intro p hp
    cases helided : elide fields "" doc with
    | none =>
        rw [helided] at hp
        cases hp
    | some left =>
        rw [helided] at hp
        exact keyPathsAt_elide fields "" doc left helided p hp
  unfold scrub at h
  split at h
  · cases h
  · next hprimitive =>
      split at h
      · next items =>
          split at h
          · cases h
          · next hitems =>
              injection h with h
              rw [← h]
              exact ⟨hleft, fun hbare => absurd hbare hitems⟩
      · next hnot =>
          injection h with h
          rw [← h]
          refine ⟨hleft, fun hbare => ?_⟩
          cases doc with
          | null => rfl
          | array items => exact absurd rfl (hnot items)
          | object entries => cases hbare
          | bool | number | string => exact absurd rfl hprimitive

end Whitelist

namespace Transformer

/-- For a document other than null it is the scrubbing that decides. -/
theorem scrubText_of_read {fields : OrderedTexts} {text : String} {doc : Json}
    (hread : Json.read? text = some doc) (hnull : doc ≠ .null) :
    scrubText fields text =
      ((Whitelist.scrub fields doc).map Json.write).mapError Whitelist.Defect.failure := by
  unfold scrubText payload
  cases hscrub : Whitelist.scrub fields doc <;> cases doc
  case error.null | ok.null => exact absurd rfl hnull
  all_goals
    simp only [hread, bind, Except.bind, hscrub]
    rfl

theorem scrubText_ok {fields : OrderedTexts} {text out : String}
    (h : scrubText fields text = .ok out) :
    ∃ doc kept : Json, Json.read? text = some doc ∧ doc ≠ .null ∧
      Whitelist.scrub fields doc = .ok kept ∧ out = kept.write := by
  cases hread : Json.read? text with
  | none =>
      unfold scrubText payload at h
      rw [hread] at h
      cases h
  | some doc =>
      have hnull : doc ≠ .null := by
        rintro rfl
        unfold scrubText payload at h
        rw [hread] at h
        cases h
      rw [scrubText_of_read hread hnull] at h
      cases hscrub : Whitelist.scrub fields doc with
      | error defect =>
          rw [hscrub] at h
          cases h
      | ok kept =>
          rw [hscrub] at h
          injection h with h
          exact ⟨doc, kept, rfl, hnull, hscrub, h.symm⟩

/-- What a scrubber lets through is the text of a document with whitelisted paths
only, and the text that it was given holds a document that is not bare. -/
theorem keyPaths_scrubText {fields : OrderedTexts} {text out : String}
    (h : scrubText fields text = .ok out) :
    ∃ doc kept : Json, Json.read? text = some doc ∧ doc.isBare = false ∧
      out = kept.write ∧ ∀ p ∈ kept.keyPaths, p ∈ fields := by
  obtain ⟨doc, kept, hread, hnull, hscrub, hout⟩ := scrubText_ok h
  obtain ⟨hpaths, hbare⟩ := Whitelist.keyPaths_scrub hscrub
  exact ⟨doc, kept, hread, Bool.eq_false_iff.mpr (mt hbare hnull), hout, hpaths⟩

end Transformer

end MessageBridge
