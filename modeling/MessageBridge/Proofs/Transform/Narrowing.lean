import MessageBridge.Proofs.Transform.Survival

/-!
# Narrower and wider whitelists

With a wider list every position survives that survived before, so what is left with
the narrower list is within what is left with the wider one. Which documents are
refused is the same for all lists.

A value with whitelisted keys only stays as it is, and what scrubbing leaves is such a
value. So scrubbing it again changes nothing.
-/

namespace MessageBridge.Whitelist

variable {fields wider : OrderedTexts} {path : String} {value doc kept : Json}

theorem Survives.mono {pos : Json.Position} (hwider : fields ⊆ wider)
    (h : Survives fields path value pos) : Survives wider path value pos := by
  induction h with
  | solid there whole listed => exact .solid there whole fun p hp => hwider (listed p hp)
  | entry there _ ih => exact .entry there ih

theorem accepts_iff (fields wider : OrderedTexts) (doc : Json) :
    (∃ kept, scrub fields doc = .ok kept) ↔ ∃ kept, scrub wider doc = .ok kept := by
  simp only [scrub_ok_iff, exists_and_left, exists_eq, and_true]

theorem within_of_wider {kept' : Json} (hwider : fields ⊆ wider)
    (h : scrub fields doc = .ok kept) (h' : scrub wider doc = .ok kept') :
    kept.Within kept' := by
  obtain ⟨_, rfl⟩ := scrub_ok_iff.mp h
  obtain ⟨_, rfl⟩ := scrub_ok_iff.mp h'
  rw [← prune_survives, ← prune_survives]
  refine Json.within_prune doc fun pos hpos => ?_
  rw [decide_eq_true_eq] at hpos ⊢
  exact hpos.mono hwider

/-! ## What is scrubbed already -/

theorem elide_of_listed (h : ∀ p ∈ value.keyPathsAt path, p ∈ fields) :
    elide fields path value = some value := by
  induction value using Json.induction_inside generalizing path with
  | null | bool | number | string => simp only [elide]
  | array items ih =>
      rw [Json.keyPathsAt, Json.itemsKeyPaths_eq] at h
      have hitems : items.filterMap (elide fields path) = items := by
        rw [List.filterMap_congr (g := some) fun v hv => ?_, List.filterMap_some]
        exact ih v hv fun p hp => h p (List.mem_flatMap.mpr ⟨v, hv, hp⟩)
      rw [elide, elideItems_eq, hitems]
  | object entries ih =>
      rw [Json.keyPathsAt, Json.entriesKeyPaths_eq] at h
      have hentries : entries.filterMap (elideEntry fields path) = entries := by
        rw [List.filterMap_congr (g := some) fun e he => ?_, List.filterMap_some]
        have hpaths (p) (hp : p ∈ _) := h p (List.mem_flatMap.mpr ⟨e, he, hp⟩)
        rw [elideEntry, if_pos (hpaths _ List.mem_cons_self),
          ih e he fun p hp => hpaths p (List.mem_cons_of_mem _ hp), Option.map_some]
      rw [elide_object, elideEntries_eq, hentries, if_neg fun h => h.1 h.2]

theorem isPrimitive_of_elide (h : elide fields path value = some kept) :
    kept.isPrimitive = value.isPrimitive := by
  cases value with
  | null | bool | number | string | array =>
      simp only [elide] at h
      cases h
      rfl
  | object entries =>
      rw [elide_object] at h
      split at h <;> cases h
      rfl

theorem any_isPrimitive_elideItems {items : List Json}
    (h : (elideItems fields path items).any Json.isPrimitive = true) :
    items.any Json.isPrimitive = true := by
  rw [elideItems_eq] at h
  obtain ⟨kept, hkept, hprimitive⟩ := List.any_eq_true.mp h
  obtain ⟨item, hitem, helide⟩ := List.mem_filterMap.mp hkept
  rw [isPrimitive_of_elide helide] at hprimitive
  exact List.any_eq_true.mpr ⟨item, hitem, hprimitive⟩

theorem eq_null_of_isBare (h : scrub fields doc = .ok kept) (hbare : kept.isBare = true) :
    kept = .null := by
  obtain ⟨hdoc, rfl⟩ := scrub_ok_iff.mp h
  cases doc with
  | null => rfl
  | bool | number | string => cases hdoc rfl
  | object entries =>
      rw [getD_elide_object] at hbare
      cases hbare
  | array items =>
      rw [elide, Option.getD_some] at hbare
      cases hdoc (any_isPrimitive_elideItems hbare)

theorem scrub_of_scrub (h : scrub fields doc = .ok kept) : scrub fields kept = .ok kept := by
  obtain ⟨hpaths, _⟩ := keyPaths_scrub h
  refine scrub_ok_iff.mpr ⟨eq_null_of_isBare h, ?_⟩
  rw [elide_of_listed hpaths, Option.getD_some]

/-- Scrubbing a scrubbed document changes nothing. A wider list refuses the same
documents, and of the others it leaves all that the narrower list leaves, in the same
order. So it drops none of the keys that the narrower list keeps. -/
theorem scrub_narrows (fields : OrderedTexts) (doc : Json) :
    (∀ kept, scrub fields doc = .ok kept → scrub fields kept = .ok kept) ∧
    ∀ wider, fields ⊆ wider →
      ((∃ kept, scrub fields doc = .ok kept) ↔ ∃ kept, scrub wider doc = .ok kept) ∧
      ∀ kept kept', scrub fields doc = .ok kept → scrub wider doc = .ok kept' →
        kept.Within kept' ∧ kept.keyPaths.Sublist kept'.keyPaths := by
  refine ⟨fun kept => scrub_of_scrub, fun wider hwider => ⟨accepts_iff fields wider doc, ?_⟩⟩
  intro kept kept' h h'
  have hwithin := within_of_wider hwider h h'
  exact ⟨hwithin, hwithin.keyPathsAt_sublist ""⟩

/-- With the prices on the list the second line of the order is left as well. -/
theorem order_narrows :
    scrub orderFields scrubbedOrder = .ok scrubbedOrder ∧
      ∃ kept', scrub ("lines.price" :: orderFields) order = .ok kept' ∧
        scrubbedOrder.Within kept' ∧ ¬ kept'.keyPaths.Sublist scrubbedOrder.keyPaths := by
  obtain ⟨hagain, hwider⟩ := scrub_narrows orderFields order
  have hscrubbed : scrub orderFields order = .ok scrubbedOrder := rfl
  obtain ⟨hsame, hwithin⟩ := hwider ("lines.price" :: orderFields) (List.subset_cons_self _ _)
  obtain ⟨kept', hkept'⟩ := hsame.mp ⟨_, hscrubbed⟩
  refine ⟨hagain _ hscrubbed, kept', hkept', (hwithin _ _ hscrubbed hkept').1, ?_⟩
  cases hkept'
  decide +kernel

end MessageBridge.Whitelist
