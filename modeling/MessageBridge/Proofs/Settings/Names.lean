import MessageBridge.Proofs.Text.Pieces
import MessageBridge.Settings.Load

/-!
# Keys are in lower case

The key of a source is put into lower case as a whole, before it is taken for a path. What
is then set at the end of the path has its key put into lower case once more, like the keys
of all tables, and this changes nothing: the path has no other characters than the key.
-/

namespace MessageBridge.Settings

/-- The character is its own lower case. -/
def IsLow (c : Char) : Prop :=
  lowerChar c = c

theorem isLow_toLower {c : Char} (hc : c ≠ '\u212A') : IsLow c.toLower := by
  by_cases hupper : c.val ≥ 'A'.val ∧ c.val ≤ 'Z'.val
  · have hfirst : 65 ≤ c.val.toNat := hupper.1
    have hlast : c.val.toNat ≤ 90 := hupper.2
    have hval : c.toLower.val.toNat = c.val.toNat + 32 := by
      have hlower : c.toLower.val = c.val + 32 := congrArg Char.val (dif_pos hupper)
      rw [hlower]
      show (c.val.toNat + 32) % 4294967296 = _
      omega
    have hkelvin : c.toLower ≠ '\u212A' := fun h => by
      rw [h] at hval
      have hval : 8490 = c.val.toNat + 32 := hval
      omega
    rw [IsLow, lowerChar, if_neg hkelvin]
    refine dif_neg fun h => ?_
    have hsmall : c.toLower.val.toNat ≤ 90 := h.2
    omega
  · have hsame : c.toLower = c := dif_neg hupper
    rw [hsame, IsLow, lowerChar, if_neg hc, hsame]

theorem isLow_lowerChar (c : Char) : IsLow (lowerChar c) := by
  rw [lowerChar]
  split
  · rfl
  · next hc => exact isLow_toLower hc

theorem isLow_lowerKey (key : String) : ∀ c ∈ (lowerKey key).toList, IsLow c := by
  intro c hc
  rw [lowerKey, String.toList_ofList] at hc
  obtain ⟨c', _, rfl⟩ := List.mem_map.mp hc
  exact isLow_lowerChar c'

theorem lowerKey_of_isLow {key : String} (h : ∀ c ∈ key.toList, IsLow c) : lowerKey key = key := by
  rw [← String.toList_inj, lowerKey, String.toList_ofList]
  exact (List.map_congr_left h).trans (List.map_id _)

/-- A part of a path is a key, with nothing but items behind it. -/
theorem eq_of_steps? {part : List Char} {steps : List Step} (h : steps? part = some steps) :
    ∃ numbers : List Int,
      steps = .key (String.ofList (part.takeWhile isKeyChar)) :: numbers.map .item := by
  unfold steps? at h
  simp only [] at h
  split at h
  · next hname _ =>
      obtain ⟨numbers, _, rfl⟩ := Option.map_eq_some_iff.mp h
      exact ⟨numbers, by rw [hname]⟩
  · cases h

theorem subset_of_steps? {part : List Char} {name : String} {steps : List Step}
    (h : steps? part = some steps) (hname : .key name ∈ steps) : name.toList ⊆ part := by
  obtain ⟨numbers, rfl⟩ := eq_of_steps? h
  rcases List.mem_cons.mp hname with hname | hname
  · injection hname with hname
    rw [hname, String.toList_ofList]
    exact (List.takeWhile_prefix _).subset
  · obtain ⟨_, _, hitem⟩ := List.mem_map.mp hname
    cases hitem

/-- The keys in the path of a key are in lower case. -/
theorem lowerKey_of_mem_keyPath {key name : String} (h : .key name ∈ keyPath key) :
    lowerKey name = name := by
  refine lowerKey_of_isLow fun c hc => isLow_lowerKey key c ?_
  unfold keyPath at h
  simp only [] at h
  split at h
  · obtain ⟨_, hread, hname⟩ := List.mem_flatMap.mp h
    obtain ⟨part, hpart, rfl⟩ := List.mem_map.mp hread
    cases hread : steps? part with
    | none =>
        rw [hread] at hname
        cases hname
    | some steps =>
        rw [hread] at hname
        exact Text.mem_of_mem_split hpart (subset_of_steps? hread hname hc)
  · injection List.mem_singleton.mp h with hsame
    exact hsame ▸ hc

theorem keyPath_ne_nil (key : String) : keyPath key ≠ [] := by
  unfold keyPath
  simp only []
  split
  · next hread =>
      obtain ⟨part, hpart⟩ := List.exists_mem_of_ne_nil _
        (Text.split_ne_nil '.' (lowerKey key).toList)
      obtain ⟨steps, hsteps⟩ := Option.isSome_iff_exists.mp
        (List.all_eq_true.mp hread _ (List.mem_map_of_mem hpart))
      obtain ⟨_, rfl⟩ := eq_of_steps? hsteps
      intro hnil
      have hnone := List.flatMap_eq_nil_iff.mp hnil _ (List.mem_map_of_mem hpart)
      rw [hsteps] at hnone
      cases hnone
  · exact List.cons_ne_nil _ _

end MessageBridge.Settings
