import MessageBridge.Entries
import Mathlib.Data.String.Basic

/-!
# Texts in order

Putting texts into their order one by one keeps all of them and repeats none, so
an ordered list of texts is as good as a set.
-/

namespace MessageBridge

namespace OrderedTexts

theorem mem_insert {x text : String} {texts : OrderedTexts} :
    x ∈ insert text texts ↔ x = text ∨ x ∈ texts := by
  induction texts with
  | nil => simp [insert]
  | cons t rest ih =>
      rw [insert]
      split
      · next h => simp [h]
      · split
        · simp
        · simp only [List.mem_cons, ih]
          exact or_left_comm

theorem insert_ascending {text : String} {texts : OrderedTexts}
    (h : texts.Pairwise (· < ·)) : (insert text texts).Pairwise (· < ·) := by
  induction texts with
  | nil => exact List.pairwise_singleton _ _
  | cons t rest ih =>
      rw [insert]
      split
      · exact h
      · next hne =>
          split
          · next hlt =>
              refine List.pairwise_cons.mpr ⟨?_, h⟩
              intro x hx
              rcases List.mem_cons.mp hx with rfl | hx
              · exact hlt
              · exact lt_trans hlt ((List.pairwise_cons.mp h).1 x hx)
          · next hnlt =>
              have hgt : t < text := lt_of_le_of_ne (not_lt.mp hnlt) (Ne.symm hne)
              refine List.pairwise_cons.mpr ⟨?_, ih (List.pairwise_cons.mp h).2⟩
              intro x hx
              rcases mem_insert.mp hx with rfl | hx
              · exact hgt
              · exact (List.pairwise_cons.mp h).1 x hx

theorem mem_foldl_insert {x : String} : ∀ {texts : List String} {acc : OrderedTexts},
    x ∈ texts.foldl (fun acc t => insert t acc) acc ↔ x ∈ acc ∨ x ∈ texts := by
  intro texts
  induction texts with
  | nil => intro acc; simp
  | cons t rest ih =>
      intro acc
      rw [List.foldl_cons, ih, mem_insert, List.mem_cons]
      tauto

theorem foldl_insert_ascending : ∀ {texts : List String} {acc : OrderedTexts},
    acc.Pairwise (· < ·) →
    (texts.foldl (fun acc t => insert t acc) acc).Pairwise (· < ·) := by
  intro texts
  induction texts with
  | nil => intro acc h; exact h
  | cons t rest ih => intro acc h; exact ih (insert_ascending h)

theorem mem_ofList {x : String} {texts : List String} : x ∈ ofList texts ↔ x ∈ texts := by
  rw [ofList, mem_foldl_insert]
  simp

theorem nodup_ofList (texts : List String) : (ofList texts).Nodup :=
  (foldl_insert_ascending List.Pairwise.nil).imp fun h => ne_of_lt h

end OrderedTexts

end MessageBridge
