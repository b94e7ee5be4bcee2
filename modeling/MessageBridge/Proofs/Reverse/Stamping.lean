import MessageBridge.Proofs.Reverse.Notifications
import MessageBridge.Proofs.Reverse.Redelivery

/-!
# Where a stamp stands

A payload is stamped by setting a field of it. A new field comes last, behind the
fields of the payload. A payload that has the field already, because it has been stamped
before, gets the new stamp where the old one stands, and that may be anywhere.

So every stamped payload has the stamp once and the other fields in their old order, but
the stamp is its last field only if nothing stands behind the old one. The texts tell the
difference, since the text of an object tells the order of its keys.
-/

namespace MessageBridge.Envelope

open Json (KeysOnce)

/-- The payload that a body carries: what a notification holds, as a document or as its
text, or else the body itself. -/
inductive Carries (body : String) : Json → Prop where
  | whole {doc : Json} (read : Json.read? body = some doc)
      (bare : ∀ entries : Entries Json, doc = .object entries →
        Entries.get? "Message" entries = none) : Carries body doc
  | document {entries : Entries Json} {doc : Json}
      (read : Json.read? body = some (.object entries))
      (field : Entries.get? "Message" entries = some doc) (plain : ∀ text, doc ≠ .string text) :
    Carries body doc
  | text {entries : Entries Json} {text : String} {doc : Json}
      (read : Json.read? body = some (.object entries))
      (field : Entries.get? "Message" entries = some (.string text))
      (inner : Json.read? text = some doc) : Carries body doc

variable {body : String} {doc : Json}

theorem Carries.payload (h : Carries body doc) :
    ∃ whole, Json.read? body = some whole ∧ payload whole = .ok doc := by
  cases h with
  | whole read bare =>
      refine ⟨doc, read, ?_⟩
      cases doc with
      | object entries => simp only [Envelope.payload, messageField, bare entries rfl]
      | null | bool | number | string | array => rfl
  | document read field plain =>
      refine ⟨_, read, ?_⟩
      cases doc with
      | string text => exact absurd rfl (plain text)
      | null | bool | number | array | object => simp only [Envelope.payload, messageField, field]
  | text read field inner =>
      refine ⟨_, read, ?_⟩
      simp only [Envelope.payload, messageField, field, inner]

theorem Carries.keysOnce (h : Carries body doc) : doc.KeysOnce := by
  obtain ⟨whole, hread, hpayload⟩ := h.payload
  exact keysOnce_payload (Json.keysOnce_of_read? hread) hpayload

theorem Carries.convert_eq (h : Carries body doc) (messageId exchange : String) :
    convert body messageId exchange true =
      (stamp (idempotencyKey exchange messageId) doc).map Json.write := by
  obtain ⟨whole, hread, hpayload⟩ := h.payload
  simp only [convert, hread, hpayload, if_true]

/-- The stamp of a message that is published to an exchange. -/
def stampOf (exchange messageId : String) : String × Json :=
  ("idempotencyKey", .string (exchange ++ "/" ++ messageId))

/-- The text of an object tells its keys in order. -/
theorem keys_of_write {es es' : Entries Json}
    (h : (Json.object es).write = (Json.object es').write) : es.keys = es'.keys := by
  have hsame := Json.sameText_of_write h
  clear h
  induction hsame with
  | nil => rfl
  | cons he _ ih => exact congrArg₂ List.cons he.1 ih

/-- Setting a field puts it behind all others, as far as the text shows, exactly when it was
not in front of any of them. -/
theorem write_set_iff {entries : Entries Json} (hkeys : entries.DistinctKeys) (key : String)
    (value : Json) :
    (Json.object (Entries.set key value entries)).write =
        (Json.object (entries.erase key ++ [(key, value)])).write ↔
      key ∉ Entries.keys entries.dropLast := by
  rcases List.eq_nil_or_concat' entries with rfl | ⟨front, last, rfl⟩
  · simp [Entries.set, Entries.erase, Entries.keys]
  obtain ⟨k, old⟩ := last
  have hdistinct : (Entries.keys front ++ [k]).Nodup := by
    simpa [Entries.DistinctKeys, Entries.keys] using hkeys
  have hlast : k ∉ Entries.keys front :=
    fun hk => List.disjoint_of_nodup_append hdistinct hk List.mem_cons_self
  rw [List.dropLast_concat]
  constructor
  · intro h hmem
    have hthere : Entries.keys (Entries.set key value (front ++ [(k, old)])) =
        Entries.keys (front ++ [(k, old)]) := by
      rcases Entries.keys_set key value (front ++ [(k, old)]) with hsame | ⟨hnew, _⟩
      · exact hsame
      · exact absurd (by simpa [Entries.keys] using Or.inl hmem) hnew
    have hends := hthere.symm.trans (keys_of_write h)
    simp only [Entries.keys, List.map_append, List.map_singleton] at hends
    have hk : k = key := by simpa using (List.append_inj' hends rfl).2
    exact hlast (hk ▸ hmem)
  · intro hkey
    have herase : Entries.erase key front = front := by
      refine List.filter_eq_self.mpr fun e he => decide_eq_true fun hk => hkey ?_
      exact hk ▸ List.mem_map_of_mem he
    by_cases hk : k = key
    · obtain rfl := hk
      have hrest : Entries.erase k (front ++ [(k, old)]) = front := by
        rw [Entries.erase, List.filter_append]
        exact (congrArg₂ _ herase (by simp)).trans front.append_nil
      rw [Entries.set_of_split hkey, hrest]
    · have hnew : key ∉ Entries.keys (front ++ [(k, old)]) := by
        simpa [Entries.keys, Ne.symm hk] using hkey
      have hrest : Entries.erase key (front ++ [(k, old)]) = front ++ [(k, old)] := by
        rw [Entries.erase, List.filter_append]
        exact congrArg₂ _ herase (by simp [hk])
      rw [Entries.set_of_new hnew, hrest]

/-- A stamped payload has the stamp once, and its other fields are the other fields of the
payload in their order. The stamp of a payload that had none comes last, and a stamp that
was there is replaced in its place; so the stamp is the last field exactly when no field
stood behind an old one. What is no object is not stamped. -/
theorem stamp_keeps_place (h : Carries body doc) (messageId exchange : String) :
    (∀ entries : Entries Json, doc = .object entries → ∃ fields : Entries Json,
      convert body messageId exchange true = .ok (Json.object fields).write ∧
      fields.keys.count "idempotencyKey" = 1 ∧ stampOf exchange messageId ∈ fields ∧
      fields.erase "idempotencyKey" = entries.erase "idempotencyKey" ∧
      ("idempotencyKey" ∉ entries.keys → fields = entries ++ [stampOf exchange messageId]) ∧
      (∀ before old later, entries = before ++ ("idempotencyKey", old) :: later →
        fields = before ++ stampOf exchange messageId :: later) ∧
      (convert body messageId exchange true =
          .ok (Json.object (entries.erase "idempotencyKey" ++
            [stampOf exchange messageId])).write ↔
        "idempotencyKey" ∉ Entries.keys entries.dropLast)) ∧
    ((∀ entries : Entries Json, doc ≠ .object entries) →
      FailsToConvert body messageId exchange true) := by
  have hconvert := h.convert_eq messageId exchange
  refine ⟨?_, fun hshape => ?_⟩
  · intro entries hdoc
    subst hdoc
    cases h.keysOnce with
    | object hkeys _ =>
        have hfields := hkeys.set "idempotencyKey" (.string (exchange ++ "/" ++ messageId))
        have hmem : stampOf exchange messageId ∈ Entries.set "idempotencyKey"
            (.string (exchange ++ "/" ++ messageId)) entries :=
          Entries.mem_of_get? (by rw [Entries.get?_set, if_pos rfl])
        refine ⟨_, hconvert, ?_, hmem, Entries.erase_set _ _ _, ?_, ?_, ?_⟩
        · exact List.count_eq_one_of_mem hfields (List.mem_map_of_mem hmem)
        · exact fun hnew => Entries.set_of_new hnew _
        · intro before old later hsplit
          subst hsplit
          refine Entries.set_of_split (fun hbefore => ?_) _
          have hdistinct :
              (Entries.keys before ++ "idempotencyKey" :: Entries.keys later).Nodup := by
            simpa [Entries.DistinctKeys, Entries.keys] using hkeys
          exact List.disjoint_of_nodup_append hdistinct hbefore List.mem_cons_self
        · have hiff := write_set_iff hkeys "idempotencyKey"
            (.string (exchange ++ "/" ++ messageId))
          rw [hconvert]
          exact ⟨fun h => hiff.mp (Except.ok.inj h), fun h => congrArg Except.ok (hiff.mpr h)⟩
  · refine failsToConvert_of_error (.notObject (shape doc)) ?_
    rw [hconvert, stamp_of_not_object hshape]
    rfl

/-- An order that was stamped on an earlier hop, in front of its other field. -/
def hopped : Json :=
  .ofTexts [("idempotencyKey", "hop/1"), ("k", "v")]

/-- It is stamped again where it was stamped before, and not at its end. -/
theorem stamp_stays_in_front :
    ∃ entries : Entries Json, Carries hopped.write (.object entries) ∧
      convert hopped.write "m1" "pfx" true =
        .ok "\x7b\"idempotencyKey\":\"pfx/m1\",\"k\":\"v\"\x7d" ∧
      convert hopped.write "m1" "pfx" true ≠
        .ok (Json.object (entries.erase "idempotencyKey" ++ [stampOf "pfx" "m1"])).write := by
  have hread : Json.read? hopped.write = some hopped :=
    Json.read?_write_ofTexts (by simp [Entries.DistinctKeys, Entries.keys])
  refine ⟨_, .whole hread ?_, by decide +kernel, by decide +kernel⟩
  intro entries heq
  cases heq
  rfl

/-- An order that was stamped between its other fields. -/
def orderWithin (key : String) : Json :=
  .ofTexts [("a", "1"), ("idempotencyKey", key), ("b", "2")]

def renotified : Json :=
  .ofTexts [("Type", "Notification"), ("Message", (orderWithin "hop/1").write)]

/-- Out of a notification it comes with the new stamp between them. -/
theorem order_stamped_within :
    Carries renotified.write (orderWithin "hop/1") ∧
      convert renotified.write "7" "sales" true = .ok (orderWithin "sales/7").write := by
  have hread : Json.read? renotified.write = some renotified :=
    Json.read?_write_ofTexts (by simp [Entries.DistinctKeys, Entries.keys])
  have hinner : Json.read? (orderWithin "hop/1").write = some (orderWithin "hop/1") :=
    Json.read?_write_ofTexts (by simp [Entries.DistinctKeys, Entries.keys])
  have hcarries : Carries renotified.write (orderWithin "hop/1") := .text hread rfl hinner
  obtain ⟨fields, hconvert, _, _, _, _, hplace, _⟩ :=
    (stamp_keeps_place hcarries "7" "sales").1 _ rfl
  rw [hplace [("a", .string "1")] (.string "hop/1") [("b", .string "2")] rfl] at hconvert
  exact ⟨hcarries, hconvert⟩

end MessageBridge.Envelope
