import MessageBridge.Proofs.Amazon.Contents

/-!
# A batch that has been received

Between a receive and the next one the handles of a batch are good: under each of them
lies the message that was handed out with it, and only this one. So deleting by a handle
takes exactly one message out of the queue, and making a message visible changes exactly
one, and the handles of the rest of the batch stay as good as they were.

A receive that hands out nothing has changed nothing.
-/

namespace MessageBridge.Amazon

namespace Service

variable {s s' : Service} {queue url : String} {ms : List Stored} {x : Message}
  {batch rest : List Message}

/-- A queue, and under the handles of a batch in it lie the messages of this batch. -/
structure Pending (s : Service) (queue : String) (ms : List Stored) (batch : List Message) :
    Prop where
  there : s.queue? queue = some ms
  ids : (ms.map (·.id)).Nodup
  apart : (batch.map (·.id)).Nodup
  handle : ∀ x ∈ batch, ∀ m ∈ ms, m.receipt = some x.receipt ↔ m.id = x.id
  stored : ∀ x ∈ batch, ∃ m ∈ ms, m.id = x.id

theorem Pending.any_receipt (h : Pending s queue ms batch) (hx : x ∈ batch) :
    ms.any (·.receipt = some x.receipt) = true := by
  obtain ⟨m, hm, hid⟩ := h.stored x hx
  simp only [List.any_eq_true, decide_eq_true_eq]
  exact ⟨m, hm, (h.handle x hx m hm).mpr hid⟩

/-- What is deleted by a handle of the batch is the message that was handed out with it. -/
theorem Pending.delete (h : Pending s queue ms (x :: rest)) (hurl : queueOfUrl? url = some queue) :
    ∃ s', s.deleteMessage url x.receipt = (.ok (), s') ∧
      Pending s' queue (ms.filter (·.id ≠ x.id)) rest ∧
      ∀ name, name ≠ queue → s'.queue? name = s.queue? name := by
  have hx : x ∈ x :: rest := List.mem_cons_self
  have hfilter : ms.filter (·.receipt ≠ some x.receipt) = ms.filter (·.id ≠ x.id) :=
    List.filter_congr fun m hm => by simp [h.handle x hx m hm]
  have hapart := List.nodup_cons.mp h.apart
  refine ⟨{ s with queues := Entries.set queue (ms.filter (·.id ≠ x.id)) s.queues }, ?_,
    ⟨?_, ?_, hapart.2, ?_, ?_⟩, ?_⟩
  · simp only [deleteMessage, hurl, h.there, h.any_receipt hx, if_true, hfilter]
  · rw [queue?_of_set rfl, if_pos rfl]
  · exact h.ids.sublist (List.filter_sublist.map _)
  · intro y hy m hm
    exact h.handle y (List.mem_cons_of_mem _ hy) m (List.mem_filter.mp hm).1
  · intro y hy
    obtain ⟨m, hm, hid⟩ := h.stored y (List.mem_cons_of_mem _ hy)
    have hne : m.id ≠ x.id := by
      intro hmx
      exact hapart.1 (List.mem_map.mpr ⟨y, hy, hid.symm.trans hmx⟩)
    exact ⟨m, List.mem_filter.mpr ⟨hm, by simpa using hne⟩, hid⟩
  · intro name hname
    rw [queue?_of_set rfl, if_neg hname]

/-- Where only one message lies under a handle, this is the one that is changed. -/
theorem modifyReceived_eq_map {receipt id : String} (f : Stored → Stored) :
    ∀ {ms : List Stored}, (ms.map (·.id)).Nodup →
      (∀ m ∈ ms, m.receipt = some receipt ↔ m.id = id) →
      modifyReceived receipt f ms = ms.map fun m => if m.id = id then f m else m := by
  intro ms
  induction ms with
  | nil => intro _ _; rfl
  | cons m ms ih =>
      intro hids hhandle
      obtain ⟨hnew, hids⟩ := List.nodup_cons.mp hids
      have hm := hhandle m List.mem_cons_self
      have htail := fun m' hm' => hhandle m' (List.mem_cons_of_mem m hm')
      rw [modifyReceived, List.map_cons]
      by_cases hid : m.id = id
      · rw [if_pos (hm.mpr hid), if_pos hid]
        -- the ids behind it are others
        have hsame : ∀ m' ∈ ms, (if m'.id = id then f m' else m') = m' := by
          intro m' hm'
          rw [if_neg]
          intro hid'
          exact hnew (List.mem_map.mpr ⟨m', hm', hid'.trans hid.symm⟩)
        rw [List.map_congr_left hsame, List.map_id']
      · rw [if_neg (fun h => hid (hm.mp h)), if_neg hid, ih hids htail]

/-- What is made visible by a handle of the batch is the message that was handed out with
it. -/
theorem Pending.release (h : Pending s queue ms batch) (hx : x ∈ batch)
    (hurl : queueOfUrl? url = some queue) (now : Instant) :
    ∃ s', s.changeVisibility now url x.receipt 0 = (.ok (), s') ∧
      s'.queue? queue = some
        (ms.map fun m => if m.id = x.id then { m with invisibleUntil := none } else m) ∧
      ∀ name, name ≠ queue → s'.queue? name = s.queue? name := by
  have hmap := modifyReceived_eq_map (fun m => { m with invisibleUntil := none }) h.ids
    (h.handle x hx)
  let released : Service := { s with
    queues := Entries.set queue
      (ms.map fun m => if m.id = x.id then { m with invisibleUntil := none } else m) s.queues }
  have hqueue? : ∀ name, released.announce.queue? name = if name = queue then
      some (ms.map fun m => if m.id = x.id then { m with invisibleUntil := none } else m)
      else s.queue? name := queue?_of_set rfl
  refine ⟨released.announce, ?_, ?_, ?_⟩
  · simp only [changeVisibility, hurl, h.there, h.any_receipt hx, if_true, hmap, released]
  · rw [hqueue?, if_pos rfl]
  · intro name hname
    rw [hqueue?, if_neg hname]

/-! ## Receiving a batch -/

/-- What has just been handed out lies in the queue under its handles. -/
theorem pending_of_look (hd : s.Distinct) {now : Instant} {max : Nat}
    (hurl : queueOfUrl? url = some queue) (hms : s.queue? queue = some ms)
    (hlook : (s.look now url max).1 = .ok batch) :
    ∃ seen, List.Forall₂ (fun m x => x.Shows m) ((ms.filter (·.isVisible now)).take max) batch ∧
      Pending (s.look now url max).2 queue seen batch ∧
      List.Forall₂ (Stored.Seen batch (now + s.visibilityMillis)) ms seen ∧
      ∀ name, name ≠ queue → (s.look now url max).2.queue? name = s.queue? name := by
  obtain ⟨out, seen, hout, hshows, hseen?, hseen, hothers⟩ :=
    @look_of_queue s hd now url queue max ms hurl hms
  obtain rfl : out = batch := by
    rw [hout] at hlook
    injection hlook
  have hids : ms.map (·.id) = seen.map (·.id) :=
    map_eq_of_forall₂ (fun _ _ h => h.id) hseen
  have hms_ids := (hd.queue_ids hms).nodup
  have hout_ids : out.map (·.id) = ((ms.filter (·.isVisible now)).take max).map (·.id) :=
    (map_eq_of_forall₂ (fun _ _ hx => hx.id.symm) hshows).symm
  have hapart : (out.map (·.id)).Nodup := by
    rw [hout_ids]
    exact hms_ids.sublist (((List.take_sublist _ _).trans List.filter_sublist).map _)
  refine ⟨seen, hshows, ⟨hseen?, hids ▸ hms_ids, hapart,
    fun x hx m' hm' => ⟨fun hreceipt => ?_, fun hid => ?_⟩, fun x hx => ?_⟩, hseen, hothers⟩
  · obtain ⟨name, hname, hknows⟩ := knows_of_look hd.sound hout hx
    exact (hknows.only _ m' ⟨seen, hseen?, hm'⟩ hreceipt).2.1
  · obtain ⟨m, hm, ⟨hnot, rfl⟩ | ⟨y, hy, hy', rfl⟩⟩ := exists_left_of_forall₂ hseen hm'
    · exact absurd (List.mem_map.mpr ⟨x, hx, hid.symm⟩) hnot
    · have hsame : y = x := List.inj_on_of_nodup_map hapart hy hx (hy'.id.trans hid)
      rw [← hsame]
      rfl
  · have hmem : x.id ∈ seen.map (·.id) := by
      rw [← hids]
      have hx' : x.id ∈ out.map (·.id) := List.mem_map_of_mem hx
      rw [hout_ids] at hx'
      exact (((List.take_sublist _ _).trans List.filter_sublist).map _).subset hx'
    obtain ⟨m, hm, hid⟩ := List.mem_map.mp hmem
    exact ⟨m, hm, hid⟩

theorem receiveFrom_of_nothing (now again : Nat) :
    ∀ (max drawn : Nat) (ms : List Stored), (receiveFrom now again drawn max ms).1 = [] →
      (receiveFrom now again drawn max ms).2 = (ms, drawn) := by
  intro max drawn ms
  induction ms generalizing max drawn with
  | nil => intro _; cases max <;> rfl
  | cons m rest ih =>
      cases max with
      | zero => intro _; rfl
      | succ max =>
          rw [receiveFrom]
          split
          · intro h
            cases h
          · intro h
            have hrest := ih (max + 1) drawn h
            show (m :: (receiveFrom now again drawn (max + 1) rest).2.1,
              (receiveFrom now again drawn (max + 1) rest).2.2) = (m :: rest, drawn)
            rw [hrest]

/-- Whoever is handed out nothing has changed nothing. -/
theorem look_of_nothing {now : Instant} {max : Nat} (h : (s.look now url max).1 = .ok []) :
    (s.look now url max).2 = s := by
  rcases look_cases s now url max with
    ⟨_, hl⟩ | ⟨queue, ms, _, hms, out, ms', drawn, hreceive, hl⟩
  · rw [hl]
  · rw [hl] at h ⊢
    obtain rfl : out = [] := by injection h
    have hsame := receiveFrom_of_nothing now (now + s.visibilityMillis) max s.drawn ms
      (by rw [hreceive])
    rw [hreceive] at hsame
    obtain ⟨rfl, rfl⟩ := Prod.mk.inj hsame
    obtain ⟨before, later, hqueues, hset⟩ := Entries.split_of_get? hms
    have hself : Entries.set queue ms' s.queues = s.queues := (hset ms').trans hqueues.symm
    simp only [hself]

end Service

end MessageBridge.Amazon
