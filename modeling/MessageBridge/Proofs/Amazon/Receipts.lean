import MessageBridge.Proofs.Amazon.Operations

/-!
# A receipt handle names one message

Identifiers are numbers in disguise, and no number is drawn twice. A sound
service has drawn all the receipt handles that it stores; so a handle that has
just been drawn is not stored anywhere else.

`Knows` is about a message that was handed out and that somebody still has. The
handle may be stale by now, because the message was received again, or because
it is gone. But if anything is stored under it, it is this message, in the queue
where it was received. Whoever deletes by the handle deletes nothing else.
-/

namespace MessageBridge.Amazon

/-! ## Identifiers -/

theorem ofDigitChars_padded (zeros n : Nat) :
    Nat.ofDigitChars 10 (List.replicate zeros '0' ++ Nat.toDigits 10 n) 0 = n := by
  rw [Nat.ofDigitChars_append, Nat.ofDigitChars_replicate_zero, Nat.mul_zero]
  exact Nat.ofDigitChars_ten_toDigits

theorem identifier_injective {m n : Nat} (h : identifier m = identifier n) : m = n := by
  have hlist := congrArg String.toList h
  unfold identifier at hlist
  simp only [String.toList_append, String.toList_ofList] at hlist
  have hdigits := List.append_cancel_left hlist
  have hvalue := congrArg (fun ds => Nat.ofDigitChars 10 ds 0) hdigits
  simp only [ofDigitChars_padded] at hvalue
  exact hvalue

namespace Service

/-- All receipt handles that are stored have been drawn. -/
def Sound (s : Service) : Prop :=
  ∀ queue m r, s.Stores queue m → m.receipt = some r → ∃ k ≤ s.drawn, r = identifier k

/-- The message was handed out of a queue, and nothing else is stored under its
receipt handle. -/
structure Knows (s : Service) (queue : String) (m : Message) : Prop where
  drawn : ∃ k ≤ s.drawn, m.receipt = identifier k
  only : ∀ name x, s.Stores name x → x.receipt = some m.receipt →
    name = queue ∧ x.id = m.id ∧ x.body = m.body

theorem Follows.sound {taken : String → Stored → Prop} {s s' : Service}
    (h : Follows taken s s') (hs : s.Sound) : s'.Sound := by
  intro queue m r hm hr
  rcases h.receipts queue m r hm hr with ⟨m₀, hm₀, hr₀, _⟩ | ⟨k, _, hk, hrk⟩
  · obtain ⟨k, hk, hrk⟩ := hs queue m₀ r hm₀ hr₀
    exact ⟨k, Nat.le_trans hk h.drawn, hrk⟩
  · exact ⟨k, hk, hrk⟩

theorem Follows.knows {taken : String → Stored → Prop} {s s' : Service} {queue : String}
    {m : Message} (h : Follows taken s s') (hm : s.Knows queue m) : s'.Knows queue m := by
  obtain ⟨k, hk, hkr⟩ := hm.drawn
  refine ⟨⟨k, Nat.le_trans hk h.drawn, hkr⟩, ?_⟩
  intro name x hx hr
  rcases h.receipts name x m.receipt hx hr with ⟨x₀, hx₀, hr₀, hid, hbody⟩ | ⟨k', hlo, _, hk'⟩
  · obtain ⟨hname, hid₀, hbody₀⟩ := hm.only name x₀ hx₀ hr₀
    exact ⟨hname, hid.symm.trans hid₀, hbody.symm.trans hbody₀⟩
  · have := identifier_injective (hkr.symm.trans hk')
    omega

/-- Every message that is handed out has a handle that was drawn for it, and
nothing but this message is stored under the handle. -/
theorem handedOut_receiveFrom (now again : Nat) :
    ∀ (max drawn : Nat) (ms : List Stored),
      (∀ m ∈ ms, ∀ r, m.receipt = some r → ∃ k ≤ drawn, r = identifier k) →
      ∀ out ∈ (receiveFrom now again drawn max ms).1,
        ∃ k, drawn < k ∧ k ≤ (receiveFrom now again drawn max ms).2.2 ∧
          out.receipt = identifier k ∧
          ∀ x ∈ (receiveFrom now again drawn max ms).2.1, x.receipt = some out.receipt →
            x.id = out.id ∧ x.body = out.body := by
  intro max drawn ms
  induction ms generalizing max drawn with
  | nil => cases max <;> simp [receiveFrom]
  | cons m rest ih =>
      intro hold
      have hrest : ∀ m ∈ rest, ∀ r, m.receipt = some r → ∃ k ≤ drawn, r = identifier k :=
        fun m hm => hold m (List.mem_cons_of_mem _ hm)
      cases max with
      | zero => simp [receiveFrom]
      | succ max =>
          intro out hout
          rw [receiveFrom] at hout ⊢
          split
          · next hvisible =>
              rw [if_pos hvisible] at hout
              rcases List.mem_cons.mp hout with rfl | hout
              · refine ⟨drawn + 1, Nat.lt_succ_self _, drawn_receiveFrom_le .., rfl, ?_⟩
                intro x hx hr
                rcases List.mem_cons.mp hx with rfl | hx
                · exact ⟨rfl, rfl⟩
                · -- what is left of the list has older handles or newer ones
                  rcases receipts_receiveFrom now again max (drawn + 1) rest x hx _ hr with
                    ⟨m₀, hm₀, hr₀, _⟩ | ⟨k, hlo, _, hk⟩
                  · obtain ⟨k, hk, hrk⟩ := hrest m₀ hm₀ _ hr₀
                    have := identifier_injective hrk
                    omega
                  · have := identifier_injective hk
                    omega
              · have hlater : ∀ m ∈ rest, ∀ r, m.receipt = some r →
                    ∃ k ≤ drawn + 1, r = identifier k := by
                  intro m hm r hr
                  obtain ⟨k, hk, hrk⟩ := hrest m hm r hr
                  exact ⟨k, Nat.le_succ_of_le hk, hrk⟩
                obtain ⟨k, hlo, hhi, hk, honly⟩ := ih max (drawn + 1) hlater out hout
                refine ⟨k, Nat.lt_of_succ_lt hlo, hhi, hk, ?_⟩
                intro x hx hr
                rcases List.mem_cons.mp hx with rfl | hx
                · injection hr with hr
                  have := identifier_injective (hr.trans hk)
                  omega
                · exact honly x hx hr
          · next hvisible =>
              rw [if_neg hvisible] at hout
              obtain ⟨k, hlo, hhi, hk, honly⟩ := ih (max + 1) drawn hrest out hout
              refine ⟨k, hlo, hhi, hk, ?_⟩
              intro x hx hr
              rcases List.mem_cons.mp hx with rfl | hx
              · obtain ⟨k', hk', hrk'⟩ := hold x List.mem_cons_self _ hr
                have := identifier_injective (hk.symm.trans hrk')
                omega
              · exact honly x hx hr

/-- A message that a sound service hands out is known from then on. -/
theorem knows_of_look {s : Service} {now : Instant} {url : String} {max : Nat}
    {out : List Message} {m : Message} (hs : s.Sound)
    (hlook : (s.look now url max).1 = .ok out) (hm : m ∈ out) :
    ∃ queue, queueOfUrl? url = some queue ∧ (s.look now url max).2.Knows queue m := by
  unfold look at hlook ⊢
  split at hlook
  · cases hlook
  · next queue hqueue =>
      refine ⟨queue, hqueue, ?_⟩
      unfold takeVisible at hlook ⊢
      split at hlook
      · cases hlook
      · next ms hms =>
          have hout : Except.ok (receiveFrom now (now + s.visibilityMillis) s.drawn max ms).1 =
            (Except.ok out : Except Failure (List Message)) := hlook
          injection hout with hout
          subst hout
          have hold : ∀ x ∈ ms, ∀ r, x.receipt = some r → ∃ k ≤ s.drawn, r = identifier k :=
            fun x hx r hr => hs queue x r ⟨ms, hms, hx⟩ hr
          obtain ⟨k, hlo, hhi, hk, honly⟩ := handedOut_receiveFrom now
            (now + s.visibilityMillis) max s.drawn ms hold m hm
          refine ⟨⟨k, hhi, hk⟩, ?_⟩
          rintro name x ⟨xs, hxs, hx⟩ hr
          unfold queue? at hxs
          rw [Entries.get?_set] at hxs
          by_cases hname : name = queue
          · rw [if_pos hname] at hxs
            injection hxs with hxs
            subst hxs
            exact ⟨hname, honly x hx hr⟩
          · rw [if_neg hname] at hxs
            obtain ⟨k', hk', hrk'⟩ := hs name x _ ⟨xs, hxs, hx⟩ hr
            have := identifier_injective (hk.symm.trans hrk')
            omega

end Service

end MessageBridge.Amazon
