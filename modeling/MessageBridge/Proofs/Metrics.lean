import MessageBridge.Metrics

/-!
# What counters show

Raising a metric adds to its count and leaves the counts of all others alone. The counts
of a listener are its own: to raise a metric of another listener, or of a polled queue,
leaves all of them as they are.
-/

namespace MessageBridge

/-- The listener that a metric belongs to. -/
def Metric.listener? : Metric → Option String
  | received listener | forwarded listener _ | retried listener | deadLettered listener _
  | settleFailed listener _ | sendLatency listener => some listener
  | polled _ | pollForwarded _ | pollFailed _ _ | runDuration _ => none

namespace Metrics

/-- The sum of the counts of some metrics. -/
def total (P : Metric → Bool) : Metrics → Nat
  | [] => 0
  | (k, n) :: rest => (if P k then n else 0) + total P rest

/-- The counts of one listener. -/
def of (listener : String) (ms : Metrics) : Metrics :=
  ms.filter fun (m, _) => m.listener? = some listener

@[simp] theorem count_raise (m k : Metric) (amount : Nat) (ms : Metrics) :
    count m (raise k amount ms) = count m ms + if k = m then amount else 0 := by
  induction ms with
  | nil => simp [raise, count]
  | cons entry rest ih =>
      obtain ⟨k₀, n⟩ := entry
      rw [raise]
      by_cases hk : k₀ = k
      · subst hk
        by_cases hm : k₀ = m <;> simp [count, hm]
      · rw [if_neg hk, count, count, ih]
        by_cases hm : k₀ = m
        · have hne : ¬ k = m := fun h => hk (hm.trans h.symm)
          simp [hm, hne]
        · simp [hm]

@[simp] theorem total_raise (P : Metric → Bool) (k : Metric) (amount : Nat) (ms : Metrics) :
    total P (raise k amount ms) = total P ms + if P k then amount else 0 := by
  induction ms with
  | nil => simp [raise, total]
  | cons entry rest ih =>
      obtain ⟨k₀, n⟩ := entry
      rw [raise]
      by_cases hk : k₀ = k
      · subst hk
        rw [if_pos rfl, total, total]
        split <;> omega
      · rw [if_neg hk, total, total, ih]
        omega

theorem of_raise {k : Metric} {listener : String} (h : k.listener? ≠ some listener)
    (amount : Nat) (ms : Metrics) : (ms.raise k amount).of listener = ms.of listener := by
  induction ms with
  | nil => simp [raise, of, h]
  | cons entry rest ih =>
      obtain ⟨k₀, n⟩ := entry
      rw [raise]
      by_cases hk : k₀ = k
      · subst hk
        simp [of, h]
      · rw [if_neg hk]
        simp only [of, List.filter_cons] at ih ⊢
        rw [ih]

theorem count_of {m : Metric} {listener : String} (h : m.listener? = some listener)
    (ms : Metrics) : (ms.of listener).count m = ms.count m := by
  induction ms with
  | nil => rfl
  | cons entry rest ih =>
      obtain ⟨k, n⟩ := entry
      by_cases hk : k.listener? = some listener
      · simp only [of, List.filter_cons, hk, decide_true, if_true, count] at ih ⊢
        rw [ih]
      · have hne : k ≠ m := fun hkm => hk (hkm ▸ h)
        simp only [of, List.filter_cons, hk, decide_false, count, hne, if_false] at ih ⊢
        exact ih

theorem total_of {P : Metric → Bool} {listener : String}
    (h : ∀ m, P m = true → m.listener? = some listener) (ms : Metrics) :
    (ms.of listener).total P = ms.total P := by
  induction ms with
  | nil => rfl
  | cons entry rest ih =>
      obtain ⟨k, n⟩ := entry
      by_cases hk : k.listener? = some listener
      · simp only [of, List.filter_cons, hk, decide_true, if_true, total] at ih ⊢
        rw [ih]
      · have hno : P k = false := Bool.eq_false_iff.mpr fun hP => hk (h k hP)
        simp only [of, List.filter_cons, hk, decide_false, total, hno] at ih ⊢
        simpa using ih

end Metrics

end MessageBridge
