import MessageBridge.Json.Token

/-!
# A text keeps its tokens

The tokens of a text are the same when something is put behind it, as long as this begins
with what separates values: a comma or a closing bracket. Only a number could go on there,
and it goes on with a digit, a point or an exponent.

Each reader is followed from the inside out: where it comes to a result, it comes to the
same result with more text behind, and leaves the additional text alone.
-/

namespace MessageBridge.Json

open Text (Symbol)

/-- What follows a value: nothing, or what separates it from others. -/
def Stops (r : List Symbol) : Prop :=
  ∀ s ∈ r.head?, s = some ',' ∨ s = some ']' ∨ s = some '}'

variable {s rest r : List Symbol}

theorem quoted?_append {parts : List StringPart} (h : quoted? s = some (parts, rest))
    (r : List Symbol) : quoted? (s ++ r) = some (parts, rest ++ r) := by
  fun_induction quoted? s generalizing parts rest with
  | case1 => cases h
  | case2 s ih =>
      obtain ⟨⟨ps, rs⟩, hq, h⟩ := Option.bind_eq_some_iff.mp h
      cases h
      rw [List.cons_append, quoted?, ih hq]
      rfl
  | case3 s =>
      cases h
      rfl
  | case4 a b c d s ih =>
      obtain ⟨n, hn, h⟩ := Option.bind_eq_some_iff.mp h
      obtain ⟨⟨ps, rs⟩, hq, h⟩ := Option.bind_eq_some_iff.mp h
      cases h
      simp only [List.cons_append, quoted?, hn, ih hq]
      rfl
  | case5 letter s hunit ih =>
      obtain ⟨c, hc, h⟩ := Option.bind_eq_some_iff.mp h
      obtain ⟨⟨ps, rs⟩, hq, h⟩ := Option.bind_eq_some_iff.mp h
      cases h
      have hu : letter ≠ 'u' := by
        intro hu
        subst hu
        cases hc
      simp [quoted?, hu, hc, ih hq]
  | case6 => cases h
  | case7 c s hquote hunit hescape hplain ih =>
      obtain ⟨⟨ps, rs⟩, hq, h⟩ := Option.bind_eq_some_iff.mp h
      cases h
      obtain ⟨hbackslash, hcontrol⟩ := not_or.mp hplain
      simp [quoted?, hbackslash, hcontrol, ih hq]

/-! ## Numbers -/

theorem digits_of_stops (h : Stops r) : digits r = ([], r) := by
  cases r with
  | nil => rfl
  | cons c r =>
      obtain rfl | rfl | rfl := h c rfl <;> rfl

theorem digits_append (s : List Symbol) (hr : Stops r) :
    digits (s ++ r) = ((digits s).1, (digits s).2 ++ r) := by
  fun_induction digits s with
  | case1 c s hdigit ds rest hds ih =>
      rw [hds] at ih
      simp only [List.cons_append, digits, hdigit, ih, if_true]
  | case2 c s hdigit => simp [digits, hdigit]
  | case3 s hsome =>
      cases s with
      | nil => exact digits_of_stops hr
      | cons x s =>
          cases x with
          | none => rfl
          | some c => exact absurd rfl (hsome c s)

theorem someDigits?_append {ds : List Nat} (h : someDigits? s = some (ds, rest))
    (hr : Stops r) : someDigits? (s ++ r) = some (ds, rest ++ r) := by
  rw [someDigits?] at h ⊢
  rw [digits_append s hr]
  split at h
  · cases h
  · next found left hne hds =>
      cases h
      rw [hds]
      cases ds with
      | nil => exact (hne rfl).elim
      | cons => rfl

/-- The digits of a number begin with a digit. -/
theorem digit_of_someDigits? {ds : List Nat} (h : someDigits? s = some (ds, rest)) :
    ∃ c t, s = some c :: t ∧ c.isDigit = true := by
  rw [someDigits?] at h
  cases s with
  | nil => cases h
  | cons x t =>
      cases x with
      | none => cases h
      | some c =>
          by_cases hdigit : c.isDigit = true
          · exact ⟨c, t, rfl, hdigit⟩
          · simp [digits, hdigit] at h

theorem whole?_of_ne {c : Char} (hne : c ≠ '0') (t : List Symbol) :
    whole? (some c :: t) = someDigits? (some c :: t) := by
  rw [whole?.eq_def]
  split
  · next h =>
      cases h
      exact absurd rfl hne
  · rfl

theorem digit_of_whole? {ds : List Nat} (h : whole? s = some (ds, rest)) :
    ∃ c t, s = some c :: t ∧ c.isDigit = true := by
  rw [whole?.eq_def] at h
  split at h
  · exact ⟨_, _, rfl, rfl⟩
  · exact digit_of_someDigits? h

theorem whole?_append {ds : List Nat} (h : whole? s = some (ds, rest)) (hr : Stops r) :
    whole? (s ++ r) = some (ds, rest ++ r) := by
  obtain ⟨c, t, rfl, _⟩ := digit_of_whole? h
  by_cases hzero : c = '0'
  · subst hzero
    cases h
    rfl
  · rw [whole?_of_ne hzero] at h
    rw [List.cons_append, whole?_of_ne hzero]
    exact someDigits?_append h hr

theorem fraction?_of_ne (h : s.head? ≠ some (some '.')) : fraction? s = some (none, s) := by
  rw [fraction?.eq_def]
  split
  · exact absurd rfl h
  · rfl

theorem fraction?_append {ds : Option (List Nat)} (h : fraction? s = some (ds, rest))
    (hr : Stops r) : fraction? (s ++ r) = some (ds, rest ++ r) := by
  rw [fraction?.eq_def] at h
  split at h
  · obtain ⟨⟨found, left⟩, hds, h⟩ := Option.bind_eq_some_iff.mp h
    cases h
    rw [List.cons_append, fraction?, someDigits?_append hds hr]
    rfl
  · next hpoint =>
      cases h
      refine fraction?_of_ne ?_
      cases s with
      | nil =>
          intro h
          obtain h' | h' | h' := hr _ h <;> cases h'
      | cons x s =>
          intro h
          cases h
          exact hpoint s rfl

theorem exponentSign_append (hne : s ≠ []) :
    exponentSign (s ++ r) = ((exponentSign s).1, (exponentSign s).2 ++ r) := by
  cases s with
  | nil => exact absurd rfl hne
  | cons x s =>
      rw [exponentSign.eq_def, exponentSign.eq_def]
      split <;> split <;> simp_all

theorem exponent?_of_ne (h : ∀ c, s.head? = some (some c) → c ≠ 'e' ∧ c ≠ 'E') :
    exponent? s = some (none, s) := by
  cases s with
  | nil => rfl
  | cons x s =>
      cases x with
      | none => rfl
      | some c =>
          obtain ⟨hlower, hupper⟩ := h c rfl
          simp [exponent?, hlower, hupper]

theorem exponent?_append {e : Option (Bool × List Nat)} (h : exponent? s = some (e, rest))
    (hr : Stops r) : exponent? (s ++ r) = some (e, rest ++ r) := by
  have hstops : exponent? r = some (none, r) := exponent?_of_ne fun c hc => by
    obtain h' | h' | h' := hr _ hc <;> cases h' <;> decide
  cases s with
  | nil =>
      cases h
      exact hstops
  | cons x s =>
      cases x with
      | none =>
          cases h
          rfl
      | some c =>
          by_cases hc : c = 'e' ∨ c = 'E'
          · rw [exponent?, if_pos hc] at h
            simp only [] at h
            obtain ⟨⟨ds, left⟩, hds, h⟩ := Option.bind_eq_some_iff.mp h
            cases h
            have hne : s ≠ [] := by
              intro hnil
              subst hnil
              cases hds
            rw [List.cons_append, exponent?, if_pos hc, exponentSign_append hne]
            simp only [someDigits?_append hds hr]
            rfl
          · rw [exponent?, if_neg hc] at h
            cases h
            rw [List.cons_append, exponent?, if_neg hc]

theorem unsigned?_append {negative : Bool} {literal : NumberLiteral}
    (h : unsigned? negative s = some (literal, rest)) (hr : Stops r) :
    unsigned? negative (s ++ r) = some (literal, rest ++ r) := by
  obtain ⟨⟨ds, s₁⟩, hwhole, h⟩ := Option.bind_eq_some_iff.mp h
  obtain ⟨⟨fraction, s₂⟩, hfraction, h⟩ := Option.bind_eq_some_iff.mp h
  obtain ⟨⟨exponent, s₃⟩, hexponent, h⟩ := Option.bind_eq_some_iff.mp h
  cases h
  rw [unsigned?, whole?_append hwhole hr]
  simp only [Option.bind_eq_bind, Option.bind_some]
  rw [fraction?_append hfraction hr]
  simp only [Option.bind_some]
  rw [exponent?_append hexponent hr]
  rfl

/-! ## Tokens -/

/-- A token that begins with a digit is a number. -/
theorem token?_of_digit {c : Char} (hdigit : c.isDigit = true) (t : List Symbol) :
    token? (some c :: t) =
      (unsigned? false (some c :: t)).map fun read => (.number read.1, read.2) := by
  have hother : ∀ d : Char, d.isDigit = false → c ≠ d := by
    intro d hd hc
    rw [hc, hd] at hdigit
    cases hdigit
  rw [token?.eq_def]
  split
  case h_12 =>
    cases unsigned? false (some c :: t) <;> rfl
  all_goals
    next h =>
      cases h
      exact absurd rfl (hother _ (by decide))

theorem token?_append {token : Token} (h : token? s = some (token, rest)) (hr : Stops r) :
    token? (s ++ r) = some (token, rest ++ r) := by
  rw [token?.eq_def] at h
  split at h
  case h_10 =>
    obtain ⟨⟨parts, left⟩, hparts, h⟩ := Option.bind_eq_some_iff.mp h
    cases h
    rw [List.cons_append, token?, quoted?_append hparts r]
    rfl
  case h_11 =>
    obtain ⟨⟨literal, left⟩, hliteral, h⟩ := Option.bind_eq_some_iff.mp h
    cases h
    rw [List.cons_append, token?, unsigned?_append hliteral hr]
    rfl
  case h_12 =>
    obtain ⟨⟨literal, left⟩, hliteral, h⟩ := Option.bind_eq_some_iff.mp h
    cases h
    obtain ⟨⟨_, _⟩, hwhole, _⟩ := Option.bind_eq_some_iff.mp hliteral
    obtain ⟨c, t, rfl, hdigit⟩ := digit_of_whole? hwhole
    have happended := unsigned?_append hliteral hr
    rw [List.cons_append] at happended ⊢
    rw [token?_of_digit hdigit, happended]
    rfl
  all_goals
    cases h
    rfl

theorem tokens?_space {c : Symbol} (hspace : isSpace c = true) (s : List Symbol) :
    tokens? (c :: s) = tokens? s := by
  rw [tokens?, hspace]
  rfl

theorem tokens?_cons {c : Symbol} {token : Token} (hspace : isSpace c = false)
    (htoken : token? (c :: s) = some (token, rest)) :
    tokens? (c :: s) = (tokens? rest).map (token :: ·) := by
  rw [tokens?, hspace]
  simp only [Bool.false_eq_true, if_false]
  split
  · next h => rw [htoken] at h; cases h
  · next h => rw [htoken] at h; cases h; rfl

/-- What comes behind a text does not change the tokens of the text. -/
theorem tokens?_append {tokens : List Token} (h : tokens? s = some tokens) (hr : Stops r) :
    tokens? (s ++ r) = (tokens? r).map (tokens ++ ·) := by
  fun_induction tokens? s generalizing tokens with
  | case1 =>
      cases h
      simp
  | case2 c s hspace ih => rw [List.cons_append, tokens?_space hspace, ih h]
  | case3 => cases h
  | case4 c s hspace token rest htoken ih =>
      obtain ⟨later, hlater, rfl⟩ := Option.map_eq_some_iff.mp h
      have happended := token?_append htoken hr
      rw [List.cons_append] at happended ⊢
      rw [tokens?_cons (Bool.eq_false_iff.mpr hspace) happended, ih hlater, Option.map_map]
      rfl

end MessageBridge.Json
