import MessageBridge.Json.Printer
import MessageBridge.Json.Reader
import MessageBridge.Proofs.Json.Tokens

/-!
# Numbers that are read back

An integer is read back from its digits, as they begin with no zero unless there is no other
digit. Floating-point numbers need not be: the reader scales a significand by a power of ten
and rounds at each step. Where one of them is read back, its text is one token, and this is
all that is needed to read it back from within a larger text.
-/

namespace MessageBridge.Json

open Text (Symbol)

/-- The document is read back from its text. -/
def ReadsBack (doc : Json) : Prop :=
  read? doc.write = some doc

/-- The literal that the text of a number is, if it is one. -/
def literalOf (n : JsonNumber) : NumberLiteral :=
  match tokens? ((numberChars n).map some) with
  | some [.number literal] => literal
  | _ => ⟨false, [], none, none⟩

/-- The text of the number is one token, and this stands for the number. -/
structure IsOneToken (n : JsonNumber) : Prop where
  token : tokens? ((numberChars n).map some) = some [.number (literalOf n)]
  value : (literalOf n).toNumber? = some n

theorem IsOneToken.of_literal {n : JsonNumber} {literal : NumberLiteral}
    (htoken : tokens? ((numberChars n).map some) = some [.number literal])
    (hvalue : literal.toNumber? = some n) : IsOneToken n := by
  have hliteral : literalOf n = literal := by rw [literalOf, htoken]
  exact ⟨by rw [hliteral, htoken], by rw [hliteral, hvalue]⟩

/-! ## Integers -/

/-- The digits of a positive number do not begin with a zero. -/
theorem digitsOf_first {n : Nat} (hn : 0 < n) :
    ∃ c cs, Decimal.digitsOf n = c :: cs ∧ c ≠ '0' := by
  rw [Decimal.digitsOf]
  induction n using Nat.strongRecOn with
  | _ n ih =>
    rw [Nat.toDigits_eq_if (by decide)]
    split
    · next hlt =>
        have hdigit : ∀ k < 10, 0 < k → k.digitChar ≠ '0' := by decide
        exact ⟨_, _, rfl, hdigit n hlt hn⟩
    · next hge =>
        obtain ⟨c, cs, hcs, hc⟩ := ih (n / 10) (by omega) (by omega)
        exact ⟨c, _, by rw [hcs, List.cons_append], hc⟩

/-- The values of digits that have been written. -/
def valuesOf (cs : List Char) : List Nat :=
  cs.map fun c => c.toNat - 48

theorem digits_written {cs : List Char} (hdigits : ∀ c ∈ cs, c.isDigit = true) :
    digits (cs.map some) = (valuesOf cs, []) := by
  induction cs with
  | nil => rfl
  | cons c cs ih =>
      obtain ⟨hc, hcs⟩ := List.forall_mem_cons.mp hdigits
      rw [List.map_cons, digits, if_pos hc, ih hcs]
      rfl

theorem isDigit_of_mem_digitsOf {n : Nat} {c : Char} (h : c ∈ Decimal.digitsOf n) :
    c.isDigit = true :=
  Nat.isDigit_of_mem_toDigits (by decide) (by decide) h

theorem whole?_digitsOf (n : Nat) :
    whole? ((Decimal.digitsOf n).map some) = some (valuesOf (Decimal.digitsOf n), []) := by
  obtain rfl | hn := Nat.eq_zero_or_pos n
  · rfl
  · obtain ⟨c, cs, hcs, hc⟩ := digitsOf_first hn
    have hdigits := digits_written fun c => isDigit_of_mem_digitsOf (n := n) (c := c)
    rw [hcs] at hdigits ⊢
    rw [List.map_cons] at hdigits ⊢
    rw [whole?_of_ne hc, someDigits?, hdigits]
    rfl

theorem unsigned?_digitsOf (negative : Bool) (n : Nat) :
    unsigned? negative ((Decimal.digitsOf n).map some) =
      some (⟨negative, valuesOf (Decimal.digitsOf n), none, none⟩, []) := by
  rw [unsigned?, whole?_digitsOf]
  rfl

theorem naturalOf_digitsOf (n : Nat) : naturalOf (valuesOf (Decimal.digitsOf n)) = n := by
  have hvalue := Nat.ofDigitChars_toDigits (b := 10) (n := n) (by decide) (by decide)
  rw [Nat.ofDigitChars_eq_foldl] at hvalue
  rw [naturalOf, valuesOf, List.foldl_map, Decimal.digitsOf]
  have hzero : '0'.toNat = 48 := rfl
  simpa only [Nat.mul_comm, hzero] using hvalue

theorem isSpace_of_isDigit {c : Char} (hdigit : c.isDigit = true) : isSpace (some c) = false := by
  refine Bool.eq_false_iff.mpr fun hspace => ?_
  simp only [isSpace, Bool.or_eq_true, decide_eq_true_eq, Option.some.injEq] at hspace
  obtain ((rfl | rfl) | rfl) | rfl := hspace <;> cases hdigit

theorem toNumber?_digitsOf {negative : Bool} {n : Int} {k : Nat}
    (hsame : (if negative then -(k : Int) else k) = n) (hfits : fitsInteger n = true)
    (hzero : (negative && k == 0) = false) :
    NumberLiteral.toNumber? ⟨negative, valuesOf (Decimal.digitsOf k), none, none⟩ =
      some (.integer n) := by
  have hinteger : NumberLiteral.integer?
      ⟨negative, valuesOf (Decimal.digitsOf k), none, none⟩ = some n := by
    simp only [NumberLiteral.integer?, naturalOf_digitsOf, hsame, hfits, hzero,
      Option.isSome_none, Bool.or_self, Bool.not_false, Bool.and_self, Bool.false_eq_true,
      if_false, if_true]
  rw [NumberLiteral.toNumber?, hinteger]

theorem isOneToken_integer {n : Int} (hfits : fitsInteger n = true) : IsOneToken (.integer n) := by
  by_cases hneg : n < 0
  · have hzero : (true && n.natAbs == 0) = false := by
      rw [Bool.true_and, beq_eq_false_iff_ne]
      omega
    have hsame : (if true then -(n.natAbs : Int) else n.natAbs) = n := by
      rw [if_pos rfl]
      omega
    refine .of_literal ?_ (toNumber?_digitsOf hsame hfits hzero)
    rw [numberChars, integerChars, if_pos hneg, List.map_cons,
      tokens?_cons rfl (by rw [token?, unsigned?_digitsOf]; rfl), tokens?]
    rfl
  · have hsame : (if false then -(n.natAbs : Int) else n.natAbs) = n := by
      rw [if_neg Bool.false_ne_true]
      omega
    refine .of_literal ?_ (toNumber?_digitsOf hsame hfits (Bool.false_and _))
    rw [numberChars, integerChars, if_neg hneg]
    have hliteral := unsigned?_digitsOf false n.natAbs
    cases hcs : Decimal.digitsOf n.natAbs with
    | nil => exact absurd hcs Nat.toDigits_ne_nil
    | cons c cs =>
        have hmem : c ∈ Decimal.digitsOf n.natAbs := by rw [hcs]; exact List.mem_cons_self
        have hdigit := isDigit_of_mem_digitsOf hmem
        rw [hcs, List.map_cons] at hliteral
        rw [List.map_cons, tokens?_cons (isSpace_of_isDigit hdigit)
          (by rw [token?_of_digit hdigit, hliteral]; rfl), tokens?]
        rfl

theorem fitsInteger_of_integer? {literal : NumberLiteral} {n : Int}
    (h : literal.integer? = some n) : fitsInteger n = true := by
  simp only [NumberLiteral.integer?, Option.ite_none_left_eq_some,
    Option.ite_none_right_eq_some, Bool.and_eq_true] at h
  obtain ⟨_, ⟨hfits, _⟩, heq⟩ := h
  rw [Option.some.inj heq] at hfits
  exact hfits

theorem isOneToken_of_toNumber? {literal : NumberLiteral} {n : Int}
    (h : literal.toNumber? = some (.integer n)) : IsOneToken (.integer n) := by
  rw [NumberLiteral.toNumber?] at h
  split at h
  · next m hm =>
      cases h
      exact isOneToken_integer (fitsInteger_of_integer? hm)
  · obtain ⟨_, _, h⟩ := Option.map_eq_some_iff.mp h
    cases h

/-! ## Texts that are numbers -/

namespace Tree

/-- The tree is an array or an object. -/
def IsContainer : Tree → Prop
  | .array _ | .object _ => True
  | .null | .bool _ | .number _ | .string _ => False

/-- A container is open, or one has been read as a whole. -/
def Machine.Contains (m : Machine) : Prop :=
  match m.expected with
  | .nothing read => read.IsContainer
  | _ => m.stack ≠ []

variable {m m' : Machine} {stack : List Open} {token : Token} {read : Tree}

theorem contains_complete (h : complete read stack = some m')
    (hopen : stack ≠ [] ∨ read.IsContainer) : m'.Contains := by
  rw [complete.eq_def] at h
  split at h
  · cases h
    exact hopen.resolve_left fun h => h rfl
  · cases h
    exact List.cons_ne_nil _ _
  · cases h
    exact List.cons_ne_nil _ _
  · cases h

theorem contains_begin (h : begin stack token = some m') (hopen : stack ≠ []) :
    m'.Contains := by
  cases token with
  | null | bool | number | string => exact contains_complete h (.inl hopen)
  | openArray | openObject =>
      cases h
      exact List.cons_ne_nil _ _
  | closeArray | closeObject | comma | colon => cases h

theorem contains_beginKey (h : beginKey stack token = some m') : m'.Contains := by
  rw [beginKey.eq_def] at h
  split at h
  · split at h <;> cases h
    exact List.cons_ne_nil _ _
  · cases h

theorem contains_close (h : close stack token = some m') : m'.Contains := by
  rw [close.eq_def] at h
  split at h
  · split at h
    · exact contains_complete h (.inr trivial)
    · cases h
  · split at h
    · exact contains_complete h (.inr trivial)
    · cases h
  · cases h

theorem step_valueOrClose (h : token ≠ .closeArray) :
    Machine.step ⟨stack, .valueOrClose⟩ token = begin stack token := by
  cases token <;> first | rfl | exact absurd rfl h

theorem step_keyOrClose (h : token ≠ .closeObject) :
    Machine.step ⟨stack, .keyOrClose⟩ token = beginKey stack token := by
  cases token <;> first | rfl | exact absurd rfl h

theorem Machine.Contains.step (hm : m.Contains) (h : m.step token = some m') : m'.Contains := by
  obtain ⟨stack, expected⟩ := m
  cases expected with
  | value => exact contains_begin h hm
  | valueOrClose =>
      by_cases hclose : token = .closeArray
      · subst hclose
        exact @contains_close m' stack .closeArray h
      · rw [step_valueOrClose hclose] at h
        exact contains_begin h hm
  | key => exact contains_beginKey h
  | keyOrClose =>
      by_cases hclose : token = .closeObject
      · subst hclose
        exact @contains_close m' stack .closeObject h
      · rw [step_keyOrClose hclose] at h
        exact contains_beginKey h
  | colon =>
      cases token with
      | colon =>
          cases h
          exact hm
      | _ => cases h
  | separator =>
      rw [Machine.step.eq_def] at h
      simp only [] at h
      split at h
      · cases h
        exact List.cons_ne_nil _ _
      · cases h
        exact List.cons_ne_nil _ _
      · exact contains_close h
  | nothing read => cases h

theorem Machine.Contains.run {tokens : List Token} (hm : m.Contains)
    (h : m.run tokens = some read) : read.IsContainer := by
  induction tokens generalizing m with
  | nil =>
      obtain ⟨stack, expected⟩ := m
      cases expected with
      | nothing =>
          cases h
          exact hm
      | _ => cases h
  | cons token rest ih =>
      obtain ⟨m', hstep, hrun⟩ := Option.bind_eq_some_iff.mp h
      exact ih (hm.step hstep) hrun

/-- Only a number makes a number. -/
theorem tokens_of_run {tokens : List Token} {literal : NumberLiteral}
    (h : Machine.start.run tokens = some (.number literal)) : tokens = [.number literal] := by
  cases tokens with
  | nil => cases h
  | cons token rest =>
      obtain ⟨m, hstep, hrun⟩ := Option.bind_eq_some_iff.mp h
      have hlast : ∀ read, m = ⟨[], .nothing read⟩ → rest = [] ∧ read = .number literal := by
        intro read hm
        subst hm
        cases rest with
        | nil =>
            cases hrun
            exact ⟨rfl, rfl⟩
        | cons => cases hrun
      cases token with
      | null | bool | string =>
          cases hstep
          cases (hlast _ rfl).2
      | number =>
          cases hstep
          obtain ⟨rfl, h⟩ := hlast _ rfl
          cases h
          rfl
      | openArray =>
          cases hstep
          have hopen : Machine.Contains ⟨[.array []], .valueOrClose⟩ := List.cons_ne_nil _ _
          exact (hopen.run hrun).elim
      | openObject =>
          cases hstep
          have hopen : Machine.Contains ⟨[.object []], .keyOrClose⟩ := List.cons_ne_nil _ _
          exact (hopen.run hrun).elim
      | closeArray | closeObject | comma | colon => cases hstep

end Tree

theorem ReadsBack.isOneToken {n : JsonNumber} (h : (number n).ReadsBack) : IsOneToken n := by
  rw [ReadsBack, read?, write, chars, Tree.ofText?, String.toList_ofList, Tree.ofSymbols?] at h
  obtain ⟨tree, htree, hvalue⟩ := Option.bind_eq_some_iff.mp h
  obtain ⟨tokens, htokens, hrun⟩ := Option.bind_eq_some_iff.mp htree
  cases tree with
  | number literal =>
      rw [Tree.tokens_of_run hrun] at htokens
      obtain ⟨m, hm, heq⟩ := Option.map_eq_some_iff.mp hvalue
      cases heq
      exact .of_literal htokens hm
  | null | bool => cases hvalue
  | string | array | object =>
      obtain ⟨_, _, heq⟩ := Option.map_eq_some_iff.mp hvalue
      cases heq

/-- One half, which is written as `0.5`. -/
example : IsOneToken (.float ⟨0x3FE0000000000000⟩) := ⟨by decide +kernel, by decide +kernel⟩

end MessageBridge.Json
