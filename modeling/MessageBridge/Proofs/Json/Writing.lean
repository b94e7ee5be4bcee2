import MessageBridge.Json.Printer
import MessageBridge.Json.Reader
import Mathlib.Data.List.Basic
import Mathlib.Data.List.Forall2

/-!
# What the text of a document tells

The text of a document ends by itself. A string ends with its closing quote and a
container with its closing bracket, and behind a number or a word there stands a
character that neither of them goes on with. So the text of an object can be taken
apart into its keys and the texts of its values, in one way only, and an entry that
is a string can be told from it.

How numbers are written does not matter for this, as long as it takes no quote, no
comma and no bracket. Strings are taken apart by the reader itself.
-/

namespace MessageBridge.Json

/-! ## Strings -/

/-- How the reader sees a character that was written inside a string. -/
def partOf (c : Char) : StringPart :=
  if (escape c).take 2 = ['\\', 'u'] then .unit c.toNat else .char c

/-- A character is escaped by a letter or by its number, or it stands for itself. -/
theorem escape_cases (c : Char) :
    (∃ letter, escape c = ['\\', letter] ∧ letter ≠ 'u' ∧ escaped? letter = some c) ∨
    (escape c = ['\\', 'u', '0', '0', hexChar (c.toNat / 16), hexChar (c.toNat % 16)] ∧
      c.toNat < 0x20) ∨
    (escape c = [c] ∧ c ≠ '"' ∧ c ≠ '\\' ∧ ¬ c.toNat < 0x20) := by
  have hletter : ∀ {escaped : List Char} {letter : Char}, escaped = ['\\', letter] →
      letter ≠ 'u' → escaped? letter = some c →
      ∃ letter, escaped = ['\\', letter] ∧ letter ≠ 'u' ∧ escaped? letter = some c :=
    fun hescaped hu hc => ⟨_, hescaped, hu, hc⟩
  unfold escape
  split
  · next h => exact .inl (hletter rfl (by decide) (by subst h; rfl))
  split
  · next h => exact .inl (hletter rfl (by decide) (by subst h; rfl))
  split
  · next h => exact .inl (hletter rfl (by decide) (by subst h; rfl))
  split
  · next h => exact .inl (hletter rfl (by decide) (by subst h; rfl))
  split
  · next h => exact .inl (hletter rfl (by decide) (by subst h; rfl))
  split
  · next h => exact .inl (hletter rfl (by decide) (by subst h; rfl))
  split
  · next h => exact .inl (hletter rfl (by decide) (by subst h; rfl))
  split
  · next h => exact .inr (.inl ⟨rfl, h⟩)
  · next hquote hbackslash _ _ _ _ _ hcontrol =>
      exact .inr (.inr ⟨rfl, hquote, hbackslash, hcontrol⟩)

theorem hexDigit?_hexChar : ∀ n < 16, hexDigit? (some (hexChar n)) = some n := by
  decide

theorem quoted?_escape (c : Char) (rest : List Char) :
    quoted? ((escape c ++ rest).map some) =
      (quoted? (rest.map some)).map fun read => (partOf c :: read.1, read.2) := by
  unfold partOf
  rcases escape_cases c with ⟨letter, h, hu, hc⟩ | ⟨h, hcontrol⟩ | ⟨h, hquote, hbackslash, hcontrol⟩
  · rw [h]
    cases hrest : quoted? (rest.map some) <;> simp [quoted?, hu, hc, hrest]
  · have hhigh := hexDigit?_hexChar (c.toNat / 16) (by omega)
    have hlow := hexDigit?_hexChar (c.toNat % 16) (by omega)
    have hzero : hexDigit? (some '0') = some 0 := rfl
    have hvalue : c.toNat / 16 * 16 + c.toNat % 16 = c.toNat := by omega
    rw [h]
    cases hrest : quoted? (rest.map some) <;>
      simp [quoted?, codeUnit?, hhigh, hlow, hzero, hrest, hvalue]
  · rw [h]
    cases hrest : quoted? (rest.map some) <;>
      simp [quoted?, hbackslash, hcontrol, hrest]

/-- The reader finds the end of a string. -/
theorem quoted?_closed (cs rest : List Char) :
    quoted? ((cs.flatMap escape ++ '"' :: rest).map some) =
      some (cs.map partOf, rest.map some) := by
  induction cs with
  | nil => simp [quoted?]
  | cons c cs ih => rw [List.flatMap_cons, List.append_assoc, quoted?_escape, ih]; rfl

theorem partOf_cases (c : Char) :
    partOf c = .char c ∨ partOf c = .unit c.toNat ∧ c.toNat < 0x20 := by
  unfold partOf
  rcases escape_cases c with ⟨letter, h, hu, _⟩ | ⟨h, hcontrol⟩ | ⟨h, _⟩
  · exact .inl (by simp [h, hu])
  · exact .inr (by simp [h, hcontrol])
  · exact .inl (by simp [h])

theorem characters?_written (cs : List Char) : characters? (cs.map partOf) = some cs := by
  induction cs with
  | nil => rfl
  | cons c cs ih =>
      rw [List.map_cons]
      rcases partOf_cases c with h | ⟨h, hcontrol⟩
      · rw [h, characters?, ih]
        rfl
      · have hlow : ¬ (0xD800 ≤ c.toNat ∧ c.toNat < 0xDC00) := by omega
        have hhigh : ¬ (0xDC00 ≤ c.toNat ∧ c.toNat < 0xE000) := by omega
        rw [h, characters?.eq_def]
        simp only [hlow, hhigh, if_false, ih, Option.map_some, Char.ofNat_toNat]

/-- Where a string ends can be told, and which one it is. -/
theorem stringChars_cut {s s' : String} {r r' : List Char}
    (h : stringChars s ++ r = stringChars s' ++ r') : s = s' ∧ r = r' := by
  have hread : ∀ (s : String) (r : List Char),
      quoted? (((stringChars s ++ r).drop 1).map some) =
        some (s.toList.map partOf, r.map some) := by
    intro s r
    simpa [stringChars] using quoted?_closed s.toList r
  have hsame := hread s r
  rw [h, hread s' r'] at hsame
  injection hsame with hsame
  injection hsame with hparts hrest
  have hchars := characters?_written s.toList
  rw [← hparts, characters?_written] at hchars
  injection hchars with hchars
  exact ⟨String.toList_injective hchars.symm,
    List.map_injective_iff.mpr (fun _ _ => Option.some.inj) hrest.symm⟩

/-! ## Numbers and words -/

/-- A character that can be part of a number or a word. -/
def isPlain (c : Char) : Bool :=
  !(['"', ',', '[', ']', '{', '}'].contains c)

/-- Text of plain characters, of which there is at least one. -/
def Plain (text : List Char) : Prop :=
  text ≠ [] ∧ text.all isPlain = true

theorem isPlain_of_isDigit {c : Char} (h : c.isDigit = true) : isPlain c = true := by
  by_contra hplain
  simp only [isPlain, List.contains_cons, List.contains_nil, Bool.or_false, Bool.not_eq_true,
    Bool.not_eq_false', Bool.or_eq_true, beq_iff_eq] at hplain
  rcases hplain with rfl | rfl | rfl | rfl | rfl | rfl <;> exact absurd h (by decide)

theorem plain_digitsOf (n : Nat) : Plain (Decimal.digitsOf n) :=
  ⟨Nat.toDigits_ne_nil, List.all_eq_true.mpr fun _ hc =>
    isPlain_of_isDigit (Nat.isDigit_of_mem_toDigits (by decide) (by decide) hc)⟩

theorem all_isPlain_of_sublist {text part : List Char} (hpart : part.Sublist text)
    (h : text.all isPlain = true) : part.all isPlain = true :=
  List.all_eq_true.mpr fun c hc => List.all_eq_true.mp h c (hpart.subset hc)

theorem all_isPlain_zeros (n : Nat) : (List.replicate n '0').all isPlain = true :=
  List.all_eq_true.mpr fun c hc => by rw [List.eq_of_mem_replicate hc]; rfl

theorem plain_integerChars (n : Int) : Plain (integerChars n) := by
  unfold integerChars
  split
  · exact ⟨List.cons_ne_nil _ _, by rw [List.all_cons, (plain_digitsOf _).2]; rfl⟩
  · exact plain_digitsOf _

theorem plain_positions (pointZero : Bool) (x : Decimal.Scientific) :
    Plain (Decimal.positions pointZero x) := by
  obtain ⟨hsome, hdigits⟩ := plain_digitsOf x.digits
  have htake := fun n => all_isPlain_of_sublist (List.take_sublist n _) hdigits
  have hdrop := fun n => all_isPlain_of_sublist (List.drop_sublist n _) hdigits
  unfold Decimal.positions
  simp only []
  split
  · refine ⟨by simp [hsome], ?_⟩
    rw [List.all_append, List.all_append, hdigits, all_isPlain_zeros]
    cases pointZero <;> rfl
  split
  · refine ⟨by simp, ?_⟩
    rw [List.all_append, List.all_cons, htake, hdrop]
    rfl
  · refine ⟨by simp, ?_⟩
    rw [List.all_append, List.all_cons, List.all_cons, hdigits, all_isPlain_zeros]
    rfl

theorem plain_withExponent (x : Decimal.Scientific) : Plain (Decimal.withExponent x) := by
  obtain ⟨_, hdigits⟩ := plain_digitsOf x.digits
  have htake := fun n => all_isPlain_of_sublist (List.take_sublist n _) hdigits
  have hdrop := fun n => all_isPlain_of_sublist (List.drop_sublist n _) hdigits
  have hfraction : ∀ fraction : List Char, fraction.all isPlain = true →
      (if fraction.isEmpty then [] else '.' :: fraction).all isPlain = true := by
    intro fraction h
    split
    · rfl
    · rw [List.all_cons, h]
      rfl
  unfold Decimal.withExponent
  refine ⟨by simp, ?_⟩
  rw [List.all_append, List.all_cons, List.all_cons, List.all_append, htake,
    hfraction _ (hdrop 1), (plain_digitsOf _).2]
  split <;> rfl

theorem plain_numberChars (n : JsonNumber) : Plain (numberChars n) := by
  cases n with
  | integer n => exact plain_integerChars n
  | float x =>
      have hsigned : ∀ text, Plain text → Plain (if x.isNegative then '-' :: text else text) := by
        intro text h
        split
        · exact ⟨List.cons_ne_nil _ _, by rw [List.all_cons, h.2]; rfl⟩
        · exact h
      unfold numberChars Decimal.Layout.chars floatLayout
      simp only []
      split
      · exact ⟨List.cons_ne_nil _ _, rfl⟩
      refine hsigned _ ?_
      split
      · exact ⟨List.cons_ne_nil _ _, rfl⟩
      split
      · exact ⟨List.cons_ne_nil _ _, rfl⟩
      split
      · exact plain_positions _ _
      · exact plain_withExponent _

/-! ## Where a document ends -/

/-- What can follow the text of a document: nothing, or what separates it from others. -/
def Ends (r : List Char) : Prop :=
  ∀ c ∈ r.head?, c = ',' ∨ c = ']' ∨ c = '}'

/-- What a string or a container begins with. -/
def opener : Json → Option Char
  | .string _ => some '"'
  | .array _ => some '['
  | .object _ => some '{'
  | .null | .bool _ | .number _ => none

theorem plain_of_opener {v : Json} (h : v.opener = none) : Plain v.chars := by
  cases v with
  | null => exact ⟨List.cons_ne_nil _ _, rfl⟩
  | bool b => cases b <;> exact ⟨List.cons_ne_nil _ _, rfl⟩
  | number n =>
      rw [chars]
      exact plain_numberChars n
  | string | array | object => cases h

/-! A container begins with a bracket where its further items begin with a comma. -/

theorem array_chars_append (items : List Json) (r : List Char) :
    (Json.array items).chars ++ r = '[' :: ((itemsChars items).drop 1 ++ ']' :: r) := by
  cases items <;> simp [chars, itemsChars]

theorem object_chars_append (es : Entries Json) (r : List Char) :
    (Json.object es).chars ++ r = '{' :: ((entriesChars es).drop 1 ++ '}' :: r) := by
  cases es <;> simp [chars, entriesChars]

theorem chars_of_opener {v : Json} {o : Char} (h : v.opener = some o) (r : List Char) :
    isPlain o = false ∧ ∃ rest, v.chars ++ r = o :: rest := by
  cases v with
  | string s => cases h; exact ⟨rfl, _, by rw [chars]; rfl⟩
  | array items => cases h; exact ⟨rfl, _, array_chars_append items r⟩
  | object entries => cases h; exact ⟨rfl, _, object_chars_append entries r⟩
  | null | bool | number => cases h

theorem takeWhile_of_ends {r : List Char} (h : Ends r) : r.takeWhile isPlain = [] := by
  cases r with
  | nil => rfl
  | cons c r =>
      have hplain : isPlain c = false := by
        rcases h c rfl with rfl | rfl | rfl <;> rfl
      rw [List.takeWhile_cons, hplain]
      rfl

/-- What a document begins with shows in its text. -/
theorem takeWhile_chars (v : Json) {r : List Char} (h : Ends r) :
    (v.opener = none ∧ (v.chars ++ r).takeWhile isPlain = v.chars) ∨
    ∃ o, v.opener = some o ∧ (v.chars ++ r).takeWhile isPlain = [] ∧
      (v.chars ++ r).head? = some o := by
  cases hv : v.opener with
  | none =>
      refine .inl ⟨rfl, ?_⟩
      rw [List.takeWhile_append_of_pos (List.all_eq_true.mp (plain_of_opener hv).2),
        takeWhile_of_ends h, List.append_nil]
  | some o =>
      obtain ⟨hplain, rest, hchars⟩ := chars_of_opener hv r
      refine .inr ⟨o, rfl, ?_, ?_⟩
      · rw [hchars, List.takeWhile_cons, hplain]
        rfl
      · rw [hchars]
        rfl

theorem opener_eq {v v' : Json} {r r' : List Char} (hr : Ends r) (hr' : Ends r')
    (h : v.chars ++ r = v'.chars ++ r') : v.opener = v'.opener := by
  rcases takeWhile_chars v hr with ⟨hv, htext⟩ | ⟨o, hv, hnone, hfirst⟩ <;>
    rcases takeWhile_chars v' hr' with ⟨hv', htext'⟩ | ⟨o', hv', hnone', hfirst'⟩
  · rw [hv, hv']
  · rw [h, hnone'] at htext
    exact absurd htext.symm (plain_of_opener hv).1
  · rw [← h, hnone] at htext'
    exact absurd htext'.symm (plain_of_opener hv').1
  · rw [hv, hv', ← hfirst, ← hfirst', h]

/-- The document tells where its text ends: no other document has a text that is
longer or shorter and begins alike. -/
def Cuts (v : Json) : Prop :=
  ∀ (v' : Json) (r r' : List Char), Ends r → Ends r' → v.chars ++ r = v'.chars ++ r' → r = r'

theorem ends_itemsChars (items : List Json) (r : List Char) :
    Ends (itemsChars items ++ ']' :: r) := by
  intro c hc
  cases items with
  | nil => cases hc; exact .inr (.inl rfl)
  | cons item rest => rw [itemsChars] at hc; cases hc; exact .inl rfl

theorem ends_entriesChars (es : Entries Json) (r : List Char) :
    Ends (entriesChars es ++ '}' :: r) := by
  intro c hc
  cases es with
  | nil => cases hc; exact .inr (.inr rfl)
  | cons e rest => rw [entriesChars] at hc; cases hc; exact .inl rfl

theorem itemsChars_cut {items items' : List Json} {r r' : List Char}
    (hcuts : ∀ v ∈ items, v.Cuts)
    (h : itemsChars items ++ ']' :: r = itemsChars items' ++ ']' :: r') : r = r' := by
  induction items generalizing items' with
  | nil =>
      cases items' with
      | nil => simpa [itemsChars] using h
      | cons => simp [itemsChars] at h
  | cons v rest ih =>
      cases items' with
      | nil => simp [itemsChars] at h
      | cons v' rest' =>
          simp only [itemsChars, List.cons_append, List.append_assoc, List.cons.injEq,
            true_and] at h
          have hrest := hcuts v List.mem_cons_self v' _ _ (ends_itemsChars _ _)
            (ends_itemsChars _ _) h
          exact ih (fun v hv => hcuts v (List.mem_cons_of_mem _ hv)) hrest

/-- The entries have the same key, and the same text for their values. -/
def SameText (e e' : String × Json) : Prop :=
  e.1 = e'.1 ∧ e.2.chars = e'.2.chars

theorem entriesChars_cut {es es' : Entries Json} {r r' : List Char}
    (hcuts : ∀ e ∈ es, e.2.Cuts)
    (h : entriesChars es ++ '}' :: r = entriesChars es' ++ '}' :: r') :
    List.Forall₂ SameText es es' ∧ r = r' := by
  induction es generalizing es' with
  | nil =>
      cases es' with
      | nil => exact ⟨.nil, by simpa [entriesChars] using h⟩
      | cons => simp [entriesChars] at h
  | cons e rest ih =>
      cases es' with
      | nil => simp [entriesChars] at h
      | cons e' rest' =>
          obtain ⟨key, v⟩ := e
          obtain ⟨key', v'⟩ := e'
          simp only [entriesChars, List.cons_append, List.append_assoc, List.cons.injEq,
            true_and] at h
          obtain ⟨hkey, h⟩ := stringChars_cut h
          injection h with _ h
          have hrest := hcuts _ List.mem_cons_self v' _ _ (ends_entriesChars _ _)
            (ends_entriesChars _ _) h
          obtain ⟨hall, hr⟩ := ih (fun e he => hcuts e (List.mem_cons_of_mem _ he)) hrest
          rw [hrest] at h
          exact ⟨.cons ⟨hkey, List.append_cancel_right h⟩ hall, hr⟩

/-- An item does not begin with the bracket that closes the array. -/
theorem head?_chars_append (v : Json) (r : List Char) : (v.chars ++ r).head? ≠ some ']' := by
  cases hv : v.opener with
  | none =>
      obtain ⟨hsome, hplain⟩ := plain_of_opener hv
      cases hchars : v.chars with
      | nil => exact absurd hchars hsome
      | cons c rest =>
          rintro ⟨⟩
          rw [hchars] at hplain
          cases hplain
  | some o =>
      obtain ⟨_, rest, hchars⟩ := chars_of_opener hv r
      rw [hchars]
      rintro ⟨⟩
      cases v <;> cases hv

theorem array_cut {items items' : List Json} {r r' : List Char}
    (h : (array items).chars ++ r = (array items').chars ++ r') :
    itemsChars items ++ ']' :: r = itemsChars items' ++ ']' :: r' := by
  rw [array_chars_append, array_chars_append] at h
  injection h with _ h
  have hfirst := congrArg List.head? h
  cases items with
  | nil =>
      cases items' with
      | nil => exact h
      | cons v' rest' =>
          simp only [itemsChars, List.cons_append, List.drop_succ_cons, List.drop_zero,
            List.append_assoc] at hfirst
          exact absurd hfirst.symm (head?_chars_append _ _)
  | cons v rest =>
      cases items' with
      | nil =>
          simp only [itemsChars, List.cons_append, List.drop_succ_cons, List.drop_zero,
            List.append_assoc] at hfirst
          exact absurd hfirst (head?_chars_append _ _)
      | cons v' rest' => simpa [itemsChars] using h

theorem object_cut {es es' : Entries Json} {r r' : List Char}
    (h : (object es).chars ++ r = (object es').chars ++ r') :
    entriesChars es ++ '}' :: r = entriesChars es' ++ '}' :: r' := by
  rw [object_chars_append, object_chars_append] at h
  injection h with _ h
  cases es with
  | nil =>
      cases es' with
      | nil => exact h
      | cons => simp [entriesChars, stringChars] at h
  | cons =>
      cases es' with
      | nil => simp [entriesChars, stringChars] at h
      | cons => simpa [entriesChars] using h

theorem cuts_of_opener {v : Json} (hv : v.opener = none) : v.Cuts := by
  intro v' r r' hr hr' h
  have hv' := (opener_eq hr hr' h).symm.trans hv
  have htext := congrArg (List.takeWhile isPlain) h
  rcases takeWhile_chars v hr with ⟨_, hchars⟩ | ⟨o, hopener, _⟩
  · rcases takeWhile_chars v' hr' with ⟨_, hchars'⟩ | ⟨o, hopener, _⟩
    · rw [hchars, hchars'] at htext
      rw [htext] at h
      exact List.append_cancel_left h
    · rw [hv'] at hopener
      cases hopener
  · rw [hv] at hopener
    cases hopener

theorem cuts : ∀ v : Json, v.Cuts
  | .null => cuts_of_opener rfl
  | .bool _ => cuts_of_opener rfl
  | .number _ => cuts_of_opener rfl
  | .string s => by
      intro v' r r' hr hr' h
      have hopener := opener_eq hr hr' h
      cases v' with
      | string s' =>
          rw [chars, chars] at h
          exact (stringChars_cut h).2
      | null | bool | number | array | object => cases hopener
  | .array items => by
      intro v' r r' hr hr' h
      have hopener := opener_eq hr hr' h
      cases v' with
      | array items' => exact itemsChars_cut (fun v _ => cuts v) (array_cut h)
      | null | bool | number | string | object => cases hopener
  | .object es => by
      intro v' r r' hr hr' h
      have hopener := opener_eq hr hr' h
      cases v' with
      | object es' => exact (entriesChars_cut (fun e _ => cuts e.2) (object_cut h)).2
      | null | bool | number | string | array => cases hopener
-- members are smaller than what holds them
termination_by v => sizeOf v
decreasing_by
  · next hv =>
      have := List.sizeOf_lt_of_mem hv
      rw [Json.array.sizeOf_spec]
      omega
  · next he =>
      have := List.sizeOf_lt_of_mem he
      obtain ⟨key, v⟩ := e
      rw [Prod.mk.sizeOf_spec] at this
      rw [Json.object.sizeOf_spec]
      simp only []
      omega

/-! ## Reading an entry off the text of an object -/

/-- Objects with the same text have the same keys, and the same text for the value of
each. -/
theorem sameText_of_write {es es' : Entries Json}
    (h : (object es).write = (object es').write) : List.Forall₂ SameText es es' := by
  have hchars : (object es).chars ++ [] = (object es').chars ++ [] := by
    rw [List.append_nil, List.append_nil]
    exact String.ofList_injective h
  exact (entriesChars_cut (fun e _ => cuts e.2) (object_cut hchars)).1

theorem eq_string_of_chars {v : Json} {s : String} (h : v.chars = (string s).chars) :
    v = .string s := by
  have hends : Ends [] := nofun
  have hopener := opener_eq hends hends (congrArg (· ++ []) h)
  cases v with
  | string s' =>
      rw [chars, chars] at h
      exact congrArg Json.string (stringChars_cut (congrArg (· ++ []) h)).1
  | null | bool | number | array | object => cases hopener

theorem get?_of_sameText {es es' : Entries Json} {key s : String}
    (h : List.Forall₂ SameText es es') (hs : Entries.get? key es = some (.string s)) :
    Entries.get? key es' = some (.string s) := by
  induction h with
  | nil => exact hs
  | @cons e e' es es' he _ ih =>
      obtain ⟨k, v⟩ := e
      obtain ⟨k', v'⟩ := e'
      obtain ⟨hk, hv⟩ : k = k' ∧ v.chars = v'.chars := he
      rw [Entries.get?] at hs ⊢
      rw [← hk]
      split
      · next hkey =>
          rw [if_pos hkey] at hs
          injection hs with hs
          rw [hs] at hv
          rw [eq_string_of_chars hv.symm]
      · next hkey =>
          rw [if_neg hkey] at hs
          exact ih hs

/-- An entry that is a string is the same in all objects with one text. -/
theorem get?_of_write {es es' : Entries Json} {key s : String}
    (h : (object es).write = (object es').write)
    (hs : Entries.get? key es = some (.string s)) :
    Entries.get? key es' = some (.string s) :=
  get?_of_sameText (sameText_of_write h) hs

end MessageBridge.Json
