import MessageBridge.Text.Utf8

/-!
# The tokens of JSON text

Text is first cut into tokens, and the grammar is then a matter of tokens alone
(`MessageBridge.Json.Tree`). Strings and number literals are kept as they are
written: what an escape or a literal stands for is decided by whoever wants the
value, so that a value nobody wants need not stand for anything.

Blank space is a space, a tab, a line feed or a carriage return. A string holds
no character below U+0020; bytes that encode no character are let through as a
part of their own.
-/

namespace MessageBridge.Json

open Text (Symbol)

/-- A part of a string between its quotes. -/
inductive StringPart where
  /-- A character that stands for itself, or for the escape of one letter. -/
  | char (c : Char)
  /-- A code unit of sixteen bits, written with four hexadecimal digits. -/
  | unit (n : Nat)
  /-- Bytes that encode no character. -/
  | invalid
  deriving DecidableEq, Repr

/-- A number literal. The digits are those written, the first digit first. -/
structure NumberLiteral where
  negative : Bool
  whole : List Nat
  /-- The digits behind the point, when there is one. -/
  fraction : Option (List Nat)
  /-- The exponent, when there is one: whether it is negative, and its digits. -/
  exponent : Option (Bool × List Nat)
  deriving DecidableEq, Repr

inductive Token where
  | openArray
  | closeArray
  | openObject
  | closeObject
  | comma
  | colon
  | null
  | bool (b : Bool)
  | number (literal : NumberLiteral)
  | string (parts : List StringPart)
  deriving DecidableEq, Repr

/-- The value of a hexadecimal digit. -/
def hexDigit? (s : Symbol) : Option Nat :=
  match s with
  | some c =>
    let n := c.toNat
    if 48 ≤ n ∧ n ≤ 57 then some (n - 48)
    else if 65 ≤ n ∧ n ≤ 70 then some (n - 55)
    else if 97 ≤ n ∧ n ≤ 102 then some (n - 87)
    else none
  | none => none

/-- The code unit that four hexadecimal digits stand for. -/
def codeUnit? (a b c d : Symbol) : Option Nat :=
  match hexDigit? a, hexDigit? b, hexDigit? c, hexDigit? d with
  | some a, some b, some c, some d => some (((a * 16 + b) * 16 + c) * 16 + d)
  | _, _, _, _ => none

/-- The character that an escape of one letter stands for. -/
def escaped? : Char → Option Char
  | '"' => some '"'
  | '\\' => some '\\'
  | '/' => some '/'
  | 'b' => some '\x08'
  | 'f' => some '\x0c'
  | 'n' => some '\n'
  | 'r' => some '\r'
  | 't' => some '\t'
  | _ => none

/-- The parts of a string up to its closing quote, and what follows the quote. -/
def quoted? : List Symbol → Option (List StringPart × List Symbol)
  | [] => none
  | none :: rest => do
    let (parts, rest) ← quoted? rest
    return (.invalid :: parts, rest)
  | some '"' :: rest => some ([], rest)
  | some '\\' :: some 'u' :: a :: b :: c :: d :: rest => do
    let n ← codeUnit? a b c d
    let (parts, rest) ← quoted? rest
    return (.unit n :: parts, rest)
  | some '\\' :: some letter :: rest => do
    let c ← escaped? letter
    let (parts, rest) ← quoted? rest
    return (.char c :: parts, rest)
  | some c :: rest => do
    if c = '\\' ∨ c.toNat < 0x20 then none
    else
      let (parts, rest) ← quoted? rest
      return (.char c :: parts, rest)

/-- The digits at the front, and what follows them. -/
def digits : List Symbol → List Nat × List Symbol
  | some c :: rest =>
    if c.isDigit then
      let (more, rest) := digits rest
      ((c.toNat - 48) :: more, rest)
    else ([], some c :: rest)
  | s => ([], s)

/-- Digits of which there is at least one. -/
def someDigits? (s : List Symbol) : Option (List Nat × List Symbol) :=
  match digits s with
  | ([], _) => none
  | (ds, rest) => some (ds, rest)

/-- The digits before the point. A zero stands alone. -/
def whole? : List Symbol → Option (List Nat × List Symbol)
  | some '0' :: rest => some ([0], rest)
  | s => someDigits? s

/-- The part of a number literal behind the point. -/
def fraction? : List Symbol → Option (Option (List Nat) × List Symbol)
  | some '.' :: rest => do
    let (ds, rest) ← someDigits? rest
    return (some ds, rest)
  | s => some (none, s)

/-- The sign of an exponent: whether it is negative. -/
def exponentSign : List Symbol → Bool × List Symbol
  | some '-' :: rest => (true, rest)
  | some '+' :: rest => (false, rest)
  | s => (false, s)

/-- The exponent of a number literal. -/
def exponent? : List Symbol → Option (Option (Bool × List Nat) × List Symbol)
  | some c :: rest =>
    if c = 'e' ∨ c = 'E' then do
      let (negative, rest) := exponentSign rest
      let (ds, rest) ← someDigits? rest
      return (some (negative, ds), rest)
    else some (none, some c :: rest)
  | s => some (none, s)

/-- A number literal, from behind its sign on. -/
def unsigned? (negative : Bool) (s : List Symbol) : Option (NumberLiteral × List Symbol) := do
  let (whole, s) ← whole? s
  let (fraction, s) ← fraction? s
  let (exponent, s) ← exponent? s
  return (⟨negative, whole, fraction, exponent⟩, s)

/-- The token at the front of a text that begins with neither blank space nor
the end, and what follows the token. -/
def token? : List Symbol → Option (Token × List Symbol)
  | some '[' :: rest => some (.openArray, rest)
  | some ']' :: rest => some (.closeArray, rest)
  | some '{' :: rest => some (.openObject, rest)
  | some '}' :: rest => some (.closeObject, rest)
  | some ',' :: rest => some (.comma, rest)
  | some ':' :: rest => some (.colon, rest)
  | some 'n' :: some 'u' :: some 'l' :: some 'l' :: rest => some (.null, rest)
  | some 't' :: some 'r' :: some 'u' :: some 'e' :: rest => some (.bool true, rest)
  | some 'f' :: some 'a' :: some 'l' :: some 's' :: some 'e' :: rest => some (.bool false, rest)
  | some '"' :: rest => do
    let (parts, rest) ← quoted? rest
    return (.string parts, rest)
  | some '-' :: rest => do
    let (literal, rest) ← unsigned? true rest
    return (.number literal, rest)
  | s => do
    let (literal, rest) ← unsigned? false s
    return (.number literal, rest)

def isSpace (s : Symbol) : Bool :=
  s = some ' ' || s = some '\t' || s = some '\n' || s = some '\r'

theorem quoted?_shorter {s rest : List Symbol} {parts : List StringPart}
    (h : quoted? s = some (parts, rest)) : rest.length < s.length := by
  fun_induction quoted? s generalizing parts rest with
  | case1 => simp at h
  | case2 s ih =>
    simp only [Option.bind_eq_bind, Option.bind_eq_some_iff, Option.pure_def,
      Option.some.injEq, Prod.mk.injEq] at h
    obtain ⟨⟨ps, r⟩, hq, _, rfl⟩ := h
    have := ih hq
    simp only [List.length_cons]
    omega
  | case3 s => simp_all
  | case4 a b c d s ih =>
    simp only [Option.bind_eq_bind, Option.bind_eq_some_iff, Option.pure_def,
      Option.some.injEq, Prod.mk.injEq] at h
    obtain ⟨n, _, ⟨ps, r⟩, hq, _, rfl⟩ := h
    have := ih hq
    simp only [List.length_cons]
    omega
  | case5 letter s _ ih =>
    simp only [Option.bind_eq_bind, Option.bind_eq_some_iff, Option.pure_def,
      Option.some.injEq, Prod.mk.injEq] at h
    obtain ⟨n, _, ⟨ps, r⟩, hq, _, rfl⟩ := h
    have := ih hq
    simp only [List.length_cons]
    omega
  | case6 => simp at h
  | case7 c s _ _ _ _ ih =>
    simp only [Option.bind_eq_bind, Option.bind_eq_some_iff, Option.pure_def,
      Option.some.injEq, Prod.mk.injEq] at h
    obtain ⟨⟨ps, r⟩, hq, _, rfl⟩ := h
    have := ih hq
    simp only [List.length_cons]
    omega

theorem digits_not_longer (s : List Symbol) : (digits s).2.length ≤ s.length := by
  fun_induction digits s with
  | case1 c rest _ ds r hr ih =>
    simp only [hr] at ih
    simp only [List.length_cons]
    omega
  | case2 => simp
  | case3 => simp

theorem someDigits?_shorter {s rest : List Symbol} {ds : List Nat}
    (h : someDigits? s = some (ds, rest)) : rest.length < s.length := by
  rw [someDigits?] at h
  split at h
  · simp at h
  · next ds' r hne hr =>
    simp only [Option.some.injEq, Prod.mk.injEq] at h
    obtain ⟨rfl, rfl⟩ := h
    cases s with
    | nil => simp [digits] at hr; exact absurd hr.1.symm (by simpa using hne)
    | cons x t =>
      cases x with
      | none => simp [digits] at hr; exact absurd hr.1.symm (by simpa using hne)
      | some c =>
        rw [digits] at hr
        split at hr
        · simp only [Prod.mk.injEq] at hr
          have := digits_not_longer t
          rw [hr.2] at this
          simp only [List.length_cons]
          omega
        · simp only [Prod.mk.injEq] at hr
          exact absurd hr.1.symm (by simpa using hne)

theorem whole?_shorter {s rest : List Symbol} {ds : List Nat}
    (h : whole? s = some (ds, rest)) : rest.length < s.length := by
  rw [whole?.eq_def] at h
  split at h
  · simp only [Option.some.injEq, Prod.mk.injEq] at h
    simp [h.2]
  · exact someDigits?_shorter h

theorem fraction?_not_longer {s rest : List Symbol} {ds : Option (List Nat)}
    (h : fraction? s = some (ds, rest)) : rest.length ≤ s.length := by
  rw [fraction?.eq_def] at h
  split at h
  · simp only [Option.bind_eq_bind, Option.bind_eq_some_iff, Option.pure_def,
      Option.some.injEq, Prod.mk.injEq] at h
    obtain ⟨⟨ds, r⟩, hd, _, rfl⟩ := h
    have := someDigits?_shorter hd
    simp only [List.length_cons]
    omega
  · simp only [Option.some.injEq, Prod.mk.injEq] at h
    simp [h.2]

theorem exponentSign_not_longer (s : List Symbol) : (exponentSign s).2.length ≤ s.length := by
  rw [exponentSign.eq_def]
  split <;> simp

theorem exponent?_not_longer {s rest : List Symbol} {e : Option (Bool × List Nat)}
    (h : exponent? s = some (e, rest)) : rest.length ≤ s.length := by
  rw [exponent?.eq_def] at h
  split at h
  · next c t =>
    split at h
    · simp only [Option.bind_eq_bind, Option.bind_eq_some_iff, Option.pure_def,
        Option.some.injEq, Prod.mk.injEq] at h
      obtain ⟨⟨ds, r⟩, hd, _, rfl⟩ := h
      have := someDigits?_shorter hd
      have := exponentSign_not_longer t
      simp only [List.length_cons]
      omega
    · simp only [Option.some.injEq, Prod.mk.injEq] at h
      simp [← h.2]
  · simp only [Option.some.injEq, Prod.mk.injEq] at h
    simp [h.2]

theorem unsigned?_shorter {negative : Bool} {s rest : List Symbol} {literal : NumberLiteral}
    (h : unsigned? negative s = some (literal, rest)) : rest.length < s.length := by
  simp only [unsigned?, Option.bind_eq_bind, Option.bind_eq_some_iff, Option.pure_def,
    Option.some.injEq, Prod.mk.injEq] at h
  obtain ⟨⟨w, s1⟩, hw, ⟨f, s2⟩, hf, ⟨e, s3⟩, he, _, rfl⟩ := h
  have := whole?_shorter hw
  have := fraction?_not_longer hf
  have := exponent?_not_longer he
  simp only at *
  omega

/-- A token takes at least one symbol off the text. -/
theorem token?_shorter {s rest : List Symbol} {token : Token}
    (h : token? s = some (token, rest)) : rest.length < s.length := by
  rw [token?.eq_def] at h
  split at h
  case h_10 =>
    simp only [Option.bind_eq_bind, Option.bind_eq_some_iff, Option.pure_def,
      Option.some.injEq, Prod.mk.injEq] at h
    obtain ⟨⟨ps, r⟩, hq, _, rfl⟩ := h
    have := quoted?_shorter hq
    simp only [List.length_cons]
    omega
  case h_11 =>
    simp only [Option.bind_eq_bind, Option.bind_eq_some_iff, Option.pure_def,
      Option.some.injEq, Prod.mk.injEq] at h
    obtain ⟨⟨ps, r⟩, hq, _, rfl⟩ := h
    have := unsigned?_shorter hq
    simp only [List.length_cons]
    omega
  case h_12 =>
    simp only [Option.bind_eq_bind, Option.bind_eq_some_iff, Option.pure_def,
      Option.some.injEq, Prod.mk.injEq] at h
    obtain ⟨⟨ps, r⟩, hq, _, rfl⟩ := h
    exact unsigned?_shorter hq
  all_goals
    simp only [Option.some.injEq, Prod.mk.injEq] at h
    simp only [← h.2, List.length_cons]
    omega

/-- The tokens of a text, with blank space left out. -/
def tokens? (s : List Symbol) : Option (List Token) :=
  match s with
  | [] => some []
  | c :: rest =>
    if isSpace c then tokens? rest
    else
      match _h : token? (c :: rest) with
      | none => none
      | some (token, rest) => (tokens? rest).map (token :: ·)
termination_by s.length
decreasing_by
  · simp
  · exact token?_shorter _h

end MessageBridge.Json
