import MessageBridge.Proofs.Spec.Writing

/-!
# What is kept of the values that a shift selects

A write changes what stands at its path in one of three ways: it puts a value where there
was none, it makes an array of what stands there, or it continues an array. On the way it
adds names to objects. So what has been written only grows, and whatever later writes do,
a value that found its place is still there: as it was, or with more entries or items, or
in an array as one of its items.

A value that finds no place is another matter: nothing is said of a write whose path leads
through something that is not an object.
-/

namespace MessageBridge.Spec

/-! ## Values that grow -/

/-- How later writes may leave a value: an array with more items behind its own, an object
with more entries and with values that have grown, and any value as the first item of an
array. -/
inductive Grown : Json → Json → Prop where
  | same (value : Json) : Grown value value
  | items (items more : List Json) : Grown (.array items) (.array (items ++ more))
  | entries {entries entries' : Entries Json}
      (kept : ∀ name, (Entries.get? name entries).isSome → (Entries.get? name entries').isSome)
      (grown : ∀ name v w, Entries.get? name entries = some v →
        Entries.get? name entries' = some w → Grown v w) :
      Grown (.object entries) (.object entries')
  | collected {v w : Json} (grown : Grown v w) (more : List Json) : Grown v (.array (w :: more))

theorem Grown.trans {u v w : Json} (h : Grown u v) (h' : Grown v w) : Grown u w := by
  induction h' generalizing u with
  | same => exact h
  | collected _ more ih => exact .collected (ih h) more
  | items items more =>
      cases h with
      | same => exact .items items more
      | items first rest =>
          rw [List.append_assoc]
          exact .items first (rest ++ more)
      | collected h rest => exact .collected h (rest ++ more)
  | entries kept grown ih =>
      cases h with
      | same => exact .entries kept grown
      | entries kept' grown' =>
          refine .entries (fun name h => kept name (kept' name h)) fun name v w hv hw => ?_
          obtain ⟨x, hx⟩ := Option.isSome_iff_exists.mp (kept' name (hv ▸ rfl))
          exact ih name x w hx hw (grown' name v x hv hx)

/-- What stands at a key has grown after a write for it. -/
theorem grown_place (value : Json) (rest : List String) (written : Json) :
    Grown written (place value rest (some written)) := by
  induction rest generalizing written with
  | nil =>
      cases written with
      | array items => exact .items items [value]
      | _ => exact .collected (.same _) [value]
  | cons name rest ih =>
      cases written with
      | object inner =>
          refine .entries (fun k hk => ?_) fun k v w hv hw => ?_
          · rw [get?_writeAt]
            split
            · rfl
            · exact hk
          · rw [get?_writeAt] at hw
            split at hw
            · next hname =>
                subst hname
                cases hw
                rw [hv]
                exact ih v
            · rw [hv] at hw
              cases hw
              exact .same v
      | _ => exact .same _

/-! ## Values at a path -/

/-- A value is held at a path: it stands there, perhaps grown, or in an array. On the way
are objects, or arrays that hold them as their first items. -/
inductive Held (value : Json) : List String → Json → Prop where
  | here {w : Json} (grown : Grown value w) : Held value [] w
  | item {items : List Json} (mem : value ∈ items) : Held value [] (.array items)
  | entry {name : String} {path : List String} {entries : Entries Json} {w : Json}
      (found : Entries.get? name entries = some w) (held : Held value path w) :
      Held value (name :: path) (.object entries)
  | first {path : List String} {w : Json} (held : Held value path w) (more : List Json) :
      Held value path (.array (w :: more))

variable {value : Json} {path : List String}

/-- What is held is still held after a write. -/
theorem Held.place {w : Json} (h : Held value path w) (later : Json) (rest : List String) :
    Held value path (place later rest (some w)) := by
  induction h generalizing rest with
  | here grown => exact .here (grown.trans (grown_place later rest _))
  | item mem =>
      cases rest with
      | nil => exact .item (List.mem_append_left _ mem)
      | cons => exact .item mem
  | first held more =>
      cases rest with
      | nil => exact .first held (more ++ [later])
      | cons => exact .first held more
  | @entry name path entries w found held ih =>
      cases rest with
      | nil => exact .first (.entry found held) [later]
      | cons n rest =>
          have hfound := get?_writeAt later n rest entries name
          by_cases hname : name = n
          · subst hname
            rw [if_pos rfl, found] at hfound
            exact .entry hfound (ih rest)
          · rw [if_neg hname, found] at hfound
            exact .entry hfound held

theorem Held.writeAt {out : Entries Json} (h : Held value path (.object out)) (later : Json)
    (further : List String) : Held value path (.object (writeAt later further out)) := by
  cases further with
  | nil => exact h
  | cons name rest => exact h.place later (name :: rest)

theorem Held.writeAll {out : Entries Json} (h : Held value path (.object out))
    (ws : List Write) :
    Held value path (.object (ws.foldl (fun out w => Spec.writeAt w.2 w.1 out) out)) := by
  induction ws generalizing out with
  | nil => exact h
  | cons w ws ih => exact ih (h.writeAt w.2 w.1)

/-- Nothing but objects stands on the way of a path. -/
def Open (w : Json) (path : List String) : Prop :=
  ∀ front name rest, path = front ++ name :: rest →
    ∀ x, w.at? front = some x → ∃ entries, x = .object entries

theorem open_cons_iff {name : String} {w : Json} :
    Open w (name :: path) ↔ ∃ entries : Entries Json, w = .object entries ∧
      ∀ x, Entries.get? name entries = some x → Open x path := by
  constructor
  · intro h
    obtain ⟨entries, rfl⟩ := h [] name path rfl w (Json.at?_nil w)
    refine ⟨entries, rfl, ?_⟩
    rintro x hx front n rest rfl y hy
    exact h (name :: front) n rest rfl y (by rw [Json.at?, hx]; exact hy)
  · rintro ⟨entries, rfl, h⟩ front n rest hpath y hy
    cases front with
    | nil =>
        cases hy
        exact ⟨entries, rfl⟩
    | cons name' front =>
        obtain ⟨rfl, rfl⟩ : name = name' ∧ path = front ++ n :: rest := by simpa using hpath
        rw [Json.at?] at hy
        obtain ⟨x, hx, hy⟩ := Option.bind_eq_some_iff.mp hy
        exact h x hx front n rest rfl y hy

theorem open_nil (w : Json) : Open w [] := by
  rintro front _ _ hpath
  cases front <;> cases hpath

instance decidableOpen (path : List String) (w : Json) : Decidable (Open w path) :=
  match path, w with
  | [], w => .isTrue (open_nil w)
  | name :: rest, .object entries =>
    have : DecidablePred (Open · rest) := decidableOpen rest
    decidable_of_iff (∀ x ∈ Entries.get? name entries, Open x rest) (by simp [open_cons_iff])
  | _ :: _, .null | _ :: _, .bool _ | _ :: _, .number _ | _ :: _, .string _ | _ :: _, .array _ =>
    .isFalse (by simp [open_cons_iff])

theorem open_empty (path : List String) : Open (.object []) path := by
  cases path with
  | nil => exact open_nil _
  | cons name rest => exact open_cons_iff.mpr ⟨[], rfl, nofun⟩

/-- A value whose way is open finds its place. -/
theorem held_writeAt {out : Entries Json} (hopen : Open (.object out) path) (hne : path ≠ []) :
    Held value path (.object (writeAt value path out)) := by
  induction path generalizing out with
  | nil => exact absurd rfl hne
  | cons name rest ih =>
      refine .entry ((get?_writeAt value name rest out name).trans (if_pos rfl)) ?_
      cases hname : Entries.get? name out with
      | none =>
          cases rest with
          | nil => exact .here (.same value)
          | cons next rest => exact ih (open_empty _) (List.cons_ne_nil next rest)
      | some written =>
          cases rest with
          | nil =>
              cases written with
              | array items => exact .item (List.mem_append_right _ (List.mem_singleton_self value))
              | _ => exact .item (List.mem_cons_of_mem _ (List.mem_singleton_self value))
          | cons next rest =>
              obtain ⟨_, hout, hfurther⟩ := open_cons_iff.mp hopen
              cases hout
              have hwritten := hfurther written hname
              obtain ⟨inner, rfl, _⟩ := open_cons_iff.mp hwritten
              exact ih hwritten (List.cons_ne_nil next rest)

/-! ## Values at a path that is clear of others -/

/-- A value is the one that was written, or an array that has it as an item. -/
def Presents (w value : Json) : Prop :=
  w = value ∨ ∃ items, w = .array items ∧ value ∈ items

/-- Of several values only an array that comes first does not stay in one piece. -/
theorem presents_of_gathered {values : List Json} (hvalue : value ∈ values) :
    ∃ w, gathered values = some w ∧
      (Presents w value ∨ ∃ items more, values = .array items :: more ∧
        value = .array items ∧ w = .array (items ++ more)) := by
  match values with
  | [only] =>
      cases List.mem_singleton.mp hvalue
      exact ⟨value, by cases value <;> rfl, .inl (.inl rfl)⟩
  | first :: next :: more =>
      by_cases hfirst : ∃ items, first = .array items
      · obtain ⟨items, rfl⟩ := hfirst
        refine ⟨_, rfl, ?_⟩
        rcases List.mem_cons.mp hvalue with rfl | hlater
        · exact .inr ⟨items, next :: more, rfl, rfl, rfl⟩
        · exact .inl (.inr ⟨_, rfl, List.mem_append_right items hlater⟩)
      · have hgathered : gathered (first :: next :: more) =
            some (.array (first :: next :: more)) := by
          cases first with
          | array items => exact absurd ⟨items, rfl⟩ hfirst
          | _ => rfl
        exact ⟨_, hgathered, .inl (.inr ⟨_, rfl, hvalue⟩)⟩

/-! ## What a shift keeps -/

/-- A shift keeps each value that it selects and that finds its place. A shift that compiled
turns an object or an array into an object. A value with a path that is clear of the other
ones stands at its path: as it is, as an item of an array, or, when it is an array and the
first one there, continued by the values after it. And whatever other paths there are, a
value that found nothing but objects on its way is held at its path. -/
theorem shift_keeps_selected {doc input : Json} {spec : Spec}
    {rules : List (String × ShiftRule)} (hcompile : compile doc = .ok spec)
    (hmem : .shift rules ∈ spec)
    (hinput : (∃ entries, input = .object entries) ∨ ∃ items, input = .array items) :
    ∃ out : Entries Json, (Stage.shift rules).apply input = some (.object out) ∧
      (∀ w ∈ declared rules input, Clear w.1 (declared rules input) →
        ∃ x, (Json.object out).at? w.1 = some x ∧
          (Presents x w.2 ∨ ∃ items more,
            valuesAt w.1 (declared rules input) = .array items :: more ∧
              w.2 = .array items ∧ x = .array (items ++ more))) ∧
      ∀ before w after, declared rules input = before ++ w :: after →
        Open (.object (writeAll before)) w.1 → Held w.2 w.1 (.object out) := by
  obtain ⟨entries, hrules⟩ := exists_of_mem_compile hcompile hmem
  refine ⟨_, apply_shift hinput, fun w hw hclear => ?_, fun before w after hwrites hopen => ?_⟩
  · have hvalue : w.2 ∈ valuesAt w.1 (declared rules input) :=
      List.mem_map.mpr ⟨w, List.mem_filter.mpr ⟨hw, decide_eq_true rfl⟩, rfl⟩
    rw [at?_of_clear hclear (ne_nil_of_mem_declared hrules hw)]
    exact presents_of_gathered hvalue
  · have hne : w.1 ≠ [] := ne_nil_of_mem_declared hrules (hwrites ▸ List.mem_append_cons_self)
    rw [hwrites, Spec.writeAll, List.foldl_append, List.foldl_cons]
    exact (held_writeAt hopen hne).writeAll after

def memberShift : Entries Json :=
  [("user", .string "customer"), ("id", .string "customer.id"), ("*", .string "seen")]

def memberRules : List (String × ShiftRule) :=
  [("user", .write [[[.text "customer"]]]), ("id", .write [[[.text "customer"], [.text "id"]]]),
    ("*", .write [[[.text "seen"]]])]

def member : Entries Json :=
  [("tags", .array [.string "new"]), ("user", .object [("name", .string "Ada")]),
    ("id", .number (.integer 7)), ("guest", .bool false)]

def memberShifted : Entries Json :=
  [("seen", .array [.string "new", .bool false]),
    ("customer", .object [("name", .string "Ada"), ("id", .number (.integer 7))])]

/-- The id finds its place within the user, who is held together with it. -/
theorem member_kept :
    compile (shiftOf memberShift) = .ok [.shift memberRules] ∧
      (Stage.shift memberRules).apply (.object member) = some (.object memberShifted) ∧
      (∃ x, (Json.object memberShifted).at? ["seen"] = some x ∧ Presents x (.bool false)) ∧
      Held (.object [("name", .string "Ada")]) ["customer"] (.object memberShifted) ∧
      Held (.number (.integer 7)) ["customer", "id"] (.object memberShifted) := by
  have hcompile : compile (shiftOf memberShift) = .ok [.shift memberRules] := rfl
  have happly : (Stage.shift memberRules).apply (.object member) =
      some (.object memberShifted) := rfl
  have hdeclared : declared memberRules (.object member) =
      [(["seen"], .array [.string "new"]), (["customer"], .object [("name", .string "Ada")]),
        (["customer", "id"], .number (.integer 7)), (["seen"], .bool false)] := rfl
  obtain ⟨out, hout, hclear, hopen⟩ :=
    shift_keeps_selected hcompile (List.mem_singleton_self _) (.inl ⟨member, rfl⟩)
  cases happly.symm.trans hout
  rw [hdeclared] at hclear hopen
  obtain ⟨x, hx, hpresents | ⟨_, _, _, hne, _⟩⟩ :=
    hclear (["seen"], .bool false) (by simp) (by decide +kernel)
  · exact ⟨hcompile, happly, ⟨x, hx, hpresents⟩, hopen [_] _ _ rfl (by decide +kernel),
      hopen [_, _] _ [_] rfl (by decide +kernel)⟩
  · cases hne

/-- A shift leaves some value that it selects neither at its path nor in an array there. -/
def Misses (rules : List (String × ShiftRule)) (input : Json) : Prop :=
  ∃ out, (Stage.shift rules).apply input = some out ∧
    ∃ w ∈ declared rules input, ∀ x, out.at? w.1 = some x → ¬ Presents x w.2

def pair (a b : Json) : Json :=
  .object [("a", a), ("b", b)]

def pairShift (a b : String) : Json :=
  shiftOf [("a", .string a), ("b", .string b)]

def pairRules (a b : OutputPath) : List (String × ShiftRule) :=
  [("a", .write [a]), ("b", .write [b])]

def toX : OutputPath := [[.text "x"]]

def toXY : OutputPath := [[.text "x"], [.text "y"]]

/-- An array that comes first is continued by the next value. An object is extended by what
is written below it, and becomes an item of an array by what is written in its place. Below
a value that is not an object nothing is written. -/
theorem selected_not_presented :
    (compile (pairShift "x" "x") = .ok [.shift (pairRules toX toX)] ∧
      Misses (pairRules toX toX) (pair (.array [.bool true]) (.bool false))) ∧
    (compile (pairShift "x" "x.y") = .ok [.shift (pairRules toX toXY)] ∧
      Misses (pairRules toX toXY) (pair (.object []) (.bool false)) ∧
      Misses (pairRules toX toXY) (pair (.bool true) (.bool false))) ∧
    compile (pairShift "x.y" "x") = .ok [.shift (pairRules toXY toX)] ∧
      Misses (pairRules toXY toX) (pair (.bool true) (.bool false)) := by
  refine ⟨⟨rfl, ?continued⟩, ⟨rfl, ?extended, ?blocked⟩, rfl, ?collected⟩
  case continued =>
    refine ⟨.object [("x", .array [.bool true, .bool false])], rfl,
      (["x"], .array [.bool true]), .head _, ?_⟩
    rintro x hx (rfl | ⟨items, rfl, hmem⟩)
    · cases hx
    · cases hx
      simp at hmem
  case extended =>
    refine ⟨.object [("x", .object [("y", .bool false)])], rfl, (["x"], .object []), .head _, ?_⟩
    rintro x hx (rfl | ⟨items, rfl, hmem⟩) <;> cases hx
  case blocked =>
    refine ⟨.object [("x", .bool true)], rfl, (["x", "y"], .bool false), .tail _ (.head _), ?_⟩
    rintro x hx
    cases hx
  case collected =>
    refine ⟨.object [("x", .array [.object [("y", .bool true)], .bool false])], rfl,
      (["x", "y"], .bool true), .head _, ?_⟩
    rintro x hx
    cases hx

end MessageBridge.Spec
