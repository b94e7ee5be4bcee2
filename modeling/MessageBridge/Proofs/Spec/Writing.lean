import MessageBridge.Proofs.Spec.Selection
import Mathlib.Data.List.Induction

/-!
# What writes come to

Writes are carried out one after the other, each in what the ones before it have left. But
what stands at a key depends only on the writes that begin with this key, so an object
that is written can be taken apart key by key: `get?_writeAll` and `keys_writeAll` say so
of any writes at all.

Where no path leads on from the end of another one, two kinds of keys are left. At a key
where paths end, values are gathered. At any other key stands an object, which is again
got by carrying out writes, those that begin with the key.
-/

namespace MessageBridge

/-- The value at the end of a path of keys. -/
def Json.at? : Json → List String → Option Json
  | value, [] => some value
  | .object entries, name :: rest => (Entries.get? name entries).bind (·.at? rest)
  | _, _ :: _ => none

@[simp]
theorem Json.at?_nil (value : Json) : value.at? [] = some value := by
  cases value <;> rfl

namespace Spec

/-! ## One key -/

/-- What stands at a key after a write for it, given the rest of its path and what stood
there before. -/
def place (value : Json) : List String → Option Json → Json
  | [], none => value
  | [], some written => collect value written
  | name :: rest, none => .object (writeAt value (name :: rest) [])
  | name :: rest, some (.object inner) => .object (writeAt value (name :: rest) inner)
  | _ :: _, some written => written

/-- A write changes what stands at the first key of its path, and nothing else. -/
theorem get?_writeAt (value : Json) (name : String) (rest : List String) (out : Entries Json)
    (k : String) :
    Entries.get? k (writeAt value (name :: rest) out) =
      if k = name then some (place value rest (Entries.get? name out)) else Entries.get? k out := by
  cases rest with
  | nil =>
      rw [writeAt]
      cases hname : Entries.get? name out with
      | none =>
          rw [Entries.get?_append]
          by_cases hk : k = name <;> simp [hk, hname, place]
      | some written =>
          rw [Entries.get?_modify]
          by_cases hk : k = name <;> simp [hk, hname, place]
  | cons next rest =>
      simp only [writeAt]
      cases hname : Entries.get? name out with
      | none =>
          rw [Entries.get?_append]
          by_cases hk : k = name <;> simp [hk, hname, place]
      | some written =>
          cases written with
          | object inner =>
              rw [Entries.get?_set]
              rfl
          | _ => by_cases hk : k = name <;> simp [hk, hname, place]

theorem keys_writeAt (value : Json) (name : String) (rest : List String) (out : Entries Json) :
    Entries.keys (writeAt value (name :: rest) out) =
      if name ∈ out.keys then out.keys else out.keys ++ [name] := by
  have hmem : name ∈ out.keys ↔ (Entries.get? name out).isSome = true :=
    Entries.isSome_get?_iff.symm
  cases hname : Entries.get? name out with
  | none =>
      rw [if_neg (by simp [hmem, hname])]
      cases rest with
      | nil => simp [writeAt, hname, Entries.keys]
      | cons => simp [writeAt, hname, Entries.keys]
  | some written =>
      rw [if_pos (by simp [hmem, hname])]
      cases rest with
      | nil => simp only [writeAt, hname, Entries.keys_modify]
      | cons =>
          cases written with
          | object inner =>
              simp only [writeAt, hname]
              exact (Entries.keys_set name _ out).resolve_right fun h =>
                h.1 (by simp [hmem, hname])
          | _ => simp [writeAt, hname]

/-- The writes that begin with a key, behind it. -/
def below (name : String) (ws : List Write) : List Write :=
  ws.filterMap fun
    | (n :: rest, value) => if n = name then some (rest, value) else none
    | ([], _) => none

/-- What stands at a key after writes for it, by the rests of their paths. -/
def standing (ws : List Write) : Option Json :=
  ws.foldl (fun written w => some (place w.2 w.1 written)) none

theorem writeAll_append (ws : List Write) (w : Write) :
    writeAll (ws ++ [w]) = writeAt w.2 w.1 (writeAll ws) :=
  List.foldl_concat ..

theorem standing_append (ws : List Write) (w : Write) :
    standing (ws ++ [w]) = some (place w.2 w.1 (standing ws)) :=
  List.foldl_concat ..

theorem below_append (name : String) (ws more : List Write) :
    below name (ws ++ more) = below name ws ++ below name more :=
  List.filterMap_append

/-- What stands at a key was put there by the writes that begin with it. -/
theorem get?_writeAll (name : String) (ws : List Write) :
    Entries.get? name (writeAll ws) = standing (below name ws) := by
  induction ws using List.reverseRecOn with
  | nil => rfl
  | append_singleton ws w ih =>
      obtain ⟨path, value⟩ := w
      rw [writeAll_append, below_append]
      cases path with
      | nil => simpa [writeAt, below] using ih
      | cons n rest =>
          rw [get?_writeAt]
          by_cases hn : n = name
          · subst hn
            have hbelow : below n [(n :: rest, value)] = [(rest, value)] := by simp [below]
            rw [if_pos rfl, ih, hbelow, standing_append]
          · simpa [below, hn, Ne.symm hn] using ih

/-- The keys of what is written stand in the order of the first writes for each. -/
theorem keys_writeAll (ws : List Write) :
    (writeAll ws).keys = (ws.filterMap (·.1.head?)).eraseDups := by
  induction ws using List.reverseRecOn with
  | nil => rfl
  | append_singleton ws w ih =>
      obtain ⟨path, value⟩ := w
      rw [writeAll_append, List.filterMap_append]
      cases path with
      | nil => simpa [writeAt, List.filterMap_cons] using ih
      | cons n rest =>
          have hhead : List.filterMap (fun w : Write => w.1.head?) [(n :: rest, value)] = [n] := rfl
          rw [keys_writeAt, ih, List.eraseDups_append, hhead]
          by_cases hn : n ∈ ws.filterMap (·.1.head?)
          · simp [List.removeAll, List.mem_eraseDups, hn]
          · simp [List.removeAll, List.mem_eraseDups, hn, List.eraseDups_cons]

/-! ## What stands at a key -/

/-- What several values come to that are written at the end of one path: a value alone
stays as it is, several become an array, and an array that comes first is continued. -/
def gathered : List Json → Option Json
  | [] => none
  | [value] => some value
  | .array items :: more => some (.array (items ++ more))
  | first :: more => some (.array (first :: more))

theorem foldl_collect (items more : List Json) :
    more.foldl (fun written value => collect value written) (.array items) =
      .array (items ++ more) := by
  induction more generalizing items with
  | nil => simp
  | cons value more ih =>
      rw [List.foldl_cons, collect, ih, List.append_assoc, List.singleton_append]

theorem gathered_cons (first : Json) (more : List Json) :
    gathered (first :: more) =
      some (more.foldl (fun written value => collect value written) first) := by
  cases more with
  | nil => cases first <;> rfl
  | cons value more =>
      cases first with
      | array items => rw [foldl_collect]; rfl
      | _ => exact congrArg some (foldl_collect [_, value] more).symm

/-- Where all paths end, the values are gathered. -/
theorem standing_of_ended {ws : List Write} (h : ∀ w ∈ ws, w.1 = []) :
    standing ws = gathered (ws.map Prod.snd) := by
  have hcollect (written : Json) (more : List Write) (hmore : ∀ w ∈ more, w.1 = []) :
      more.foldl (fun written w => some (place w.2 w.1 written)) (some written) =
        some ((more.map Prod.snd).foldl (fun written value => collect value written) written) := by
    induction more generalizing written with
    | nil => rfl
    | cons w more ih =>
        obtain ⟨hw, hmore⟩ := List.forall_mem_cons.mp hmore
        rw [List.foldl_cons, hw, place, ih _ hmore]
        rfl
  cases ws with
  | nil => rfl
  | cons w more =>
      obtain ⟨hw, hmore⟩ := List.forall_mem_cons.mp h
      rw [standing, List.foldl_cons, hw, place, hcollect _ _ hmore, List.map_cons, gathered_cons]

/-- Where no path ends, an object is written. -/
theorem standing_of_further {ws : List Write} (hne : ws ≠ []) (h : ∀ w ∈ ws, w.1 ≠ []) :
    standing ws = some (.object (writeAll ws)) := by
  induction ws using List.reverseRecOn with
  | nil => exact absurd rfl hne
  | append_singleton ws w ih =>
      obtain ⟨hws, hw⟩ := List.forall_mem_append.mp h
      obtain ⟨name, rest, hpath⟩ := List.exists_cons_of_ne_nil (hw w (List.mem_singleton_self w))
      rw [standing_append, writeAll_append, hpath]
      by_cases hfirst : ws = []
      · subst hfirst
        rfl
      · rw [ih hfirst hws]
        rfl

/-! ## What stands at a path -/

/-- The values that are written at a path, in order. -/
def valuesAt (path : List String) (ws : List Write) : List Json :=
  (ws.filter (·.1 = path)).map Prod.snd

/-- The name that follows in a path. -/
def nextName (front path : List String) : Option String :=
  if front <+: path then path[front.length]? else none

theorem nextName_nil (path : List String) : nextName [] path = path.head? := by
  rw [nextName, if_pos List.nil_prefix, List.length_nil, List.head?_eq_getElem?]

theorem nextName_cons (name n : String) (front rest : List String) :
    nextName (name :: front) (n :: rest) = if n = name then nextName front rest else none := by
  by_cases hn : n = name
  · simp [nextName, hn]
  · simp [nextName, hn, Ne.symm hn]

variable {name : String} {ws : List Write}

theorem mem_below {w : Write} : w ∈ below name ws ↔ (name :: w.1, w.2) ∈ ws := by
  constructor
  · intro hw
    obtain ⟨⟨path, value⟩, hmem, hw⟩ := List.mem_filterMap.mp hw
    cases path with
    | nil => cases hw
    | cons n rest =>
        obtain ⟨rfl, rfl⟩ : n = name ∧ (rest, value) = w := by simpa using hw
        exact hmem
  · exact fun hw => List.mem_filterMap.mpr ⟨_, hw, if_pos rfl⟩

theorem valuesAt_below (name : String) (rest : List String) (ws : List Write) :
    valuesAt rest (below name ws) = valuesAt (name :: rest) ws := by
  rw [valuesAt, valuesAt, below, List.filter_filterMap, ← List.filterMap_eq_filter,
    List.map_filterMap, List.map_filterMap]
  refine List.filterMap_congr fun w _ => ?_
  obtain ⟨path, value⟩ := w
  cases path with
  | nil => simp
  | cons n more =>
      by_cases hn : n = name
      · by_cases hmore : more = rest <;> simp [hn, hmore, Option.filter]
      · simp [hn]

theorem filterMap_below (name : String) (front : List String) (ws : List Write) :
    (below name ws).filterMap (nextName front ·.1) =
      ws.filterMap (nextName (name :: front) ·.1) := by
  rw [below, List.filterMap_filterMap]
  refine List.filterMap_congr fun w _ => ?_
  obtain ⟨path, value⟩ := w
  cases path with
  | nil => simp [nextName]
  | cons n rest =>
      rw [nextName_cons]
      by_cases hn : n = name <;> simp [hn]

/-- No path ends on the way to this one, or leads on from it. -/
def Clear (path : List String) (ws : List Write) : Prop :=
  ∀ w ∈ ws, w.1 <+: path ∨ path <+: w.1 → w.1 = path

instance decidableClear (path : List String) (ws : List Write) : Decidable (Clear path ws) :=
  inferInstanceAs (Decidable (∀ w ∈ ws, w.1 <+: path ∨ path <+: w.1 → w.1 = path))

theorem Clear.below {rest : List String} (h : Clear (name :: rest) ws) :
    Clear rest (below name ws) := by
  intro w hw hbegins
  have := h _ (mem_below.mp hw)
  simpa [List.prefix_cons_inj] using this (by simpa [List.prefix_cons_inj] using hbegins)

/-- At a path that is clear of others the values are gathered that are written there. -/
theorem at?_of_clear {path : List String} (h : Clear path ws) (hne : path ≠ []) :
    (Json.object (writeAll ws)).at? path = gathered (valuesAt path ws) := by
  induction path generalizing ws with
  | nil => exact absurd rfl hne
  | cons name rest ih =>
      rw [Json.at?, get?_writeAll, ← valuesAt_below]
      by_cases hrest : rest = []
      · subst hrest
        have hended : ∀ w ∈ below name ws, w.1 = [] := fun w hw =>
          h.below w hw (.inr List.nil_prefix)
        have hall : (below name ws).filter (·.1 = []) = below name ws :=
          List.filter_eq_self.mpr fun w hw => decide_eq_true (hended w hw)
        rw [valuesAt, hall, ← standing_of_ended hended]
        cases standing (below name ws) <;> simp
      · have hfurther : ∀ w ∈ below name ws, w.1 ≠ [] := fun w hw hnil =>
          hrest ((h.below w hw (.inl (hnil ▸ List.nil_prefix))).symm.trans hnil)
        rw [← ih h.below hrest]
        by_cases hnone : below name ws = []
        · obtain ⟨n, more, rfl⟩ := List.exists_cons_of_ne_nil hrest
          rw [hnone]
          rfl
        · rw [standing_of_further hnone hfurther, Option.bind_some]

/-- On the way to where paths lead stands an object, with the names that follow. -/
theorem at?_of_prefix {front : List String} (hpassed : ∀ w ∈ ws, ¬ w.1 <+: front)
    (hleads : front = [] ∨ ∃ w ∈ ws, front <+: w.1) :
    ∃ entries : Entries Json, (Json.object (writeAll ws)).at? front = some (.object entries) ∧
      entries.keys = (ws.filterMap (nextName front ·.1)).eraseDups := by
  induction front generalizing ws with
  | nil => exact ⟨writeAll ws, Json.at?_nil _, by simp only [keys_writeAll, nextName_nil]⟩
  | cons name front ih =>
      obtain ⟨w, hw, rest, hrest⟩ := hleads.resolve_left (List.cons_ne_nil name front)
      have hbelow : (front ++ rest, w.2) ∈ below name ws := by
        rw [mem_below, ← List.cons_append, hrest]
        exact hw
      have hpassed' : ∀ w ∈ below name ws, ¬ w.1 <+: front := fun w hw hbegins =>
        hpassed _ (mem_below.mp hw) (List.prefix_cons_inj name |>.mpr hbegins)
      have hfurther : ∀ w ∈ below name ws, w.1 ≠ [] := fun w hw hnil =>
        hpassed' w hw (hnil ▸ List.nil_prefix)
      obtain ⟨entries, hentries, hkeys⟩ := ih hpassed' (.inr ⟨_, hbelow, rest, rfl⟩)
      refine ⟨entries, ?_, hkeys.trans (by rw [filterMap_below])⟩
      rw [Json.at?, get?_writeAll, standing_of_further (List.ne_nil_of_mem hbelow) hfurther]
      exact hentries

/-! ## Writes that keep clear of one another -/

/-- No path leads on from the end of another one. -/
def Apart (ws : List Write) : Prop :=
  ∀ w ∈ ws, ∀ w' ∈ ws, w.1 <+: w'.1 → w.1 = w'.1

instance decidableApart : DecidablePred Apart :=
  fun ws => inferInstanceAs (Decidable (∀ w ∈ ws, ∀ w' ∈ ws, w.1 <+: w'.1 → w.1 = w'.1))

theorem Apart.clear (h : Apart ws) {w : Write} (hw : w ∈ ws) : Clear w.1 ws := by
  rintro w' hw' (hbegins | hbegins)
  · exact h w' hw' w hw hbegins
  · exact (h w hw w' hw' hbegins).symm

/-- An object holds just what writes put there. On the way of a path, before its end, it
has objects, with the names that follow in some path as their keys, in the order of the
first writes. At the end of a path it has the value that was written there, and where there
are several, all of them. -/
structure Shows (out : Entries Json) (ws : List Write) : Prop where
  ways : ∀ front, (front = [] ∨ ∃ w ∈ ws, front <+: w.1 ∧ front ≠ w.1) →
    ∃ entries : Entries Json, (Json.object out).at? front = some (.object entries) ∧
      entries.keys = (ws.filterMap (nextName front ·.1)).eraseDups
  ends : ∀ w ∈ ws, (Json.object out).at? w.1 = gathered (valuesAt w.1 ws)

theorem Apart.shows (h : Apart ws) (hne : ∀ w ∈ ws, w.1 ≠ []) : Shows (writeAll ws) ws where
  ends := fun w hw => at?_of_clear (h.clear hw) (hne w hw)
  ways := by
    rintro front hfront
    refine at?_of_prefix ?_ (hfront.imp_right fun ⟨w, hw, hbegins, _⟩ => ⟨w, hw, hbegins⟩)
    intro w hw hend
    rcases hfront with rfl | ⟨w', hw', hbegins, hproper⟩
    · exact hne w hw (List.prefix_nil.mp hend)
    · have hsame : w.1 = w'.1 := h w hw w' hw' (hend.trans hbegins)
      exact hproper (hbegins.eq_of_length_le (hsame ▸ hend).length_le)

/-- A shift carries out the writes that it declares. -/
theorem apply_shift {rules : List (String × ShiftRule)} {input : Json}
    (hinput : (∃ entries, input = .object entries) ∨ ∃ items, input = .array items) :
    (Stage.shift rules).apply input = some (.object (writeAll (declared rules input))) := by
  rw [← writesOf_eq_declared]
  rcases hinput with ⟨entries, rfl⟩ | ⟨items, rfl⟩ <;> rfl

/-- A shift that compiled turns an object or an array into an object. When no declared path
leads on from the end of another one, this object holds just what the declared writes put
there. -/
theorem shift_shows_writes {doc input : Json} {spec : Spec}
    {rules : List (String × ShiftRule)} (hcompile : compile doc = .ok spec)
    (hmem : .shift rules ∈ spec)
    (hinput : (∃ entries, input = .object entries) ∨ ∃ items, input = .array items) :
    ∃ out : Entries Json, (Stage.shift rules).apply input = some (.object out) ∧
      (Apart (declared rules input) → Shows out (declared rules input)) := by
  obtain ⟨entries, hrules⟩ := exists_of_mem_compile hcompile hmem
  exact ⟨_, apply_shift hinput, fun h => h.shows fun _ => ne_nil_of_mem_declared hrules⟩

/-- A specification of one shift. -/
def shiftOf (entries : Entries Json) : Json :=
  .object [("operation", .string "shift"), ("spec", .object entries)]

def visitorShift : Entries Json :=
  [("user", .object [("id", .string "customer.id"),
      ("*", .array [.string "customer.rest.&", .string "seen"])]),
    ("visits", .object [("*", .string "&1")])]

def visitorRules : List (String × ShiftRule) :=
  [("user", .descend [("id", .write [[[.text "customer"], [.text "id"]]]),
      ("*", .write [[[.text "customer"], [.text "rest"], [.key 0]], [[.text "seen"]]])]),
    ("visits", .descend [("*", .write [[[.key 1]]])])]

def visitor : Json :=
  .object [("visits", .array [.number (.integer 1), .number (.integer 2)]),
    ("user", .object [("tags", .array [.string "new"]), ("id", .number (.integer 7)),
      ("name", .string "Ada")])]

def visitorShifted : Entries Json :=
  [("visits", .array [.number (.integer 1), .number (.integer 2)]),
    ("customer", .object [
      ("rest", .object [("tags", .array [.string "new"]), ("name", .string "Ada")]),
      ("id", .number (.integer 7))]),
    ("seen", .array [.string "new", .string "Ada"])]

/-- The visits become an array, and the name continues the one of the tags. -/
theorem visitor_shown :
    compile (shiftOf visitorShift) = .ok [.shift visitorRules] ∧
      Apart (declared visitorRules visitor) ∧
      (Stage.shift visitorRules).apply visitor = some (.object visitorShifted) ∧
      Shows visitorShifted (declared visitorRules visitor) := by
  have hcompile : compile (shiftOf visitorShift) = .ok [.shift visitorRules] := rfl
  have happly : (Stage.shift visitorRules).apply visitor = some (.object visitorShifted) := rfl
  have hapart : Apart (declared visitorRules visitor) := by decide +kernel
  obtain ⟨out, hout, hshows⟩ :=
    shift_shows_writes hcompile (List.mem_singleton_self _) (.inl ⟨_, rfl⟩)
  cases happly.symm.trans hout
  exact ⟨hcompile, hapart, happly, hshows hapart⟩

end Spec

end MessageBridge
