import MessageBridge.Proofs.Json.Keys
import MessageBridge.Proofs.Transform.Pruning
import MessageBridge.Spec.Apply
import MessageBridge.Spec.Compile

/-!
# What defaults add to a document

Defaults are filled in key by key, and each of them finds the entries that the ones
before it have left. `Filled` says what comes out with no order of steps in it: the
entries of an object stay where they are, behind them come the defaults that the object
lacks, and an object that faces a default which is an object becomes the same way what
the two of them come to. Whatever else faces a default stays as it is.

The keys of both objects differ, so a default meets the one entry with its key and the
defaults behind it leave this entry alone. That turns the filling of an object into a
map over its own entries; the rest is induction over the defaults.
-/

namespace MessageBridge

namespace Spec

variable {defaults entries own : Entries Json} {default value filled : Json} {key : String}

/-- The defaults whose keys an object lacks. -/
def lacking (defaults entries : Entries Json) : Entries Json :=
  defaults.filter fun d => !entries.has d.1

mutual

/-- What a value becomes that faces a default. -/
inductive Filled : Json → Json → Json → Prop where
  | stays {default value : Json}
      (differ : ∀ defaults entries, default = .object defaults → value ≠ .object entries) :
    Filled default value value
  | grows {defaults entries own : Entries Json} (each : FilledEach defaults entries own) :
    Filled (.object defaults) (.object entries) (.object (own ++ lacking defaults entries))

/-- What the entries of an object become, each in its place. -/
inductive FilledEach : Entries Json → Entries Json → Entries Json → Prop where
  | nil (defaults : Entries Json) : FilledEach defaults [] []
  | free {defaults entries own : Entries Json} {key : String} {value : Json}
      (free : defaults.get? key = none) (rest : FilledEach defaults entries own) :
    FilledEach defaults ((key, value) :: entries) ((key, value) :: own)
  | faces {defaults entries own : Entries Json} {key : String} {default value filled : Json}
      (faces : defaults.get? key = some default) (fills : Filled default value filled)
      (rest : FilledEach defaults entries own) :
    FilledEach defaults ((key, value) :: entries) ((key, filled) :: own)

end

/-! ## Objects, entry by entry -/

/-- What an entry becomes under the default at its key, if there is one. -/
def fillEntry (defaults : Entries Json) (e : String × Json) : String × Json :=
  (e.1, ((defaults.get? e.1).map (fill · e.2)).getD e.2)

theorem fillEntry_of_none (h : defaults.get? key = none) :
    fillEntry defaults (key, value) = (key, value) := by
  rw [fillEntry, h]
  rfl

theorem fillEntry_of_some (h : defaults.get? key = some default) :
    fillEntry defaults (key, value) = (key, fill default value) := by
  rw [fillEntry, h]
  rfl

theorem keys_map_fillEntry (defaults entries : Entries Json) :
    Entries.keys (entries.map (fillEntry defaults)) = entries.keys := by
  rw [Entries.keys, List.map_map]
  rfl

theorem lacking_of_keys {entries' : Entries Json}
    (h : ∀ key ∈ defaults.keys, key ∈ entries'.keys ↔ key ∈ entries.keys) :
    lacking defaults entries' = lacking defaults entries := by
  refine List.filter_congr fun d hd => ?_
  have hiff := h d.1 (List.mem_map_of_mem hd)
  rw [← Entries.isSome_get?_iff, ← Entries.isSome_get?_iff] at hiff
  rw [Entries.has, Entries.has, Bool.eq_iff_iff.mpr hiff]

/-- A default whose key is new to an object faces none of its entries. -/
theorem map_fillEntry_of_new (hkey : key ∉ entries.keys) (default : Json)
    (defaults : Entries Json) :
    entries.map (fillEntry ((key, default) :: defaults)) = entries.map (fillEntry defaults) := by
  refine List.map_congr_left fun e he => ?_
  have hne : ¬ key = e.1 := fun h => hkey (h ▸ List.mem_map_of_mem he)
  simp only [fillEntry, Entries.get?, if_neg hne]

/-- What has been filled under the first default stays so under the others. -/
theorem map_fillEntry_modify (hentries : entries.DistinctKeys)
    (hfree : defaults.get? key = none) (default : Json) :
    (entries.modify key (fill default)).map (fillEntry defaults) =
      entries.map (fillEntry ((key, default) :: defaults)) := by
  rw [hentries.modify_eq, List.map_map]
  refine List.map_congr_left fun e _ => ?_
  obtain ⟨k, w⟩ := e
  by_cases hk : k = key
  · subst hk
    simp [fillEntry, Entries.get?, hfree]
  · simp [fillEntry, Entries.get?, hk, Ne.symm hk]

/-- Filling an object fills its own entries and puts the others behind them. -/
theorem fillEntries_eq (hdefaults : defaults.DistinctKeys) (hentries : entries.DistinctKeys) :
    fillEntries defaults entries =
      entries.map (fillEntry defaults) ++ lacking defaults entries := by
  -- By the defaults in order; the entries change from one to the next, their keys differ still.
  induction defaults generalizing entries with
  | nil =>
      have hsame : entries.map (fillEntry []) = entries := List.map_id entries
      rw [fillEntries, hsame]
      exact (List.append_nil entries).symm
  | cons d rest ih =>
      obtain ⟨key, default⟩ := d
      obtain ⟨hnew, hrest⟩ := List.nodup_cons.mp hdefaults
      have hfree : Entries.get? key rest = none := Entries.get?_eq_none_iff.mpr hnew
      rw [fillEntries]
      cases hfound : Entries.get? key entries with
      | none =>
          have hkey : key ∉ entries.keys := Entries.get?_eq_none_iff.mp hfound
          have hlonger : (entries ++ [(key, default)]).DistinctKeys := by
            rw [← Entries.set_of_new hkey]
            exact hentries.set key default
          have hlacking : lacking rest (entries ++ [(key, default)]) = lacking rest entries := by
            refine lacking_of_keys fun k hk => ?_
            have hne : k ≠ key := fun h => hnew (h ▸ hk)
            simp [Entries.keys, hne]
          have hfirst : lacking ((key, default) :: rest) entries =
              (key, default) :: lacking rest entries := by
            simp [lacking, Entries.has, hfound]
          rw [ih hrest hlonger, hlacking, hfirst, map_fillEntry_of_new hkey, List.map_append,
            List.map_singleton, fillEntry_of_none hfree, List.append_assoc]
          rfl
      | some existing =>
          have hdistinct : (entries.modify key (fill default)).DistinctKeys := by
            rw [Entries.DistinctKeys, Entries.keys_modify]
            exact hentries
          have hlacking : lacking rest (entries.modify key (fill default)) =
              lacking rest entries := by
            refine lacking_of_keys fun k _ => ?_
            rw [Entries.keys_modify]
          have hfirst : lacking ((key, default) :: rest) entries = lacking rest entries := by
            simp [lacking, Entries.has, hfound]
          simp only [Entries.set_of_get? hfound]
          rw [ih hrest hdistinct, hlacking, hfirst, map_fillEntry_modify hentries hfree]

theorem fill_object (hdefaults : defaults.DistinctKeys) (hentries : entries.DistinctKeys) :
    fill (.object defaults) (.object entries) =
      .object (entries.map (fillEntry defaults) ++ lacking defaults entries) := by
  rw [fill, fillEntries_eq hdefaults hentries]

theorem fill_of_differ
    (h : ∀ defaults entries, default = .object defaults → value ≠ .object entries) :
    fill default value = value := by
  cases default <;> cases value <;> first | rfl | exact absurd rfl (h _ _ rfl)

/-! ## What is filled in -/

theorem filledEach_map (h : ∀ e ∈ entries, ∀ default, defaults.get? e.1 = some default →
      Filled default e.2 (fill default e.2)) :
    FilledEach defaults entries (entries.map (fillEntry defaults)) := by
  induction entries with
  | nil => exact .nil defaults
  | cons e rest ih =>
      obtain ⟨key, value⟩ := e
      obtain ⟨hfirst, hrest⟩ := List.forall_mem_cons.mp h
      rw [List.map_cons]
      cases hdefault : defaults.get? key with
      | none =>
          rw [fillEntry_of_none hdefault]
          exact .free hdefault (ih hrest)
      | some default =>
          rw [fillEntry_of_some hdefault]
          exact .faces hdefault (hfirst default hdefault) (ih hrest)

theorem filled_of_differ
    (h : ∀ defaults entries, default = .object defaults → value ≠ .object entries) :
    Filled default value (fill default value) := by
  rw [fill_of_differ h]
  exact .stays h

theorem filled_fill (hdefault : default.KeysOnce) (hvalue : value.KeysOnce) :
    Filled default value (fill default value) := by
  induction default using Json.induction_inside generalizing value with
  | null | bool | number | string | array =>
      exact filled_of_differ fun _ _ h => nomatch h
  | object defaults ih =>
      cases hvalue with
      | null | bool | number | string | array =>
          exact filled_of_differ fun _ _ _ h => nomatch h
      | @object entries hkeys hvalues =>
          cases hdefault with
          | object hdistinct hdefaults =>
              rw [fill_object hdistinct hkeys]
              refine .grows (filledEach_map fun e he d hd => ?_)
              have hmem := Entries.mem_of_get? hd
              exact ih _ hmem (hdefaults _ hmem) (hvalues e he)

/-- What is there and is no object is not touched by defaults. -/
theorem FilledEach.get?_of_solid (h : FilledEach defaults entries own)
    (hvalue : entries.get? key = some value) (hsolid : ∀ inner, value ≠ .object inner) :
    own.get? key = some value := by
  induction entries generalizing own with
  | nil => cases hvalue
  | cons e rest ih =>
      rw [Entries.get?.eq_def] at hvalue
      cases h with
      | free _ hrest =>
          simp only [Entries.get?] at hvalue ⊢
          split at hvalue
          · next hk => rw [if_pos hk, hvalue]
          · next hk => rw [if_neg hk, ih hrest hvalue]
      | faces _ hfills hrest =>
          simp only [Entries.get?] at hvalue ⊢
          split at hvalue
          · next hk =>
              injection hvalue with hvalue
              rw [if_pos hk]
              cases hfills with
              | stays => rw [hvalue]
              | grows => exact absurd hvalue.symm (hsolid _)
          · next hk => rw [if_neg hk, ih hrest hvalue]

/-! ## Filling again -/

theorem lacking_eq_nil (h : defaults.keys ⊆ entries.keys) : lacking defaults entries = [] := by
  refine List.filter_eq_nil_iff.mpr fun d hd => ?_
  have hmem := Entries.isSome_get?_iff.mpr (h (List.mem_map_of_mem hd))
  rw [Entries.has, hmem]
  exact Bool.false_ne_true

/-- A default that faces itself changes nothing. -/
theorem fill_self (h : default.KeysOnce) : fill default default = default := by
  induction default using Json.induction_inside with
  | null | bool | number | string | array => rfl
  | object defaults ih =>
      cases h with
      | object hkeys hvalues =>
          have hown : defaults.map (fillEntry defaults) = defaults := by
            refine (List.map_congr_left fun e he => ?_).trans defaults.map_id
            obtain ⟨key, value⟩ := e
            rw [fillEntry_of_some (hkeys.get?_of_mem he), ih _ he (hvalues _ he)]
            rfl
          rw [fill_object hkeys hkeys, hown, lacking_eq_nil (List.Subset.refl _), List.append_nil]

theorem keys_filled (defaults entries : Entries Json) :
    Entries.keys (entries.map (fillEntry defaults) ++ lacking defaults entries) =
      entries.keys ++ (lacking defaults entries).keys := by
  rw [Entries.keys, List.map_append]
  exact congrArg (· ++ _) (keys_map_fillEntry defaults entries)

/-- The defaults that an object lacks are new to it, so its keys still differ. -/
theorem distinctKeys_filled (hdefaults : defaults.DistinctKeys)
    (hentries : entries.DistinctKeys) :
    Entries.DistinctKeys (entries.map (fillEntry defaults) ++ lacking defaults entries) := by
  rw [Entries.DistinctKeys, keys_filled]
  refine hentries.append (hdefaults.sublist (List.filter_sublist.map _)) ?_
  intro key hkey hlacking
  obtain ⟨d, hd, rfl⟩ := List.mem_map.mp hlacking
  have hhas := (List.mem_filter.mp hd).2
  rw [Entries.has, Entries.isSome_get?_iff.mpr hkey] at hhas
  cases hhas

theorem keys_subset_filled (defaults entries : Entries Json) :
    defaults.keys ⊆
      Entries.keys (entries.map (fillEntry defaults) ++ lacking defaults entries) := by
  intro key hkey
  rw [keys_filled, List.mem_append]
  by_cases hown : key ∈ entries.keys
  · exact .inl hown
  · obtain ⟨d, hd, rfl⟩ := List.mem_map.mp hkey
    have hhas : entries.has d.1 = false := by
      rw [Entries.has, Entries.get?_eq_none_iff.mpr hown]
      rfl
    exact .inr (List.mem_map_of_mem (List.mem_filter.mpr ⟨hd, by rw [hhas]; rfl⟩))

/-- What has been filled once is full. -/
theorem fill_fill (hdefault : default.KeysOnce) (hvalue : value.KeysOnce) :
    fill default (fill default value) = fill default value := by
  induction default using Json.induction_inside generalizing value with
  | null | bool | number | string | array =>
      exact fill_of_differ fun _ _ h => nomatch h
  | object defaults ih =>
      cases hvalue with
      | null | bool | number | string | array => rfl
      | @object entries hkeys hvalues =>
          cases hdefault with
          | object hdistinct hdefaults =>
              -- an entry of the object itself has been filled before, and one that was
              -- lacking faces the default that it is
              have hown : (entries.map (fillEntry defaults)).map (fillEntry defaults) =
                  entries.map (fillEntry defaults) := by
                rw [List.map_map]
                refine List.map_congr_left fun e he => ?_
                obtain ⟨key, value⟩ := e
                rw [Function.comp_apply]
                cases hfound : Entries.get? key defaults with
                | none => rw [fillEntry_of_none hfound, fillEntry_of_none hfound]
                | some default =>
                    have hmem := Entries.mem_of_get? hfound
                    rw [fillEntry_of_some hfound, fillEntry_of_some hfound,
                      ih _ hmem (hdefaults _ hmem) (hvalues _ he)]
              have hlacking : (lacking defaults entries).map (fillEntry defaults) =
                  lacking defaults entries := by
                refine (List.map_congr_left fun e he => ?_).trans (List.map_id _)
                obtain ⟨key, default⟩ := e
                have hmem := (List.mem_filter.mp he).1
                rw [fillEntry_of_some (hdistinct.get?_of_mem hmem), fill_self (hdefaults _ hmem)]
                rfl
              rw [fill_object hdistinct hkeys,
                fill_object hdistinct (distinctKeys_filled hdistinct hkeys), List.map_append,
                hown, hlacking, lacking_eq_nil (keys_subset_filled defaults entries),
                List.append_nil]

/-! ## The stage -/

/-- A stage that fills its entries in. -/
structure FillsIn (stage defaults : Entries Json) : Prop where
  operation : stage.get? "operation" = some (.string "default")
  spec : stage.get? "spec" = some (.object defaults)

theorem FillsIn.compileStage_eq {stage : Entries Json} (h : FillsIn stage defaults) :
    compileStage (.object stage) = .ok (.default defaults) := by
  simp only [compileStage, h.operation, h.spec]
  rfl

/-- Defaults leave an object all it has and add all it lacks, at every depth; once they
are filled in there is nothing left to add. Without a document they are the document, and
what is no object they leave alone. -/
theorem defaults_only_add {stage : Entries Json} (h : FillsIn stage defaults)
    (hdefaults : (Json.object defaults).KeysOnce) :
    ∃ compiled, compileStage (.object stage) = .ok compiled ∧
      (∀ entries : Entries Json, (Json.object entries).KeysOnce →
        ∃ own : Entries Json, FilledEach defaults entries own ∧
          compiled.apply (.object entries) = some (.object (own ++ lacking defaults entries)) ∧
          (∀ key value, entries.get? key = some value → (∀ inner, value ≠ .object inner) →
            (own ++ lacking defaults entries).get? key = some value) ∧
          compiled.apply (.object (own ++ lacking defaults entries)) =
            some (.object (own ++ lacking defaults entries))) ∧
      compiled.apply .null = some (.object defaults) ∧
      compiled.apply (.object defaults) = some (.object defaults) ∧
      ∀ doc : Json, doc ≠ .null → (∀ entries, doc ≠ .object entries) →
        compiled.apply doc = some doc := by
  refine ⟨.default defaults, h.compileStage_eq, fun entries hentries => ?_, rfl, ?_, ?_⟩
  · have hagain := fill_fill hdefaults hentries
    cases hdefaults with
    | object hdistinct hdefaults =>
        cases hentries with
        | object hkeys hvalues =>
            have heach : FilledEach defaults entries (entries.map (fillEntry defaults)) := by
              refine filledEach_map fun e he default hdefault => ?_
              exact filled_fill (hdefaults _ (Entries.mem_of_get? hdefault)) (hvalues e he)
            rw [fill_object hdistinct hkeys, fill] at hagain
            refine ⟨_, heach, ?_, fun key value hvalue hsolid => ?_, congrArg some hagain⟩
            · rw [Stage.apply, fillEntries_eq hdistinct hkeys]
            · exact Entries.get?_append_left (heach.get?_of_solid hvalue hsolid) _
  · exact congrArg some (fill_self hdefaults)
  · intro doc hnull hobject
    cases doc with
    | null => exact absurd rfl hnull
    | object entries => exact absurd rfl (hobject entries)
    | bool | number | string | array => rfl

def shopDefaults : Entries Json :=
  [("currency", .string "EUR"),
    ("payer", .object [("country", .string "de"), ("card", .string "none")]),
    ("items", .array [])]

def shopStage : Entries Json :=
  [("operation", .string "default"), ("spec", .object shopDefaults)]

/-- An order with a payer that lacks a country and has no card on purpose. -/
def barePayer : Entries Json :=
  [("payer", .object [("card", .null), ("name", .string "A")]),
    ("id", .number (.integer 1)), ("currency", .null)]

/-- The payer gets a country and the order its items, and nothing is added again. -/
theorem payer_filled :
    FillsIn shopStage shopDefaults ∧ (Json.object shopDefaults).KeysOnce ∧
      (Json.object barePayer).KeysOnce ∧ ∃ compiled full,
        compileStage (.object shopStage) = .ok compiled ∧
        full = .object
          [("payer", .object [("card", .null), ("name", .string "A"), ("country", .string "de")]),
            ("id", .number (.integer 1)), ("currency", .null), ("items", .array [])] ∧
        compiled.apply (.object barePayer) = some full ∧ compiled.apply full = some full := by
  have hfills : FillsIn shopStage shopDefaults := ⟨rfl, rfl⟩
  have hdefaults : (Json.object shopDefaults).KeysOnce := by decide +kernel
  have hpayer : (Json.object barePayer).KeysOnce := by decide +kernel
  obtain ⟨compiled, hcompiled, hobjects, _⟩ := defaults_only_add hfills hdefaults
  obtain ⟨own, _, happly, _, hagain⟩ := hobjects barePayer hpayer
  have hstage : compiled = .default shopDefaults := by
    rw [hfills.compileStage_eq] at hcompiled
    injection hcompiled with hcompiled
    exact hcompiled.symm
  refine ⟨hfills, hdefaults, hpayer, compiled, _, hcompiled, ?_, happly, hagain⟩
  rw [hstage] at happly
  exact (Option.some.inj happly).symm

end Spec

end MessageBridge
