import MessageBridge.Proofs.Settings.Leaves
import Mathlib.Data.List.Infix

/-!
# The last layer that sets a key decides

Settings that could be loaded have in every field the value that the last of their sources
gives for it, converted: the defaults, a file, an extra file and the variables, in this
order. The sources only have to leave the sections alone, that is, to give nothing but
tables for them.

It follows that a source says nothing about what it does not give, and that without a file
or a variable the sources that are left decide, in the same way.
-/

namespace MessageBridge.Settings

/-- What a source gives on the way to a setting is a table. -/
def KeepsSections (source : Entries Value) : Prop :=
  ∀ leaf ∈ leaves, Value.Open (gives? source) leaf.path

instance (gives : List String → Option Value) (path : List String) :
    Decidable (Value.Open gives path) :=
  decidable_of_iff (∀ outer ∈ path.inits, outer ≠ path → (gives outer).isNone = true) <| by
    simp only [Value.Open, List.mem_inits, Option.isNone_iff_eq_none]

instance (source : Entries Value) : Decidable (KeepsSections source) :=
  inferInstanceAs (Decidable (∀ leaf ∈ leaves, Value.Open (gives? source) leaf.path))

/-- The source under all others. -/
def defaults : Entries Value :=
  (Value.ofJson (toJson {})).entries

/-- In every field is what the last source gives for it, the defaults being the first. -/
def FromLast (sources : List (Entries Value)) (s : Settings) : Prop :=
  ∀ leaf ∈ leaves, leaf.read (lastGiven? (defaults :: sources) leaf.path) = some (leaf.get s)

/-! ## Sources that are read -/

theorem keepsSections_defaults : KeepsSections defaults := by
  decide +kernel

theorem gives?_defaults : ∀ leaf ∈ leaves, leaf.absent.isNone = true →
    (gives? defaults leaf.path).isSome = true := by
  decide +kernel

theorem path_ne_nil : ∀ leaf ∈ leaves, leaf.path ≠ [] := by
  decide

/-- What sources are merged to is read as what the last of them gives. -/
theorem fromLast_of_read {sources : List (Entries Value)} {s : Settings}
    (hsections : ∀ source ∈ sources, KeepsSections source)
    (h : read Value.reading (merged (defaults :: sources)) = some s) : FromLast sources s := by
  have hall : ∀ source ∈ defaults :: sources, KeepsSections source :=
    List.forall_mem_cons.mpr ⟨keepsSections_defaults, hsections⟩
  have hholds : ∀ leaf ∈ leaves, Value.Holds (lastGiven? (defaults :: sources) leaf.path)
      ((merged (defaults :: sources)).at? leaf.path) := fun leaf hleaf =>
    holds_merged (fun source hsource => hall source hsource leaf hleaf) (path_ne_nil leaf hleaf)
  have hstands : ∀ leaf ∈ leaves, leaf.Stands (merged (defaults :: sources)) := by
    intro leaf hleaf habsent
    have hgiven := gives?_defaults leaf hleaf (Option.isNone_iff_eq_none.mpr habsent)
    rcases hholds leaf hleaf with hsame | ⟨value, hvalue, _⟩
    · rw [hsame, lastGiven?, lastOf_cons, Option.isSome_or, hgiven, Bool.or_true]
    · rw [hvalue, Option.isSome_some]
  obtain ⟨entries, hmerged⟩ := Value.exists_table (List.cons_ne_nil _ _)
    (hstands _ List.mem_cons_self rfl)
  rw [hmerged] at h hstands hholds
  intro leaf hleaf
  have hread := Settings.reads.leaf entries s h hstands leaf hleaf
  rcases hholds leaf hleaf with hsame | ⟨value, hvalue, hcontainer⟩
  · rwa [hsame] at hread
  · -- a table or an array is no setting, so these settings could not have been read
    have hnone : leaf.read (some value) = none :=
      Settings.reads.single leaf hleaf value hcontainer
    rw [hvalue, hnone] at hread
    cases hread

theorem FromLast.get_eq {sources sources' : List (Entries Value)} {s s' : Settings}
    (h : FromLast sources s) (h' : FromLast sources' s') {leaf : Leaf Settings}
    (hleaf : leaf ∈ leaves)
    (hsame : lastGiven? (defaults :: sources') leaf.path =
      lastGiven? (defaults :: sources) leaf.path) : leaf.get s' = leaf.get s := by
  have hread := h' leaf hleaf
  rw [hsame, h leaf hleaf] at hread
  exact (Option.some.inj hread).symm

theorem lastGiven?_of_silent {source : Entries Value} {path : List String}
    (h : gives? source path = none) (before after : List (Entries Value)) :
    lastGiven? (defaults :: (before ++ source :: after)) path =
      lastGiven? (defaults :: (before ++ after)) path :=
  lastOf_of_silent (gives? · path) h (defaults :: before) after

/-- An empty source decides nothing. -/
theorem FromLast.of_empty (before after : List (Entries Value)) {s : Settings}
    (h : FromLast (before ++ [] :: after) s) : FromLast (before ++ after) s := by
  intro leaf hleaf
  have hsilent : gives? [] leaf.path = none := rfl
  rw [← lastGiven?_of_silent hsilent]
  exact h leaf hleaf

/-- A source says nothing about the settings that it does not give. -/
theorem FromLast.get_eq_without (before after : List (Entries Value)) {source : Entries Value}
    {s s' : Settings} (h : FromLast (before ++ source :: after) s)
    (h' : FromLast (before ++ after) s') :
    ∀ leaf ∈ leaves, gives? source leaf.path = none → leaf.get s' = leaf.get s :=
  fun _ hleaf hsilent => h.get_eq h' hleaf (lastGiven?_of_silent hsilent before after).symm

/-! ## Loading -/

theorem loadWith?_of_layers {readers : Readers} {folder : Folder} {path extra : Option String}
    {main added : Entries Value} (hmain : mainLayer? readers folder path = some main)
    (hadded : extraLayer? readers folder extra = some added) (env : Entries String) :
    loadWith? readers folder path extra env =
      read Value.reading (merged (defaults :: [main, added, variableLayer env])) := by
  rw [loadWith?, hmain, hadded]
  rfl

theorem keepsSections_nil : KeepsSections [] :=
  fun _ _ _ _ _ => rfl

/-- Part of a source leaves the sections alone as the whole source does. -/
theorem KeepsSections.mono {source part : Entries Value} (h : KeepsSections source)
    (hpart : part ⊆ source) : KeepsSections part :=
  fun leaf hleaf outer hprefix hne => lastOf_eq_none_iff.mpr fun entry hentry =>
    lastOf_eq_none_iff.mp (h leaf hleaf outer hprefix hne) entry (hpart hentry)

theorem variableLayer_append (before after : Entries String) :
    variableLayer (before ++ after) = variableLayer before ++ variableLayer after :=
  List.filterMap_append ..

theorem variableLayer_subset {before after : Entries String} (name text : String) :
    variableLayer (before ++ after) ⊆ variableLayer (before ++ (name, text) :: after) := by
  intro entry hentry
  obtain ⟨x, hx, hentry⟩ := List.mem_filterMap.mp hentry
  exact List.mem_filterMap.mpr
    ⟨x, (List.sublist_cons_self _ _).append_left before |>.subset hx, hentry⟩

/-- A variable says nothing about the settings that it does not give. -/
theorem gives?_variableLayer_of_silent {name text : String} {path : List String}
    (h : gives? (variableLayer [(name, text)]) path = none)
    (before after : Entries String) :
    gives? (variableLayer (before ++ after)) path =
      gives? (variableLayer (before ++ (name, text) :: after)) path := by
  rw [← List.singleton_append, variableLayer_append, variableLayer_append,
    variableLayer_append [(name, text)], gives?, gives?, lastOf_append, lastOf_append,
    lastOf_append]
  rw [gives?] at h
  rw [h, Option.or_none]

/-- Whatever reads the files: settings that are loaded have in every field what the last
source gives for it. Without the main file, without the extra file and without a variable it
is what the last of the other sources gives, and the same as before where the missing one
gives nothing. -/
theorem last_source_decides (readers : Readers) (folder : Folder) (path extra : Option String)
    (env : Entries String) {main added : Entries Value} {s : Settings}
    (hmain : mainLayer? readers folder path = some main)
    (hadded : extraLayer? readers folder extra = some added)
    (hsections : ∀ source ∈ [main, added, variableLayer env], KeepsSections source)
    (h : loadWith? readers folder path extra env = some s) :
    FromLast [main, added, variableLayer env] s ∧
      (∀ folder' path', mainLayer? readers folder' path' = some [] →
        extraLayer? readers folder' extra = some added →
        ∀ s', loadWith? readers folder' path' extra env = some s' →
          FromLast [added, variableLayer env] s' ∧
          ∀ leaf ∈ leaves, gives? main leaf.path = none → leaf.get s' = leaf.get s) ∧
      (∀ folder' extra', mainLayer? readers folder' path = some main →
        extraLayer? readers folder' extra' = some [] →
        ∀ s', loadWith? readers folder' path extra' env = some s' →
          FromLast [main, variableLayer env] s' ∧
          ∀ leaf ∈ leaves, gives? added leaf.path = none → leaf.get s' = leaf.get s) ∧
      ∀ before name text after, env = before ++ (name, text) :: after →
        ∀ s', loadWith? readers folder path extra (before ++ after) = some s' →
          FromLast [main, added, variableLayer (before ++ after)] s' ∧
          ∀ leaf ∈ leaves, gives? (variableLayer [(name, text)]) leaf.path = none →
            leaf.get s' = leaf.get s := by
  obtain ⟨hkmain, hkadded, hkenv, -⟩ : KeepsSections main ∧ KeepsSections added ∧
      KeepsSections (variableLayer env) ∧ _ := by
    simpa only [List.forall_mem_cons] using hsections
  rw [loadWith?_of_layers hmain hadded] at h
  have hlast := fromLast_of_read hsections h
  refine ⟨hlast, ?_, ?_, ?_⟩
  · intro folder' path' hmain' hadded' s' h'
    rw [loadWith?_of_layers hmain' hadded'] at h'
    have hbelow : FromLast [added, variableLayer env] s' := by
      refine FromLast.of_empty [] _ (fromLast_of_read ?_ h')
      simpa [keepsSections_nil] using ⟨hkadded, hkenv⟩
    exact ⟨hbelow, hlast.get_eq_without [] _ hbelow⟩
  · intro folder' extra' hmain' hadded' s' h'
    rw [loadWith?_of_layers hmain' hadded'] at h'
    have hbelow : FromLast [main, variableLayer env] s' := by
      refine FromLast.of_empty [main] _ (fromLast_of_read ?_ h')
      simpa [keepsSections_nil] using ⟨hkmain, hkenv⟩
    exact ⟨hbelow, hlast.get_eq_without [main] _ hbelow⟩
  · rintro before name text after rfl s' h'
    rw [loadWith?_of_layers hmain hadded] at h'
    have hbelow : FromLast [main, added, variableLayer (before ++ after)] s' := by
      refine fromLast_of_read ?_ h'
      simpa using ⟨hkmain, hkadded, hkenv.mono (variableLayer_subset name text)⟩
    refine ⟨hbelow, fun leaf hleaf hsilent => hlast.get_eq hbelow hleaf ?_⟩
    have hsame := gives?_variableLayer_of_silent hsilent before after
    simp only [lastGiven?, lastOf_cons, hsame]

/-- Where a document in YAML is written like one in JSON, it is read like that. -/
def flowReaders : Readers where
  read? format := Readers.own.read? (if format = .yaml then .json else format)

/-- The extra file has the last word on the pause and the variable on the number of
messages; without the extra file the pause is that of the main file. -/
theorem pause_from_extra_file :
    let folder : Folder :=
      [("bridge.json", "\x7b\"poller\":\x7b\"fixed_delay\":\"50ms\"\x7d\x7d".toUTF8),
        ("extra.yaml", "\x7b\"poller\": \x7b\"fixed_delay\": \"5ms\"\x7d\x7d".toUTF8)]
    let env := [("BRIDGE__POLLER__MAX_MESSAGES", "5")]
    ∃ main added, mainLayer? flowReaders folder (some "bridge") = some main ∧
      extraLayer? flowReaders folder (some "extra.yaml") = some added ∧
      (∀ source ∈ [main, added, variableLayer env], KeepsSections source) ∧
      loadWith? flowReaders folder (some "bridge") (some "extra.yaml") env =
        some { poller := { fixedDelay := .ofMillis 5, maxMessages := 5 } } ∧
      FromLast [main, added, variableLayer env]
        { poller := { fixedDelay := .ofMillis 5, maxMessages := 5 } } ∧
      ∀ s', loadWith? flowReaders folder (some "bridge") none env = some s' →
        FromLast [main, variableLayer env] s' := by
  intro folder env
  obtain ⟨main, hmain⟩ : ∃ main, mainLayer? flowReaders folder (some "bridge") = some main :=
    Option.isSome_iff_exists.mp (by decide +kernel)
  obtain ⟨added, hadded⟩ : ∃ added,
      extraLayer? flowReaders folder (some "extra.yaml") = some added :=
    Option.isSome_iff_exists.mp (by decide +kernel)
  have hkmain : (mainLayer? flowReaders folder (some "bridge")).all
      (fun main => decide (KeepsSections main)) = true := by decide +kernel
  have hkadded : (extraLayer? flowReaders folder (some "extra.yaml")).all
      (fun added => decide (KeepsSections added)) = true := by decide +kernel
  rw [hmain] at hkmain
  rw [hadded] at hkadded
  have hkenv : KeepsSections (variableLayer env) := by decide +kernel
  have hsections : ∀ source ∈ [main, added, variableLayer env], KeepsSections source := by
    simpa using ⟨of_decide_eq_true hkmain, of_decide_eq_true hkadded, hkenv⟩
  have hload : loadWith? flowReaders folder (some "bridge") (some "extra.yaml") env =
      some { poller := { fixedDelay := .ofMillis 5, maxMessages := 5 } } := by
    decide +kernel
  have hlast := last_source_decides flowReaders folder _ _ env hmain hadded hsections hload
  exact ⟨main, added, hmain, hadded, hsections, hload, hlast.1,
    fun s' h' => (hlast.2.2.1 folder none hmain rfl s' h').1⟩

/-- What the last of several sources has at a path, be it a table, of those that have
anything there. -/
def lastHeld? (sources : List (Entries Value)) (path : List String) : Option Value :=
  lastOf (fun source => (merged [source]).at? path) sources

/-- A table that is empty decides nothing: it may be what the last source has for a
setting, and nothing converts a table, but the default is taken. -/
theorem empty_table_sets_nothing :
    ¬ ∀ (readers : Readers) (folder : Folder) (path extra : Option String) (env : Entries String)
        (main added : Entries Value) (s : Settings),
        mainLayer? readers folder path = some main →
        extraLayer? readers folder extra = some added →
        (∀ source ∈ [main, added, variableLayer env], KeepsSections source) →
        loadWith? readers folder path extra env = some s →
        ∀ leaf ∈ leaves,
          leaf.read (lastHeld? (defaults :: [main, added, variableLayer env]) leaf.path) =
            some (leaf.get s) := by
  intro hall
  let folder : Folder :=
    [("a.json", "\x7b\"poller\":\x7b\"max_messages\":\x7b\x7d\x7d\x7d".toUTF8)]
  obtain ⟨main, hmain⟩ : ∃ main, mainLayer? .own folder (some "a.json") = some main :=
    Option.isSome_iff_exists.mp (by decide +kernel)
  have hmessages : (mainLayer? .own folder (some "a.json")).all (fun main =>
      decide (KeepsSections main ∧
        (lastHeld? [defaults, main, [], []] ["poller", "max_messages"]).elim none
          (Value.natural? Word.largest) = none)) = true := by
    decide +kernel
  rw [hmain] at hmessages
  obtain ⟨hsections, hnone⟩ := of_decide_eq_true hmessages
  have hload : loadWith? .own folder (some "a.json") none [] = some {} := by decide +kernel
  have hlast := hall .own folder (some "a.json") none [] main [] {} hmain rfl
    (by simpa using ⟨hsections, keepsSections_nil, keepsSections_nil⟩) hload
  have hten : (lastHeld? [defaults, main, [], []] ["poller", "max_messages"]).elim
      none (Value.natural? Word.largest) = some 10 :=
    hlast (leaves.get ⟨8, by decide⟩) (List.get_mem ..)
  rw [hnone] at hten
  cases hten

end MessageBridge.Settings
