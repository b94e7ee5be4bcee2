import MessageBridge.Proofs.Entries
import MessageBridge.Proofs.Settings.Names

/-!
# Settings are merged key by key

What several sources say is put together in one value. A source is a list of keys with
their values, and a value may be a table with more of them. `given?` tells what a source
gives at a path of keys, without putting anything together: the tables are on the way to
what is given and are never given themselves.

Whatever the sources are, at a path stands what the last of them gave there that gave
anything. Two things can come in the way. A source may put something else where the path
goes through a table, and with this table goes all that was given in it; the theorems
below exclude that. And it may put a table or an array where the path ends. Nobody reads
one of them as a setting, and so the settings are refused as long as it stays. So of every
path it is shown that what was given last `Holds` there, or else a table or an array is in
its place.

The entries of a table, the entries of a source and the sources themselves are all put
in one after the other, and `holds_foldl` says once what follows from that.
-/

namespace MessageBridge.Settings

section

variable {α β : Type}

/-- What the last of several items gives, of those that give anything. -/
def lastOf (gives : α → Option β) (items : List α) : Option β :=
  items.reverse.findSome? gives

variable {gives : α → Option β} {item : α} {items : List α}

theorem lastOf_cons (gives : α → Option β) (item : α) (items : List α) :
    lastOf gives (item :: items) = (lastOf gives items).or (gives item) := by
  rw [lastOf, lastOf, List.reverse_cons, List.findSome?_append, List.findSome?_singleton]

theorem lastOf_append (gives : α → Option β) (items later : List α) :
    lastOf gives (items ++ later) = (lastOf gives later).or (lastOf gives items) := by
  rw [lastOf, List.reverse_append, List.findSome?_append]
  rfl

theorem lastOf_eq_none_iff : lastOf gives items = none ↔ ∀ item ∈ items, gives item = none := by
  simp only [lastOf, List.findSome?_eq_none_iff, List.mem_reverse]

/-- What gives nothing might as well not be there. -/
theorem lastOf_of_silent (gives : α → Option β) (h : gives item = none) (before after : List α) :
    lastOf gives (before ++ item :: after) = lastOf gives (before ++ after) := by
  rw [lastOf_append, lastOf_append, lastOf_cons, h, Option.or_none]

end

namespace Value

def isTable : Value → Bool
  | table _ => true
  | _ => false

theorem isTable_iff {value : Value} : value.isTable = true ↔ ∃ entries, value = table entries := by
  cases value <;> simp [isTable]

/-- What stands at a path of keys. -/
def at? (value : Value) : List String → Option Value
  | [] => some value
  | key :: path => (Entries.get? key value.entries).bind (at? · path)

/-- What is given at a path of keys. The keys of tables are compared in lower case, and
where several are the same in lower case the last one counts that gives anything. -/
def given? (value : Value) : List String → Option Value
  | [] => if value.isTable then none else some value
  | key :: path =>
    lastOf (fun (entry : String × Value) =>
      if lowerKey entry.1 = key then given? entry.2 path else none) value.entries

/-- What is given at a path by a value that is set along some steps. Nothing is given within
an array: where the steps go on to an item, what is given is an array, whatever is in it. -/
def givenAlong? : List Step → Value → List String → Option Value
  | [], value, path => value.given? path
  | .item _ :: _, _, path => (array []).given? path
  | .key _ :: _, _, [] => none
  | .key name :: steps, value, key :: path =>
    if name = key then givenAlong? steps value path else none

theorem givenAlong?_cons (name : String) (steps : List Step) (value : Value) (key : String)
    (path : List String) : givenAlong? (.key name :: steps) value (key :: path) =
      if name = key then givenAlong? steps value path else none := by
  rw [givenAlong?]

@[simp] theorem givenAlong?_nil (value : Value) (path : List String) :
    givenAlong? [] value path = value.given? path := by
  rw [givenAlong?]

/-- What is given in a table is given by one of its entries. -/
theorem given?_table (entries : List (String × Value)) (path : List String) :
    (table entries).given? path =
      lastOf (fun (entry : String × Value) =>
        givenAlong? [.key (lowerKey entry.1)] entry.2 path) entries := by
  cases path with
  | nil => exact (lastOf_eq_none_iff.mpr fun _ _ => rfl).symm
  | cons key path => simp only [given?, givenAlong?_cons, givenAlong?_nil, Value.entries]

/-! ## What holds at a path -/

def isContainer : Value → Bool
  | table _ | array _ => true
  | _ => false

/-- At a path stands what was given there last, or a table or an array in its place. -/
def Holds (given : Option Value) (stands : Option Value) : Prop :=
  stands = given ∨ ∃ value, stands = some value ∧ value.isContainer = true

/-- Nothing is given on the way to a path. -/
def Open (gives : List String → Option Value) (path : List String) : Prop :=
  ∀ outer, outer <+: path → outer ≠ path → gives outer = none

theorem Open.of_cons {gives inner : List String → Option Value} {key : String}
    {path : List String} (h : Open gives (key :: path))
    (hinner : ∀ outer, gives (key :: outer) = inner outer) : Open inner path := by
  intro outer hprefix hne
  rw [← hinner]
  exact h (key :: outer) ((List.prefix_cons_inj key).mpr hprefix) (by simpa using hne)

/-- Where each item leaves standing at a path what it gives there, or else what held
before, all of them leave standing what the last of them gives. -/
theorem holds_foldl {α : Type} {put : Value → α → Value}
    {gives : α → List String → Option Value} {path : List String}
    (hput : ∀ item target given, Open (gives item) path → Holds given (target.at? path) →
      Holds ((gives item path).or given) ((put target item).at? path))
    (items : List α) {target : Value} {given : Option Value}
    (hopen : ∀ item ∈ items, Open (gives item) path) (h : Holds given (target.at? path)) :
    Holds ((lastOf (gives · path) items).or given) ((items.foldl put target).at? path) := by
  induction items generalizing target given with
  | nil => exact h
  | cons item items ih =>
      rw [List.foldl_cons, lastOf_cons, Option.or_assoc]
      have hitem := hopen item List.mem_cons_self
      exact ih (fun x hx => hopen x (List.mem_cons_of_mem _ hx)) (hput item target given hitem h)

/-! ## Setting one key -/

/-- What comes to stand where a value is put over what is there. -/
def laidOver (value : Value) (existing : Option Value) : Value :=
  match value with
  | table incoming => mergeEntries incoming (existing.getD (table []))
  | other => other

theorem laidOver_of_not_table {value : Value} (h : value.isTable = false)
    (existing : Option Value) : value.laidOver existing = value := by
  cases value with
  | table => cases h
  | _ => rfl

theorem set_eq (key : String) (value target : Value) :
    set key value target = table (Entries.set (lowerKey key)
      (value.laidOver (Entries.get? (lowerKey key) target.entries)) target.entries) := by
  cases value <;> simp only [set, laidOver]

theorem mergeEntries_eq_foldl (incoming : List (String × Value)) (target : Value) :
    mergeEntries incoming target =
      incoming.foldl (fun target entry => set entry.1 entry.2 target) target := by
  induction incoming generalizing target with
  | nil => simp only [mergeEntries, List.foldl_nil]
  | cons entry rest ih =>
      obtain ⟨key, value⟩ := entry
      rw [mergeEntries, ih, List.foldl_cons]

theorem at?_table_set (key k : String) (value : Value) (entries : List (String × Value))
    (path : List String) : (table (Entries.set key value entries)).at? (k :: path) =
      if k = key then value.at? path else (table entries).at? (k :: path) := by
  simp only [at?, Value.entries, Entries.get?_set]
  split <;> rfl

/-- Where there is no value an empty table may as well be. -/
theorem holds_getD {given : Option Value} {existing : Option Value} {path : List String}
    (h : Holds given (existing.bind (·.at? path))) :
    Holds given ((existing.getD (table [])).at? path) := by
  cases existing with
  | some value => exact h
  | none =>
      cases path with
      | nil => exact .inr ⟨table [], rfl, rfl⟩
      | cons key path => exact h

/-- Where nothing but tables is given on the way, none of the entries of a table gives
anything there either. -/
theorem open_of_table {entries : List (String × Value)} {path : List String}
    (h : Open (table entries).given? path) :
    ∀ entry ∈ entries, Open (givenAlong? [.key (lowerKey entry.1)] entry.2) path := by
  intro entry hentry outer hprefix hne
  have houter := h outer hprefix hne
  rw [given?_table] at houter
  exact lastOf_eq_none_iff.mp houter entry hentry

/-- Setting a key leaves standing what its value gives, and what held before where it gives
nothing. -/
theorem holds_set (path : List String) (key : String) (value target : Value)
    {given : Option Value} (hopen : Open (givenAlong? [.key (lowerKey key)] value) path)
    (h : Holds given (target.at? path)) :
    Holds ((givenAlong? [.key (lowerKey key)] value path).or given)
      ((set key value target).at? path) := by
  induction path generalizing key value target given with
  | nil =>
      rw [set_eq]
      exact .inr ⟨_, rfl, rfl⟩
  | cons k rest ih =>
      rw [set_eq, at?_table_set, givenAlong?_cons, givenAlong?_nil]
      by_cases hkey : lowerKey key = k
      case neg =>
        rw [if_neg (Ne.symm hkey), if_neg hkey]
        exact h
      subst hkey
      rw [if_pos rfl, if_pos rfl]
      have hinner : Open value.given? rest := hopen.of_cons fun outer => by
        rw [givenAlong?_cons, if_pos rfl, givenAlong?_nil]
      cases hvalue : value.isTable with
      | true =>
          obtain ⟨incoming, rfl⟩ := isTable_iff.mp hvalue
          rw [laidOver, mergeEntries_eq_foldl, given?_table]
          exact holds_foldl (fun entry target _ hopen h => ih entry.1 entry.2 target hopen h)
            incoming (open_of_table hinner) (holds_getD h)
      | false =>
          -- a value that is no table is given here, so the path has to end here
          have hgiven : value.given? [] = some value := by simp [given?, hvalue]
          obtain rfl : rest = [] := by
            by_contra hrest
            exact absurd (hinner [] List.nil_prefix (Ne.symm hrest)) (by simp [hgiven])
          rw [hgiven, Option.some_or, laidOver_of_not_table hvalue]
          exact .inl rfl

/-! ## Setting what lies at the end of some steps -/

theorem setPath_null {steps : List Step} (hsteps : steps ≠ []) (value : Value) :
    setPath steps value null = setPath steps value (table []) := by
  rcases steps with _ | ⟨name | number, _ | ⟨step, rest⟩⟩
  case nil => exact absurd rfl hsteps
  case cons.key.nil => rw [setPath, setPath, set_eq, set_eq]; rfl
  all_goals rfl

theorem setPath_cons {name : String} {steps : List Step} (hsteps : steps ≠ [])
    (value target : Value) : setPath (.key name :: steps) value target =
      table (Entries.set name
        (setPath steps value ((Entries.get? name target.entries).getD (table [])))
        target.entries) := by
  rw [setPath]
  · cases Entries.get? name target.entries with
    | none => rw [Option.getD_none, Option.getD_none, setPath_null hsteps]
    | some => rfl
  · exact hsteps

/-- Setting something along steps leaves standing what is given at a path, and what held
before where nothing is given. -/
theorem holds_setPath {steps : List Step} (hsteps : steps ≠ [])
    (hlow : ∀ name, .key name ∈ steps → lowerKey name = name) (value target : Value)
    {path : List String} {given : Option Value} (hopen : Open (givenAlong? steps value) path)
    (h : Holds given (target.at? path)) :
    Holds ((givenAlong? steps value path).or given) ((setPath steps value target).at? path) := by
  induction steps generalizing target path given with
  | nil => exact absurd rfl hsteps
  | cons step steps ih =>
      cases step with
      | item number =>
          -- what is in an array stands at no path of keys, so the path has to end here
          have hgiven : givenAlong? (.item number :: steps) value [] = some (array []) := by
            simp [givenAlong?, given?, isTable]
          obtain rfl : path = [] := by
            by_contra hpath
            exact absurd (hopen [] List.nil_prefix (Ne.symm hpath)) (by simp [hgiven])
          exact .inr ⟨_, rfl, by simp [setPath, isContainer]⟩
      | key name =>
          by_cases hlast : steps = []
          · subst hlast
            have hset := @holds_set path name value target given
            rw [hlow name List.mem_cons_self] at hset
            exact hset hopen h
          rw [setPath_cons hlast]
          cases path with
          | nil => exact .inr ⟨_, rfl, rfl⟩
          | cons k rest =>
              rw [at?_table_set, givenAlong?_cons]
              by_cases hkey : name = k
              · subst hkey
                rw [if_pos rfl, if_pos rfl]
                have hinner : Open (givenAlong? steps value) rest :=
                  hopen.of_cons fun outer => by rw [givenAlong?_cons, if_pos rfl]
                exact ih hlast (fun n hn => hlow n (List.mem_cons_of_mem _ hn)) _ hinner
                  (holds_getD h)
              · rw [if_neg (Ne.symm hkey), if_neg hkey]
                exact h

end Value

/-! ## Sources over one another -/

/-- What a source gives at a path. -/
def gives? (source : Entries Value) (path : List String) : Option Value :=
  lastOf (fun (entry : String × Value) =>
    Value.givenAlong? (keyPath entry.1) entry.2 path) source

/-- What the last of several sources gives at a path, of those that give anything. -/
def lastGiven? (sources : List (Entries Value)) (path : List String) : Option Value :=
  lastOf (gives? · path) sources

/-- Sources put together, each over those before it. -/
def merged (sources : List (Entries Value)) : Value :=
  sources.foldl (fun target source => overlay source target) (.table [])

theorem holds_overlay (source : Entries Value) (target : Value) {path : List String}
    {given : Option Value} (hopen : Value.Open (gives? source) path)
    (h : Value.Holds given (target.at? path)) :
    Value.Holds ((gives? source path).or given) ((overlay source target).at? path) := by
  have hput : ∀ (entry : String × Value) target given,
      Value.Open (Value.givenAlong? (keyPath entry.1) entry.2) path →
      Value.Holds given (target.at? path) →
      Value.Holds ((Value.givenAlong? (keyPath entry.1) entry.2 path).or given)
        ((Value.setPath (keyPath entry.1) entry.2 target).at? path) :=
    fun entry target _ hopen h => Value.holds_setPath (keyPath_ne_nil entry.1)
      (fun _ hname => lowerKey_of_mem_keyPath hname) entry.2 target hopen h
  exact Value.holds_foldl hput source (fun entry hentry outer hprefix hne =>
    lastOf_eq_none_iff.mp (hopen outer hprefix hne) entry hentry) h

/-- In what sources are merged to stands what the last of them gives. -/
theorem holds_merged {sources : List (Entries Value)} {path : List String}
    (hopen : ∀ source ∈ sources, Value.Open (gives? source) path) (hpath : path ≠ []) :
    Value.Holds (lastGiven? sources path) ((merged sources).at? path) := by
  have hempty : Value.Holds none ((Value.table []).at? path) := by
    cases path with
    | nil => exact absurd rfl hpath
    | cons => exact .inl rfl
  have hmerged := Value.holds_foldl (fun source target _ hopen h =>
    holds_overlay source target hopen h) sources hopen hempty
  rwa [Option.or_none] at hmerged

end MessageBridge.Settings
